/-
# Omemfs.Sync.Conflict — which remote changes are in conflict with local ones.

`classifyConflicts` compares the diff of the remote with the diff of the working tree key by key.  A
large new directory is one key of the remote diff, so local changes below it are looked for by prefix;
those inside a `.git` directory right below it are let through.

Where nothing is reported the clean changes, applied to the paths of the working tree, give at each path
the remote's value where the remote changed it and the working tree's elsewhere (`applied_eq`).  A file
or symlink above another can come of it only where one is the remote's and the other the working tree's.
-/
import Omemfs.Sync.Apply

namespace Omemfs.Sync

open Omemfs Lib

/-! ## The comparison -/

/-- The key lies below the new tree, and not in a `.git` directory right below it. -/
def isLocalChangeUnderAddedTree : Path → Path → Bool
  | [], n :: _ => n != ".git"
  | [], [] => false
  | a :: tree, b :: path => a == b && isLocalChangeUnderAddedTree tree path
  | _ :: _, [] => false

def sameContent : DiffEntry → DiffEntry → Bool
  | .added a, .added b | .added a, .modified b | .modified a, .added b | .modified a, .modified b =>
      a.hash == b.hash
  | .deleted, .deleted => true
  | .addedEmptyDir, .addedEmptyDir => true
  | .symlink a _, .symlink b _ => a.target == b.target
  | _, _ => false

def DiffEntry.isAddedTree : DiffEntry → Bool
  | .addedTree _ _ => true
  | _ => false

def isConflict (localDiff : DiffMap) (path : Path) (remoteEntry : DiffEntry) : Bool :=
  match localDiff.get path with
  | some localEntry => !sameContent remoteEntry localEntry
  | none =>
      remoteEntry.isAddedTree &&
        localDiff.pairs.any fun x => isLocalChangeUnderAddedTree path x.1

/-- The loop over the remote diff, in any order; the conflicts are sorted when they are shown. -/
def classifyConflicts (localDiff : DiffMap) : List (Path × DiffEntry) → DiffMap × List Path →
    DiffMap × List Path
  | [], acc => acc
  | (path, remoteEntry) :: rest, (clean, conflicts) =>
      classifyConflicts localDiff rest
        (if isConflict localDiff path remoteEntry then (clean, conflicts ++ [path])
          else (clean.insert path remoteEntry, conflicts))

theorem isLocalChangeUnderAddedTree_iff {tree path : Path} :
    isLocalChangeUnderAddedTree tree path = true ↔ ∃ n r, path = tree ++ n :: r ∧ n ≠ ".git" := by
  induction tree generalizing path with
  | nil =>
      cases path with
      | nil => simp [isLocalChangeUnderAddedTree]
      | cons n r => simp [isLocalChangeUnderAddedTree]
  | cons a tree ih =>
      cases path with
      | nil => simp [isLocalChangeUnderAddedTree]
      | cons b path =>
          rw [isLocalChangeUnderAddedTree, Bool.and_eq_true, beq_iff_eq, ih]
          constructor
          · rintro ⟨rfl, n, r, rfl, hn⟩
            exact ⟨n, r, rfl, hn⟩
          · rintro ⟨n, r, heq, hn⟩
            obtain ⟨rfl, rfl⟩ := List.cons.inj heq
            exact ⟨rfl, n, r, rfl, hn⟩

/-- Where no conflict is reported every entry is clean. -/
theorem classifyConflicts_none {localDiff : DiffMap} {order : List (Path × DiffEntry)}
    {acc : DiffMap × List Path} (hnd : (order.map Prod.fst).Nodup)
    (h : (classifyConflicts localDiff order acc).2 = []) :
    (∀ x ∈ order, isConflict localDiff x.1 x.2 = false) ∧ acc.2 = [] ∧
      ∀ q e, (classifyConflicts localDiff order acc).1.get q = some e ↔
        (q, e) ∈ order ∨ q ∉ order.map Prod.fst ∧ acc.1.get q = some e := by
  induction order generalizing acc with
  | nil => exact ⟨nofun, h, fun q e => by simp [classifyConflicts]⟩
  | cons x order ih =>
      obtain ⟨clean, conflicts⟩ := acc
      obtain ⟨path, e⟩ := x
      obtain ⟨hfresh, hnd⟩ := List.nodup_cons.mp hnd
      rw [classifyConflicts] at h ⊢
      cases hc : isConflict localDiff path e with
      | true =>
          rw [hc, if_pos rfl] at h
          obtain ⟨-, hno, -⟩ := ih hnd h
          simp at hno
      | false =>
          rw [hc, if_neg Bool.false_ne_true] at h
          rw [if_neg Bool.false_ne_true]
          obtain ⟨hall, hno, hget⟩ := ih hnd h
          refine ⟨List.forall_mem_cons.mpr ⟨hc, hall⟩, hno, fun q c => ?_⟩
          rw [hget, KeyMap.get_insert, List.mem_cons, List.map_cons, List.mem_cons, Prod.mk.injEq]
          by_cases hq : q = path
          · subst hq
            have hout : ∀ c, (q, c) ∉ order := fun c hmem =>
              hfresh (List.mem_map.mpr ⟨(q, c), hmem, rfl⟩)
            simp [hout, hfresh, eq_comm]
          · simp [hq]

/-- A new tree is clean when the working tree has changed nothing at or below it, but for its `.git`. -/
theorem isConflict_addedTree {localDiff : DiffMap} {path : Path} {t : Tree} {m : TreeMeta}
    (h : isConflict localDiff path (.addedTree t m) = false) :
    localDiff.get path = none ∧
      ∀ n r, localDiff.get (path ++ n :: r) ≠ none → n = ".git" := by
  unfold isConflict at h
  cases hl : localDiff.get path with
  | some l => simp [hl, sameContent] at h
  | none =>
      refine ⟨rfl, fun n r hne => ?_⟩
      simp only [hl, DiffEntry.isAddedTree, Bool.true_and, List.any_eq_false, Bool.not_eq_true] at h
      obtain ⟨l, hl'⟩ := Option.ne_none_iff_exists'.mp hne
      by_contra hn
      have hunder : isLocalChangeUnderAddedTree path (path ++ n :: r) = true :=
        isLocalChangeUnderAddedTree_iff.mpr ⟨n, r, rfl, hn⟩
      rw [h _ (KeyMap.get_eq_some_iff_mem.mp hl')] at hunder
      cases hunder

/-! ## What a file or symlink is worth -/

/-- The file or symlink of an entry. -/
def leafOf : Option TreeEntry → Option Leaf
  | some (.blob b) => some (.file b.hash b.mode)
  | some (.symlink l) => some (linkLeaf l)
  | _ => none

/-- What an entry of a diff makes of the file or symlink at its path. -/
def DiffEntry.leaf : DiffEntry → Option Leaf
  | .added b | .modified b => some (.file b.hash b.mode)
  | .symlink l _ => some (linkLeaf l)
  | _ => none

/-- The same file but for its mode, the same symlink, or neither. -/
def SameContent : Option Leaf → Option Leaf → Prop
  | some (.file a _), some (.file b _) => a = b
  | a, b => a = b

theorem sameContent_leaf {a b : DiffEntry} (h : sameContent a b = true) : SameContent a.leaf b.leaf := by
  cases a <;> cases b <;> simp_all [sameContent, DiffEntry.leaf, SameContent, linkLeaf]

theorem leafOf_of_nodeDiff_none {thr : Nat} {g : Bool} {b t : Option TreeEntry}
    (h : nodeDiff thr g b t = none) : leafOf t = leafOf b := by
  cases t with
  | none =>
      cases b with
      | none => rfl
      | some b => cases b <;> simp_all [nodeDiff, leafOf]
  | some t =>
      cases t with
      | blob x =>
          cases b with
          | none => simp [nodeDiff] at h
          | some b => cases b <;> simp_all [nodeDiff, leafOf]
      | symlink x =>
          cases b with
          | none => simp [nodeDiff] at h
          | some b => cases b <;> simp_all [nodeDiff, leafOf, linkLeaf]
      | tree s m =>
          cases b with
          | none => rfl
          | some b =>
              cases b with
              | tree _ _ => rfl
              | blob _ =>
                  simp only [nodeDiff, Option.map_some] at h
                  split_ifs at h
              | symlink _ =>
                  simp only [nodeDiff, Option.map_some] at h
                  split_ifs at h

theorem leaf_of_nodeDiff {thr : Nat} {g : Bool} {b t : Option TreeEntry} {e : DiffEntry}
    (h : nodeDiff thr g b t = some e) : e.leaf = leafOf t := by
  cases t with
  | none =>
      cases b with
      | none => simp [nodeDiff] at h
      | some b =>
          cases b <;> simp only [nodeDiff, Option.map_some, Option.some.injEq, reduceCtorEq] at h <;>
            rw [← h] <;> rfl
  | some t =>
      cases t with
      | blob x =>
          cases b with
          | none =>
              simp only [nodeDiff, Option.some.injEq] at h
              rw [← h]
              rfl
          | some b =>
              cases b <;> simp only [nodeDiff, Option.some.injEq] at h
              · split_ifs at h
                rw [← Option.some.inj h]
                rfl
              all_goals
                rw [← h]
                rfl
      | symlink x =>
          cases b with
          | none =>
              simp only [nodeDiff, Option.some.injEq] at h
              rw [← h]
              rfl
          | some b =>
              cases b <;> simp only [nodeDiff, Option.some.injEq] at h
              case symlink =>
                split_ifs at h
                rw [← Option.some.inj h]
                rfl
              all_goals
                rw [← h]
                rfl
      | tree s m =>
          cases b with
          | none =>
              simp only [nodeDiff] at h
              split_ifs at h <;> cases h <;> rfl
          | some b =>
              cases b <;> simp only [nodeDiff, reduceCtorEq] at h
              all_goals split_ifs at h <;> cases h <;> rfl

/-- An entry for two equal values can only be a new directory. -/
theorem dir_of_nodeDiff {thr : Nat} {g : Bool} {b t : Option TreeEntry} {e : DiffEntry}
    (h : nodeDiff thr g b t = some e) (heq : leafOf t = leafOf b) :
    e = .addedEmptyDir ∨ ∃ s m, e = .addedTree s m := by
  cases t with
  | none =>
      cases b with
      | none => simp [nodeDiff] at h
      | some b => cases b <;> simp_all [nodeDiff, leafOf]
  | some t =>
      cases t with
      | blob x =>
          cases b with
          | none => cases heq
          | some b => cases b <;> simp_all [nodeDiff, leafOf, linkLeaf]
      | symlink x =>
          cases b with
          | none => cases heq
          | some b => cases b <;> simp_all [nodeDiff, leafOf, linkLeaf]
      | tree s m =>
          cases b with
          | none =>
              simp only [nodeDiff] at h
              split_ifs at h
              · exact .inr ⟨s, m, (Option.some.inj h).symm⟩
              · exact .inl (Option.some.inj h).symm
              · cases h
          | some b => cases b <;> simp_all [nodeDiff, leafOf]

/-! ## The remote diff at one path -/

/-- A path below a new tree is not mentioned; at any other path the two entries there are compared. -/
theorem pathDiff_cases (thr : Nat) (g : Bool) (b t : Option TreeEntry) (n : String) (q : Path) :
    (∃ a k r s m, q = a ++ k :: r ∧ pathDiff thr g b t n a = some (.addedTree s m) ∧
      pathDiff thr g b t n q = none) ∨
    ∃ g', pathDiff thr g b t n q = nodeDiff thr g' (b.bind fun e => e.at q) (t.bind fun e => e.at q) := by
  induction q generalizing g b t n with
  | nil =>
      refine .inr ⟨g, ?_⟩
      cases b <;> cases t <;> rfl
  | cons m r ih =>
      have hnone : pathDiff thr false (b.bind fun e => e.children.find? m) none m r =
          nodeDiff thr g (b.bind fun e => e.at (m :: r)) none := by
        rw [pathDiff_none]
        have hb : (b.bind fun e => e.children.find? m).bind (fun e => e.at r) =
            b.bind fun e => e.at (m :: r) := by
          cases b <;> rfl
        rw [hb]
        cases (b.bind fun e => e.at (m :: r)) with
        | none => rfl
        | some e => cases e <;> rfl
      cases t with
      | none => exact .inr ⟨g, hnone⟩
      | some e =>
          cases e with
          | blob x => exact .inr ⟨g, hnone⟩
          | symlink x => exact .inr ⟨g, hnone⟩
          | tree s tm =>
              cases hstub : (!(b.map TreeEntry.isTree).getD false && shouldStub thr g tm) with
              | true =>
                  refine .inl ⟨[], m, r, s, tm, rfl, ?_, ?_⟩
                  · obtain ⟨hb, hs⟩ := Bool.and_eq_true_iff.mp hstub
                    rw [pathDiff]
                    cases b with
                    | none => simp [nodeDiff, hs]
                    | some b => cases b <;> simp_all [nodeDiff, TreeEntry.isTree]
                  · rw [pathDiff, hstub, if_pos rfl]
              | false =>
                  have hstep : ∀ q', pathDiff thr g b (some (.tree s tm)) n (m :: q') =
                      pathDiff thr (childInGit g n s) (b.bind fun e => e.children.find? m) (s.find? m) m
                        q' := by
                    intro q'
                    rw [pathDiff, hstub, if_neg Bool.false_ne_true]
                  rw [hstep]
                  obtain ⟨a, k, r', s', m', rfl, ha, hq⟩ | ⟨g', hg'⟩ :=
                    ih (childInGit g n s) (b.bind fun e => e.children.find? m) (s.find? m) m
                  · exact .inl ⟨m :: a, k, r', s', m', rfl, (hstep a).trans ha, hq⟩
                  · refine .inr ⟨g', ?_⟩
                    rw [hg']
                    cases b <;> rfl

section Classified

variable {base remote working : Option Tree} {thr : Nat}

/-- **`get_remoteDiff`** — what the remote diff says at a path. -/
theorem get_remoteDiff (hb : (base.getD .nil).Wf) (hr : (remote.getD .nil).Wf) (thr : Nat) (q : Path) :
    (∃ a k r s m, q = a ++ k :: r ∧ (diffTrees base remote thr).get a = some (.addedTree s m) ∧
      (diffTrees base remote thr).get q = none) ∨
    ∃ g, (diffTrees base remote thr).get q =
      nodeDiff thr g ((base.getD .nil).at q) ((remote.getD .nil).at q) := by
  have hget := fun p => get_diffTrees hb hr thr p
  rw [hget]
  cases q with
  | nil => exact .inr ⟨false, rfl⟩
  | cons m r =>
      obtain ⟨a, k, r', s, tm, rfl, ha, hq⟩ | ⟨g, hg⟩ := pathDiff_cases thr false
        ((base.getD .nil).find? m) ((remote.getD .nil).find? m) m r
      · exact .inl ⟨m :: a, k, r', s, tm, rfl, by rw [hget]; exact ha, hq⟩
      · exact .inr ⟨g, hg⟩

/-- A new tree is the remote's, and nothing was a directory there before. -/
theorem addedTree_of_nodeDiff {g : Bool} {b t : Option TreeEntry} {s : Tree} {m : TreeMeta}
    (h : nodeDiff thr g b t = some (.addedTree s m)) :
    t = some (.tree s m) ∧ ∀ s' m', b ≠ some (.tree s' m') := by
  cases t with
  | none =>
      cases b with
      | none => simp [nodeDiff] at h
      | some b => cases b <;> simp [nodeDiff] at h
  | some t =>
      cases t with
      | blob x =>
          cases b with
          | none => simp [nodeDiff] at h
          | some b => cases b <;> simp [nodeDiff] at h
      | symlink x =>
          cases b with
          | none => simp [nodeDiff] at h
          | some b => cases b <;> simp [nodeDiff] at h
      | tree s' m' =>
          cases b with
          | none =>
              simp only [nodeDiff] at h
              split_ifs at h
              · cases h
                exact ⟨rfl, by rintro _ _ ⟨⟩⟩
              · cases h
              · cases h
          | some b =>
              cases b <;> simp only [nodeDiff, reduceCtorEq] at h
              all_goals
                split_ifs at h
                · cases h
                  exact ⟨rfl, by rintro _ _ ⟨⟩⟩
                · cases h
                · cases h

theorem at_addedTree (hb : (base.getD .nil).Wf) (hr : (remote.getD .nil).Wf) {a : Path} {s : Tree}
    {m : TreeMeta} (h : (diffTrees base remote thr).get a = some (.addedTree s m)) :
    (remote.getD .nil).at a = some (.tree s m) ∧ ∀ s' m', (base.getD .nil).at a ≠ some (.tree s' m') := by
  obtain ⟨-, -, -, -, -, -, -, hnone⟩ | ⟨g, hg⟩ := get_remoteDiff hb hr thr a
  · rw [hnone] at h
    cases h
  · rw [hg] at h
    exact addedTree_of_nodeDiff h

/-- Below a new tree there was nothing. -/
theorem base_below_addedTree (hb : (base.getD .nil).Wf) (hr : (remote.getD .nil).Wf) {a : Path}
    {s : Tree} {m : TreeMeta} (h : (diffTrees base remote thr).get a = some (.addedTree s m)) (n : String)
    (r : Path) : (base.getD .nil).at (a ++ n :: r) = none := by
  by_contra hne
  obtain ⟨s', m', hs'⟩ := Tree.isTree_of_at_append (by simp) hne
  exact (at_addedTree hb hr h).2 s' m' hs'

theorem pathDiff_below_addedTree {thr : Nat} {g : Bool} {b t : Option TreeEntry} {n : String} {a : Path}
    {s : Tree} {m : TreeMeta} (h : pathDiff thr g b t n a = some (.addedTree s m)) (k : String)
    (r : Path) : pathDiff thr g b t n (a ++ k :: r) = none := by
  induction a generalizing g b t n with
  | nil =>
      obtain ⟨rfl, hb⟩ := addedTree_of_nodeDiff h
      have hstub : shouldStub thr g m = true := by
        by_contra hno
        have hnode : nodeDiff thr g b (some (.tree s m)) = some (.addedTree s m) := h
        cases b with
        | none =>
            simp only [nodeDiff, if_neg hno] at hnode
            split_ifs at hnode
            · cases hnode
            · cases hnode
        | some b =>
            cases b <;> simp only [nodeDiff, reduceCtorEq, if_neg hno] at hnode
            all_goals split_ifs at hnode <;> cases hnode
      have hnot : (b.map TreeEntry.isTree).getD false = false := by
        cases b with
        | none => rfl
        | some b =>
            cases b with
            | tree s' m' => exact absurd rfl (hb s' m')
            | blob x => rfl
            | symlink x => rfl
      show pathDiff thr g b (some (.tree s m)) n (k :: r) = none
      rw [pathDiff, hnot, hstub]
      rfl
  | cons c a ih =>
      rw [List.cons_append]
      cases t with
      | none => exact ih h
      | some e =>
          cases e with
          | blob x => exact ih h
          | symlink x => exact ih h
          | tree s' m' =>
              rw [pathDiff] at h ⊢
              split_ifs at h ⊢
              exact ih h

/-- Below a new tree nothing is mentioned. -/
theorem get_below_addedTree (hb : (base.getD .nil).Wf) (hr : (remote.getD .nil).Wf) {a : Path}
    {s : Tree} {m : TreeMeta} (h : (diffTrees base remote thr).get a = some (.addedTree s m)) (k : String)
    (r : Path) : (diffTrees base remote thr).get (a ++ k :: r) = none := by
  rw [get_diffTrees hb hr] at h ⊢
  cases a with
  | nil => cases h
  | cons n a => exact pathDiff_below_addedTree h k r

/-! ## The clean changes, applied -/

/-- The file or symlink that a new tree above the path has there. -/
def leafOfAddedTree (clean : DiffMap) (q : Path) : Option Leaf :=
  q.inits.findSome? fun a =>
    match clean.get a with
    | some (.addedTree t _) => leafOf (t.at (q.drop a.length))
    | _ => none

/-- The clean changes, applied to the paths of the working tree. -/
def applied (clean : DiffMap) (working : Tree) (q : Path) : Option Leaf :=
  match clean.get q with
  | some e => e.leaf
  | none => (leafOfAddedTree clean q).or (leafOf (working.at q))

theorem leafOfAddedTree_eq (hb : (base.getD .nil).Wf) (hr : (remote.getD .nil).Wf) (thr : Nat)
    (q : Path) :
    leafOfAddedTree (diffTrees base remote thr) q = none ∧
        (∀ a n r s m, q = a ++ n :: r → (diffTrees base remote thr).get a = some (.addedTree s m) →
          leafOf ((remote.getD .nil).at q) = none) ∨
      leafOfAddedTree (diffTrees base remote thr) q = leafOf ((remote.getD .nil).at q) ∧
        leafOf ((remote.getD .nil).at q) ≠ none ∧ (base.getD .nil).at q = none := by
  have hat : ∀ a s m, a <+: q → (diffTrees base remote thr).get a = some (.addedTree s m) →
      leafOf (s.at (q.drop a.length)) = leafOf ((remote.getD .nil).at q) := by
    rintro a s m ⟨r, rfl⟩ ha
    rw [Tree.at_append, (at_addedTree hb hr ha).1, List.drop_left, Option.bind_some]
    cases r with
    | nil => rfl
    | cons n r => rfl
  cases hl : leafOfAddedTree (diffTrees base remote thr) q with
  | none =>
      refine .inl ⟨rfl, fun a n r s m hq ha => ?_⟩
      have hpre : a <+: q := ⟨n :: r, hq.symm⟩
      have hno := List.findSome?_eq_none_iff.mp hl a (List.mem_inits a q |>.mpr hpre)
      rw [ha] at hno
      rw [← hat a s m hpre ha]
      exact hno
  | some x =>
      obtain ⟨a, ha, hx⟩ := List.exists_of_findSome?_eq_some hl
      have hpre : a <+: q := (List.mem_inits a q).mp ha
      cases hc : (diffTrees base remote thr).get a with
      | none =>
          rw [hc] at hx
          cases hx
      | some e =>
          rw [hc] at hx
          cases e with
          | addedTree s m =>
              have hleaf : leafOf ((remote.getD .nil).at q) = some x := (hat a s m hpre hc).symm.trans hx
              refine .inr ⟨hleaf.symm, hleaf ▸ nofun, ?_⟩
              obtain ⟨r, rfl⟩ := hpre
              cases r with
              | nil =>
                  rw [List.append_nil, (at_addedTree hb hr (by simpa using hc)).1] at hleaf
                  cases hleaf
              | cons n r => exact base_below_addedTree hb hr hc n r
          | _ => cases hx

/-! ## Where nothing is reported -/

/-- The remote diff, gone through in some order without a conflict. -/
structure Unopposed (base remote working : Option Tree) (thr : Nat) (order : List (Path × DiffEntry)) :
    Prop where
  base_wf : (base.getD .nil).Wf
  remote_wf : (remote.getD .nil).Wf
  working_wf : (working.getD .nil).Wf
  listed : order.Perm (diffTrees base remote thr).pairs
  silent : (classifyConflicts (diffTrees base working 0) order (.empty, [])).2 = []

def cleanChanges (base working : Option Tree) (order : List (Path × DiffEntry)) : DiffMap :=
  (classifyConflicts (diffTrees base working 0) order (.empty, [])).1

variable {order : List (Path × DiffEntry)}

namespace Unopposed

theorem isConflict_eq (h : Unopposed base remote working thr order) {q : Path} {e : DiffEntry}
    (he : (diffTrees base remote thr).get q = some e) :
    isConflict (diffTrees base working 0) q e = false := by
  have hnd : (order.map Prod.fst).Nodup :=
    (h.listed.map Prod.fst).nodup_iff.mpr (KeyMap.nodup_keys _)
  have hmem : (q, e) ∈ order := h.listed.mem_iff.mpr (KeyMap.get_eq_some_iff_mem.mp he)
  exact (classifyConflicts_none hnd h.silent).1 _ hmem

theorem get_clean (h : Unopposed base remote working thr order) (q : Path) :
    (cleanChanges base working order).get q = (diffTrees base remote thr).get q := by
  have hnd : (order.map Prod.fst).Nodup :=
    (h.listed.map Prod.fst).nodup_iff.mpr (KeyMap.nodup_keys _)
  obtain ⟨-, -, hget⟩ := classifyConflicts_none hnd h.silent
  apply Option.ext
  intro e
  unfold cleanChanges
  rw [hget, h.listed.mem_iff, ← KeyMap.get_eq_some_iff_mem]
  simp only [KeyMap.get_empty, reduceCtorEq, and_false, or_false]

theorem get_local (h : Unopposed base remote working thr order) (q : Path) :
    (diffTrees base working 0).get q =
      nodeDiff 0 false ((base.getD .nil).at q) ((working.getD .nil).at q) :=
  get_diffTrees_zero h.base_wf h.working_wf q

/-- A change of the working tree is in its diff. -/
theorem local_of_changed (h : Unopposed base remote working thr order) {q : Path}
    (hne : leafOf ((working.getD .nil).at q) ≠ leafOf ((base.getD .nil).at q)) :
    ∃ l, (diffTrees base working 0).get q = some l ∧ l.leaf = leafOf ((working.getD .nil).at q) := by
  rw [h.get_local]
  cases hd : nodeDiff 0 false ((base.getD .nil).at q) ((working.getD .nil).at q) with
  | none => exact absurd (leafOf_of_nodeDiff_none hd) hne
  | some l => exact ⟨l, rfl, leaf_of_nodeDiff hd⟩

/-- Where both diffs have an entry they agree in content. -/
theorem sameContent_of_both (h : Unopposed base remote working thr order) {q : Path} {e l : DiffEntry}
    (he : (diffTrees base remote thr).get q = some e) (hl : (diffTrees base working 0).get q = some l) :
    sameContent e l = true := by
  have hno := h.isConflict_eq he
  simpa [isConflict, hl] using hno

theorem applied_clean (h : Unopposed base remote working thr order) (t : Tree) (q : Path) :
    applied (cleanChanges base working order) t q = applied (diffTrees base remote thr) t q := by
  simp only [applied, leafOfAddedTree, h.get_clean]

/-- **`applied_eq`** — the remote's value where the remote changed it, the working tree's elsewhere. -/
theorem applied_eq (h : Unopposed base remote working thr order) (q : Path) :
    applied (cleanChanges base working order) (working.getD .nil) q =
      if leafOf ((remote.getD .nil).at q) = leafOf ((base.getD .nil).at q) then
        leafOf ((working.getD .nil).at q)
      else leafOf ((remote.getD .nil).at q) := by
  rw [h.applied_clean, applied]
  obtain ⟨a, n, r, s, m, rfl, ha, hq⟩ | ⟨g, hg⟩ := get_remoteDiff h.base_wf h.remote_wf thr q
  · -- below a new tree
    rw [hq, base_below_addedTree h.base_wf h.remote_wf ha n r]
    rcases leafOfAddedTree_eq h.base_wf h.remote_wf thr (a ++ n :: r) with
      ⟨hl, hno⟩ | ⟨hl, hsome, -⟩
    · rw [hl, hno a n r s m rfl ha]
      rfl
    · obtain ⟨x, hx⟩ := Option.ne_none_iff_exists'.mp hsome
      rw [hl, hx]
      rfl
  · cases hd : nodeDiff thr g ((base.getD .nil).at q) ((remote.getD .nil).at q) with
    | none =>
        have hsame := leafOf_of_nodeDiff_none hd
        rw [hg, hd, if_pos hsame]
        rcases leafOfAddedTree_eq h.base_wf h.remote_wf thr q with ⟨hl, -⟩ | ⟨-, hsome, hnone⟩
        · rw [hl, Option.none_or]
        · exact absurd (hsame.trans (by rw [hnone]; rfl)) hsome
    | some e =>
        rw [hg, hd]
        show e.leaf = _
        have hleaf := leaf_of_nodeDiff hd
        by_cases hsame : leafOf ((remote.getD .nil).at q) = leafOf ((base.getD .nil).at q)
        · rw [if_pos hsame]
          by_cases hw : leafOf ((working.getD .nil).at q) = leafOf ((base.getD .nil).at q)
          · rw [hw, ← hsame, ← hleaf]
          · -- a new directory, and the working tree has changed the path as well
            obtain ⟨l, hl, hlw⟩ := h.local_of_changed hw
            have hc := h.sameContent_of_both (hg.trans hd) hl
            obtain rfl | ⟨s, m, rfl⟩ := dir_of_nodeDiff hd hsame
            · rw [← hlw]
              cases l with
              | addedEmptyDir => rfl
              | _ => cases hc
            · cases l <;> cases hc
        · rw [if_neg hsame, hleaf]

/-- Where both sides changed a path, both changed it to the same content, unless the path is inside the
`.git` of a new tree. -/
theorem sameContent_of_changed (h : Unopposed base remote working thr order) {q : Path}
    (hr : leafOf ((remote.getD .nil).at q) ≠ leafOf ((base.getD .nil).at q))
    (hw : leafOf ((working.getD .nil).at q) ≠ leafOf ((base.getD .nil).at q)) :
    SameContent (leafOf ((remote.getD .nil).at q)) (leafOf ((working.getD .nil).at q)) ∨
      ∃ a r s m, q = a ++ ".git" :: r ∧ (diffTrees base remote thr).get a = some (.addedTree s m) := by
  obtain ⟨l, hl, hlw⟩ := h.local_of_changed hw
  obtain ⟨a, n, r, s, m, rfl, ha, -⟩ | ⟨g, hg⟩ := get_remoteDiff h.base_wf h.remote_wf thr q
  · have hgit := (isConflict_addedTree (h.isConflict_eq ha)).2 n r (by rw [hl]; exact nofun)
    subst hgit
    exact .inr ⟨a, r, s, m, rfl, ha⟩
  · cases hd : nodeDiff thr g ((base.getD .nil).at q) ((remote.getD .nil).at q) with
    | none => exact absurd (leafOf_of_nodeDiff_none hd) hr
    | some e =>
        left
        rw [← leaf_of_nodeDiff hd, ← hlw]
        exact sameContent_leaf (h.sameContent_of_both (hg.trans hd) hl)

end Unopposed

/-- The path of a leaf has no leaf above it. -/
theorem leafOf_at_above {t : Tree} {p q : Path} {x y : Leaf} (hp : leafOf (t.at p) = some x)
    (hq : leafOf (t.at q) = some y) (hpre : p <+: q) : p = q := by
  obtain ⟨r, rfl⟩ := hpre
  cases r with
  | nil => rw [List.append_nil]
  | cons n r =>
      have hne : t.at (p ++ n :: r) ≠ none := fun hnone => by
        rw [hnone] at hq
        cases hq
      obtain ⟨s, m, hs⟩ := Tree.isTree_of_at_append (by simp) hne
      rw [hs] at hp
      cases hp

/-- **`clean_pull`** — what a pull without a reported conflict makes of the working tree. -/
theorem clean_pull (h : Unopposed base remote working thr order) :
    let result := applied (cleanChanges base working order) (working.getD .nil)
    let was q := leafOf ((base.getD .nil).at q)
    let theirs q := leafOf ((remote.getD .nil).at q)
    let ours q := leafOf ((working.getD .nil).at q)
    (∀ q, theirs q = was q → result q = ours q) ∧
    (∀ q, theirs q ≠ was q → result q = theirs q) ∧
    (∀ q, theirs q ≠ was q → ours q ≠ was q → SameContent (theirs q) (ours q) ∨
      ∃ a r s m, q = a ++ ".git" :: r ∧
        (diffTrees base remote thr).get a = some (.addedTree s m)) ∧
    (∀ p q x y, result p = some x → result q = some y → p <+: q → p ≠ q →
      (theirs p ≠ was p ∧ theirs q = was q ∧ ours q ≠ was q) ∨
      (theirs p = was p ∧ ours p ≠ was p ∧ theirs q ≠ was q)) ∧
    ∀ a s m, (diffTrees base remote thr).get a = some (.addedTree s m) →
      (diffTrees base working 0).get a = none ∧
        ∀ n r, (diffTrees base working 0).get (a ++ n :: r) ≠ none → n = ".git" := by
  intro result was theirs ours
  have htook : ∀ q, theirs q ≠ was q → result q = theirs q := fun q hq =>
    (h.applied_eq q).trans (if_neg hq)
  have hkept : ∀ q, theirs q = was q → result q = ours q := fun q hq =>
    (h.applied_eq q).trans (if_pos hq)
  refine ⟨hkept, htook, fun q => h.sameContent_of_changed, fun p q x y hp hq hpre hne => ?_,
    fun a s m ha => isConflict_addedTree (h.isConflict_eq ha)⟩
  by_cases htp : theirs p = was p
  · have hop : ours p = some x := (hkept p htp).symm.trans hp
    by_cases htq : theirs q = was q
    · exact absurd (leafOf_at_above hop ((hkept q htq).symm.trans hq) hpre) hne
    · -- the remote put the lower one there, so it has no file at the upper one
      refine .inr ⟨htp, fun hsame => hne ?_, htq⟩
      exact leafOf_at_above (htp.trans (hsame.symm.trans hop)) ((htook q htq).symm.trans hq) hpre
  · have htp' : theirs p = some x := (htook p htp).symm.trans hp
    by_cases htq : theirs q = was q
    · refine .inl ⟨htp, htq, fun hsame => hne ?_⟩
      have hoq : ours q = some y := (hkept q htq).symm.trans hq
      exact leafOf_at_above htp' (htq.trans (hsame.symm.trans hoq)) hpre
    · exact absurd (leafOf_at_above htp' ((htook q htq).symm.trans hq) hpre) hne

end Classified

/-- A repository `d/.git` with one file. -/
def repository (h : Hash) : Tree :=
  .tree "d" (.tree ".git" (.blob "HEAD" ⟨h, none, 9, none⟩ .nil) ⟨none, 9, 1⟩ .nil) ⟨none, 9, 1⟩ .nil

/-- A pull of a new directory into a working tree without it. -/
theorem clean_pull_newDir :
    applied (cleanChanges none none (diffTrees none (some (repository 1)) 5).pairs) .nil
      ["d", ".git", "HEAD"] = some (.file 1 none) := by
  have hwf : (repository 1).Wf := by
    refine ⟨by decide, ⟨by decide, ⟨by decide, .inl rfl, trivial⟩, trivial⟩, trivial⟩
  have h : Unopposed none (some (repository 1)) none 5 (diffTrees none (some (repository 1)) 5).pairs :=
    ⟨trivial, hwf, trivial, List.Perm.refl _, by decide⟩
  exact (clean_pull h).2.1 ["d", ".git", "HEAD"] (by decide)

/-- **`git_dir_not_reported`** — both sides added `d/.git/HEAD`, with different content. -/
theorem git_dir_not_reported :
    (classifyConflicts (diffTrees none (some (repository 2)) 0)
      (diffTrees none (some (repository 1)) 5).pairs (.empty, [])).2 = [] ∧
    leafOf ((repository 1).at ["d", ".git", "HEAD"]) = some (.file 1 none) ∧
    leafOf ((repository 2).at ["d", ".git", "HEAD"]) = some (.file 2 none) := by
  decide

end Omemfs.Sync
