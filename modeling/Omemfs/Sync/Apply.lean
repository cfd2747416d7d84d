/-
# Omemfs.Sync.Apply — a diff applied to the working tree.

`applyDiff` deletes first, then prunes the directories the deletions emptied, then writes everything
else.  The diff is a hash map and so is the set of directories to prune: both are listed in an order
nobody chooses, and everything here holds for each.  The working tree holds no stub and the threshold
for creating one is zero, so none of the stub branches is taken; nor does any symlink of it lead to
one.  The metadata directory is not part of the tree.

What is left is told in three steps: `applyDeletions_of_leaves`, `prune_get`, `applyWrites_effect`.
-/
import Mathlib.Data.List.Basic
import Mathlib.Data.List.Dedup
import Omemfs.Sync.Diff
import Omemfs.Sync.Fsguard

namespace Omemfs.Sync

open Omemfs Lib Fsguard

/-- What a working tree holds at the end of a path. -/
inductive Leaf where
  | file (hash : Hash) (mode : Option String)
  | symlink (target : String)
  deriving DecidableEq

abbrev WorkTree := DirTree String Leaf

/-- The execute bits are set or cleared as a whole, and a scan reads the owner's. -/
def scannedMode (mode : Option String) : Option String := mode.map fun _ => "755"

def blobLeaf (b : Blob) : Leaf := .file b.hash (scannedMode b.mode)

def linkLeaf (l : Symlink) : Leaf := .symlink l.target

/-- How an entry of a tree looks in a working tree. -/
def entryKind : TreeEntry → Kind Leaf
  | .blob b => .leaf (.file b.hash b.mode)
  | .tree _ _ => .dir
  | .symlink l => .leaf (linkLeaf l)

theorem map_entryKind_eq_dir {o : Option TreeEntry} :
    o.map entryKind = some .dir ↔ ∃ s m, o = some (.tree s m) := by
  cases o with
  | none => simp
  | some e => cases e <;> simp [entryKind]

theorem map_entryKind_eq_leaf {o : Option TreeEntry} :
    (∃ x, o.map entryKind = some (.leaf x)) ↔ isLeaf o = true := by
  cases o with
  | none => simp
  | some e => cases e <;> simp [entryKind, isLeaf]

/-- The working tree holds exactly the entries of the tree. -/
def Holds (d : WorkTree) (t : Tree) : Prop := ∀ q, d.get q = (t.at q).map entryKind

/-- The working tree holds exactly the files and symlinks of the tree. -/
def SameLeaves (d : WorkTree) (t : Tree) : Prop :=
  ∀ q x, d.get q = some (.leaf x) ↔ (t.at q).map entryKind = some (.leaf x)

/-! ## The three phases -/

/-- Phase 2a: every deletion; the parents of what was deleted are kept for pruning. -/
def applyDeletions : List (Path × DiffEntry) → Guarded Leaf (List Path)
  | [] => pure []
  | (p, .deleted) :: rest =>
      removeFileTolerant p >>= fun _ =>
      applyDeletions rest >>= fun dirs => pure (p.dropLast :: dirs)
  | _ :: rest => applyDeletions rest

/-- The directories and all above them, the working directory excepted. -/
def cleanupDirs (dirs : List Path) : List Path :=
  (dirs.flatMap fun p => p.inits.filter fun a => a ≠ []).dedup

/-- A listing of a set of directories, deepest first. -/
def DeepestFirst (list : List Path → List Path) : Prop :=
  ∀ l, (list l).Perm l ∧ (list l).Pairwise fun a b => b.length ≤ a.length

/-- Phase 2b: one entry that is no deletion. -/
def applyWrite : Path × DiffEntry → Guarded Leaf PUnit
  | (p, .added b) => atomicWrite p (blobLeaf b)
  | (p, .modified b) => atomicWrite p (blobLeaf b)
  | (p, .addedEmptyDir) => createDirAll p
  | (p, .symlink l _) => replaceSymlink p (linkLeaf l)
  | (_, .deleted) => pure ⟨⟩
  -- reported with a stub threshold only
  | (p, .addedTree _ _) => throw (.invalidComponent (p.getLastD ""))

/-- `order` lists the diff and `listDirs` the directories to prune. -/
def applyDiff (listDirs : List Path → List Path) (order : List (Path × DiffEntry)) :
    Guarded Leaf PUnit :=
  applyDeletions order >>= fun dirs =>
  (listDirs (cleanupDirs dirs)).forM tryRmdir >>= fun _ =>
  order.forM applyWrite

theorem mem_cleanupDirs {dirs : List Path} {q : Path} :
    q ∈ cleanupDirs dirs ↔ q ≠ [] ∧ ∃ p ∈ dirs, q <+: p := by
  simp only [cleanupDirs, List.mem_dedup, List.mem_flatMap, List.mem_filter, List.mem_inits,
    decide_eq_true_eq]
  constructor
  · rintro ⟨p, hp, hq, hne⟩
    exact ⟨hne, p, hp, hq⟩
  · rintro ⟨hne, p, hp, hq⟩
    exact ⟨p, hp, hq, hne⟩

/-- Being above the parent of a path is being strictly above the path. -/
theorem prefix_dropLast_iff {p q : Path} (hp : p ≠ []) :
    q <+: p.dropLast ↔ ∃ n r, p = q ++ n :: r := by
  constructor
  · rintro ⟨r, hr⟩
    obtain ⟨p, m, rfl⟩ := (List.eq_nil_or_concat' p).resolve_left hp
    rw [List.dropLast_concat] at hr
    subst hr
    cases r with
    | nil => exact ⟨m, [], by simp⟩
    | cons n r => exact ⟨n, r ++ [m], by simp⟩
  · rintro ⟨n, r, rfl⟩
    rw [List.dropLast_append_of_ne_nil (by simp)]
    exact List.prefix_append _ _

/-! ## Phase 2a -/

/-- The paths the diff deletes. -/
def deletedPaths (order : List (Path × DiffEntry)) : List Path :=
  order.filterMap fun x => if x.2 = .deleted then some x.1 else none

theorem mem_deletedPaths {order : List (Path × DiffEntry)} {p : Path} :
    p ∈ deletedPaths order ↔ (p, .deleted) ∈ order := by
  simp only [deletedPaths, List.mem_filterMap, Option.ite_none_right_eq_some, Option.some.injEq]
  constructor
  · rintro ⟨⟨q, c⟩, hmem, rfl, rfl⟩
    exact hmem
  · exact fun h => ⟨_, h, rfl, rfl⟩

/-- **`applyDeletions_of_leaves`** — leaves on different paths are deleted in any order. -/
theorem applyDeletions_of_leaves {order : List (Path × DiffEntry)} {d : WorkTree}
    (hkeys : (order.map Prod.fst).Nodup)
    (hleaf : ∀ p ∈ deletedPaths order, ∃ x, d.get p = some (.leaf x)) :
    ∃ d', applyDeletions order d = .ok ((deletedPaths order).map List.dropLast) d' ∧
      ∀ q, d'.get q = if q ∈ deletedPaths order then none else d.get q := by
  induction order generalizing d with
  | nil => exact ⟨d, rfl, by simp [deletedPaths]⟩
  | cons x rest ih =>
      obtain ⟨p, c⟩ := x
      rw [List.map_cons, List.nodup_cons] at hkeys
      have hrest : p ∉ deletedPaths rest := fun hmem =>
        hkeys.1 (List.mem_map.mpr ⟨_, mem_deletedPaths.mp hmem, rfl⟩)
      by_cases hc : c = .deleted
      · subst hc
        have hpaths : deletedPaths ((p, .deleted) :: rest) = p :: deletedPaths rest := rfl
        rw [hpaths] at hleaf ⊢
        obtain ⟨x, hx⟩ := hleaf p (by simp)
        have hp : p ≠ [] := fun h => by simp [h] at hx
        have hway : OpenWay d p := openWay_of_get (by simp [hx])
        obtain ⟨_, e, hrm, hgone⟩ :=
          (removeFileTolerant_effect d hp).succeeds ⟨hway, by simp [hx]⟩
        obtain ⟨d', hrun, hget⟩ := ih (d := e) hkeys.2 fun q hq => by
          have hqp : q ≠ p := by
            rintro rfl
            exact hrest hq
          rw [hgone, if_neg hqp]
          exact hleaf q (by simp [hq])
        refine ⟨d', ?_, fun q => ?_⟩
        · show (removeFileTolerant p >>= fun _ => applyDeletions rest >>= fun dirs =>
            pure (p.dropLast :: dirs)) d = _
          rw [bind_eq_of_ok hrm, bind_eq_of_ok hrun]
          rfl
        · rw [hget, hgone]
          by_cases hq : q ∈ deletedPaths rest
          · simp [hq]
          · by_cases hqp : q = p <;> simp [hq, hqp]
      · have hpaths : deletedPaths ((p, c) :: rest) = deletedPaths rest := by
          simp [deletedPaths, hc]
        have hrun : applyDeletions ((p, c) :: rest) = applyDeletions rest := by
          cases c <;> first | rfl | exact absurd rfl hc
        rw [hpaths] at hleaf ⊢
        rw [hrun]
        exact ih hkeys.2 hleaf

/-! ## Pruning -/

/-- Everything at and below the directory is a directory to prune. -/
def Prunable (l : List Path) (d : WorkTree) (q : Path) : Prop :=
  q ∈ l ∧ ∀ r, d.get (q ++ r) ≠ none → q ++ r ∈ l ∧ d.get (q ++ r) = some .dir

theorem Prunable.child {l : List Path} {d : WorkTree} {q : Path} {n : String}
    (h : Prunable l d q) (hn : d.get (q ++ [n]) ≠ none) : Prunable l d (q ++ [n]) := by
  refine ⟨(h.2 [n] hn).1, fun r hr => ?_⟩
  rw [List.append_assoc] at hr ⊢
  exact h.2 ([n] ++ r) hr

/-- What pruning has come to when the directories of `done` were visited. -/
structure Pruned (l : List Path) (d : WorkTree) (done : List Path) (e : WorkTree) : Prop where
  gone : ∀ q ∈ done, Prunable l d q → e.get q = none
  kept : ∀ q, ¬ (q ∈ done ∧ Prunable l d q) → e.get q = d.get q

theorem Pruned.get_eq {l done : List Path} {d e : WorkTree} (h : Pruned l d done e) {q : Path}
    (hq : e.get q ≠ none) : e.get q = d.get q := by
  by_cases hp : q ∈ done ∧ Prunable l d q
  · exact absurd (h.gone q hp.1 hp.2) hq
  · exact h.kept q hp

/-- A directory is found empty when everything below it was visited and is prunable. -/
theorem Pruned.empty_iff {l done todo : List Path} {d e : WorkTree} {q : Path}
    (h : Pruned l d done e) (hl : l = done ++ q :: todo)
    (hdeep : ∀ a ∈ todo, a.length ≤ q.length) (hq : e.get q ≠ none) :
    e.at q = some (.sub .nil) ↔ Prunable l d q := by
  rw [DirTree.at_eq_empty_iff]
  constructor
  · rintro ⟨hdir, hnone⟩
    refine ⟨by simp [hl], fun r hr => ?_⟩
    cases r with
    | nil =>
        rw [List.append_nil]
        exact ⟨by simp [hl], (h.get_eq hq).symm.trans hdir⟩
    | cons n r =>
        have hsplit : q ++ n :: r = (q ++ [n]) ++ r := by simp
        rw [hsplit] at hr ⊢
        -- the child is there in `d` and no more in `e`, so it was pruned
        have hchild : d.get (q ++ [n]) ≠ none := by
          intro hno
          cases r with
          | nil => simp [hno] at hr
          | cons m r => exact hr (DirTree.get_append_of_not_dir (by simp [hno]) m r)
        by_contra hnot
        have hpruned : q ++ [n] ∈ done ∧ Prunable l d (q ++ [n]) := by
          by_contra hno
          exact hchild ((h.kept _ hno).symm.trans (hnone n))
        exact hnot (hpruned.2.2 r hr)
  · intro hp
    refine ⟨?_, fun n => ?_⟩
    · have hdq := h.get_eq hq
      rw [hdq] at hq ⊢
      have := hp.2 [] (by simpa using hq)
      simpa using this.2
    · by_contra hne
      have hchild : d.get (q ++ [n]) ≠ none := h.get_eq hne ▸ hne
      have hmem := (hp.2 [n] hchild).1
      rw [hl, List.mem_append, List.mem_cons] at hmem
      obtain hdone | heq | htodo := hmem
      · exact hne (h.gone _ hdone (hp.child hchild))
      · simpa using congrArg List.length heq
      · have := hdeep _ htodo
        rw [List.length_append] at this
        simp at this

theorem Pruned.run {l done todo : List Path} {d e : WorkTree} (hl : l = done ++ todo)
    (hnil : [] ∉ l) (hdeep : todo.Pairwise fun a b => b.length ≤ a.length)
    (h : Pruned l d done e) : ∃ e', todo.forM tryRmdir e = .ok ⟨⟩ e' ∧ Pruned l d l e' := by
  induction todo generalizing done e with
  | nil =>
      rw [List.append_nil] at hl
      exact ⟨e, rfl, hl ▸ h⟩
  | cons q todo ih =>
      rw [List.pairwise_cons] at hdeep
      have hl' : l = (done ++ [q]) ++ todo := by simp [hl]
      by_cases hat : e.at q = some (.sub .nil)
      · obtain ⟨p, n, rfl⟩ := (List.eq_nil_or_concat' q).resolve_left fun hq =>
          hnil (by simp [hl, hq])
        have hget : e.get (p ++ [n]) ≠ none := by
          rw [(DirTree.at_eq_empty_iff.mp hat).1]
          exact fun h => nomatch h
        have hprune := (h.empty_iff hl hdeep.1 hget).mp hat
        obtain ⟨e₁, hrm, hgone⟩ := tryRmdir_of_empty hat
        have hnext : Pruned l d (done ++ [p ++ [n]]) e₁ := by
          constructor
          · intro r hr hpr
            by_cases hrp : r = p ++ [n]
            · rw [hgone, if_pos hrp]
            · rw [hgone, if_neg hrp]
              exact h.gone r (by simpa [hrp] using hr) hpr
          · intro r hr
            have hrp : r ≠ p ++ [n] := by
              rintro rfl
              exact hr ⟨by simp, hprune⟩
            rw [hgone, if_neg hrp]
            exact h.kept r fun hd => hr ⟨by simp [hd.1], hd.2⟩
        obtain ⟨e', hrun, hdone⟩ := ih hl' hdeep.2 hnext
        exact ⟨e', (bind_eq_of_ok hrm _).trans hrun, hdone⟩
      · have hrm : tryRmdir q e = .ok ⟨⟩ e := tryRmdir_of_not_empty hat
        have hnext : Pruned l d (done ++ [q]) e := by
          constructor
          · intro r hr hpr
            rw [List.mem_append, List.mem_singleton] at hr
            obtain hr | rfl := hr
            · exact h.gone r hr hpr
            · by_contra hne
              exact hat ((h.empty_iff hl hdeep.1 hne).mpr hpr)
          · exact fun r hr => h.kept r fun hd => hr ⟨by simp [hd.1], hd.2⟩
        obtain ⟨e', hrun, hdone⟩ := ih hl' hdeep.2 hnext
        exact ⟨e', (bind_eq_of_ok hrm _).trans hrun, hdone⟩

/-- **`prune_get`** — pruning removes the directories that hold nothing but directories to prune. -/
theorem prune_get {l : List Path} (hnil : [] ∉ l)
    (hdeep : l.Pairwise fun a b => b.length ≤ a.length) (d : WorkTree) :
    ∃ e, l.forM tryRmdir d = .ok ⟨⟩ e ∧ ∀ q,
      (Prunable l d q → e.get q = none) ∧ (¬ Prunable l d q → e.get q = d.get q) := by
  have hstart : Pruned l d [] d := ⟨by simp, by simp⟩
  obtain ⟨e, hrun, hdone⟩ := Pruned.run (List.nil_append l).symm hnil hdeep hstart
  refine ⟨e, hrun, fun q => ⟨fun hp => hdone.gone q hp.1 hp, fun hp => ?_⟩⟩
  exact hdone.kept q fun h => hp h.2

/-! ## Phase 2b -/

/-- What an entry of the diff writes at its path. -/
def written : DiffEntry → Option (Kind Leaf)
  | .added b => some (.leaf (blobLeaf b))
  | .modified b => some (.leaf (blobLeaf b))
  | .addedEmptyDir => some .dir
  | .symlink l _ => some (.leaf (linkLeaf l))
  | .deleted => none
  | .addedTree _ _ => none

/-- What stands at the path gives way to what the entry writes. -/
def GivesWay (d : WorkTree) : Path × DiffEntry → Prop
  | (p, .added _) => d.get p ≠ some .dir
  | (p, .modified _) => d.get p ≠ some .dir
  | (p, .addedEmptyDir) => ∀ x, d.get p ≠ some (.leaf x)
  | (p, .symlink _ _) => d.get p = some .dir → ∀ n, d.get (p ++ [n]) = none
  | (_, .deleted) => True
  | (_, .addedTree _ _) => False

/-- The working tree after an entry was written. -/
def WrittenTo (d : WorkTree) (x : Path × DiffEntry) (d' : WorkTree) : Prop :=
  ∀ q, d'.get q =
    match written x.2 with
    | none => d.get q
    | some k => if q = x.1 then some k else if q <+: x.1 then some .dir else d.get q

theorem applyWrite_effect (d : WorkTree) {x : Path × DiffEntry} (hp : x.1 ≠ []) :
    Effect (applyWrite x) d ((written x.2 ≠ none → OpenWay d x.1) ∧ GivesWay d x)
      fun _ d' => WrittenTo d x d' := by
  obtain ⟨p, c⟩ := x
  cases c with
  | added b =>
      exact (atomicWrite_effect d hp (blobLeaf b)).congr (by simp [written, GivesWay])
        fun _ _ _ h => h
  | modified b =>
      exact (atomicWrite_effect d hp (blobLeaf b)).congr (by simp [written, GivesWay])
        fun _ _ _ h => h
  | symlink l w =>
      exact (replaceSymlink_effect d hp (linkLeaf l)).congr (by simp [written, GivesWay])
        fun _ _ _ h => h
  | deleted =>
      refine (Effect.pure PUnit.unit d).congr (by simp [written, GivesWay]) ?_
      rintro - _ _ ⟨-, rfl⟩ q
      rfl
  | addedTree t m =>
      exact Effect.of_eq_error (e := .invalidComponent (p.getLastD "")) (t := d) rfl
        fun h => h.2
  | addedEmptyDir =>
      refine (createDirAll_effect d p).congr ?_ fun _ _ e hget q => ?_
      · simp only [written, GivesWay]
        constructor
        · exact fun h => ⟨fun _ a ha _ => h a ha, h p List.prefix_rfl⟩
        · rintro ⟨hway, hself⟩ a ha
          by_cases hap : a = p
          · exact hap ▸ hself
          · exact hway (by simp) a ha hap
      · rw [hget]
        simp only [written]
        by_cases hq : q = p
        · simp [hq]
        · simp [hq]

/-- Neither path is above the other, if both are written to. -/
def Apart (x y : Path × DiffEntry) : Prop :=
  written x.2 ≠ none → written y.2 ≠ none → ¬ x.1 <+: y.1 ∧ ¬ y.1 <+: x.1

/-- The working tree after all entries were written. -/
structure WrittenAll (order : List (Path × DiffEntry)) (d d' : WorkTree) : Prop where
  key : ∀ x ∈ order, ∀ k, written x.2 = some k → d'.get x.1 = some k
  above : ∀ q, (∃ x ∈ order, written x.2 ≠ none ∧ q <+: x.1 ∧ q ≠ x.1) → d'.get q = some .dir
  beside : ∀ q, (∀ x ∈ order, written x.2 ≠ none → ¬ q <+: x.1) → d'.get q = d.get q

/-- A path apart from the one written to keeps its kind, and so does what is below it. -/
theorem WrittenTo.get_of_not_prefix {d d' : WorkTree} {x : Path × DiffEntry} (h : WrittenTo d x d')
    {q : Path} (hq : written x.2 ≠ none → ¬ q <+: x.1) : d'.get q = d.get q := by
  rw [h q]
  cases hw : written x.2 with
  | none => rfl
  | some k =>
      have hno := hq (by simp [hw])
      have hne : q ≠ x.1 := by
        rintro rfl
        exact hno List.prefix_rfl
      simp [hno, hne]

theorem WrittenTo.get_leaf {d d' : WorkTree} {x : Path × DiffEntry} (h : WrittenTo d x d')
    {q : Path} {a : Leaf} (hq : q ≠ x.1) (hleaf : d'.get q = some (.leaf a)) :
    d.get q = some (.leaf a) := by
  rw [h q] at hleaf
  cases hw : written x.2 with
  | none => simpa [hw] using hleaf
  | some k =>
      simp only [hw, if_neg hq] at hleaf
      split_ifs at hleaf
      · cases hleaf
      · exact hleaf

theorem WrittenTo.givesWay_iff {d d' : WorkTree} {x y : Path × DiffEntry} (h : WrittenTo d x d')
    (hapart : Apart x y) : GivesWay d' y ↔ GivesWay d y := by
  by_cases hy : written y.2 = none
  · obtain ⟨p, c⟩ := y
    cases c <;> first | exact Iff.rfl | cases hy
  · have hself : ∀ r, d'.get (y.1 ++ r) = d.get (y.1 ++ r) := fun r =>
      h.get_of_not_prefix fun hx hpre => (hapart hx hy).2 ((List.prefix_append _ _).trans hpre)
    have hat : d'.get y.1 = d.get y.1 := by simpa using hself []
    obtain ⟨p, c⟩ := y
    cases c <;> simp_all [GivesWay]

theorem WrittenAll.cons {order : List (Path × DiffEntry)} {d e d' : WorkTree}
    {x : Path × DiffEntry} (h : WrittenAll order e d') (hx : WrittenTo d x e)
    (hapart : ∀ y ∈ order, Apart x y) : WrittenAll (x :: order) d d' where
  key := by
    intro y hy k hk
    obtain rfl | hy := List.mem_cons.mp hy
    · have hwy : written y.2 ≠ none := by simp [hk]
      rw [h.beside y.1 fun z hz hwz => (hapart z hz hwy hwz).1, hx y.1, hk]
      exact if_pos rfl
    · exact h.key y hy k hk
  above := by
    rintro q ⟨y, hy, hwy, hqy, hne⟩
    by_cases hbelow : ∃ z ∈ order, written z.2 ≠ none ∧ q <+: z.1
    · obtain ⟨z, hz, hwz, hqz⟩ := hbelow
      apply h.above q
      obtain rfl | hy := List.mem_cons.mp hy
      · refine ⟨z, hz, hwz, hqz, ?_⟩
        rintro rfl
        exact (hapart z hz hwy hwz).2 hqy
      · exact ⟨y, hy, hwy, hqy, hne⟩
    · obtain rfl | hy := List.mem_cons.mp hy
      · rw [h.beside q fun z hz hwz hqz => hbelow ⟨z, hz, hwz, hqz⟩, hx q]
        cases hk : written y.2 with
        | none => exact absurd hk hwy
        | some k => simp [hne, hqy]
      · exact absurd ⟨y, hy, hwy, hqy⟩ hbelow
  beside := by
    intro q hq
    rw [h.beside q fun y hy => hq y (by simp [hy])]
    exact hx.get_of_not_prefix (hq x (by simp))

/-- **`applyWrites_effect`** — entries on paths apart from each other are written in any order, if
nothing stands above any of them and each one's place gives way to it. -/
theorem applyWrites_effect {order : List (Path × DiffEntry)} {d : WorkTree}
    (hnil : ∀ x ∈ order, x.1 ≠ []) (hapart : order.Pairwise Apart)
    (hway : ∀ x ∈ order, written x.2 ≠ none → OpenWay d x.1) :
    Effect (order.forM applyWrite) d (∀ x ∈ order, GivesWay d x)
      fun _ d' => WrittenAll order d d' := by
  induction order generalizing d with
  | nil =>
      refine (Effect.pure PUnit.unit d).congr (by simp) ?_
      rintro - _ _ ⟨-, rfl⟩
      exact ⟨by simp, by simp, by simp⟩
  | cons x order ih =>
      rw [List.pairwise_cons] at hapart
      have hall : Effect (applyWrite x >>= fun _ => order.forM applyWrite) d
          (((written x.2 ≠ none → OpenWay d x.1) ∧ GivesWay d x) ∧ ∀ y ∈ order, GivesWay d y)
          fun _ d' => WrittenAll (x :: order) d d' := by
        apply (applyWrite_effect d (hnil x (by simp))).bind
        intro _ e _ hx
        have hway' : ∀ y ∈ order, written y.2 ≠ none → OpenWay e y.1 := by
          intro y hy hwy a ha hne z hz
          by_cases hax : a = x.1
          · by_cases hwx : written x.2 = none
            · refine hway y (by simp [hy]) hwy a ha hne z ?_
              rw [← hz, hx a, hwx]
            · exact (hapart.1 y hy hwx hwy).1 (hax ▸ ha)
          · exact hway y (by simp [hy]) hwy a ha hne z (hx.get_leaf hax hz)
        refine (ih (fun y hy => hnil y (by simp [hy])) hapart.2 hway').congr ?_ ?_
        · exact forall₂_congr fun y hy => hx.givesWay_iff (hapart.1 y hy)
        · intro _ _ d' hd'
          exact hd'.cons hx hapart.1
      refine hall.congr ?_ fun _ _ _ h => h
      constructor
      · rintro ⟨⟨-, h1⟩, h2⟩ y hy
        obtain rfl | hy := List.mem_cons.mp hy
        · exact h1
        · exact h2 y hy
      · exact fun h => ⟨⟨hway x (by simp), h x (by simp)⟩, fun y hy => h y (by simp [hy])⟩

end Omemfs.Sync
