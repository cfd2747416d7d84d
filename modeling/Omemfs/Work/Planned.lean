/-
# Omemfs.Work.Planned — what a restore plans where there are no stubs.

The two walks of the plan are told by the paths they meet.  The walk over `clone_root` plans for each
entry the one action that the entry needs, or none (`entryAction`).  The walk over the working tree looks at
what lies in the recorded directories and plans the removal of what has no entry (`extraAction`).  A
recorded name is left to the first walk, whatever lies under it.

So the plan has an action exactly if some path in its scope calls for it (`planRestore_spec`).
-/
import Omemfs.Scan.StillScope
import Omemfs.Scan.WellFormed
import Omemfs.Work.Restore

namespace Omemfs.Work

open Lib Scan Fsguard
open Omemfs.Sync (artifactPath)
open Omemfs.Sync.Checked (fileStubPath dirStubPath isFile)

/-! ## The plan of one path -/

section Actions

variable (cfg : RestoreConfig) (d : Disk)

/-- What a recorded blob needs. -/
def blobAction (rel : Path) (b : Blob) : List RestoreAction :=
  if cfg.contentMatches d rel b.hash = false then [.restoreBlobContent rel b]
  else if cfg.modeMatches d rel b.mode = false then [.restoreBlobModeOnly rel b.mode]
  else if cfg.conflictHelpersExist d rel then [.cleanupOnly rel]
  else []

/-- What a recorded entry needs. -/
def entryAction (rel : Path) : TreeEntry → List RestoreAction
  | .blob b => blobAction cfg d rel b
  | .tree _ _ => [.ensureDir rel]
  | .symlink l => if cfg.symlinkMatches d rel l.target then [] else [.restoreSymlink rel l]

/-- The removal of what is not recorded. -/
def removal (rel : Path) : Kind DiskLeaf → List RestoreAction
  | .dir => [.deleteAddedDir rel]
  | .leaf .special => []
  | .leaf _ => [.deleteFile rel]

/-- What becomes of something in a recorded directory; it is `known` if its name is recorded there. -/
def extraAction (known : Bool) (rel : Path) (n : String) (k : Kind DiskLeaf) : List RestoreAction :=
  if n = metadataDirName then []
  else if isConflictArtifact n || isWorkingTreeTmp n then [.deleteConflictArtifact rel]
  else if known then []
  else removal rel k

/-- What becomes of something below a directory, by its path from there. -/
def extraActions : Tree → Path → Path → Kind DiskLeaf → List RestoreAction
  | _, _, [], _ => []
  | t, dir, [n], k => extraAction (decide (n ∈ t.names)) (dir ++ [n]) n k
  | t, dir, n :: m :: p, k =>
      match t.find? n with
      | some (.tree s _) => extraActions s (dir ++ [n]) (m :: p) k
      | _ => []

end Actions

/-! ## Actions that a step of the plan adds -/

/-- The blobs that the actions need and the cache does not have. -/
def pendingOf (cfg : RestoreConfig) : List RestoreAction → List Hash :=
  List.filterMap fun a =>
    match a with
    | .restoreBlobContent _ b => if cfg.blobCached b.hash then none else some b.hash
    | _ => none

/-- A step of the plan adds these actions, and nothing else. -/
def Adds (cfg : RestoreConfig) (m : Planning PUnit) (l : List RestoreAction) : Prop :=
  ∀ plan, m plan = .ok ⟨⟩
    { plan with actions := plan.actions ++ l, pending := plan.pending ++ pendingOf cfg l }

namespace Adds

variable {cfg : RestoreConfig}

theorem of_pure : Adds cfg (pure PUnit.unit) [] := by
  intro plan
  show EStateM.Result.ok PUnit.unit plan = _
  simp [pendingOf]

theorem of_push {a : RestoreAction} (ha : pendingOf cfg [a] = []) : Adds cfg (.push a) [a] := by
  intro plan
  simp [Planning.push, ha]

theorem bind {m m' : Planning PUnit} {l l' : List RestoreAction} (h : Adds cfg m l)
    (h' : Adds cfg m' l') : Adds cfg (m >>= fun _ => m') (l ++ l') := by
  intro plan
  rw [bind_eq_of_ok (h plan), h']
  simp [pendingOf]

/-- One step after another, for each of a list. -/
theorem forM {ι : Type} {f : ι → Planning PUnit} {xs : List ι} {P : ι → RestoreAction → Prop}
    (h : ∀ x ∈ xs, ∃ l, Adds cfg (f x) l ∧ ∀ a, a ∈ l ↔ P x a) :
    ∃ l, Adds cfg (xs.forM f) l ∧ ∀ a, a ∈ l ↔ ∃ x ∈ xs, P x a := by
  induction xs with
  | nil => exact ⟨[], of_pure, by simp⟩
  | cons x xs ih =>
      obtain ⟨l, hl, hmem⟩ := h x (List.mem_cons_self ..)
      obtain ⟨l', hl', hmem'⟩ := ih fun y hy => h y (List.mem_cons_of_mem _ hy)
      refine ⟨l ++ l', hl.bind hl', fun a => ?_⟩
      rw [List.mem_append, hmem, hmem']
      simp

end Adds

/-! ## Looking into trees -/

/-- What is found in a tree is found in its first entry or in the others. -/
theorem exists_at_cons_iff {n : String} {x : TreeEntry} {rest : Tree} (hn : n ∉ rest.names)
    {P : String → Path → TreeEntry → Prop} :
    (∃ k p e, (Tree.cons n x rest).at (k :: p) = some e ∧ P k p e) ↔
      (∃ p e, x.at p = some e ∧ P n p e) ∨ ∃ k p e, rest.at (k :: p) = some e ∧ P k p e := by
  constructor
  · rintro ⟨k, p, e, he, h⟩
    rw [Tree.cons_at_cons] at he
    split_ifs at he with hk
    · exact .inl ⟨p, e, he, hk ▸ h⟩
    · exact .inr ⟨k, p, e, he, h⟩
  · rintro (⟨p, e, he, h⟩ | ⟨k, p, e, he, h⟩)
    · exact ⟨n, p, e, by rw [Tree.cons_at_cons, if_pos rfl, he], h⟩
    · have hk : k ≠ n := by
        rintro rfl
        rw [Tree.at_cons_of_not_mem hn] at he
        cases he
      exact ⟨k, p, e, by rw [Tree.cons_at_cons, if_neg hk, he], h⟩

/-- The entry itself or something below it. -/
theorem exists_at_iff {t : Tree} {m : TreeMeta} {P : Path → TreeEntry → Prop} :
    (∃ p e, (TreeEntry.tree t m).at p = some e ∧ P p e) ↔
      P [] (.tree t m) ∨ ∃ n p e, t.at (n :: p) = some e ∧ P (n :: p) e := by
  constructor
  · rintro ⟨_ | ⟨n, p⟩, e, he, h⟩
    · cases he
      exact .inl h
    · exact .inr ⟨n, p, e, he, h⟩
  · rintro (h | ⟨n, p, e, he, h⟩)
    · exact ⟨[], _, rfl, h⟩
    · exact ⟨n :: p, e, he, h⟩

/-! ## What is to be written -/

/-- Nothing in the working tree is a stub, and no symlink leads to one. -/
structure Unstubbed (cfg : RestoreConfig) (d : Disk) : Prop where
  named : ∀ p n, d.get (p ++ [n]) ≠ none → isStubFilename n = false
  file : ∀ p, cfg.stubExists d p = false
  dir : ∀ p, cfg.dirStubExists d p = false

/-- The tree objects below a tree are in the cache. -/
def SubtreesCached (cfg : RestoreConfig) (t : Tree) : Prop :=
  ∀ n p s m, t.at (n :: p) = some (.tree s m) → cfg.treeCached s = true

theorem SubtreesCached.of_cons {cfg : RestoreConfig} {n : String} {e : TreeEntry} {rest : Tree}
    (h : SubtreesCached cfg (Tree.cons n e rest)) (hn : n ∉ rest.names) :
    SubtreesCached cfg rest ∧ ∀ p s m, e.at p = some (.tree s m) → cfg.treeCached s = true := by
  constructor
  · intro k p s m hat
    have hk : k ≠ n := by
      rintro rfl
      rw [Tree.at_cons_of_not_mem hn] at hat
      cases hat
    exact h k p s m (by rw [Tree.cons_at_cons, if_neg hk, hat])
  · intro p s m hat
    exact h n p s m (by rw [Tree.cons_at_cons, if_pos rfl, hat])

section Walks

variable {cfg : RestoreConfig} {d : Disk}

theorem planBlob_adds (hu : Unstubbed cfg d) (rel : Path) (b : Blob) :
    Adds cfg (planBlob cfg d rel b) (blobAction cfg d rel b) := by
  have hplan : planBlob cfg d rel b = planRestoreBlobAction cfg d rel b := by
    simp [planBlob, hu.file, hu.dir]
  rw [hplan]
  intro plan
  unfold planRestoreBlobAction blobAction
  cases cfg.contentMatches d rel b.hash with
  | false =>
      by_cases hc : cfg.blobCached b.hash = true
      · simp only [Bool.false_and, Bool.false_eq_true, if_false, Bool.not_false, if_true, hc]
        rw [bind_eq_of_ok (show (pure PUnit.unit : Planning PUnit) plan = .ok ⟨⟩ plan from rfl)]
        simp [Planning.push, pendingOf, hc]
      · simp only [Bool.false_and, Bool.false_eq_true, if_false, Bool.not_false, if_true, hc]
        rw [bind_eq_of_ok (m := Planning.pend b.hash) rfl]
        simp [Planning.push, pendingOf, hc]
  | true =>
      cases cfg.modeMatches d rel b.mode with
      | false => simp [Planning.push, pendingOf]
      | true =>
          cases cfg.conflictHelpersExist d rel with
          | false => exact Adds.of_pure plan
          | true => simp [Planning.push, pendingOf]

theorem planSymlink_adds (rel : Path) (l : Symlink) :
    Adds cfg (planSymlink cfg d rel l) (entryAction cfg d rel (.symlink l)) := by
  unfold planSymlink
  by_cases h : cfg.symlinkMatches d rel l.target = true
  · rw [if_pos h, show entryAction cfg d rel (.symlink l) = [] from if_pos h]
    exact Adds.of_pure
  · rw [if_neg h, show entryAction cfg d rel (.symlink l) = [.restoreSymlink rel l] from if_neg h]
    exact Adds.of_push rfl

theorem planSubtree_eq (hu : Unstubbed cfg d) (rel : Path) (t : Tree) (m : TreeMeta)
    (descend : Planning PUnit) : planSubtree cfg d rel t m descend = descend := by
  simp [planSubtree, hu.file, hu.dir]

theorem readTreeEntries_eq {t : Tree} (h : cfg.treeCached t = true) (rel : Path)
    (entries : Planning PUnit) : readTreeEntries cfg t rel entries = entries := by
  simp [readTreeEntries, h]

/-- **`planEntries_adds`** — each entry below the directory gets what it needs. -/
theorem planEntries_adds (hu : Unstubbed cfg d) {t : Tree} (hwn : t.WellNamed)
    (hc : SubtreesCached cfg t) (dir : Path) :
    ∃ l, Adds cfg (planEntries cfg d t dir) l ∧ ∀ a, a ∈ l ↔
      ∃ n p e, t.at (n :: p) = some e ∧ a ∈ entryAction cfg d (dir ++ n :: p) e := by
  induction t generalizing dir with
  | nil => exact ⟨[], Adds.of_pure, by simp⟩
  | blob n b rest ih =>
      obtain ⟨hn, -, hrest⟩ := hwn
      obtain ⟨l, hl, hmem⟩ := ih hrest (hc.of_cons (e := .blob b) hn).1 dir
      refine ⟨_, (planBlob_adds hu (dir ++ [n]) b).bind hl, fun a => ?_⟩
      rw [List.mem_append, hmem]
      refine Iff.trans (or_congr ?_ Iff.rfl) (exists_at_cons_iff (x := .blob b) hn
        (P := fun k p e => a ∈ entryAction cfg d (dir ++ k :: p) e)).symm
      constructor
      · intro ha
        exact ⟨[], .blob b, rfl, ha⟩
      · rintro ⟨_ | ⟨k, p⟩, e, he, ha⟩
        · cases he
          exact ha
        · cases he
  | tree n s m rest ihs ih =>
      obtain ⟨hn, -, hs, hrest⟩ := hwn
      obtain ⟨hcrest, hcs⟩ := hc.of_cons (e := .tree s m) hn
      obtain ⟨l, hl, hmem⟩ := ih hrest hcrest dir
      obtain ⟨l', hl', hmem'⟩ := ihs hs (fun k p => hcs (k :: p)) (dir ++ [n])
      have hstep : Adds cfg (planSubtree cfg d (dir ++ [n]) s m (readTreeEntries cfg s (dir ++ [n])
          (.push (.ensureDir (dir ++ [n])) >>= fun _ => planEntries cfg d s (dir ++ [n]))))
          ([.ensureDir (dir ++ [n])] ++ l') := by
        rw [planSubtree_eq hu, readTreeEntries_eq (hcs [] s m rfl)]
        exact (Adds.of_push rfl).bind hl'
      refine ⟨_, hstep.bind hl, fun a => ?_⟩
      rw [List.mem_append, List.mem_append, hmem, hmem']
      refine Iff.trans (or_congr ?_ Iff.rfl) (exists_at_cons_iff (x := .tree s m) hn
        (P := fun k p e => a ∈ entryAction cfg d (dir ++ k :: p) e)).symm
      rw [exists_at_iff]
      simp [entryAction]
  | symlink n y rest ih =>
      obtain ⟨hn, -, hrest⟩ := hwn
      obtain ⟨l, hl, hmem⟩ := ih hrest (hc.of_cons (e := .symlink y) hn).1 dir
      refine ⟨_, (planSymlink_adds (dir ++ [n]) y).bind hl, fun a => ?_⟩
      rw [List.mem_append, hmem]
      refine Iff.trans (or_congr ?_ Iff.rfl) (exists_at_cons_iff (x := .symlink y) hn
        (P := fun k p e => a ∈ entryAction cfg d (dir ++ k :: p) e)).symm
      constructor
      · intro ha
        exact ⟨[], .symlink y, rfl, ha⟩
      · rintro ⟨_ | ⟨k, p⟩, e, he, ha⟩
        · cases he
          exact ha
        · cases he

/-- The directory itself is made, too. -/
theorem planTree_adds (hu : Unstubbed cfg d) {t : Tree} (hwn : t.WellNamed)
    (hroot : cfg.treeCached t = true) (hc : SubtreesCached cfg t) (dir : Path) :
    ∃ l, Adds cfg (planTree cfg d t dir) l ∧ ∀ a, a ∈ l ↔
      ∃ p e, t.at p = some e ∧ a ∈ entryAction cfg d (dir ++ p) e := by
  obtain ⟨l, hl, hmem⟩ := planEntries_adds hu hwn hc dir
  have hstep : Adds cfg (planTree cfg d t dir) ([.ensureDir dir] ++ l) := by
    unfold planTree
    rw [readTreeEntries_eq hroot]
    exact (Adds.of_push rfl).bind hl
  refine ⟨_, hstep, fun a => ?_⟩
  rw [List.mem_append, hmem]
  refine Iff.trans ?_ (exists_at_iff (t := t) (m := ⟨none, 0, 0⟩)
    (P := fun p e => a ∈ entryAction cfg d (dir ++ p) e)).symm
  simp [entryAction]

/-! ## What is to be removed -/

/-- A recorded name is none of the command's own. -/
theorem own_of_valid {n : String} (h : ValidName n) :
    n ≠ metadataDirName ∧ isConflictArtifact n = false ∧ isWorkingTreeTmp n = false ∧
      isStubFilename n = false := by
  obtain ⟨hx, hs⟩ := kept_of_valid h
  simp only [isExcluded, Bool.or_eq_false_iff, beq_eq_false_iff_ne] at hx
  refine ⟨hx.1.1.1, hx.1.1.2, hx.1.2, ?_⟩
  rw [Bool.eq_false_iff]
  intro hstub
  have hends : endsWith n stubSuffix = true := hstub
  rw [logicalName, stripSuffix, if_pos hends] at hs
  cases hs

/-- No name on a path is a stub file's. -/
def NoStubNames (d : Disk) : Prop := ∀ q, d.get q ≠ none → ∀ n ∈ q, isStubFilename n = false

theorem Unstubbed.noStubNames (hu : Unstubbed cfg d) : NoStubNames d := by
  intro q hq n hn
  obtain ⟨a, b, rfl⟩ := List.append_of_mem hn
  apply hu.named a n
  cases b with
  | nil => exact hq
  | cons m b =>
      have hdir : d.get (a ++ [n]) = some .dir :=
        DirTree.get_of_append (n := m) (q := b) (by simpa using hq)
      simp [hdir]

theorem planListed_adds {t : Tree} {n : String} (hn : isStubFilename n = false) {dir : Path}
    {known unknown : Planning PUnit} {lk lu : List RestoreAction}
    (hk : n ∈ t.names → Adds cfg known lk) (hu : n ∉ t.names → Adds cfg unknown lu) :
    Adds cfg (planListed t dir n known unknown)
      (if n = metadataDirName then []
        else if isConflictArtifact n || isWorkingTreeTmp n then [.deleteConflictArtifact (dir ++ [n])]
        else if n ∈ t.names then lk else lu) := by
  unfold planListed
  simp only [hn, Bool.false_eq_true, if_false]
  split_ifs with hmeta hown hmem
  · exact Adds.of_pure
  · exact Adds.of_push (by rfl)
  · exact hk hmem
  · exact hu hmem

/-- Below a name that is recorded as something else than a directory nothing is removed. -/
theorem extraActions_cons_cons (t : Tree) (dir : Path) (n m : String) (p : Path) (k : Kind DiskLeaf) :
    extraActions t dir (n :: m :: p) k = match t.find? n with
      | some (.tree s _) => extraActions s (dir ++ [n]) (m :: p) k
      | _ => [] := rfl

/-- **`planRemoveListed_adds`** — everything that lies in the directory is treated as it has to be. -/
theorem planRemoveListed_adds (hdir : ∀ p, cfg.dirStubExists d p = false) {s : Disk} (hwf : s.Wf)
    (hnames : NoStubNames s) {t : Tree} (hwn : t.WellNamed) (hc : SubtreesCached cfg t) (dir : Path) :
    ∃ l, Adds cfg (planRemoveListed cfg d s t dir) l ∧ ∀ a, a ∈ l ↔
      ∃ n p k, s.get (n :: p) = some k ∧ a ∈ extraActions t dir (n :: p) k := by
  induction s generalizing t dir with
  | nil => exact ⟨[], Adds.of_pure, by simp⟩
  | leaf n x rest ih =>
      obtain ⟨hn, hrest⟩ := hwf
      have hstub : isStubFilename n = false :=
        hnames [n] (by simp [DirTree.get_leaf_cons]) n (List.mem_singleton_self n)
      have hrestnames : NoStubNames rest := by
        rintro (_ | ⟨m, q⟩) hq
        · simp
        · have hm : m ≠ n := by
            rintro rfl
            exact hq (DirTree.get_cons_of_none (DirTree.find?_eq_none_iff.mpr hn) q)
          exact hnames (m :: q) (by rw [DirTree.get_leaf_cons, if_neg hm]; exact hq)
      obtain ⟨l, hl, hmem⟩ := ih hrest hrestnames hwn hc dir
      have hunknown : Adds cfg (planUnknownLeaf (dir ++ [n]) x)
          (removal (dir ++ [n]) (.leaf x)) := by
        cases x with
        | special => exact Adds.of_pure
        | file c stat => exact Adds.of_push (by rfl)
        | symlink target m => exact Adds.of_push (by rfl)
      have hfirst := @planListed_adds cfg t n hstub dir _ _ _ _ (fun _ => Adds.of_pure)
        fun _ => hunknown
      refine ⟨_, hfirst.bind hl, fun a => ?_⟩
      rw [List.mem_append, hmem, DirTree.exists_get_leaf_iff hn
        (P := fun m p k => a ∈ extraActions t dir (m :: p) k)]
      apply or_congr _ Iff.rfl
      show _ ↔ a ∈ extraAction (decide (n ∈ t.names)) (dir ++ [n]) n (.leaf x)
      unfold extraAction
      by_cases hknown : n ∈ t.names <;> simp [hknown]
  | sub n c rest ihc ih =>
      obtain ⟨hn, hcwf, hrest⟩ := hwf
      have hstub : isStubFilename n = false :=
        hnames [n] (by simp [DirTree.get_sub_cons]) n (List.mem_singleton_self n)
      have hrestnames : NoStubNames rest := by
        rintro (_ | ⟨m, q⟩) hq
        · simp
        · have hm : m ≠ n := by
            rintro rfl
            exact hq (DirTree.get_cons_of_none (DirTree.find?_eq_none_iff.mpr hn) q)
          exact hnames (m :: q) (by rw [DirTree.get_sub_cons, if_neg hm]; exact hq)
      have hcnames : NoStubNames c := by
        intro q hq k hk
        exact hnames (n :: q) (by rw [DirTree.get_sub_cons, if_pos rfl]; exact hq) k
          (List.mem_cons_of_mem _ hk)
      obtain ⟨l, hl, hmem⟩ := ih hrest hrestnames hwn hc dir
      -- what lies in the directory is left alone unless a directory is recorded there
      obtain ⟨lk, hlk, hmemk⟩ : ∃ lk, Adds cfg (if cfg.dirStubExists d (dir ++ [n]) then pure PUnit.unit
          else match t.find? n with
            | some (.tree t' _) => readTreeEntries cfg t' (dir ++ [n])
                (planRemoveListed cfg d c t' (dir ++ [n]))
            | _ => pure PUnit.unit) lk ∧ ∀ a, a ∈ lk ↔
              ∃ m p k, c.get (m :: p) = some k ∧ a ∈ extraActions t dir (n :: m :: p) k := by
        simp only [hdir, Bool.false_eq_true, if_false, extraActions_cons_cons]
        rcases hfind : t.find? n with _ | b | ⟨t', m⟩ | y
        · exact ⟨[], Adds.of_pure, by simp⟩
        · exact ⟨[], Adds.of_pure, by simp⟩
        · have hat : t.at [n] = some (.tree t' m) := by rw [Tree.at_singleton, hfind]
          have hct : SubtreesCached cfg t' := by
            intro k p s' m' hk
            refine hc n (k :: p) s' m' ?_
            rw [Tree.at_cons, hfind]
            exact hk
          show ∃ lk, Adds cfg (readTreeEntries cfg t' (dir ++ [n])
            (planRemoveListed cfg d c t' (dir ++ [n]))) lk ∧ _
          rw [readTreeEntries_eq (hc n [] t' m hat)]
          exact ihc hcwf hcnames (hwn.of_find? hfind).2 hct (dir ++ [n])
        · exact ⟨[], Adds.of_pure, by simp⟩
      have hfirst := @planListed_adds cfg t n hstub dir _ _ _ _ (fun _ => hlk)
        fun _ => Adds.of_push (a := .deleteAddedDir (dir ++ [n])) rfl
      refine ⟨_, hfirst.bind hl, fun a => ?_⟩
      rw [List.mem_append, hmem, DirTree.exists_get_sub_iff hn
        (P := fun m p k => a ∈ extraActions t dir (m :: p) k), DirTree.exists_get_iff
        (P := fun p k => a ∈ extraActions t dir (n :: p) k), ← hmemk a]
      apply or_congr _ Iff.rfl
      show _ ↔ a ∈ extraAction (decide (n ∈ t.names)) (dir ++ [n]) n .dir ∨ a ∈ lk
      by_cases hknown : n ∈ t.names
      · obtain ⟨hmeta, hart, htmp, -⟩ := own_of_valid (hwn.valid hknown)
        simp [extraAction, hknown, hmeta, hart, htmp]
      · have hempty : a ∉ lk := by
          rw [hmemk]
          rintro ⟨m, p, k, -, ha⟩
          rw [extraActions_cons_cons, Tree.find?_eq_none_iff.mpr hknown] at ha
          cases ha
        simp [extraAction, removal, hknown, hempty]

end Walks

/-! ## Where no symlink is on the way -/

section Way

variable {cfg : RestoreConfig} {d : Disk} {p : Path}

theorem isLinkAt_eq_true_iff :
    RestoreConfig.isLinkAt d p = true ↔ ∃ target m, d.get p = some (.leaf (.symlink target m)) := by
  unfold RestoreConfig.isLinkAt
  rcases d.get p with _ | _ | _ | ⟨target, m⟩ | _ <;> simp

theorem linkAbove_of_openWay (h : OpenWay d p) : RestoreConfig.linkAbove d p = false := by
  unfold RestoreConfig.linkAbove
  rw [List.any_eq_false]
  intro a ha
  rw [isLinkAt_eq_true_iff]
  rintro ⟨target, m, hget⟩
  rcases List.eq_nil_or_concat p with rfl | ⟨q, n, rfl⟩
  · rw [List.mem_inits] at ha
    rw [List.prefix_nil.mp ha] at hget
    cases hget
  · rw [List.mem_inits, List.concat_eq_append, List.dropLast_concat] at ha
    have hne : a ≠ q ++ [n] := by
      rintro rfl
      simpa using ha.length_le
    rw [List.concat_eq_append] at h
    exact h a (ha.trans (List.prefix_append q [n])) hne _ hget

theorem lstat_of_openWay (h : OpenWay d p) : cfg.lstat d p = d.get p := by
  simp [RestoreConfig.lstat, linkAbove_of_openWay h]

theorem stat_of_openWay (h : OpenWay d p) (hlink : RestoreConfig.isLinkAt d p = false) :
    cfg.stat d p = d.get p := by
  simp [RestoreConfig.stat, linkAbove_of_openWay h, hlink]

theorem readDir_of_openWay (h : OpenWay d p) (hleaf : ∀ x, d.get p ≠ some (.leaf x)) :
    (d.get p = none ∧ cfg.readDir d p = .error .enoent) ∨
      ∃ s, d.at p = some (.sub s) ∧ cfg.readDir d p = .ok s := by
  have hlink : RestoreConfig.isLinkAt d p = false := by
    rw [Bool.eq_false_iff, ne_eq, isLinkAt_eq_true_iff]
    rintro ⟨target, m, hget⟩
    exact hleaf _ hget
  unfold RestoreConfig.readDir
  rw [linkAbove_of_openWay h, hlink]
  rcases hat : d.at p with _ | a | s
  · exact .inl ⟨DirTree.get_eq_none_iff.mpr hat, rfl⟩
  · exact absurd (DirTree.get_eq_leaf_iff.mpr hat) (hleaf a)
  · exact .inr ⟨s, rfl, rfl⟩

end Way

/-! ## The whole plan -/

/-- The directory that is recorded at a path. -/
def DirAt (t : Tree) (q : Path) (s : Tree) : Prop := ∃ m, t.at q = some (.tree s m)

theorem dirAt_nil {t s : Tree} : DirAt t [] s ↔ s = t := by
  constructor
  · rintro ⟨m, h⟩
    cases h
    rfl
  · rintro rfl
    exact ⟨_, rfl⟩

theorem dirAt_cons {t s : Tree} {n : String} {q : Path} :
    DirAt t (n :: q) s ↔ ∃ t' m, t.find? n = some (.tree t' m) ∧ DirAt t' q s := by
  unfold DirAt
  rw [Tree.at_cons]
  rcases t.find? n with _ | b | ⟨t', m⟩ | y
  · simp
  · cases q <;> simp [TreeEntry.at_cons, TreeEntry.children]
  · cases q with
    | nil =>
        constructor
        · rintro ⟨m', h⟩
          cases h
          exact ⟨s, m, rfl, dirAt_nil.mpr rfl⟩
        · rintro ⟨t'', m'', h, hs⟩
          cases h
          rw [show s = t' from dirAt_nil.mp hs]
          exact ⟨m, rfl⟩
    | cons k q =>
        constructor
        · intro h
          exact ⟨t', m, rfl, h⟩
        · rintro ⟨t'', m'', h, hs⟩
          cases h
          exact hs
  · cases q <;> simp [TreeEntry.at_cons, TreeEntry.children]

theorem DirAt.wellNamed {t s : Tree} {q : Path} (h : DirAt t q s) (hwn : t.WellNamed) :
    s.WellNamed := by
  induction q generalizing t with
  | nil => exact dirAt_nil.mp h ▸ hwn
  | cons n q ih =>
      obtain ⟨t', m, hfind, h⟩ := dirAt_cons.mp h
      exact ih h (hwn.of_find? hfind).2

theorem mem_extraActions {t : Tree} {dir p : Path} {k : Kind DiskLeaf} {a : RestoreAction} :
    a ∈ extraActions t dir p k ↔ ∃ q n s, p = q ++ [n] ∧ DirAt t q s ∧
      a ∈ extraAction (decide (n ∈ s.names)) (dir ++ p) n k := by
  induction p generalizing t dir with
  | nil =>
      constructor
      · intro h
        cases h
      · rintro ⟨q, n, s, h, -⟩
        simp at h
  | cons n p ih =>
      cases p with
      | nil =>
          constructor
          · intro h
            exact ⟨[], n, t, rfl, dirAt_nil.mpr rfl, h⟩
          · rintro ⟨_ | ⟨x, q⟩, n', s, heq, hat, h⟩
            · cases heq
              rwa [dirAt_nil.mp hat] at h
            · simp at heq
      | cons n' p =>
          rw [extraActions_cons_cons]
          constructor
          · intro h
            rcases hfind : t.find? n with _ | b | ⟨s, m⟩ | y
            · simp [hfind] at h
            · simp [hfind] at h
            · simp only [hfind] at h
              obtain ⟨q, k', s', heq, hat, h⟩ := ih.mp h
              exact ⟨n :: q, k', s', by rw [heq]; rfl, dirAt_cons.mpr ⟨s, m, hfind, hat⟩,
                by simpa using h⟩
            · simp [hfind] at h
          · rintro ⟨_ | ⟨x, q⟩, k', s', heq, hat, h⟩
            · simp at heq
            · obtain ⟨hx, htail⟩ := List.cons_eq_cons.mp (heq.trans (List.cons_append ..))
              subst hx
              obtain ⟨t', m, hfind, hat⟩ := dirAt_cons.mp hat
              simp only [hfind]
              exact ih.mpr ⟨q, k', s', htail, hat, by simpa using h⟩

theorem dirAt_append {t s s' : Tree} {q p : Path} (h : DirAt t q s) :
    DirAt t (q ++ p) s' ↔ DirAt s p s' := by
  induction q generalizing t with
  | nil =>
      rw [dirAt_nil.mp h]
      exact Iff.rfl
  | cons n q ih =>
      obtain ⟨t', m, hfind, h⟩ := dirAt_cons.mp h
      rw [List.cons_append, dirAt_cons, ← ih h]
      constructor
      · rintro ⟨t'', m', hfind', h'⟩
        rw [hfind] at hfind'
        cases hfind'
        exact h'
      · intro h'
        exact ⟨t', m, hfind, h'⟩

/-- Nothing is recorded below what is no directory. -/
theorem eq_of_at_below {t : Tree} {q p : Path} {e : TreeEntry} (h : t.at q = some e)
    (he : e.isTree = false) (hle : q <+: p) (hp : t.at p ≠ none) : p = q := by
  obtain ⟨r, rfl⟩ := hle
  cases r with
  | nil => simp
  | cons n r =>
      obtain ⟨s, m, hs⟩ := Tree.isTree_of_at_append (q := n :: r) (by simp) hp
      rw [h] at hs
      cases hs
      cases he

/-- Some path of the scope calls for the action. -/
def Calls (cfg : RestoreConfig) (d : Disk) (t : Tree) (scope : Path → Prop) (a : RestoreAction) : Prop :=
  (∃ q e, scope q ∧ t.at q = some e ∧ a ∈ entryAction cfg d q e) ∨
    ∃ q n s k, scope q ∧ DirAt t q s ∧ d.get (q ++ [n]) = some k ∧
      a ∈ extraAction (decide (n ∈ s.names)) (q ++ [n]) n k

/-- A path that can be given to the command: it is recorded, and no file or symlink stands above it or in
the place of a directory. -/
structure Given (t : Tree) (d : Disk) (p : Path) : Prop where
  recorded : t.at p ≠ none
  way : OpenWay d p
  standing : ∀ s, DirAt t p s → ∀ x, d.get p ≠ some (.leaf x)

section Top

variable {cfg : RestoreConfig} {d : Disk} {t : Tree}

theorem navigateCached_found (hroot : cfg.treeCached t = true) (hc : SubtreesCached cfg t) {p : Path}
    (hp : p ≠ []) {e : TreeEntry} (h : t.at p = some e) :
    navigateCached cfg t p = .found (some e) := by
  induction p generalizing t with
  | nil => exact absurd rfl hp
  | cons n p ih =>
      cases p with
      | nil =>
          rw [Tree.at_singleton] at h
          simp [navigateCached, hroot, h]
      | cons k p =>
          obtain ⟨s, m, hs⟩ := Tree.isTree_of_at_append (p := [n]) (q := k :: p) (by simp)
            (t := t) (by simp [h])
          rw [Tree.at_singleton] at hs
          have hat : s.at (k :: p) = some e := by
            rw [Tree.at_cons, hs] at h
            exact h
          simp only [navigateCached, hroot, if_true, hs]
          refine ih (hc n [] s m (by rw [Tree.at_singleton, hs])) ?_ (by simp) hat
          intro k' p' s' m' hat'
          refine hc n (k' :: p') s' m' ?_
          rw [Tree.at_cons, hs]
          exact hat'

/-- The plan of a directory. -/
theorem planDir_adds (hu : Unstubbed cfg d) (hwf : d.Wf) (hwn : t.WellNamed)
    (hroot : cfg.treeCached t = true) (hc : SubtreesCached cfg t) {q : Path} {s : Tree}
    (hs : DirAt t q s) (hway : OpenWay d q) (hleaf : ∀ x, d.get q ≠ some (.leaf x)) :
    ∃ l, Adds cfg (planTree cfg d s q >>= fun _ => planRemoveAddedFiles cfg d s q) l ∧
      ∀ a, a ∈ l ↔ Calls cfg d t (q <+: ·) a := by
  have hcs : cfg.treeCached s = true ∧ SubtreesCached cfg s := by
    cases q with
    | nil => exact dirAt_nil.mp hs ▸ ⟨hroot, hc⟩
    | cons n q =>
        obtain ⟨m, hat⟩ := hs
        refine ⟨hc n q s m hat, fun k p s' m' hat' => hc n (q ++ k :: p) s' m' ?_⟩
        rw [← List.cons_append, Tree.at_append, hat]
        exact hat'
  obtain ⟨l, hl, hmem⟩ := planTree_adds hu (hs.wellNamed hwn) hcs.1 hcs.2 q
  obtain ⟨l', hl', hmem'⟩ : ∃ l', Adds cfg (planRemoveAddedFiles cfg d s q) l' ∧ ∀ a, a ∈ l' ↔
      ∃ p n s' k, DirAt s p s' ∧ d.get (q ++ p ++ [n]) = some k ∧
        a ∈ extraAction (decide (n ∈ s'.names)) (q ++ p ++ [n]) n k := by
    unfold planRemoveAddedFiles
    rw [readTreeEntries_eq hcs.1]
    rcases @readDir_of_openWay cfg d q hway hleaf with ⟨hnone, hread⟩ | ⟨c, hat, hread⟩
    · rw [hread]
      refine ⟨[], Adds.of_pure, fun a => iff_of_false (by simp) ?_⟩
      rintro ⟨p, n, s', k, -, hget, -⟩
      have hsplit : q ++ p ++ [n] = q ++ (p ++ [n]) := List.append_assoc ..
      rw [hsplit] at hget
      obtain ⟨m, r, hr⟩ := List.exists_cons_of_ne_nil (l := p ++ [n]) (by simp)
      rw [hr, DirTree.get_append_of_not_dir (by simp [hnone])] at hget
      cases hget
    · rw [hread]
      have hget : ∀ p, d.get (q ++ p) = c.get p := by
        intro p
        rw [DirTree.get, DirTree.at_append, hat]
        rfl
      have hnames : NoStubNames c := by
        intro p hp n hn
        exact hu.noStubNames (q ++ p) (by rwa [hget]) n (List.mem_append_right _ hn)
      obtain ⟨l', hl', hmem'⟩ := planRemoveListed_adds hu.dir (wf_of_at hwf hat) hnames
        (hs.wellNamed hwn) hcs.2 q
      refine ⟨l', hl', fun a => ?_⟩
      rw [hmem']
      constructor
      · rintro ⟨m, r, k, hk, ha⟩
        obtain ⟨p, n, s', heq, hat', ha⟩ := mem_extraActions.mp ha
        rw [heq] at hk ha
        exact ⟨p, n, s', k, hat', by rw [List.append_assoc, hget, hk], by rwa [List.append_assoc]⟩
      · rintro ⟨p, n, s', k, hat', hk, ha⟩
        rw [List.append_assoc] at hk ha
        obtain ⟨m, r, hr⟩ := List.exists_cons_of_ne_nil (l := p ++ [n]) (by simp)
        refine ⟨m, r, k, by rw [← hget, ← hr, hk], ?_⟩
        rw [← hr]
        exact mem_extraActions.mpr ⟨p, n, s', rfl, hat', ha⟩
  refine ⟨l ++ l', hl.bind hl', fun a => ?_⟩
  rw [List.mem_append, hmem, hmem']
  apply or_congr
  · -- the entry of the directory itself calls for the same, whatever else is recorded of it
    obtain ⟨m, hat⟩ := hs
    have hroots : (∃ p e, s.at p = some e ∧ a ∈ entryAction cfg d (q ++ p) e) ↔
        ∃ p e, (TreeEntry.tree s m).at p = some e ∧ a ∈ entryAction cfg d (q ++ p) e :=
      (exists_at_iff (m := ⟨none, 0, 0⟩) (P := fun p e => a ∈ entryAction cfg d (q ++ p) e)).trans
        (exists_at_iff (m := m) (P := fun p e => a ∈ entryAction cfg d (q ++ p) e)).symm
    rw [hroots]
    constructor
    · rintro ⟨p, e, he, ha⟩
      exact ⟨q ++ p, e, List.prefix_append q p, by rw [Tree.at_append, hat]; exact he, ha⟩
    · rintro ⟨_, e, ⟨p, rfl⟩, he, ha⟩
      rw [Tree.at_append, hat] at he
      exact ⟨p, e, he, ha⟩
  · constructor
    · rintro ⟨p, n, s', k, hat, hk, ha⟩
      exact ⟨q ++ p, n, s', k, List.prefix_append q p, (dirAt_append hs).mpr hat, hk, ha⟩
    · rintro ⟨_, n, s', k, ⟨p, rfl⟩, hat, hk, ha⟩
      exact ⟨p, n, s', k, (dirAt_append hs).mp hat, hk, ha⟩

/-- What is no directory calls for its own action only. -/
theorem calls_iff_of_leaf {q : Path} {e : TreeEntry} (h : t.at q = some e) (he : e.isTree = false)
    (a : RestoreAction) : Calls cfg d t (q <+: ·) a ↔ a ∈ entryAction cfg d q e := by
  constructor
  · rintro (⟨p, e', hle, hat, ha⟩ | ⟨p, n, s, k, hle, ⟨m, hat⟩, -, -⟩)
    · obtain rfl := eq_of_at_below h he hle (by simp [hat])
      rw [h] at hat
      cases hat
      exact ha
    · obtain rfl := eq_of_at_below h he hle (by simp [hat])
      rw [h] at hat
      cases hat
      cases he
  · intro ha
    exact .inl ⟨q, e, List.prefix_rfl, h, ha⟩

/-- The plan of a given path. -/
theorem planOne_adds (hu : Unstubbed cfg d) (hwf : d.Wf) (hwn : t.WellNamed)
    (hroot : cfg.treeCached t = true) (hc : SubtreesCached cfg t) {q : Path} (hg : Given t d q) :
    ∃ l, Adds cfg (planOne cfg d t q) l ∧ ∀ a, a ∈ l ↔ Calls cfg d t (q <+: ·) a := by
  unfold planOne
  split_ifs with hq
  · subst hq
    exact planDir_adds hu hwf hwn hroot hc (dirAt_nil.mpr rfl) hg.way
      (hg.standing t (dirAt_nil.mpr rfl))
  · obtain ⟨e, he⟩ := Option.ne_none_iff_exists'.mp hg.recorded
    unfold planPath
    rw [navigateCached_found hroot hc hq he]
    cases e with
    | blob b => exact ⟨_, planBlob_adds hu q b, fun a => (calls_iff_of_leaf he rfl a).symm⟩
    | tree s m =>
        show ∃ l, Adds cfg (planSubtree cfg d q s m
          (planTree cfg d s q >>= fun _ => planRemoveAddedFiles cfg d s q)) l ∧ _
        rw [planSubtree_eq hu]
        exact planDir_adds hu hwf hwn hroot hc ⟨m, he⟩ hg.way (hg.standing s ⟨m, he⟩)
    | symlink y => exact ⟨_, planSymlink_adds q y, fun a => (calls_iff_of_leaf he rfl a).symm⟩

end Top

/-! ## Several paths -/

/-- At or below one of the given paths. -/
def InScope (rels : List Path) (q : Path) : Prop := ∃ p ∈ rels, p <+: q

theorem inScope_keepTop {kept : List Path} {rel q : Path} :
    InScope (keepTop kept rel) q ↔ InScope kept q ∨ rel <+: q := by
  unfold keepTop InScope isAncestorOrEqual
  split_ifs with h
  · obtain ⟨p, hp, hle⟩ := List.any_eq_true.mp h
    rw [decide_eq_true_eq] at hle
    constructor
    · exact .inl
    · rintro (hq | hq)
      · exact hq
      · exact ⟨p, hp, hle.trans hq⟩
  · constructor
    · rintro ⟨p, hp, hle⟩
      rcases List.mem_append.mp hp with hp | hp
      · exact .inl ⟨p, (List.mem_filter.mp hp).1, hle⟩
      · exact .inr (List.mem_singleton.mp hp ▸ hle)
    · rintro (⟨p, hp, hle⟩ | hle)
      · by_cases hrel : rel <+: p
        · exact ⟨rel, by simp, hrel.trans hle⟩
        · exact ⟨p, by simp [hp, hrel], hle⟩
      · exact ⟨rel, by simp, hle⟩

theorem mem_keepTop {kept : List Path} {rel p : Path} (h : p ∈ keepTop kept rel) :
    p ∈ kept ∨ p = rel := by
  unfold keepTop at h
  split_ifs at h
  · exact .inl h
  · rcases List.mem_append.mp h with h | h
    · exact .inl (List.mem_filter.mp h).1
    · exact .inr (List.mem_singleton.mp h)

/-- **`collapse_covers`** — the paths that are kept are some of those given, and cover the same. -/
theorem collapse_covers (rels : List Path) :
    (∀ p ∈ collapseDedupPaths rels, p ∈ rels) ∧
      ∀ q, InScope (collapseDedupPaths rels) q ↔ InScope rels q := by
  unfold collapseDedupPaths
  split_ifs with h
  · constructor
    · intro p hp
      exact List.mem_singleton.mp hp ▸ h
    · intro q
      constructor
      · rintro -
        exact ⟨[], h, List.nil_prefix⟩
      · rintro -
        exact ⟨[], List.mem_singleton_self _, List.nil_prefix⟩
  · suffices hfold : ∀ (l kept : List Path), (∀ p ∈ l.foldl keepTop kept, p ∈ kept ∨ p ∈ l) ∧
        ∀ q, InScope (l.foldl keepTop kept) q ↔ InScope kept q ∨ InScope l q by
      obtain ⟨hmem, hcov⟩ := hfold rels []
      constructor
      · intro p hp
        simpa using hmem p hp
      · intro q
        rw [hcov]
        simp [InScope]
    intro l
    induction l with
    | nil =>
        intro kept
        constructor
        · exact fun p hp => .inl hp
        · simp [InScope]
    | cons rel l ih =>
        intro kept
        obtain ⟨hmem, hcov⟩ := ih (keepTop kept rel)
        constructor
        · intro p hp
          rcases hmem p hp with hp | hp
          · rcases mem_keepTop hp with hp | rfl
            · exact .inl hp
            · exact .inr (List.mem_cons_self ..)
          · exact .inr (List.mem_cons_of_mem _ hp)
        · intro q
          rw [List.foldl_cons, hcov, inScope_keepTop, or_assoc]
          simp [InScope]

section FirstOfEach

variable {α β : Type} [DecidableEq β] {f : α → β} {seen : List β} {l : List α}

theorem mem_of_firstOfEach {a : α} (h : a ∈ firstOfEach f seen l) : a ∈ l := by
  induction l generalizing seen with
  | nil => cases h
  | cons b l ih =>
      unfold firstOfEach at h
      split_ifs at h
      · exact List.mem_cons_of_mem _ (ih h)
      · rcases List.mem_cons.mp h with rfl | h
        · exact List.mem_cons_self ..
        · exact List.mem_cons_of_mem _ (ih h)

theorem exists_firstOfEach {a : α} (ha : a ∈ l) (hseen : f a ∉ seen) :
    ∃ b ∈ firstOfEach f seen l, f b = f a := by
  induction l generalizing seen with
  | nil => cases ha
  | cons b l ih =>
      unfold firstOfEach
      split_ifs with hb
      · rcases List.mem_cons.mp ha with rfl | ha
        · exact absurd hb hseen
        · exact ih ha hseen
      · by_cases hab : f a = f b
        · exact ⟨b, List.mem_cons_self .., hab.symm⟩
        · rcases List.mem_cons.mp ha with rfl | ha
          · exact absurd rfl hab
          · have hseen' : f a ∉ f b :: seen := by simp [hab, hseen]
            obtain ⟨c, hc, hca⟩ := ih ha hseen'
            exact ⟨c, List.mem_cons_of_mem _ hc, hca⟩

/-- Where the kind tells the element, nothing is lost. -/
theorem mem_firstOfEach (hinj : ∀ a ∈ l, ∀ b ∈ l, f a = f b → a = b) (a : α) :
    a ∈ firstOfEach f [] l ↔ a ∈ l := by
  constructor
  · exact mem_of_firstOfEach
  · intro ha
    have hseen : f a ∉ ([] : List β) := by simp
    obtain ⟨b, hb, hba⟩ := exists_firstOfEach ha hseen
    rwa [hinj b (mem_of_firstOfEach hb) a ha hba] at hb

end FirstOfEach

section Spec

variable {cfg : RestoreConfig} {d : Disk} {t : Tree} {scope : Path → Prop} {a : RestoreAction}

theorem mem_blobAction {q : Path} {b : Blob} (h : a ∈ blobAction cfg d q b) :
    (a = .restoreBlobContent q b ∧ cfg.contentMatches d q b.hash = false) ∨
    (a = .restoreBlobModeOnly q b.mode ∧ cfg.contentMatches d q b.hash = true ∧
      cfg.modeMatches d q b.mode = false) ∨
    (a = .cleanupOnly q ∧ cfg.contentMatches d q b.hash = true ∧
      cfg.modeMatches d q b.mode = true) := by
  unfold blobAction at h
  split_ifs at h with hc hm hx
  · exact .inl ⟨List.mem_singleton.mp h, hc⟩
  · exact .inr (.inl ⟨List.mem_singleton.mp h, by simpa using hc, hm⟩)
  · exact .inr (.inr ⟨List.mem_singleton.mp h, by simpa using hc, by simpa using hm⟩)
  · cases h

theorem mem_extraAction {known : Bool} {rel : Path} {n : String} {k : Kind DiskLeaf}
    (h : a ∈ extraAction known rel n k) : n ≠ metadataDirName ∧
    ((a = .deleteConflictArtifact rel ∧ (isConflictArtifact n || isWorkingTreeTmp n) = true) ∨
      (known = false ∧ ((a = .deleteAddedDir rel ∧ k = .dir) ∨
        (a = .deleteFile rel ∧ ∃ x, k = .leaf x ∧ x ≠ .special)))) := by
  unfold extraAction at h
  split_ifs at h with hmeta hown hknown
  · cases h
  · exact ⟨hmeta, .inl ⟨List.mem_singleton.mp h, hown⟩⟩
  · cases h
  · refine ⟨hmeta, .inr ⟨by simpa using hknown, ?_⟩⟩
    rcases k with _ | x
    · exact .inl ⟨List.mem_singleton.mp h, rfl⟩
    · cases x with
      | special => cases h
      | file c stat => exact .inr ⟨List.mem_singleton.mp h, _, rfl, by simp⟩
      | symlink target m => exact .inr ⟨List.mem_singleton.mp h, _, rfl, by simp⟩

theorem mem_symlinkAction {q : Path} {y : Symlink} :
    a ∈ entryAction cfg d q (.symlink y) ↔
      cfg.symlinkMatches d q y.target = false ∧ a = .restoreSymlink q y := by
  show a ∈ (if cfg.symlinkMatches d q y.target then [] else [.restoreSymlink q y]) ↔ _
  cases cfg.symlinkMatches d q y.target <;> simp

/-- An entry's action is about the entry's path. -/
theorem identity_of_entryAction {q : Path} {e : TreeEntry} (h : a ∈ entryAction cfg d q e) :
    a.identity.2 = q := by
  cases e with
  | blob b => rcases mem_blobAction h with ⟨rfl, -⟩ | ⟨rfl, -⟩ | ⟨rfl, -⟩ <;> rfl
  | tree s m =>
      obtain rfl := List.mem_singleton.mp h
      rfl
  | symlink y =>
      obtain ⟨-, rfl⟩ := mem_symlinkAction.mp h
      rfl

theorem identity_of_extraAction {known : Bool} {rel : Path} {n : String} {k : Kind DiskLeaf}
    (h : a ∈ extraAction known rel n k) : a.identity.2 = rel := by
  rcases (mem_extraAction h).2 with ⟨rfl, -⟩ | ⟨-, ⟨rfl, -⟩ | ⟨rfl, -⟩⟩ <;> rfl

/-- What has an entry is not removed, since no entry has the name of a file of the command's own. -/
theorem not_mem_names_of_extra {s : Tree} {rel : Path} {n : String} {k : Kind DiskLeaf}
    (hwn : s.WellNamed) (h : a ∈ extraAction (decide (n ∈ s.names)) rel n k) : n ∉ s.names := by
  rcases (mem_extraAction h).2 with ⟨-, hown⟩ | ⟨hknown, -⟩
  · intro hmem
    obtain ⟨-, hart, htmp, -⟩ := own_of_valid (hwn.valid hmem)
    simp [hart, htmp] at hown
  · simpa using hknown

/-- What the tree says of an action's data. -/
def FromEntry (t : Tree) : RestoreAction → Prop
  | .restoreBlobContent q b => t.at q = some (.blob b)
  | .restoreBlobModeOnly q mode => ∃ b, t.at q = some (.blob b) ∧ mode = b.mode
  | .restoreSymlink q y => t.at q = some (.symlink y)
  | .cleanupOnly _ | .ensureDir _ | .deleteFile _ | .deleteAddedDir _ | .deleteConflictArtifact _ => True
  | _ => False

theorem Calls.fromEntry (h : Calls cfg d t scope a) : FromEntry t a := by
  rcases h with ⟨q, e, -, he, ha⟩ | ⟨q, n, s, k, -, -, -, ha⟩
  · cases e with
    | blob b =>
        rcases mem_blobAction ha with ⟨rfl, -⟩ | ⟨rfl, -⟩ | ⟨rfl, -⟩
        · exact he
        · exact ⟨b, he, rfl⟩
        · trivial
    | tree s m =>
        obtain rfl := List.mem_singleton.mp ha
        trivial
    | symlink y =>
        obtain ⟨-, rfl⟩ := mem_symlinkAction.mp ha
        exact he
  · rcases (mem_extraAction ha).2 with ⟨rfl, -⟩ | ⟨-, ⟨rfl, -⟩ | ⟨rfl, -⟩⟩ <;> trivial

theorem FromEntry.inj {b : RestoreAction} (ha : FromEntry t a) (hb : FromEntry t b)
    (h : a.identity = b.identity) : a = b := by
  cases a <;> cases b <;> simp only [RestoreAction.identity, Prod.mk.injEq, reduceCtorEq, false_and,
    true_and] at h <;> subst h <;> simp_all [FromEntry]
  obtain ⟨b, hb, rfl⟩ := hb
  obtain ⟨b', hb', rfl⟩ := ha
  have hbb : b' = b := by simpa [hb] using hb'.symm
  rw [hbb]

/-- **`planRestore_spec`** — the plan has the actions that are called for, each of them once. -/
theorem planRestore_spec (hu : Unstubbed cfg d) (hwf : d.Wf) (hwn : t.WellNamed)
    (hroot : cfg.treeCached t = true) (hc : SubtreesCached cfg t) {rels : List Path}
    (hg : ∀ p ∈ rels, Given t d p) :
    ∃ plan, planRestore cfg d t rels = .ok plan ∧ plan.unresolvedTrees = [] ∧
      (∀ a, a ∈ plan.actions ↔ Calls cfg d t (InScope rels) a) ∧
      ∀ h, h ∈ plan.pending ↔
        ∃ q b, Calls cfg d t (InScope rels) (.restoreBlobContent q b) ∧ b.hash = h ∧
          cfg.blobCached h = false := by
  obtain ⟨hsub, hcov⟩ := collapse_covers rels
  obtain ⟨l, hl, hmem⟩ : ∃ l, Adds cfg ((collapseDedupPaths rels).forM (planOne cfg d t)) l ∧
      ∀ a, a ∈ l ↔ ∃ q ∈ collapseDedupPaths rels, Calls cfg d t (q <+: ·) a :=
    Adds.forM fun q hq => planOne_adds hu hwf hwn hroot hc (hg q (hsub q hq))
  have hcalls : ∀ a, a ∈ l ↔ Calls cfg d t (InScope rels) a := by
    intro a
    rw [hmem]
    constructor
    · rintro ⟨p, hp, ⟨q, e, hle, h⟩ | ⟨q, n, s, k, hle, h⟩⟩
      · exact .inl ⟨q, e, (hcov q).mp ⟨p, hp, hle⟩, h⟩
      · exact .inr ⟨q, n, s, k, (hcov q).mp ⟨p, hp, hle⟩, h⟩
    · rintro (⟨q, e, hs, h⟩ | ⟨q, n, s, k, hs, h⟩)
      · obtain ⟨p, hp, hle⟩ := (hcov q).mpr hs
        exact ⟨p, hp, .inl ⟨q, e, hle, h⟩⟩
      · obtain ⟨p, hp, hle⟩ := (hcov q).mpr hs
        exact ⟨p, hp, .inr ⟨q, n, s, k, hle, h⟩⟩
  have hinj : ∀ a ∈ l, ∀ b ∈ l, a.identity = b.identity → a = b := by
    intro a ha b hb
    exact ((hcalls a).mp ha).fromEntry.inj ((hcalls b).mp hb).fromEntry
  refine ⟨⟨dedupActions l, firstOfEach id [] (pendingOf cfg l), []⟩, ?_, rfl, ?_, ?_⟩
  · unfold planRestore
    rw [hl]
    simp [firstOfEach]
  · intro a
    exact (mem_firstOfEach hinj a).trans (hcalls a)
  · intro h
    rw [mem_firstOfEach (f := id) (by simp), pendingOf, List.mem_filterMap]
    constructor
    · rintro ⟨a, ha, hpend⟩
      cases a with
      | restoreBlobContent q b =>
          by_cases hb : cfg.blobCached b.hash = true
          · simp [hb] at hpend
          · simp only [hb, Bool.false_eq_true, if_false, Option.some.injEq] at hpend
            subst hpend
            exact ⟨q, b, (hcalls _).mp ha, rfl, by simpa using hb⟩
      | _ => cases hpend
    · rintro ⟨q, b, ha, rfl, hb⟩
      exact ⟨_, (hcalls _).mpr ha, by simp [hb]⟩

end Spec

end Omemfs.Work
