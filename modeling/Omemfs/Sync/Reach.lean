/-
# Omemfs.Sync.Reach — whether a diff applied to its base reaches its target.

A working tree that holds exactly the base is taken through `applyDiff` with the diff to a target.
The diff names no directories: they go when pruning finds them empty and come with what is written
into them.  `Setup.effect` says when the run succeeds (`Obstructed` is what stops it) and what it
leaves; from it follows what becomes of the files and symlinks (`reaches_leaves_iff`).
-/
import Omemfs.Sync.Apply

namespace Omemfs.Sync

open Omemfs Lib Fsguard

/-! ## Trees that hold something -/

/-- Below a directory with entries lies a leaf or an empty directory. -/
theorem exists_leaf_or_empty {t : Tree} (ht : t ≠ .nil) :
    ∃ n r, isLeaf (t.at (n :: r)) = true ∨ ∃ m, t.at (n :: r) = some (.tree .nil m) := by
  induction t using Tree.induction_cons with
  | nil => exact absurd rfl ht
  | cons n e rest ihe _ =>
      have hat : ∀ r, (Tree.cons n e rest).at (n :: r) = e.at r := fun r => by
        rw [Tree.cons_at_cons, if_pos rfl]
      cases e with
      | blob b => exact ⟨n, [], Or.inl (by rw [hat]; rfl)⟩
      | symlink l => exact ⟨n, [], Or.inl (by rw [hat]; rfl)⟩
      | tree s m =>
          by_cases hs : s = .nil
          · exact ⟨n, [], Or.inr ⟨m, by rw [hat, hs]; rfl⟩⟩
          · obtain ⟨k, r, h⟩ := ihe hs
            refine ⟨n, k :: r, ?_⟩
            rw [hat]
            exact h

/-- A directory without an empty one at or below it holds a leaf. -/
theorem exists_leaf_of_no_empty {t : Tree} {p : Path} {s : Tree} {m : TreeMeta}
    (hp : t.at p = some (.tree s m)) (hno : ∀ r k, t.at (p ++ r) ≠ some (.tree .nil k)) :
    ∃ n r, isLeaf (t.at (p ++ n :: r)) = true := by
  have hs : s ≠ .nil := by
    rintro rfl
    exact hno [] m (by simpa using hp)
  have hbelow : ∀ n r, t.at (p ++ n :: r) = s.at (n :: r) := fun n r => by
    rw [Tree.at_append, hp]
    rfl
  obtain ⟨n, r, hleaf | ⟨k, hk⟩⟩ := exists_leaf_or_empty hs
  · exact ⟨n, r, by rw [hbelow]; exact hleaf⟩
  · exact absurd ((hbelow n r).trans hk) (hno _ k)

theorem at_append_of_leaf {t : Tree} {p : Path} {e : TreeEntry} (hp : t.at p = some e)
    (he : e.isTree = false) (n : String) (r : Path) : t.at (p ++ n :: r) = none := by
  rw [Tree.at_append, hp]
  exact TreeEntry.at_cons_of_not_tree he n r

theorem at_append_of_none {t : Tree} {p : Path} (hp : t.at p = none) (r : Path) :
    t.at (p ++ r) = none := by
  rw [Tree.at_append, hp]
  rfl

/-! ## What the diff says -/

section

variable (base target : Tree)

/-- What is reported at a path. -/
def change (p : Path) : Option DiffEntry := nodeDiff 0 false (base.at p) (target.at p)

/-- `order` lists the diff. -/
def ListsDiff (order : List (Path × DiffEntry)) : Prop :=
  order.Perm (diffTrees (some base) (some target) 0).pairs

variable {base target}

theorem mem_order {order : List (Path × DiffEntry)} (hb : base.Wf) (ht : target.Wf)
    (horder : ListsDiff base target order) {p : Path} {c : DiffEntry} :
    (p, c) ∈ order ↔ change base target p = some c := by
  have hget : (diffTrees (some base) (some target) 0).get p = change base target p :=
    @get_diffTrees_zero (some base) (some target) hb ht p
  rw [horder.mem_iff, ← KeyMap.get_eq_some_iff_mem, hget]

theorem nodup_order {order : List (Path × DiffEntry)} (horder : ListsDiff base target order) :
    (order.map Prod.fst).Nodup :=
  (horder.map Prod.fst).nodup_iff.mpr (KeyMap.nodup_keys _)

theorem change_nil : change base target [] = none := rfl

/-- A leaf of the base is reported deleted where the target has nothing, or a directory with
entries. -/
theorem change_eq_deleted {p : Path} :
    change base target p = some .deleted ↔ isLeaf (base.at p) = true ∧
      (target.at p = none ∨ ∃ s m, target.at p = some (.tree s m) ∧ s ≠ .nil) := by
  unfold change
  cases hb : base.at p with
  | none => cases ht : target.at p with
    | none => simp [nodeDiff]
    | some e => cases e <;> simp [nodeDiff]
  | some b => cases ht : target.at p with
    | none => cases b <;> simp [nodeDiff, isLeaf]
    | some e => cases e <;> cases b <;> simp [nodeDiff, isLeaf]

/-- Everything else that is reported is written, and the target has it. -/
theorem change_cases {p : Path} {c : DiffEntry} (h : change base target p = some c) :
    c = .deleted ∨
    (∃ x, target.at p = some (.blob x) ∧ (c = .added x ∨ c = .modified x)) ∨
    (∃ l w, target.at p = some (.symlink l) ∧ c = .symlink l w) ∨
    (∃ m, target.at p = some (.tree .nil m) ∧ c = .addedEmptyDir ∧
      ∀ s k, base.at p ≠ some (.tree s k)) := by
  unfold change at h
  cases hb : base.at p with
  | none => cases ht : target.at p with
    | none => simp [nodeDiff, hb, ht] at h
    | some e =>
        cases e with
        | tree s m => by_cases hs : s = .nil <;> simp_all [nodeDiff, @eq_comm _ _ c]
        | blob x => simp_all [nodeDiff, @eq_comm _ _ c]
        | symlink x => simp_all [nodeDiff, @eq_comm _ _ c]
  | some b => cases ht : target.at p with
    | none => cases b <;> simp_all [nodeDiff, @eq_comm _ _ c]
    | some e =>
        cases e with
        | tree s m => cases b <;> by_cases hs : s = .nil <;> simp_all [nodeDiff, @eq_comm _ _ c]
        | blob x => cases b <;> simp_all [nodeDiff, @eq_comm _ _ c]
        | symlink x => cases b <;> simp_all [nodeDiff, @eq_comm _ _ c]

/-- A leaf of the target of which nothing is reported is in the base already. -/
theorem entryKind_of_change_none {p : Path} {e : TreeEntry} (ht : target.at p = some e)
    (he : e.isTree = false) (h : change base target p = none) :
    (base.at p).map entryKind = some (entryKind e) := by
  unfold change at h
  cases e with
  | tree s m => cases he
  | blob x =>
      cases hb : base.at p with
      | none => simp [nodeDiff, hb, ht] at h
      | some b => cases b <;> simp_all [nodeDiff, entryKind]
  | symlink x =>
      cases hb : base.at p with
      | none => simp [nodeDiff, hb, ht] at h
      | some b => cases b <;> simp_all [nodeDiff, entryKind, linkLeaf]

/-- A leaf of the base of which nothing is reported is in the target still. -/
theorem target_eq_of_change_none {p : Path} (hb : isLeaf (base.at p) = true)
    (h : change base target p = none) :
    (target.at p).map entryKind = (base.at p).map entryKind := by
  cases ht : target.at p with
  | none =>
      rw [change_eq_deleted.mpr ⟨hb, Or.inl ht⟩] at h
      cases h
  | some e =>
      by_cases he : e.isTree = true
      · cases e with
        | tree s m =>
            by_cases hs : s = .nil
            · subst hs
              have hbt : ∀ s k, base.at p ≠ some (.tree s k) := fun s k hk => by
                simp [hk, isLeaf] at hb
              unfold change at h
              cases hbp : base.at p with
              | none => simp [hbp] at hb
              | some b => cases b <;> simp_all [nodeDiff]
            · rw [change_eq_deleted.mpr ⟨hb, Or.inr ⟨s, m, ht, hs⟩⟩] at h
              cases h
        | blob x => cases he
        | symlink x => cases he
      · rw [entryKind_of_change_none ht (by simpa using he) h]
        rfl

/-- What is new in the target is reported. -/
theorem change_of_new_leaf {p : Path} {e : TreeEntry} (hb : base.at p = none)
    (ht : target.at p = some e) (he : e.isTree = false) :
    ∃ c, change base target p = some c ∧ written c ≠ none := by
  unfold change
  cases e with
  | tree s m => cases he
  | blob x => exact ⟨.added x, by simp [nodeDiff, hb, ht], by simp [written]⟩
  | symlink x => exact ⟨.symlink x false, by simp [nodeDiff, hb, ht], by simp [written]⟩

theorem change_of_new_empty {p : Path} {m : TreeMeta} (hb : ∀ s k, base.at p ≠ some (.tree s k))
    (ht : target.at p = some (.tree .nil m)) : change base target p = some .addedEmptyDir := by
  unfold change
  cases h : base.at p with
  | none => simp [nodeDiff, ht]
  | some e =>
      cases e with
      | tree s k => exact absurd h (hb s k)
      | blob x => simp [nodeDiff, ht]
      | symlink x => simp [nodeDiff, ht]

variable (base target) in
/-- What deletions and pruning remove: deleted leaves, and directories with nothing in them but such
leaves and such directories. -/
def Gone (q : Path) : Prop :=
  change base target q = some .deleted ∨
    ((∃ s m, base.at q = some (.tree s m)) ∧ q ≠ [] ∧
      (∀ r, isLeaf (base.at (q ++ r)) = true → change base target (q ++ r) = some .deleted) ∧
      ∀ r k, base.at (q ++ r) ≠ some (.tree .nil k))

end

/-- What stops a run at a path: a leaf where an empty directory has to come, an empty directory at or
below the place of a file, or one below the place of a symlink. -/
def Obstructed (base target : Tree) (p : Path) : Prop :=
  (isLeaf (base.at p) = true ∧ ∃ m, target.at p = some (.tree .nil m)) ∨
  ((∃ x, target.at p = some (.blob x)) ∧ ∃ r m, base.at (p ++ r) = some (.tree .nil m)) ∨
  ((∃ l, target.at p = some (.symlink l)) ∧ ∃ n r m, base.at (p ++ n :: r) = some (.tree .nil m))

/-! ## The run -/

/-- A working tree that holds the base, and how the sets of a run are listed. -/
structure Setup (base target : Tree) (d : WorkTree) (listDirs : List Path → List Path)
    (order : List (Path × DiffEntry)) : Prop where
  wfBase : base.Wf
  wfTarget : target.Wf
  holds : Holds d base
  lists : ListsDiff base target order
  deepest : DeepestFirst listDirs

namespace Setup

variable {base target : Tree} {d : WorkTree} {listDirs : List Path → List Path}
  {order : List (Path × DiffEntry)}

theorem mem_iff (h : Setup base target d listDirs order) {p : Path} {c : DiffEntry} :
    (p, c) ∈ order ↔ change base target p = some c :=
  mem_order h.wfBase h.wfTarget h.lists

theorem mem_deletedPaths_iff (h : Setup base target d listDirs order) {p : Path} :
    p ∈ deletedPaths order ↔ change base target p = some .deleted :=
  mem_deletedPaths.trans h.mem_iff

theorem ne_nil (h : Setup base target d listDirs order) {x : Path × DiffEntry} (hx : x ∈ order) :
    x.1 ≠ [] := by
  intro hnil
  have := h.mem_iff.mp hx
  rw [hnil, change_nil] at this
  cases this

theorem get_eq_leaf (h : Setup base target d listDirs order) {p : Path}
    (hp : isLeaf (base.at p) = true) : ∃ x, d.get p = some (.leaf x) := by
  rw [h.holds p]
  exact map_entryKind_eq_leaf.mpr hp

/-- After the deletions, a directory is prunable when it is `Gone`. -/
theorem prunable_iff (h : Setup base target d listDirs order) {l : List Path} {d₁ : WorkTree}
    (hl : ∀ q, q ∈ l ↔ q ≠ [] ∧ ∃ n r, change base target (q ++ n :: r) = some .deleted)
    (hd₁ : ∀ q, d₁.get q = if q ∈ deletedPaths order then none else d.get q) {q : Path} {s : Tree}
    {m : TreeMeta} (hq : base.at q = some (.tree s m)) : Prunable l d₁ q ↔ Gone base target q := by
  have hget : ∀ r, change base target (q ++ r) ≠ some .deleted →
      d₁.get (q ++ r) = (base.at (q ++ r)).map entryKind := fun r hr => by
    rw [hd₁, if_neg fun hmem => hr (h.mem_deletedPaths_iff.mp hmem), h.holds]
  have htree : ∀ {r s k}, base.at (q ++ r) = some (.tree s k) →
      change base target (q ++ r) ≠ some .deleted := fun hr hc => by
    have := (change_eq_deleted.mp hc).1
    simp [hr, isLeaf] at this
  constructor
  · rintro ⟨hmem, hbelow⟩
    refine Or.inr ⟨⟨s, m, hq⟩, ((hl q).mp hmem).1, fun r hr => ?_, fun r k hk => ?_⟩
    · -- a leaf that stays is in the way
      by_contra hc
      have hgr := hget r hc
      cases hb : base.at (q ++ r) with
      | none => simp [hb] at hr
      | some e =>
          rw [hb] at hgr
          have := (hbelow r (by simp [hgr])).2
          rw [hgr] at this
          cases e <;> simp_all [isLeaf, entryKind]
    · -- an empty directory is not listed
      have hgr := hget r (htree hk)
      rw [hk] at hgr
      obtain ⟨-, n, r', hc⟩ := (hl _).mp (hbelow r (by simp [hgr])).1
      have hleaf := (change_eq_deleted.mp hc).1
      rw [Tree.at_append, hk] at hleaf
      simp [TreeEntry.at, TreeEntry.children] at hleaf
  · rintro (hdel | ⟨-, hne, hleaf, hno⟩)
    · exact absurd (by simpa using hdel) (htree (r := []) (by simpa using hq))
    · have hdirs : ∀ r, d₁.get (q ++ r) ≠ none → ∃ s k, base.at (q ++ r) = some (.tree s k) := by
        intro r hr
        cases hb : base.at (q ++ r) with
        | none =>
            rw [hd₁, h.holds, hb] at hr
            simp at hr
        | some e =>
            cases e with
            | tree s k => exact ⟨s, k, rfl⟩
            | blob x =>
                rw [hd₁, if_pos (h.mem_deletedPaths_iff.mpr (hleaf r (by simp [hb, isLeaf])))] at hr
                exact absurd rfl hr
            | symlink x =>
                rw [hd₁, if_pos (h.mem_deletedPaths_iff.mpr (hleaf r (by simp [hb, isLeaf])))] at hr
                exact absurd rfl hr
      have hmem : ∀ r s k, base.at (q ++ r) = some (.tree s k) → q ++ r ∈ l := by
        intro r s k hr
        obtain ⟨n, r', hlf⟩ := exists_leaf_of_no_empty hr fun r' k => by
          rw [List.append_assoc]
          exact hno (r ++ r') k
        refine (hl _).mpr ⟨by simp [hne], n, r', ?_⟩
        rw [List.append_assoc] at hlf ⊢
        exact hleaf _ hlf
      refine ⟨by simpa using hmem [] s m (by simpa using hq), fun r hr => ?_⟩
      obtain ⟨s', k, hb⟩ := hdirs r hr
      refine ⟨hmem r s' k hb, ?_⟩
      rw [hget r (htree hb), hb]
      rfl

/-- What pruning leaves of what the deletions left. -/
theorem get_clear (h : Setup base target d listDirs order) {l : List Path} {d₁ d₂ : WorkTree}
    (hl : ∀ q, q ∈ l ↔ q ≠ [] ∧ ∃ n r, change base target (q ++ n :: r) = some .deleted)
    (hd₁ : ∀ q, d₁.get q = if q ∈ deletedPaths order then none else d.get q)
    (hd₂ : ∀ q, (Prunable l d₁ q → d₂.get q = none) ∧
      (¬ Prunable l d₁ q → d₂.get q = d₁.get q)) (q : Path) :
    (Gone base target q → d₂.get q = none) ∧
      (¬ Gone base target q → d₂.get q = (base.at q).map entryKind) := by
  obtain ⟨hp, hnp⟩ := hd₂ q
  -- pruning takes directories only
  have hstay : d₁.get q ≠ some .dir → d₂.get q = d₁.get q := by
    intro hne
    by_cases hpr : Prunable l d₁ q
    · rw [hp hpr]
      by_contra hno
      exact hne (by simpa using (hpr.2 [] (by simpa using Ne.symm hno)).2)
    · exact hnp hpr
  cases hb : base.at q with
  | none =>
      have hnone : d₁.get q = none := by
        rw [hd₁, h.holds, hb]
        simp
      have hgone : d₂.get q = none := by
        rw [hstay (by simp [hnone]), hnone]
      exact ⟨fun _ => hgone, fun _ => hgone⟩
  | some e =>
      by_cases he : e.isTree = true
      · have hkeep : q ∉ deletedPaths order := fun hmem => by
          have := (change_eq_deleted.mp (h.mem_deletedPaths_iff.mp hmem)).1
          cases e <;> simp_all [isLeaf, TreeEntry.isTree]
        have hiff : Prunable l d₁ q ↔ Gone base target q := by
          cases e with
          | tree s m => exact h.prunable_iff hl hd₁ hb
          | blob x => cases he
          | symlink x => cases he
        refine ⟨fun hg => hp (hiff.mpr hg), fun hg => ?_⟩
        rw [hnp fun hpr => hg (hiff.mp hpr), hd₁, if_neg hkeep, h.holds, hb]
      · have hgone : Gone base target q ↔ q ∈ deletedPaths order := by
          rw [h.mem_deletedPaths_iff]
          refine ⟨fun hg => hg.resolve_right ?_, Or.inl⟩
          rintro ⟨⟨s, m, hs⟩, -⟩
          rw [hb] at hs
          cases hs
          exact he rfl
        rw [hgone]
        constructor
        · intro hmem
          have hnone : d₁.get q = none := by rw [hd₁, if_pos hmem]
          rw [hstay (by simp [hnone]), hnone]
        · intro hmem
          have hleaf : d₁.get q = some (entryKind e) := by
            rw [hd₁, if_neg hmem, h.holds, hb]
            rfl
          rw [hstay, hleaf]
          · rfl
          · rw [hleaf]
            cases e <;> simp_all [entryKind, TreeEntry.isTree]

/-- **`Setup.clear`** — deletions and pruning succeed and remove what is `Gone`. -/
theorem clear (h : Setup base target d listDirs order) :
    ∃ d₂, applyDiff listDirs order d = order.forM applyWrite d₂ ∧ ∀ q,
      (Gone base target q → d₂.get q = none) ∧
      (¬ Gone base target q → d₂.get q = (base.at q).map entryKind) := by
  obtain ⟨d₁, hdel, hd₁⟩ := applyDeletions_of_leaves (d := d) (nodup_order h.lists) fun p hp =>
    h.get_eq_leaf (change_eq_deleted.mp (h.mem_deletedPaths_iff.mp hp)).1
  obtain ⟨hperm, hdeep⟩ := h.deepest (cleanupDirs ((deletedPaths order).map List.dropLast))
  have hl : ∀ q, q ∈ listDirs (cleanupDirs ((deletedPaths order).map List.dropLast)) ↔
      q ≠ [] ∧ ∃ n r, change base target (q ++ n :: r) = some .deleted := by
    intro q
    rw [hperm.mem_iff, mem_cleanupDirs]
    refine and_congr_right fun _ => ?_
    constructor
    · rintro ⟨_, hp, hq⟩
      obtain ⟨p, hmem, rfl⟩ := List.mem_map.mp hp
      have hc := h.mem_deletedPaths_iff.mp hmem
      obtain ⟨n, r, rfl⟩ := (prefix_dropLast_iff (h.ne_nil (h.mem_iff.mpr hc))).mp hq
      exact ⟨n, r, hc⟩
    · rintro ⟨n, r, hc⟩
      refine ⟨_, List.mem_map_of_mem (h.mem_deletedPaths_iff.mpr hc), ?_⟩
      exact (prefix_dropLast_iff (by simp)).mpr ⟨n, r, rfl⟩
  obtain ⟨d₂, hprune, hd₂⟩ := prune_get (fun hnil => ((hl _).mp hnil).1 rfl) hdeep d₁
  refine ⟨d₂, ?_, h.get_clear hl hd₁ hd₂⟩
  show (applyDeletions order >>= _) d = _
  rw [bind_eq_of_ok hdel, bind_eq_of_ok hprune]

/-- What is written is a leaf or an empty directory of the target. -/
theorem target_of_written (h : Setup base target d listDirs order) {x : Path × DiffEntry}
    (hx : x ∈ order) (hw : written x.2 ≠ none) :
    ∃ e, target.at x.1 = some e ∧ e.children = .nil ∧ written x.2 = some (entryKind e) := by
  obtain ⟨p, c⟩ := x
  obtain rfl | ⟨b, ht, hc⟩ | ⟨l, w, ht, rfl⟩ | ⟨m, ht, rfl, -⟩ := change_cases (h.mem_iff.mp hx)
  · exact absurd rfl hw
  · refine ⟨_, ht, rfl, ?_⟩
    have hmode : scannedMode b.mode = b.mode := by
      have hwf : (TreeEntry.blob b).Wf := TreeEntry.Wf.of_at (e := target.root) h.wfTarget ht
      obtain hm | hm := hwf <;> simp [scannedMode, hm]
    obtain rfl | rfl := hc <;> simp [written, blobLeaf, entryKind, hmode]
  · exact ⟨_, ht, rfl, rfl⟩
  · exact ⟨_, ht, rfl, rfl⟩

theorem at_below_written (h : Setup base target d listDirs order) {x : Path × DiffEntry}
    (hx : x ∈ order) (hw : written x.2 ≠ none) (n : String) (r : Path) :
    target.at (x.1 ++ n :: r) = none := by
  obtain ⟨e, ht, hnil, -⟩ := h.target_of_written hx hw
  rw [Tree.at_append, ht]
  show e.at (n :: r) = none
  simp [TreeEntry.at, hnil]

theorem apart (h : Setup base target d listDirs order) : order.Pairwise Apart := by
  have hkeys : order.Pairwise fun x y => x.1 ≠ y.1 := List.pairwise_map.mp (nodup_order h.lists)
  have hno : ∀ x ∈ order, ∀ y ∈ order, x.1 ≠ y.1 → written x.2 ≠ none → written y.2 ≠ none →
      ¬ x.1 <+: y.1 := by
    rintro x hx y hy hne hwx hwy ⟨r, hr⟩
    obtain ⟨e, ht, -⟩ := h.target_of_written hy hwy
    cases r with
    | nil => exact hne (by simpa using hr)
    | cons n r =>
        rw [← hr, h.at_below_written hx hwx] at ht
        cases ht
  refine hkeys.imp_of_mem fun hx hy hne hwx hwy => ?_
  exact ⟨hno _ hx _ hy hne hwx hwy, hno _ hy _ hx hne.symm hwy hwx⟩

/-- A directory the target has there again cannot be blocked by a leaf of the base. -/
theorem openWay (h : Setup base target d listDirs order) {d₂ : WorkTree}
    (hd₂ : ∀ q, (Gone base target q → d₂.get q = none) ∧
      (¬ Gone base target q → d₂.get q = (base.at q).map entryKind))
    {x : Path × DiffEntry} (hx : x ∈ order) (hw : written x.2 ≠ none) : OpenWay d₂ x.1 := by
  obtain ⟨e, ht, -⟩ := h.target_of_written hx hw
  rintro a ⟨r, hr⟩ hne y hy
  have hr0 : r ≠ [] := fun hr0 => hne (by simpa [hr0] using hr)
  obtain ⟨s, m, hs⟩ := Tree.isTree_of_at_append (t := target) (p := a) hr0 (by simp [hr, ht])
  have hs0 : s ≠ .nil := by
    rintro rfl
    obtain ⟨n, r, rfl⟩ := List.exists_cons_of_ne_nil hr0
    rw [← hr, Tree.at_append, hs] at ht
    cases ht
  by_cases hg : Gone base target a
  · rw [(hd₂ a).1 hg] at hy
    cases hy
  · rw [(hd₂ a).2 hg] at hy
    exact hg (Or.inl (change_eq_deleted.mpr
      ⟨map_entryKind_eq_leaf.mp ⟨y, hy⟩, Or.inr ⟨s, m, hs, hs0⟩⟩))

end Setup

section

variable {base target : Tree}

/-- A directory of the base with nothing in the target below it goes, if no empty one is in it. -/
theorem gone_of_tree {p : Path} {s : Tree} {m : TreeMeta} (hp : p ≠ [])
    (hb : base.at p = some (.tree s m)) (ht : ∀ n r, target.at (p ++ n :: r) = none)
    (hno : ∀ r k, base.at (p ++ r) ≠ some (.tree .nil k)) : Gone base target p := by
  refine Or.inr ⟨⟨s, m, hb⟩, hp, fun r hr => ?_, hno⟩
  cases r with
  | nil => simp [hb, isLeaf] at hr
  | cons n r => exact change_eq_deleted.mpr ⟨hr, Or.inl (ht n r)⟩

/-- An empty directory keeps everything above it. -/
theorem tree_of_empty_below {p r : Path} {k : TreeMeta}
    (hb : base.at (p ++ r) = some (.tree .nil k)) :
    (∃ s m, base.at p = some (.tree s m)) ∧ ¬ Gone base target p := by
  have htree : ∃ s m, base.at p = some (.tree s m) := by
    by_cases hr : r = []
    · exact ⟨.nil, k, by simpa [hr] using hb⟩
    · exact Tree.isTree_of_at_append hr (by simp [hb])
  obtain ⟨s, m, hs⟩ := htree
  refine ⟨⟨s, m, hs⟩, ?_⟩
  rintro (hc | ⟨-, -, -, hno⟩)
  · have := (change_eq_deleted.mp hc).1
    simp [hs, isLeaf] at this
  · exact hno r k hb

end

namespace Setup

variable {base target : Tree} {d : WorkTree} {listDirs : List Path → List Path}
  {order : List (Path × DiffEntry)} {d₂ : WorkTree}

theorem not_obstructed_of_givesWay (h : Setup base target d listDirs order)
    (hd₂ : ∀ q, (Gone base target q → d₂.get q = none) ∧
      (¬ Gone base target q → d₂.get q = (base.at q).map entryKind))
    (hway : ∀ x ∈ order, GivesWay d₂ x) (p : Path) : ¬ Obstructed base target p := by
  rintro (⟨hleaf, m, ht⟩ | ⟨⟨x, ht⟩, r, m, hb⟩ | ⟨⟨l, ht⟩, n, r, m, hb⟩)
  · have hb : ∀ s k, base.at p ≠ some (.tree s k) := fun s k hs => by simp [hs, isLeaf] at hleaf
    have hc := change_of_new_empty hb ht
    have hg : ¬ Gone base target p := by
      rintro (hdel | ⟨⟨s, k, hs⟩, -⟩)
      · rw [hc] at hdel
        cases hdel
      · exact hb s k hs
    have hgives := hway (p, .addedEmptyDir) (h.mem_iff.mpr hc)
    obtain ⟨x, hx⟩ := map_entryKind_eq_leaf.mpr hleaf
    exact hgives x (((hd₂ p).2 hg).trans hx)
  · obtain ⟨⟨s, k, hs⟩, hg⟩ : (∃ s k, base.at p = some (.tree s k)) ∧ ¬ Gone base target p :=
      tree_of_empty_below hb
    have hc : change base target p = some (.added x) := by simp [change, nodeDiff, ht, hs]
    apply hway (p, .added x) (h.mem_iff.mpr hc)
    rw [(hd₂ p).2 hg, hs]
    rfl
  · have hb' : base.at ((p ++ [n]) ++ r) = some (.tree .nil m) := by simpa using hb
    have hin : ∀ q r, base.at (q ++ r) = some (.tree .nil m) →
        (∃ s k, base.at q = some (.tree s k)) ∧ ¬ Gone base target q := fun _ _ =>
      tree_of_empty_below
    obtain ⟨⟨s, k, hs⟩, hg⟩ := hin _ _ hb
    obtain ⟨⟨s', k', hs'⟩, hg'⟩ := hin _ _ hb'
    have hc : change base target p = some (.symlink l true) := by simp [change, nodeDiff, ht, hs]
    have hnone := hway (p, .symlink l true) (h.mem_iff.mpr hc)
      (by rw [(hd₂ p).2 hg, hs]; rfl) n
    rw [(hd₂ _).2 hg', hs'] at hnone
    cases hnone

theorem givesWay_of_not_obstructed (h : Setup base target d listDirs order)
    (hd₂ : ∀ q, (Gone base target q → d₂.get q = none) ∧
      (¬ Gone base target q → d₂.get q = (base.at q).map entryKind))
    (hno : ∀ p, ¬ Obstructed base target p) : ∀ x ∈ order, GivesWay d₂ x := by
  -- what is still a directory was one in the base and did not go
  have hdir : ∀ {q}, d₂.get q ≠ none →
      d₂.get q = (base.at q).map entryKind ∧ ¬ Gone base target q := fun {q} hq => by
    have hg : ¬ Gone base target q := fun hg => hq ((hd₂ q).1 hg)
    exact ⟨(hd₂ q).2 hg, hg⟩
  rintro ⟨p, c⟩ hx
  have hp : p ≠ [] := h.ne_nil hx
  obtain rfl | ⟨b, ht, hc⟩ | ⟨l, w, ht, rfl⟩ | ⟨m, ht, rfl, -⟩ := change_cases (h.mem_iff.mp hx)
  · trivial
  · have hblob : d₂.get p ≠ some .dir := by
      intro hk
      obtain ⟨hget, hg⟩ := hdir (q := p) (by simp [hk])
      obtain ⟨s, m, hs⟩ := map_entryKind_eq_dir.mp (hget.symm.trans hk)
      refine hg (gone_of_tree hp hs (at_append_of_leaf ht rfl) fun r k hk => ?_)
      exact hno p (Or.inr (Or.inl ⟨⟨b, ht⟩, r, k, hk⟩))
    obtain rfl | rfl := hc <;> exact hblob
  · intro _ n
    by_contra hne
    obtain ⟨hget, hg⟩ := hdir hne
    apply hg
    have hnone : ∀ r, target.at ((p ++ [n]) ++ r) = none := fun r => by
      simpa using at_append_of_leaf ht rfl n r
    cases hb : base.at (p ++ [n]) with
    | none =>
        rw [hb] at hget
        exact absurd hget hne
    | some e =>
        by_cases he : e.isTree = true
        · cases e with
          | tree s m =>
              refine gone_of_tree (by simp) hb (fun k r => hnone (k :: r)) fun r k hk => ?_
              exact hno p (Or.inr (Or.inr ⟨⟨l, ht⟩, n, r, k, by simpa using hk⟩))
          | blob x => cases he
          | symlink x => cases he
        · refine Or.inl (change_eq_deleted.mpr ⟨?_, Or.inl (by simpa using hnone [])⟩)
          cases e <;> simp_all [isLeaf, TreeEntry.isTree]
  · intro x hk
    obtain ⟨hget, -⟩ := hdir (q := p) (by simp [hk])
    exact hno p (Or.inl ⟨map_entryKind_eq_leaf.mp ⟨x, hget.symm.trans hk⟩, m, ht⟩)

/-- **`Setup.effect`** — a run succeeds when nothing is obstructed, in whatever order the diff and the
directories are listed. -/
theorem effect (h : Setup base target d listDirs order) :
    Effect (applyDiff listDirs order) d (∀ p, ¬ Obstructed base target p) fun _ d' =>
      ∃ d₂, (∀ q, (Gone base target q → d₂.get q = none) ∧
        (¬ Gone base target q → d₂.get q = (base.at q).map entryKind)) ∧ WrittenAll order d₂ d' := by
  obtain ⟨d₂, hrun, hd₂⟩ := h.clear
  have hwrites := applyWrites_effect (fun x hx => h.ne_nil hx) h.apart
    fun x hx hw => h.openWay hd₂ hx hw
  have hok : (∀ x ∈ order, GivesWay d₂ x) ↔ ∀ p, ¬ Obstructed base target p :=
    ⟨h.not_obstructed_of_givesWay hd₂, h.givesWay_of_not_obstructed hd₂⟩
  constructor
  · intro hfree
    obtain ⟨u, d', hd', hpost⟩ := hwrites.succeeds (hok.mpr hfree)
    exact ⟨u, d', hrun.trans hd', d₂, hd₂, hpost⟩
  · intro hno
    rw [hrun]
    exact hwrites.fails fun h => hno (hok.mp h)

/-! ## What is left -/

/-- A path is written to, or lies above one that is, or keeps what it had. -/
theorem get_written (h : Setup base target d listDirs order) {d' : WorkTree}
    (hw : WrittenAll order d₂ d') (q : Path) :
    d'.get q = (target.at q).map entryKind ∨
      ((∃ s m, target.at q = some (.tree s m)) ∧ d'.get q = some .dir) ∨
      ((∀ r c, change base target (q ++ r) = some c → written c = none) ∧
        d'.get q = d₂.get q) := by
  by_cases hkey : ∃ c, change base target q = some c ∧ written c ≠ none
  · obtain ⟨c, hc, hwc⟩ := hkey
    obtain ⟨e, ht, -, he⟩ := h.target_of_written (h.mem_iff.mpr hc) hwc
    refine Or.inl ?_
    rw [hw.key _ (h.mem_iff.mpr hc) _ he, ht]
    rfl
  by_cases habove : ∃ r c, change base target (q ++ r) = some c ∧ written c ≠ none
  · obtain ⟨r, c, hc, hwc⟩ := habove
    have hr : r ≠ [] := fun hr => hkey ⟨c, by simpa [hr] using hc, hwc⟩
    obtain ⟨e, ht, -⟩ := h.target_of_written (h.mem_iff.mpr hc) hwc
    refine Or.inr (Or.inl ⟨Tree.isTree_of_at_append hr (by simp [ht]), ?_⟩)
    exact hw.above q ⟨_, h.mem_iff.mpr hc, hwc, List.prefix_append _ _, by simpa using hr⟩
  · refine Or.inr (Or.inr ⟨fun r c hc => ?_, hw.beside q ?_⟩)
    · by_contra hne
      exact habove ⟨r, c, hc, hne⟩
    · rintro ⟨p, c⟩ hx hwx ⟨r, rfl⟩
      exact habove ⟨r, c, h.mem_iff.mp hx, hwx⟩

theorem sameLeaves (h : Setup base target d listDirs order) {d' : WorkTree}
    (hd₂ : ∀ q, (Gone base target q → d₂.get q = none) ∧
      (¬ Gone base target q → d₂.get q = (base.at q).map entryKind))
    (hw : WrittenAll order d₂ d') : SameLeaves d' target := by
  intro q x
  obtain hq | ⟨⟨s, m, hs⟩, hq⟩ | ⟨hno, hq⟩ := h.get_written hw q
  · rw [hq]
  · simp [hq, hs, entryKind]
  · rw [hq]
    have hchange : change base target q = none ∨ change base target q = some .deleted := by
      cases hc : change base target q with
      | none => exact Or.inl rfl
      | some c =>
          have hwc := hno [] c (by simpa using hc)
          obtain rfl | ⟨b, -, rfl | rfl⟩ | ⟨l, w, -, rfl⟩ | ⟨m, -, rfl, -⟩ := change_cases hc
          · exact Or.inr rfl
          all_goals cases hwc
    constructor
    · intro hk
      have hg : ¬ Gone base target q := fun hg => by
        rw [(hd₂ q).1 hg] at hk
        cases hk
      have hkind := ((hd₂ q).2 hg).symm.trans hk
      have hnone : change base target q = none := hchange.resolve_right fun hdel => hg (Or.inl hdel)
      rw [← hkind]
      exact target_eq_of_change_none (map_entryKind_eq_leaf.mp ⟨x, hkind⟩) hnone
    · intro hk
      have hleaf := map_entryKind_eq_leaf.mp ⟨x, hk⟩
      cases ht : target.at q with
      | none => simp [ht] at hk
      | some e =>
          have he : e.isTree = false := by
            cases e <;> simp_all [isLeaf, TreeEntry.isTree]
          have hndel : change base target q ≠ some .deleted := fun hdel => by
            obtain ⟨-, hnone | ⟨s, m, hs, -⟩⟩ := change_eq_deleted.mp hdel
            · simp [hnone] at ht
            · simp [hs, isLeaf] at hleaf
          have hbase := entryKind_of_change_none ht he (hchange.resolve_right hndel)
          have hg : ¬ Gone base target q := by
            rintro (hdel | ⟨⟨s, m, hs⟩, -⟩)
            · exact hndel hdel
            · rw [hs] at hbase
              cases e <;> simp_all [entryKind, TreeEntry.isTree]
          rw [(hd₂ q).2 hg, hbase, ← hk, ht]
          rfl

end Setup

/-- A listing of directories, deepest first. -/
def byDepth (l : List Path) : List Path := l.mergeSort fun a b => b.length ≤ a.length

theorem byDepth_deepest : DeepestFirst byDepth := by
  intro l
  refine ⟨List.mergeSort_perm l _, ?_⟩
  have h := @List.pairwise_mergeSort _ (fun a b : Path => decide (b.length ≤ a.length))
    (fun a b c hab hbc => by simp only [decide_eq_true_eq] at *; omega)
    (fun a b => by simp only [Bool.or_eq_true, decide_eq_true_eq]; omega) l
  simpa [byDepth] using h

/-- A tree with the one entry `f`. -/
def oneEntry (e : TreeEntry) : Tree := .cons "f" e .nil

theorem oneEntry_at_cons (e : TreeEntry) (n : String) (r : Path) :
    (oneEntry e).at (n :: r) = if n = "f" then e.at r else none := Tree.cons_at_cons ..

/-- The working tree with the one file `f`. -/
def oneFile : WorkTree := .leaf "f" (.file 1 none) .nil

def oneBlob : TreeEntry := .blob ⟨1, none, 1, none⟩

theorem oneFile_holds : Holds oneFile (oneEntry oneBlob) := by
  intro q
  cases q with
  | nil => rfl
  | cons n r =>
      rw [oneEntry_at_cons]
      unfold DirTree.get
      rw [DirTree.at_cons]
      by_cases hn : n = "f"
      · cases r <;> simp [oneFile, DirTree.find?, hn, oneBlob, entryKind, Item.kind, Item.at_cons,
          Item.children, TreeEntry.at, TreeEntry.children]
      · simp [oneFile, DirTree.find?, hn]

/-- The file `f` is there, and the target has another entry of that name. -/
theorem oneFile_setup {e : TreeEntry} (he : e.Wf) :
    Setup (oneEntry oneBlob) (oneEntry e) oneFile byDepth
      (diffTrees (some (oneEntry oneBlob)) (some (oneEntry e)) 0).pairs where
  wfBase := Tree.wf_cons.mpr ⟨by simp [Tree.names, Tree.entries], Or.inl rfl, trivial⟩
  wfTarget := Tree.wf_cons.mpr ⟨by simp [Tree.names, Tree.entries], he, trivial⟩
  holds := oneFile_holds
  lists := List.Perm.refl _
  deepest := byDepth_deepest

end Omemfs.Sync
