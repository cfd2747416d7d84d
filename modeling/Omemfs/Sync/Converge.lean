/-
# Omemfs.Sync.Converge — the directories a pull leaves.

The diff has no entry for a directory that stays or goes; an empty one it does not see at all unless it
is new.  So the directories of the working tree line up with those of the target only where the empty
ones do (`DirsLineUp`): an empty directory that the target has not got stays behind, and one that the
target emptied is pruned away.
-/
import Omemfs.Sync.Reach

namespace Omemfs.Sync

open Omemfs Lib Fsguard

/-- An empty directory of the base is a directory or a symlink in the target, and one of the target,
the working directory excepted, is new or was empty before. -/
def DirsLineUp (base target : Tree) : Prop :=
  ∀ q,
    ((∃ m, base.at q = some (.tree .nil m)) →
      (∃ s m, target.at q = some (.tree s m)) ∨ ∃ l, target.at q = some (.symlink l)) ∧
    (q ≠ [] → (∃ m, target.at q = some (.tree .nil m)) →
      base.at q = none ∨ ∃ m, base.at q = some (.tree .nil m))

namespace DirsLineUp

variable {base target : Tree}

theorem not_obstructed (h : DirsLineUp base target) (p : Path) : ¬ Obstructed base target p := by
  rintro (⟨hleaf, ht⟩ | ⟨⟨x, ht⟩, r, m, hb⟩ | ⟨⟨l, ht⟩, n, r, m, hb⟩)
  · have hp : p ≠ [] := by
      rintro rfl
      simp [isLeaf, Tree.root] at hleaf
    obtain hb | ⟨m, hb⟩ := (h p).2 hp ht <;> simp [hb, isLeaf] at hleaf
  · obtain ⟨s, k, hs⟩ | ⟨l, hl⟩ := (h (p ++ r)).1 ⟨m, hb⟩ <;> cases r with
    | nil => simp_all
    | cons n r => simp_all [at_append_of_leaf ht rfl]
  · obtain ⟨s, k, hs⟩ | ⟨l', hl⟩ := (h (p ++ n :: r)).1 ⟨m, hb⟩ <;>
      simp_all [at_append_of_leaf ht rfl]

/-- A directory of the base that the target has not got goes. -/
theorem gone_of_no_dir (h : DirsLineUp base target) {q : Path} {s : Tree} {m : TreeMeta}
    (hb : base.at q = some (.tree s m)) (ht : ∀ s m, target.at q ≠ some (.tree s m))
    (hlink : ∀ l, target.at q ≠ some (.symlink l)) : Gone base target q := by
  have hnone : ∀ n r, target.at (q ++ n :: r) = none := fun n r => by
    by_contra hne
    obtain ⟨s, m, hs⟩ := Tree.isTree_of_at_append (by simp) hne
    exact ht s m hs
  refine gone_of_tree (fun hq => ht target ⟨none, 0, 0⟩ (by rw [hq]; rfl)) hb hnone fun r k hk => ?_
  cases r with
  | nil =>
      rw [List.append_nil] at hk
      obtain ⟨s, m, hs⟩ | ⟨l, hl⟩ := (h q).1 ⟨k, hk⟩
      · exact ht s m hs
      · exact hlink l hl
  | cons n r =>
      obtain ⟨s, m, hs⟩ | ⟨l, hl⟩ := (h (q ++ n :: r)).1 ⟨k, hk⟩
      · simp [hnone] at hs
      · simp [hnone] at hl

/-- A directory of the target below which nothing is written was there before, and stays. -/
theorem dir_kept (h : DirsLineUp base target) {q : Path} {s : Tree} {m : TreeMeta} (hq : q ≠ [])
    (ht : target.at q = some (.tree s m))
    (hno : ∀ r c, change base target (q ++ r) = some c → written c = none) :
    (∃ s' m', base.at q = some (.tree s' m')) ∧ ¬ Gone base target q := by
  have hbelow : ∀ n r, target.at (q ++ n :: r) = s.at (n :: r) := fun n r => by
    rw [Tree.at_append, ht]
    rfl
  have hnew : ∀ r e, base.at (q ++ r) = none → target.at (q ++ r) = some e → e.isTree = true := by
    intro r e hb he
    by_contra hleaf
    obtain ⟨c, hc, hwc⟩ := change_of_new_leaf hb he (by simpa using hleaf)
    exact hwc (hno r c hc)
  have hempty : ∀ r k, target.at (q ++ r) = some (.tree .nil k) →
      ∃ s' m', base.at (q ++ r) = some (.tree s' m') := by
    intro r k hk
    by_contra hb
    have hc : change base target (q ++ r) = some .addedEmptyDir :=
      change_of_new_empty (fun s' m' hs => hb ⟨s', m', hs⟩) hk
    cases hno r _ hc
  have hbase : ∃ s' m', base.at q = some (.tree s' m') := by
    by_cases hs : s = .nil
    · simpa using hempty [] m (by simpa [hs] using ht)
    · by_contra hb
      have hnone : ∀ n r, base.at (q ++ n :: r) = none := fun n r => by
        by_contra hne
        exact hb (Tree.isTree_of_at_append (by simp) hne)
      obtain ⟨n, r, hleaf | ⟨k, hk⟩⟩ := exists_leaf_or_empty hs
      · rw [← hbelow] at hleaf
        cases he : target.at (q ++ n :: r) with
        | none => simp [he] at hleaf
        | some e =>
            have := hnew (n :: r) e (hnone n r) he
            cases e <;> simp_all [isLeaf, TreeEntry.isTree]
      · obtain ⟨s', m', hs'⟩ := hempty (n :: r) k ((hbelow n r).trans hk)
        simp [hnone] at hs'
  obtain ⟨s', m', hs'⟩ := hbase
  refine ⟨⟨s', m', hs'⟩, ?_⟩
  rintro (hdel | ⟨-, -, hleaves, hnoempty⟩)
  · have := (change_eq_deleted.mp hdel).1
    simp [hs', isLeaf] at this
  by_cases hs : s = .nil
  · obtain hb | ⟨k, hb⟩ := (h q).2 hq ⟨m, hs ▸ ht⟩
    · simp [hb] at hs'
    · exact hnoempty [] k (by simpa using hb)
  · obtain ⟨n, r, hleaf | ⟨k, hk⟩⟩ := exists_leaf_or_empty hs
    · rw [← hbelow] at hleaf
      have hndel : change base target (q ++ n :: r) ≠ some .deleted := fun hdel => by
        obtain ⟨-, hnone | ⟨s, m, hs, -⟩⟩ := change_eq_deleted.mp hdel
        · simp [hnone] at hleaf
        · simp [hs, isLeaf] at hleaf
      have hnone : change base target (q ++ n :: r) = none := by
        by_contra hne
        obtain ⟨c, hc⟩ := Option.ne_none_iff_exists'.mp hne
        have hwc := hno _ c hc
        obtain rfl | ⟨b, -, rfl | rfl⟩ | ⟨l, w, -, rfl⟩ | ⟨m, -, rfl, -⟩ := change_cases hc
        · exact hndel hc
        all_goals cases hwc
      cases he : target.at (q ++ n :: r) with
      | none => simp [he] at hleaf
      | some e =>
          have htree : e.isTree = false := by cases e <;> simp_all [isLeaf, TreeEntry.isTree]
          have hkind := entryKind_of_change_none he htree hnone
          apply hndel
          apply hleaves (n :: r)
          apply map_entryKind_eq_leaf.mp
          rw [hkind]
          cases e <;> simp_all [entryKind, TreeEntry.isTree]
    · have hte := (hbelow n r).trans hk
      obtain hb | ⟨k', hb⟩ := (h (q ++ n :: r)).2 (by simp) ⟨k, hte⟩
      · obtain ⟨s', m', hs'⟩ := hempty (n :: r) k hte
        simp [hb] at hs'
      · exact hnoempty _ k' hb

end DirsLineUp

namespace Setup

variable {base target : Tree} {d : WorkTree} {listDirs : List Path → List Path}
  {order : List (Path × DiffEntry)} {d₂ d' : WorkTree}

theorem holds_of_dirsLineUp (h : Setup base target d listDirs order) (hdirs : DirsLineUp base target)
    (hd₂ : ∀ q, (Gone base target q → d₂.get q = none) ∧
      (¬ Gone base target q → d₂.get q = (base.at q).map entryKind))
    (hw : WrittenAll order d₂ d') : Holds d' target := by
  intro q
  obtain hq | ⟨⟨s, m, hs⟩, hq⟩ | ⟨hno, hq⟩ := h.get_written hw q
  · exact hq
  · rw [hq, hs]
    rfl
  · by_cases hnil : q = []
    · subst hnil
      rfl
    have hdir : d'.get q = some .dir ↔ (target.at q).map entryKind = some .dir := by
      rw [hq, map_entryKind_eq_dir]
      constructor
      · intro hk
        by_contra hnot
        have hg : ¬ Gone base target q := fun hg => by
          rw [(hd₂ q).1 hg] at hk
          cases hk
        obtain ⟨s, m, hs⟩ := map_entryKind_eq_dir.mp (((hd₂ q).2 hg).symm.trans hk)
        apply hg
        refine hdirs.gone_of_no_dir hs (fun s m hs => hnot ⟨s, m, hs⟩) fun l hl => ?_
        -- a symlink over a directory is written
        have hc : change base target q = some (.symlink l true) := by
          simp [change, nodeDiff, hs, hl]
        cases hno [] _ (by simpa using hc)
      · rintro ⟨s, m, hs⟩
        obtain ⟨hb, hg⟩ := hdirs.dir_kept hnil hs hno
        rw [(hd₂ q).2 hg]
        exact map_entryKind_eq_dir.mpr hb
    have hleaf := fun x => h.sameLeaves hd₂ hw q x
    cases hk : (target.at q).map entryKind with
    | some k =>
        cases k with
        | dir => exact hdir.mpr hk
        | leaf x => exact (hleaf x).mpr hk
    | none =>
        cases hk' : d'.get q with
        | none => rfl
        | some k =>
            cases k with
            | dir =>
                rw [hdir.mp hk'] at hk
                cases hk
            | leaf x =>
                rw [(hleaf x).mp hk'] at hk
                cases hk

/-- Where the target has nothing at or below a path, nothing is written there. -/
theorem get_of_not_written (h : Setup base target d listDirs order) (hw : WrittenAll order d₂ d')
    {q : Path} (hself : ∀ c, change base target q = some c → written c = none)
    (hbelow : ∀ n r, target.at (q ++ n :: r) = none) : d'.get q = d₂.get q := by
  apply hw.beside
  rintro ⟨p, c⟩ hx hwx ⟨r, rfl⟩
  cases r with
  | nil => exact hwx (hself c (by simpa using h.mem_iff.mp hx))
  | cons n r =>
      obtain ⟨e, ht, -⟩ := h.target_of_written hx hwx
      rw [hbelow] at ht
      cases ht

theorem dirsLineUp_of_holds (h : Setup base target d listDirs order)
    (hok : ∀ p, ¬ Obstructed base target p)
    (hd₂ : ∀ q, (Gone base target q → d₂.get q = none) ∧
      (¬ Gone base target q → d₂.get q = (base.at q).map entryKind))
    (hw : WrittenAll order d₂ d') (hholds : Holds d' target) : DirsLineUp base target := by
  have hfirst : ∀ q, (∃ m, base.at q = some (.tree .nil m)) →
      (∃ s m, target.at q = some (.tree s m)) ∨ ∃ l, target.at q = some (.symlink l) := by
    rintro q ⟨m, hb⟩
    have hb' : base.at (q ++ []) = some (.tree .nil m) := by simpa using hb
    cases ht : target.at q with
    | some e =>
        cases e with
        | tree s k => exact Or.inl ⟨s, k, rfl⟩
        | symlink l => exact Or.inr ⟨l, rfl⟩
        | blob x => exact absurd (Or.inr (Or.inl ⟨⟨x, ht⟩, [], m, hb'⟩)) (hok q)
    | none =>
        have hget := h.get_of_not_written hw (q := q)
          (fun c hc => by simp [change, nodeDiff, hb, ht] at hc)
          fun n r => at_append_of_none ht _
        rw [hholds q, ht, (hd₂ q).2 (tree_of_empty_below hb').2, hb] at hget
        cases hget
  refine fun q => ⟨hfirst q, ?_⟩
  rintro hq ⟨m, ht⟩
  cases hb : base.at q with
  | none => exact Or.inl rfl
  | some e =>
      refine Or.inr ?_
      by_cases hleaf : isLeaf (base.at q) = true
      · exact absurd (Or.inl ⟨hleaf, m, ht⟩) (hok q)
      cases e with
      | blob x => simp [hb, isLeaf] at hleaf
      | symlink x => simp [hb, isLeaf] at hleaf
      | tree s k =>
          by_cases hs : s = .nil
          · exact ⟨k, by rw [hs]⟩
          have hnone : ∀ n r, target.at (q ++ n :: r) = none := fun n r => by
            rw [Tree.at_append, ht]
            rfl
          have hget := h.get_of_not_written hw (q := q)
            (fun c hc => by simp [change, nodeDiff, hb, ht] at hc) hnone
          -- the directory is still there, so an empty one below kept it
          have hg : ¬ Gone base target q := fun hg => by
            rw [hholds q, ht, (hd₂ q).1 hg] at hget
            cases hget
          refine absurd (gone_of_tree hq hb hnone fun r k' hk => ?_) hg
          cases r with
          | nil =>
              rw [List.append_nil, hb] at hk
              cases hk
              exact hs rfl
          | cons n r =>
              obtain ⟨s', m', hs'⟩ | ⟨l, hl⟩ := hfirst _ ⟨k', hk⟩
              · simp [hnone] at hs'
              · simp [hnone] at hl

end Setup

/-- The working tree with the one empty directory `f`. -/
def oneDir : WorkTree := .sub "f" .nil .nil

theorem oneDir_holds : Holds oneDir (oneEntry (.tree .nil ⟨none, 0, 0⟩)) := by
  intro q
  cases q with
  | nil => rfl
  | cons n r =>
      rw [oneEntry_at_cons]
      unfold DirTree.get
      rw [DirTree.at_cons]
      by_cases hn : n = "f"
      · cases r <;> simp [oneDir, DirTree.find?, hn, entryKind, Item.kind, Item.at_cons,
          Item.children, TreeEntry.at, TreeEntry.children]
      · simp [oneDir, DirTree.find?, hn]

end Omemfs.Sync
