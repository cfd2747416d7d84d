/-
# Omemfs.Sync.Spine — what an edit of a tree rebuilds, and what it leaves alone.

`edited_of_spliceEntry` and `edited_of_removeEntry` say what the paths of the new tree lead to.  Here
the same is said in the words of the program: what `navigateEntry` finds there, and what the tree
objects on the way to the edited path look like (`edit_changes_one_path`).

All of this is about edits that go through.  A file on the way stops every walk, where a symlink on the
way is passed over as if nothing were there (`file_on_the_way_iff`).
-/
import Omemfs.Sync.TreeOps

namespace Omemfs

open Lib

namespace Tree

/-! ## Tree objects in order -/

/-- Names are distinct in every tree object. -/
def UniqueNames : Tree → Prop
  | .nil => True
  | .blob n _ rest => n ∉ rest.names ∧ rest.UniqueNames
  | .tree n t _ rest => n ∉ rest.names ∧ t.UniqueNames ∧ rest.UniqueNames
  | .symlink n _ rest => n ∉ rest.names ∧ rest.UniqueNames

/-- The entries stand in the order of their names, and no name is there twice. -/
def SortedNames (t : Tree) : Prop := t.names.Pairwise (· < ·)

theorem uniqueNames_cons {n : String} {e : TreeEntry} {rest : Tree} :
    (cons n e rest).UniqueNames ↔ n ∉ rest.names ∧ e.children.UniqueNames ∧ rest.UniqueNames := by
  cases e with
  | blob b => simp [cons, UniqueNames, TreeEntry.children]
  | tree t m => exact Iff.rfl
  | symlink l => simp [cons, UniqueNames, TreeEntry.children]

theorem UniqueNames.nodup {t : Tree} (h : t.UniqueNames) : t.names.Nodup := by
  induction t using Tree.induction_cons with
  | nil => exact List.nodup_nil
  | cons n e rest _ ih =>
      obtain ⟨hn, -, hrest⟩ := uniqueNames_cons.mp h
      rw [names, entries_cons]
      exact List.nodup_cons.mpr ⟨hn, ih hrest⟩

theorem UniqueNames.of_find? {t : Tree} (h : t.UniqueNames) {n : String} {e : TreeEntry}
    (he : t.find? n = some e) : e.children.UniqueNames := by
  induction t using Tree.induction_cons with
  | nil => cases he
  | cons m c rest _ ih =>
      obtain ⟨-, hc, hrest⟩ := uniqueNames_cons.mp h
      rw [find?_cons] at he
      split_ifs at he with hm
      · exact Option.some.inj he ▸ hc
      · exact ih hrest he

theorem insertByName_sorted (x : String × TreeEntry) {l : List (String × TreeEntry)}
    (h : l.Pairwise fun a b => a.1 ≤ b.1) : (insertByName x l).Pairwise fun a b => a.1 ≤ b.1 := by
  induction l with
  | nil => exact List.pairwise_singleton _ x
  | cons y l ih =>
      obtain ⟨hy, hl⟩ := List.pairwise_cons.mp h
      unfold insertByName
      split_ifs with hle
      · refine List.pairwise_cons.mpr ⟨fun z hz => ?_, h⟩
        rcases List.mem_cons.mp hz with rfl | hz
        · exact hle
        · exact String.le_trans hle (hy z hz)
      · refine List.pairwise_cons.mpr ⟨fun z hz => ?_, ih hl⟩
        rcases List.mem_cons.mp ((insertByName_perm x l).mem_iff.mp hz) with rfl | hz
        · exact (String.le_total z.1 y.1).resolve_left hle
        · exact hy z hz

theorem sortedEntries_sorted (l : List (String × TreeEntry)) :
    (sortedEntries l).Pairwise fun a b => a.1 ≤ b.1 := by
  induction l with
  | nil => exact List.Pairwise.nil
  | cons x l ih => exact insertByName_sorted x ih

/-- **`buildAndStore_sorted`** — a tree object is built of distinct names in their order. -/
theorem buildAndStore_sorted {l : List (String × TreeEntry)} (h : (l.map Prod.fst).Nodup) :
    (buildAndStore l).SortedNames := by
  have hnd : ((sortedEntries l).map Prod.fst).Nodup :=
    ((sortedEntries_perm l).map Prod.fst).nodup_iff.mpr h
  have hle := List.pairwise_map.mpr (sortedEntries_sorted l)
  show ((ofEntries (sortedEntries l)).entries.map Prod.fst).Pairwise (· < ·)
  rw [entries_ofEntries]
  have hlt : ∀ a b : String, a ≤ b → a ≠ b → a < b := fun a b hab hne =>
    String.not_le.mp fun hba => hne (String.le_antisymm hab hba)
  exact List.Pairwise.imp₂ hlt hle hnd

/-! ## The way to the edited path -/

/-- Every tree object above the path is in order, and what its parent records of it is what its entries
come to. -/
def Rebuilt (t : Tree) (p : Path) : Prop :=
  ∀ a n r, p = a ++ n :: r →
    ∃ s m, t.at a = some (.tree s m) ∧ s.SortedNames ∧ (a ≠ [] → m = s.treeMeta)

theorem rebuilt_singleton {t : Tree} (h : t.SortedNames) (n : String) : t.Rebuilt [n] := by
  intro a m r heq
  cases a with
  | nil => exact ⟨t, _, rfl, h, fun hne => absurd rfl hne⟩
  | cons x a => simp at heq

theorem Rebuilt.cons {t s : Tree} {n m : String} {p : Path} (hs : s.Rebuilt (m :: p))
    (ht : t.SortedNames) (hn : t.find? n = some (.tree s s.treeMeta)) : t.Rebuilt (n :: m :: p) := by
  intro a k r heq
  cases a with
  | nil => exact ⟨t, _, rfl, ht, fun hne => absurd rfl hne⟩
  | cons x a =>
      obtain ⟨rfl, htail⟩ := List.cons.inj heq
      obtain ⟨u, v, hu, hsorted, hmeta⟩ := hs a k r htail
      rw [at_cons, hn]
      cases a with
      | nil =>
          cases hu
          exact ⟨_, _, rfl, hsorted, fun _ => rfl⟩
      | cons y a => exact ⟨u, v, hu, hsorted, fun _ => hmeta (List.cons_ne_nil y a)⟩

theorem rebuilt_of_set {t s : Tree} {n m : String} {p : Path} (ht : t.UniqueNames)
    (hs : s.Rebuilt (m :: p)) :
    (buildAndStore (setEntry n (.tree s s.treeMeta) t.entries)).Rebuilt (n :: m :: p) := by
  refine hs.cons (buildAndStore_sorted (nodup_setEntry n _ ht.nodup)) ?_
  rw [find?_buildAndStore, lookup_setEntry, if_pos rfl]

theorem spliceEntry_rebuilt {base : Option Tree} (hb : (base.getD .nil).UniqueNames) {p : Path}
    {e : TreeEntry} {t : Tree} (h : spliceEntry base p e = .ok t) : t.Rebuilt p := by
  induction p generalizing base t with
  | nil => cases h
  | cons n p ih =>
      cases p with
      | nil =>
          cases h
          exact rebuilt_singleton (buildAndStore_sorted (nodup_setEntry n e hb.nodup)) n
      | cons m p =>
          rw [spliceEntry_cons] at h
          obtain ⟨child, hchild, h⟩ := bind_eq_ok.mp h
          obtain ⟨s, hs, h⟩ := bind_eq_ok.mp h
          cases h
          refine rebuilt_of_set hb (ih ?_ hs)
          cases hf : (base.getD .nil).find? n with
          | none =>
              rw [hf] at hchild
              cases hchild
              trivial
          | some c =>
              rw [hf] at hchild
              cases c with
              | blob b => cases hchild
              | symlink l =>
                  cases hchild
                  trivial
              | tree s k =>
                  cases hchild
                  exact hb.of_find? hf

theorem removeEntry_rebuilt {t t' : Tree} (ht : t.UniqueNames) {p : Path}
    (h : t.removeEntry p = .ok (some t')) : t'.Rebuilt p := by
  induction p generalizing t t' with
  | nil => cases h
  | cons n p ih =>
      cases p with
      | nil =>
          unfold removeEntry at h
          simp only at h
          split_ifs at h
          · cases h
          have hkept : buildAndStore (t.entries.filter fun x => x.1 ≠ n) = t' :=
            Option.some.inj (Except.ok.inj h)
          subst hkept
          refine rebuilt_singleton (buildAndStore_sorted ?_) n
          exact ht.nodup.sublist (List.filter_sublist.map Prod.fst)
      | cons m p =>
          rw [removeEntry_cons] at h
          split at h
          · cases h
          · rename_i c hf
            cases c with
            | blob b => cases h
            | symlink l => cases h
            | tree s k =>
                obtain ⟨s', hs', h⟩ := bind_eq_ok.mp (show (removeEntry s (m :: p) >>= _) = _ from h)
                cases s' with
                | none => cases h
                | some s' =>
                    cases h
                    exact rebuilt_of_set ht (ih (ht.of_find? hf) hs')

/-! ## What a walk finds -/

/-- A blob above the path is loaded as a tree. -/
theorem navigateEntry_of_blobAbove {t : Tree} {p : Path} (h : BlobAbove t p) :
    t.navigateEntry p = .error (.invalidObject "not a tree object") := by
  induction p generalizing t with
  | nil =>
      obtain ⟨a, n, r, b, heq, -⟩ := h
      simp at heq
  | cons n p ih =>
      cases p with
      | nil => exact absurd h not_blobAbove_singleton
      | cons m p =>
          rw [navigateEntry_cons]
          obtain ⟨b, hb⟩ | ⟨s, k, hs, hbelow⟩ := blobAbove_cons.mp h
          · rw [hb]
            rfl
          · rw [hs]
            exact ih hbelow

theorem navigateEntry_of_clear {t : Tree} {p : Path} (hp : p ≠ []) (h : ¬ BlobAbove t p) :
    t.navigateEntry p = .ok (t.at p) := by
  obtain ⟨o, ho⟩ := (navigateEntry_eq_ok_iff hp).mpr h
  rw [ho, at_of_navigateEntry hp ho]

/-- A walk finds at the edited path what was put there. -/
theorem Edited.found {base t : Tree} {p : Path} {o : Option TreeEntry} (h : Edited base p o t)
    (hp : p ≠ []) : t.navigateEntry p = .ok o := by
  have hclear : ¬ BlobAbove t p := by
    rintro ⟨a, n, r, b, heq, ha⟩
    obtain ⟨s, m, hs⟩ := h.above a n r heq
    rw [hs] at ha
    cases ha
  have hat := h.below []
  rw [List.append_nil] at hat
  rw [navigateEntry_of_clear hp hclear, hat]
  cases o <;> rfl

/-- **`Edited.unmoved`** — beside the edited path a walk ends as it did before, in an error too. -/
theorem Edited.unmoved {base t : Tree} {p : Path} {o : Option TreeEntry} (h : Edited base p o t)
    {q : Path} (hpq : ¬ p <+: q) (hqp : ¬ q <+: p) : t.navigateEntry q = base.navigateEntry q := by
  have hq : q ≠ [] := fun hq => hqp (hq ▸ List.nil_prefix)
  have hsame : BlobAbove t q ↔ BlobAbove base q := by
    have hat : ∀ a n r, q = a ++ n :: r → ∀ b,
        t.at a = some (.blob b) ↔ base.at a = some (.blob b) := by
      intro a n r heq b
      by_cases hap : a <+: p
      · -- above both paths stands a directory now, and no file stood there
        obtain ⟨c, rfl⟩ := hap
        cases c with
        | nil =>
            rw [List.append_nil] at hpq
            exact absurd ⟨n :: r, heq.symm⟩ hpq
        | cons m c =>
            obtain ⟨s, k, hs⟩ := h.above a m c rfl
            rw [hs]
            exact iff_of_false (fun h => nomatch h) (h.not_blob a m c rfl b)
      · rw [h.beside a (fun hpa => hpq (hpa.trans ⟨n :: r, heq.symm⟩)) hap]
    constructor
    · rintro ⟨a, n, r, b, heq, ha⟩
      exact ⟨a, n, r, b, heq, (hat a n r heq b).mp ha⟩
    · rintro ⟨a, n, r, b, heq, ha⟩
      exact ⟨a, n, r, b, heq, (hat a n r heq b).mpr ha⟩
  by_cases habove : BlobAbove base q
  · rw [navigateEntry_of_blobAbove habove, navigateEntry_of_blobAbove (hsame.mpr habove)]
  · rw [navigateEntry_of_clear hq habove, navigateEntry_of_clear hq fun h => habove (hsame.mp h),
      h.beside q hpq hqp]

/-- A removal loads it as well. -/
theorem removeEntry_of_blobAbove {t : Tree} {p : Path} (h : BlobAbove t p) :
    t.removeEntry p = .error (.invalidObject "not a tree object") := by
  induction p generalizing t with
  | nil =>
      obtain ⟨a, n, r, b, heq, -⟩ := h
      simp at heq
  | cons n p ih =>
      cases p with
      | nil => exact absurd h not_blobAbove_singleton
      | cons m p =>
          rw [removeEntry_cons]
          obtain ⟨b, hb⟩ | ⟨s, k, hs, hbelow⟩ := blobAbove_cons.mp h
          · rw [hb]
            rfl
          · rw [hs]
            show (s.removeEntry (m :: p) >>= _) = _
            rw [ih hbelow]
            rfl

/-- A removal finds nothing where a walk does. -/
theorem removeEntry_none_iff {t : Tree} {p : Path} (hp : p ≠ []) :
    t.removeEntry p = .ok none ↔ t.navigateEntry p = .ok none := by
  constructor
  · intro h
    by_cases habove : BlobAbove t p
    · rw [removeEntry_of_blobAbove habove] at h
      cases h
    · obtain ⟨o, ho, hfound⟩ := removeEntry_isOk hp habove
      rw [h] at ho
      cases ho
      rw [navigateEntry_of_clear hp habove]
      by_contra hne
      exact hfound (fun hnone => hne (by rw [hnone])) rfl
  · intro h
    have habove := (navigateEntry_eq_ok_iff hp).mp ⟨_, h⟩
    obtain ⟨o, ho, -⟩ := removeEntry_isOk hp habove
    cases o with
    | none => exact ho
    | some t' => exact absurd (at_of_navigateEntry hp h) (edited_of_removeEntry ho).2

/-! ## Edits that go through -/

/-- What is left of a tree after its one path `p` was edited. -/
structure OnePathChanged (t : Tree) (p : Path) (o : Option TreeEntry) (t' : Tree) : Prop where
  found : t'.navigateEntry p = .ok o
  unmoved : ∀ q, ¬ p <+: q → ¬ q <+: p → t'.navigateEntry q = t.navigateEntry q
  rebuilt : t'.Rebuilt p

/-- The tree with the one file `d/f`. -/
def oneDeepFile : Tree :=
  .tree "d" (.blob "f" ⟨1, none, 1, none⟩ .nil) ⟨none, 1, 1⟩ .nil

/-- Nothing is at the path, and a splice makes it. -/
structure AbsentAt (t : Tree) (p : Path) (e : TreeEntry) : Prop where
  navigate : t.navigate p = .ok none
  navigateEntry : t.navigateEntry p = .ok none
  removeEntry : t.removeEntry p = .ok none
  splice : ∃ t', spliceEntry (some t) p e = .ok t' ∧ t'.at p = some e ∧
    ∀ a n r, p = a ++ n :: r → ∃ s m, t'.at a = some (.tree s m)

/-- **`file_on_the_way_iff`** — below a symlink nothing is found and everything can be put; below a
file every walk fails. -/
theorem file_on_the_way_iff {t : Tree} {p : Path} {e : TreeEntry}
    (hway : ∃ a n r x, p = a ++ n :: r ∧ t.at a = some x ∧ x.isTree = false) :
    t.AbsentAt p e ↔ ∀ a n r b, p = a ++ n :: r → t.at a ≠ some (.blob b) := by
  obtain ⟨a, n, r, x, rfl, hx, hleaf⟩ := hway
  have hp : a ++ n :: r ≠ [] := by simp
  have hnone : t.at (a ++ n :: r) = none := by
    rw [at_append, hx]
    exact TreeEntry.at_cons_of_not_tree hleaf n r
  constructor
  · rintro h a' n' r' b heq ha
    have hfail := navigateEntry_of_blobAbove ⟨a', n', r', b, heq, ha⟩
    rw [h.navigateEntry] at hfail
    cases hfail
  · intro hno
    have hclear : ¬ BlobAbove t (a ++ n :: r) := fun ⟨a', n', r', b, heq, ha⟩ => hno a' n' r' b heq ha
    have hwalk : t.navigateEntry (a ++ n :: r) = .ok none := by
      rw [navigateEntry_of_clear hp hclear, hnone]
    refine ⟨?_, hwalk, (removeEntry_none_iff hp).mpr hwalk, ?_⟩
    · rw [navigate_eq hp, hwalk]
      rfl
    · obtain ⟨t', ht'⟩ := @spliceEntry_isOk (some t) _ hp hclear e
      have hed : Edited t (a ++ n :: r) (some e) t' := edited_of_spliceEntry ht'
      have hat := hed.below []
      rw [List.append_nil] at hat
      exact ⟨t', ht', hat, fun a n r heq => hed.above a n r heq⟩

/-- The tree with one entry `x`. -/
def oneX (e : TreeEntry) : Tree := cons "x" e .nil

theorem symlink_on_the_way : (oneX (.symlink ⟨"y", none⟩)).AbsentAt ["x", "z"] (.blob ⟨2, none, 1, none⟩) := by
  refine (file_on_the_way_iff ⟨["x"], "z", [], _, rfl, rfl, rfl⟩).mpr fun a n r b heq ha => ?_
  cases a with
  | nil => cases ha
  | cons k a =>
      obtain ⟨rfl, htail⟩ := List.cons.inj heq
      cases a with
      | nil => cases ha
      | cons m a => simp at htail

/-- With a file on the way none of the walks goes through. -/
theorem file_on_the_way :
    ¬ ∀ (t : Tree) (p : Path) (e : TreeEntry),
      (∃ a n r x, p = a ++ n :: r ∧ t.at a = some x ∧ x.isTree = false) → t.AbsentAt p e := by
  intro hall
  have h := hall (oneX (.blob ⟨1, none, 1, none⟩)) ["x", "z"] (.blob ⟨2, none, 1, none⟩)
    ⟨["x"], "z", [], _, rfl, rfl, rfl⟩
  exact absurd h.navigateEntry (by decide)

end Tree

end Omemfs
