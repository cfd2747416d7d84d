/-
# Omemfs.Ls.Walk — the rows of a requested path.

A walk of a tree gives one row for each entry it gets to (`mem_collectTreeRows`): its direct entries, and
with `-r` those below a directory whose tree object is in the local store.  Requested paths of which
none lies above another give rows of different paths.
-/
import Omemfs.Ls.Shown

namespace Omemfs.Ls

open Omemfs Sync

namespace Listing

variable (l : Listing)

/-! ## One tree -/

def walkRow (force : Option Mark) (p : Path) (e : TreeEntry) : Row :=
  if e.isTree then l.dirRow force p else l.leafRow force p

/-- The walk gets to the path, if there is something. -/
def Reached : Tree → Path → Prop
  | _, [] => False
  | _, [_] => True
  | t, n :: m :: r =>
      l.recursive = true ∧
        ∃ s k, t.find? n = some (.tree s k) ∧ l.present s = true ∧ Reached s (m :: r)

variable {l}

@[simp]
theorem path_walkRow (force : Option Mark) (p : Path) (e : TreeEntry) :
    (l.walkRow force p e).path = p := by
  unfold walkRow
  split_ifs <;> rfl

theorem slash_walkRow (force : Option Mark) (p : Path) (e : TreeEntry) :
    (l.walkRow force p e).slash = e.isTree := by
  unfold walkRow
  split_ifs with h
  · exact h.symm
  · exact (Bool.not_eq_true _ ▸ h).symm

/-- The rows of one entry. -/
def entryWalk (l : Listing) (force : Option Mark) (e : TreeEntry) (p : Path) : List Row :=
  l.walkRow force p e ::
    (if e.isTree && l.recursive && l.present e.children then
      l.collectTreeRows force e.children p else [])

theorem collectTreeRows_cons (force : Option Mark) (n : String) (e : TreeEntry) (rest : Tree)
    (pfx : Path) : l.collectTreeRows force (.cons n e rest) pfx =
      l.entryWalk force e (pfx ++ [n]) ++ l.collectTreeRows force rest pfx := by
  cases e with
  | blob b => rfl
  | symlink k => rfl
  | tree t m => rfl

/-- **`mem_collectTreeRows`** — one row for each entry that the walk gets to. -/
theorem mem_collectTreeRows {force : Option Mark} {t : Tree} (hwf : t.Wf) {pfx : Path} {r : Row} :
    r ∈ l.collectTreeRows force t pfx ↔
      ∃ q e, l.Reached t q ∧ t.at q = some e ∧ r = l.walkRow force (pfx ++ q) e := by
  induction t using Tree.induction_cons generalizing pfx with
  | nil =>
      constructor
      · intro h
        cases h
      · rintro ⟨q, e, hq, he, -⟩
        cases q with
        | nil => exact hq.elim
        | cons n q => cases he
  | cons m e rest ihe ih =>
      obtain ⟨hm, hwe, hwr⟩ := Tree.wf_cons.mp hwf
      have hfind : (Tree.cons m e rest).find? m = some e := by rw [Tree.find?_cons, if_pos rfl]
      rw [collectTreeRows_cons, List.mem_append, ih hwr]
      constructor
      · rintro (hin | ⟨q, c, hq, hc, rfl⟩)
        · rcases List.mem_cons.mp hin with rfl | hin
          · exact ⟨[m], e, trivial, by rw [Tree.at_singleton, hfind], rfl⟩
          · split_ifs at hin with hdown
            · simp only [Bool.and_eq_true] at hdown
              obtain ⟨⟨htree, hrec⟩, hpresent⟩ := hdown
              obtain ⟨q, c, hq, hc, rfl⟩ := (ihe hwe.children).mp hin
              cases q with
              | nil => exact hq.elim
              | cons a q =>
                  refine ⟨m :: a :: q, c, ?_, ?_, by simp⟩
                  · cases e with
                    | tree s k => exact ⟨hrec, s, k, hfind, hpresent, hq⟩
                    | blob b => cases htree
                    | symlink x => cases htree
                  · rw [Tree.cons_at_cons, if_pos rfl, TreeEntry.at_cons]
                    exact hc
            · cases hin
        · cases q with
          | nil => exact hq.elim
          | cons a q =>
              have ha : a ≠ m := by
                rintro rfl
                rw [Tree.at_cons_of_not_mem hm] at hc
                cases hc
              refine ⟨a :: q, c, ?_, by rw [Tree.cons_at_cons, if_neg ha, hc], rfl⟩
              cases q with
              | nil => trivial
              | cons b q =>
                  obtain ⟨hrec, s, k, hs, hmore⟩ := hq
                  exact ⟨hrec, s, k, by rw [Tree.find?_cons, if_neg ha, hs], hmore⟩
      · rintro ⟨q, c, hq, hc, rfl⟩
        cases q with
        | nil => exact hq.elim
        | cons a q =>
            rw [Tree.cons_at_cons] at hc
            by_cases ha : a = m
            · subst ha
              rw [if_pos rfl] at hc
              refine .inl ?_
              cases q with
              | nil =>
                  rw [TreeEntry.at_nil, Option.some.injEq] at hc
                  exact hc ▸ List.mem_cons_self ..
              | cons b q =>
                  obtain ⟨hrec, s, k, hs, hpresent, hmore⟩ := hq
                  rw [hfind] at hs
                  cases hs
                  refine List.mem_cons_of_mem _ ?_
                  rw [if_pos (by simp [TreeEntry.isTree, hrec, TreeEntry.children, hpresent])]
                  exact (ihe hwe.children).mpr ⟨b :: q, c, hmore, hc, by simp⟩
            · rw [if_neg ha] at hc
              refine .inr ⟨a :: q, c, ?_, hc, rfl⟩
              cases q with
              | nil => trivial
              | cons b q =>
                  obtain ⟨hrec, s, k, hs, hmore⟩ := hq
                  rw [Tree.find?_cons, if_neg ha] at hs
                  exact ⟨hrec, s, k, hs, hmore⟩

/-- The rows of a walk have different paths. -/
theorem nodup_collectTreeRows {force : Option Mark} {t : Tree} (hwf : t.Wf) (pfx : Path) :
    ((l.collectTreeRows force t pfx).map Row.path).Nodup := by
  induction t using Tree.induction_cons generalizing pfx with
  | nil => exact List.nodup_nil
  | cons m e rest ihe ih =>
      obtain ⟨hm, hwe, hwr⟩ := Tree.wf_cons.mp hwf
      have hbelow : ∀ r ∈ (if e.isTree && l.recursive && l.present e.children then
          l.collectTreeRows force e.children (pfx ++ [m]) else []), ∃ n q, r.path = pfx ++ m :: n :: q := by
        intro r hr
        split_ifs at hr
        · obtain ⟨q, c, hq, -, rfl⟩ := (mem_collectTreeRows hwe.children).mp hr
          cases q with
          | nil => exact hq.elim
          | cons n q => exact ⟨n, q, by simp⟩
        · cases hr
      rw [collectTreeRows_cons, List.map_append]
      refine List.Nodup.append ?_ (ih hwr pfx) ?_
      · rw [entryWalk, List.map_cons, List.nodup_cons]
        constructor
        · rintro hin
          obtain ⟨r, hr, heq⟩ := List.mem_map.mp hin
          obtain ⟨n, q, hpath⟩ := hbelow r hr
          rw [hpath, path_walkRow] at heq
          simpa using congrArg List.length heq
        · split_ifs
          · exact ihe hwe.children _
          · exact List.nodup_nil
      · -- the other names
        intro p hp hp'
        obtain ⟨r, hr, rfl⟩ := List.mem_map.mp hp
        obtain ⟨r', hr', heq⟩ := List.mem_map.mp hp'
        obtain ⟨q, c, hq, hc, rfl⟩ := (mem_collectTreeRows hwr).mp hr'
        have hfirst : ∃ q, r.path = pfx ++ m :: q := by
          rcases List.mem_cons.mp hr with rfl | hr
          · exact ⟨[], by simp⟩
          · obtain ⟨n, q, hpath⟩ := hbelow r hr
            exact ⟨_, hpath⟩
        obtain ⟨q', hq'⟩ := hfirst
        rw [path_walkRow, hq', List.append_cancel_left_eq] at heq
        subst heq
        rw [Tree.at_cons_of_not_mem hm] at hc
        cases hc

/-! ## One requested path -/

theorem mem_entryRows {e : TreeEntry} (hwf : e.Wf) {force : Option Mark} {p : Path} {r : Row} :
    r ∈ l.entryRows e force p ↔ r = (if e.isTree then l.selfRow force p else l.leafRow force p) ∨
      (e.isTree = true ∧ l.present e.children = true ∧ ∃ q c, l.Reached e.children q ∧
        e.children.at q = some c ∧ r = l.walkRow force (p ++ q) c) := by
  cases e with
  | blob b => simp [entryRows, TreeEntry.isTree]
  | symlink k => simp [entryRows, TreeEntry.isTree]
  | tree t m =>
      have hmem := @mem_collectTreeRows l force t hwf p r
      by_cases hp : l.present t = true
      · simp [entryRows, TreeEntry.isTree, TreeEntry.children, hp, hmem]
      · simp [entryRows, TreeEntry.isTree, TreeEntry.children, hp]

/-- A requested path has one row of its own, and others below it. -/
theorem nodup_entryRows {e : TreeEntry} (hwf : e.Wf) (force : Option Mark) (p : Path) :
    ((l.entryRows e force p).map Row.path).Nodup := by
  cases e with
  | blob b => exact List.nodup_singleton _
  | symlink k => exact List.nodup_singleton _
  | tree t m =>
      show (p :: (if l.present t then l.collectTreeRows force t p else []).map Row.path).Nodup
      split_ifs
      · refine List.nodup_cons.mpr ⟨fun hin => ?_, nodup_collectTreeRows hwf p⟩
        obtain ⟨r, hr, heq⟩ := List.mem_map.mp hin
        obtain ⟨q, c, hq, -, rfl⟩ := (mem_collectTreeRows hwf).mp hr
        cases q with
        | nil => exact hq.elim
        | cons n q => simpa using congrArg List.length heq
      · exact List.nodup_singleton _

theorem prefix_of_mem_entryRows {e : TreeEntry} (hwf : e.Wf) {force : Option Mark} {p : Path} {r : Row}
    (h : r ∈ l.entryRows e force p) : p <+: r.path := by
  rcases (mem_entryRows hwf).mp h with rfl | ⟨-, -, q, c, -, -, rfl⟩
  · split_ifs <;> exact List.prefix_rfl
  · rw [path_walkRow]
    exact List.prefix_append p q

end Listing

end Omemfs.Ls
