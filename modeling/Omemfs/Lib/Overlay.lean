/-
# Omemfs.Lib.Overlay — one directory tree laid over another.

`LaidOver l dir g g'` says of two states of a file system, as `lstat` tells them: `g'` has what `l` has
below `dir`, and what `g` has everywhere else.  A layer is put together entry by entry: a leaf is put at
its path, a directory is made and filled.  `Over` is the part of it below `dir`.
-/
import Omemfs.Lib.DirTree

namespace Omemfs.Lib

variable {ν α : Type} [DecidableEq ν]

def Over (l : DirTree ν α) (dir : List ν) (g g' : List ν → Option (Kind α)) : Prop :=
  ∀ r, g' (dir ++ r) = (l.get r).or (g (dir ++ r))

structure LaidOver (l : DirTree ν α) (dir : List ν) (g g' : List ν → Option (Kind α)) : Prop where
  inside : Over l dir g g'
  outside : ∀ q, ¬ dir <+: q → g' q = g q

namespace LaidOver

variable {l s : DirTree ν α} {dir : List ν} {g g₁ g₂ : List ν → Option (Kind α)} {n : ν}

/-- An empty layer shows the directory it was laid over. -/
theorem nil (hdir : g dir = some .dir) : LaidOver .nil dir g g where
  inside r := by
    cases r with
    | nil => rw [List.append_nil, hdir, DirTree.get_nil, Option.some_or]
    | cons m r => rw [DirTree.nil_get_cons, Option.none_or]
  outside _ _ := rfl

/-- A leaf put at its path. -/
theorem leaf (hdir : g dir = some .dir) {a : α}
    (hput : ∀ q, g₁ q = if q = dir ++ [n] then some (.leaf a) else g q) :
    LaidOver (.leaf n a .nil) dir g g₁ where
  inside r := by
    rw [hput]
    cases r with
    | nil => rw [List.append_nil, if_neg (by simp), hdir, DirTree.get_nil, Option.some_or]
    | cons m r =>
        by_cases hm : m = n
        · subst hm
          have hfind : (DirTree.leaf m a .nil).find? m = some (.leaf a) := by
            rw [DirTree.find?, if_pos rfl]
          rw [DirTree.get_cons_of_leaf hfind]
          by_cases hr : r = [] <;> simp [hr]
        · have hfind : (DirTree.leaf n a .nil).find? m = none := by
            rw [DirTree.find?, if_neg hm, DirTree.find?_nil]
          rw [DirTree.get_cons_of_none hfind, Option.none_or, if_neg (by simp [hm])]
  outside q hq := by
    rw [hput, if_neg]
    rintro rfl
    exact hq (List.prefix_append _ _)

/-- A directory made, and filled. -/
theorem sub (hdir : g dir = some .dir)
    (hmk : ∀ q, g₁ q = if q = dir ++ [n] then some .dir else g q)
    (h : LaidOver s (dir ++ [n]) g₁ g₂) : LaidOver (.sub n s .nil) dir g g₂ where
  inside r := by
    cases r with
    | nil =>
        have hout : ¬ dir ++ [n] <+: dir := by
          intro hpre
          have hlen := hpre.length_le
          rw [List.length_append, List.length_singleton] at hlen
          omega
        rw [List.append_nil, h.outside _ hout, hmk, if_neg (by simp), hdir, DirTree.get_nil,
          Option.some_or]
    | cons m r =>
        by_cases hm : m = n
        · subst hm
          have hfind : (DirTree.sub m s .nil).find? m = some (.sub s) := by
            rw [DirTree.find?, if_pos rfl]
          have hin := h.inside r
          rw [List.append_assoc, List.singleton_append] at hin
          rw [DirTree.get_cons_of_sub hfind, hin, hmk]
          cases r with
          | nil => rw [if_pos (by simp), DirTree.get_nil, Option.some_or, Option.some_or]
          | cons k r => rw [if_neg (by simp)]
        · have hfind : (DirTree.sub n s .nil).find? m = none := by
            rw [DirTree.find?, if_neg hm, DirTree.find?_nil]
          have hout : ¬ dir ++ [n] <+: dir ++ m :: r := by
            rw [List.prefix_append_right_inj]
            simpa using Ne.symm hm
          rw [DirTree.get_cons_of_none hfind, Option.none_or, h.outside _ hout, hmk,
            if_neg (by simp [hm])]
  outside q hq := by
    have hout : ¬ dir ++ [n] <+: q := fun hpre => hq ((List.prefix_append _ _).trans hpre)
    rw [h.outside _ hout, hmk, if_neg]
    rintro rfl
    exact hout List.prefix_rfl

/-- **`LaidOver.cons`** — the first entry, and then the others. -/
theorem cons {x : Item ν α} (h : LaidOver (DirTree.cons n x .nil) dir g g₁)
    (hrest : LaidOver l dir g₁ g₂) (hfresh : l.find? n = none) :
    LaidOver (DirTree.cons n x l) dir g g₂ where
  inside r := by
    rw [hrest.inside, h.inside]
    cases r with
    | nil => simp only [DirTree.get_nil, Option.some_or]
    | cons m r =>
        have hfind : ∀ t : DirTree ν α, (DirTree.cons n x t).find? m =
            if m = n then some x else t.find? m := fun t => DirTree.find?_cons m n x t
        by_cases hm : m = n
        · subst hm
          have hone : (DirTree.cons m x .nil).get (m :: r) = (DirTree.cons m x l).get (m :: r) := by
            simp only [DirTree.get, DirTree.at_cons, hfind, if_true]
          rw [DirTree.get_cons_of_none hfresh, Option.none_or, hone]
        · have hone : (DirTree.cons n x .nil).get (m :: r) = none :=
            DirTree.get_cons_of_none (by rw [hfind, if_neg hm, DirTree.find?_nil]) r
          have hall : (DirTree.cons n x l).get (m :: r) = l.get (m :: r) := by
            simp only [DirTree.get, DirTree.at_cons, hfind, if_neg hm]
          rw [hone, Option.none_or, hall]
  outside q hq := by rw [hrest.outside q hq, h.outside q hq]

end LaidOver

namespace Over

variable {l s : DirTree ν α} {dir : List ν} {g g₁ : List ν → Option (Kind α)} {n : ν}

/-- The directory is there afterwards. -/
theorem get_dir (h : Over l dir g g₁) : g₁ dir = some .dir := by
  have hin := h []
  rwa [List.append_nil, DirTree.get_nil, Option.some_or] at hin

/-- Under a name that the layer does not have, everything is as it was. -/
theorem get_of_none (h : Over l dir g g₁) (hn : l.find? n = none) (r : List ν) :
    g₁ (dir ++ n :: r) = g (dir ++ n :: r) := by
  rw [h, DirTree.get_cons_of_none hn, Option.none_or]

/-- An entry of the layer. -/
theorem get_of_some (h : Over l dir g g₁) {x : Item ν α} (hn : l.find? n = some x) :
    g₁ (dir ++ [n]) = some x.kind := by
  rw [h, DirTree.get, DirTree.at_singleton, hn]
  rfl

/-- Below a directory of the layer its entries are laid over. -/
theorem sub (h : Over l dir g g₁) (hn : l.find? n = some (.sub s)) : Over s (dir ++ [n]) g g₁ := by
  intro r
  have hassoc : dir ++ [n] ++ r = dir ++ n :: r := by simp
  rw [hassoc, h, DirTree.get_cons_of_sub hn]

end Over

end Omemfs.Lib
