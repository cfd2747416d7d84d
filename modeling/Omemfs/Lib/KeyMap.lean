/-
# Omemfs.Lib.KeyMap — finite maps with values of one type.

Mathlib's association lists without duplicate keys, with values whose type does not depend on the
key.  `get` is the meaning of a map, and `get_insert` and `get_erase` are all a proof needs of the
two updates.  `pairs` lists a map; the order in which a program iterates over a hash map is any
permutation of it, and `get_eq_some_iff_mem` is what such a program knows of a pair it meets.
-/
import Mathlib.Data.List.AList

namespace Omemfs.Lib

/-- A finite map from `κ` to `α`. -/
abbrev KeyMap (κ α : Type*) := AList fun _ : κ => α

namespace KeyMap

variable {κ α : Type*}

def empty : KeyMap κ α := (∅ : AList _)

/-- The keys and values of the map. -/
def pairs (m : KeyMap κ α) : List (κ × α) := (AList.entries m).map fun x => (x.1, x.2)

def size (m : KeyMap κ α) : Nat := m.pairs.length

/-- No key is listed twice. -/
theorem nodup_keys (m : KeyMap κ α) : (m.pairs.map Prod.fst).Nodup := by
  have h := AList.keys_nodup m
  simpa [pairs, AList.keys, List.keys, Function.comp_def] using h

variable [DecidableEq κ]

def get (m : KeyMap κ α) (k : κ) : Option α := AList.lookup k m

def insert (m : KeyMap κ α) (k : κ) (a : α) : KeyMap κ α := AList.insert k a m

def erase (m : KeyMap κ α) (k : κ) : KeyMap κ α := AList.erase k m

@[simp]
theorem get_empty (k : κ) : (empty : KeyMap κ α).get k = none := rfl

theorem get_insert (m : KeyMap κ α) (k : κ) (a : α) (k' : κ) :
    (m.insert k a).get k' = if k' = k then some a else m.get k' := by
  unfold get insert
  split_ifs with h
  · subst h
    exact AList.lookup_insert m
  · exact AList.lookup_insert_ne h

@[simp]
theorem get_insert_self (m : KeyMap κ α) (k : κ) (a : α) : (m.insert k a).get k = some a := by
  rw [get_insert, if_pos rfl]

theorem get_insert_ne (m : KeyMap κ α) {k k' : κ} (a : α) (h : k' ≠ k) :
    (m.insert k a).get k' = m.get k' := by
  rw [get_insert, if_neg h]

theorem get_erase (m : KeyMap κ α) (k k' : κ) :
    (m.erase k).get k' = if k' = k then none else m.get k' := by
  unfold get erase
  split_ifs with h
  · subst h
    exact AList.lookup_erase k' m
  · exact AList.lookup_erase_ne h

/-- **`get_eq_some_iff_mem`** — a pair is listed exactly when the map has it. -/
theorem get_eq_some_iff_mem {m : KeyMap κ α} {k : κ} {a : α} :
    m.get k = some a ↔ (k, a) ∈ m.pairs := by
  unfold get pairs
  rw [← Option.mem_def, AList.mem_lookup_iff, List.mem_map]
  constructor
  · intro h
    exact ⟨⟨k, a⟩, h, rfl⟩
  · rintro ⟨x, hx, heq⟩
    cases heq
    exact hx

/-- The keys and values whose key satisfies `p`. -/
def filterKeys (p : κ → Bool) (m : KeyMap κ α) : KeyMap κ α :=
  ⟨(AList.entries m).filter fun x => p x.1, List.NodupKeys.sublist List.filter_sublist m.nodupKeys⟩

/-- The map with `f` applied to every value. -/
def mapValues (f : α → α) (m : KeyMap κ α) : KeyMap κ α :=
  ⟨(AList.entries m).map fun x => ⟨x.1, f x.2⟩, by
    have h := AList.keys_nodup m
    simpa [List.NodupKeys, List.keys, AList.keys, Function.comp_def] using h⟩

theorem get_filterKeys (p : κ → Bool) (m : KeyMap κ α) (k : κ) :
    (m.filterKeys p).get k = if p k then m.get k else none := by
  apply Option.ext
  intro a
  have hleft : (m.filterKeys p).get k = some a ↔ p k = true ∧ m.get k = some a := by
    rw [get_eq_some_iff_mem, get_eq_some_iff_mem]
    simp only [pairs, filterKeys, List.mem_map, List.mem_filter]
    constructor
    · rintro ⟨x, ⟨hx, hp⟩, heq⟩
      cases heq
      exact ⟨hp, x, hx, rfl⟩
    · rintro ⟨hp, x, hx, heq⟩
      cases heq
      exact ⟨x, ⟨hx, hp⟩, rfl⟩
  rw [hleft]
  split_ifs with h
  · simp [h]
  · simp [h]

theorem get_mapValues (f : α → α) (m : KeyMap κ α) (k : κ) :
    (m.mapValues f).get k = (m.get k).map f := by
  apply Option.ext
  intro a
  rw [get_eq_some_iff_mem, Option.map_eq_some_iff]
  simp only [get_eq_some_iff_mem, pairs, mapValues, List.mem_map]
  constructor
  · rintro ⟨x, ⟨y, hy, rfl⟩, heq⟩
    cases heq
    exact ⟨y.2, ⟨y, hy, rfl⟩, rfl⟩
  · rintro ⟨b, ⟨y, hy, heq⟩, hb⟩
    cases heq
    exact ⟨_, ⟨y, hy, rfl⟩, by rw [hb]⟩

theorem size_le_insert (m : KeyMap κ α) (k : κ) (a : α) : m.size ≤ (m.insert k a).size := by
  have hlen : m.entries.length ≤ (List.kerase k m.entries).length + 1 := by
    rw [List.kerase, List.length_eraseP]
    split_ifs <;> omega
  simpa [size, pairs, insert, AList.insert, List.kinsert] using hlen

theorem size_insert_of_get_none {m : KeyMap κ α} {k : κ} (h : m.get k = none) (a : α) :
    (m.insert k a).size = m.size + 1 := by
  have hmem : k ∉ m := AList.lookup_eq_none.mp h
  have hins := AList.entries_insert_of_notMem (b := a) hmem
  unfold size pairs insert
  rw [hins]
  simp

/-- Insert the pairs of a list, first to last. -/
def insertAll (m : KeyMap κ α) (xs : List (κ × α)) : KeyMap κ α :=
  xs.foldl (fun m x => m.insert x.1 x.2) m

/-- A key of the list or of the map has a value afterwards. -/
theorem get_insertAll_of_key {xs : List (κ × α)} {m : KeyMap κ α} {k : κ}
    (hk : (∃ a, (k, a) ∈ xs) ∨ ∃ a, m.get k = some a) : ∃ a, (m.insertAll xs).get k = some a := by
  induction xs generalizing m with
  | nil => simpa [insertAll] using hk
  | cons x xs ih =>
      obtain ⟨k', a'⟩ := x
      apply @ih (m.insert k' a')
      rw [get_insert]
      split_ifs with heq
      · exact Or.inr ⟨a', rfl⟩
      · rcases hk with ⟨a, hmem⟩ | hget
        · rcases List.mem_cons.mp hmem with h | h
          · cases h
            exact absurd rfl heq
          · exact Or.inl ⟨a, h⟩
        · exact Or.inr hget

/-- **`get_insertAll_range`** — of the pairs found at a range of positions, the last one of each key
stays. -/
theorem get_insertAll_range {row : Nat → Option (κ × α)} {first n : Nat} {k : κ} {a : α} :
    ((empty : KeyMap κ α).insertAll ((List.range' first n).filterMap row)).get k = some a ↔
      ∃ i, first ≤ i ∧ i < first + n ∧ row i = some (k, a) ∧
        ∀ j, i < j → j < first + n → ∀ b, row j ≠ some (k, b) := by
  induction n generalizing a with
  | zero =>
      refine iff_of_false (by simp [insertAll]) ?_
      rintro ⟨i, hi, hlt, _⟩
      omega
  | succ n ih =>
      have hlater : (∃ i, first ≤ i ∧ i < first + (n + 1) ∧ row i = some (k, a) ∧
          ∀ j, i < j → j < first + (n + 1) → ∀ b, row j ≠ some (k, b)) ↔
          row (first + n) = some (k, a) ∨ (∀ b, row (first + n) ≠ some (k, b)) ∧
            ∃ i, first ≤ i ∧ i < first + n ∧ row i = some (k, a) ∧
              ∀ j, i < j → j < first + n → ∀ b, row j ≠ some (k, b) := by
        constructor
        · rintro ⟨i, hi, hlt, hrow, hlast⟩
          by_cases heq : i = first + n
          · exact Or.inl (heq ▸ hrow)
          · exact Or.inr ⟨hlast (first + n) (by omega) (by omega), i, hi, by omega, hrow,
              fun j hj hjlt => hlast j hj (by omega)⟩
        · rintro (hrow | ⟨hnone, i, hi, hlt, hrow, hlast⟩)
          · exact ⟨first + n, by omega, by omega, hrow, fun j hj hjlt => by omega⟩
          · refine ⟨i, hi, by omega, hrow, fun j hj hjlt => ?_⟩
            by_cases heq : j = first + n
            · exact heq ▸ hnone
            · exact hlast j hj (by omega)
      rw [hlater, List.range'_concat, Nat.one_mul, List.filterMap_append]
      unfold insertAll at ih ⊢
      rw [List.foldl_append]
      cases hrow : row (first + n) with
      | none =>
          rw [List.filterMap_cons_none hrow]
          simpa using ih
      | some x =>
          obtain ⟨k', a'⟩ := x
          rw [List.filterMap_cons_some hrow]
          simp only [List.filterMap_nil, List.foldl_cons, List.foldl_nil, get_insert]
          by_cases hk : k = k'
          · subst hk
            simp [eq_comm]
          · simp [hk, Ne.symm hk, ih]

end KeyMap

end Omemfs.Lib
