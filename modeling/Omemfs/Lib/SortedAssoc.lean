/-
# Omemfs.Lib.SortedAssoc — a finite map kept as a list sorted by key.

The structure behind every sorted index: a list whose keys are strictly increasing, with
`partitionPoint` (the position of the first key that is not below the one sought), `upsert`
(replace at that position when the key is there, insert otherwise) and `lookup`.  On a sorted list
the binary search finds exactly the members (`lookup_eq_some_iff`), an upsert keeps the order
(`sorted_upsert`) and changes one key (`lookup_upsert`), and a run of upserts is won by the last
entry of each key (`lookup_upsertAll`).
-/
import Mathlib.Data.List.Nodup
import Mathlib.Order.Basic
import Mathlib.Order.Defs.LinearOrder
import Mathlib.Order.Lattice

namespace Omemfs.Lib.SortedAssoc

variable {α κ : Type*} [LinearOrder κ] (key : α → κ)

/-- Keys strictly increasing. -/
def Sorted (l : List α) : Prop := l.Pairwise (fun a b => key a < key b)

instance (l : List α) : Decidable (Sorted key l) :=
  inferInstanceAs (Decidable (l.Pairwise (fun a b => key a < key b)))

/-- Position of the first element whose key is not below `k`. -/
def partitionPoint (k : κ) (l : List α) : Nat :=
  (l.takeWhile (fun a => decide (key a < k))).length

/-- Binary search for the element with key `k`. -/
def lookup (k : κ) (l : List α) : Option α :=
  match l[partitionPoint key k l]? with
  | some a => if key a = k then some a else none
  | none => none

/-- Replace the element with the key of `x`, or insert `x` where it belongs. -/
def upsert (x : α) (l : List α) : List α :=
  let pos := partitionPoint key (key x) l
  match l[pos]? with
  | some a => if key a = key x then l.set pos x else l.insertIdx pos x
  | none => l.insertIdx pos x

/-- Upsert a list of elements, first to last. -/
def upsertAll (l xs : List α) : List α := xs.foldl (fun acc x => upsert key x acc) l

/-! ## The recursion behind the binary search -/

@[simp]
theorem lookup_nil (k : κ) : lookup key k ([] : List α) = none := rfl

theorem lookup_cons (k : κ) (a : α) (l : List α) :
    lookup key k (a :: l) =
      if key a < k then lookup key k l else if key a = k then some a else none := by
  by_cases h : key a < k
  · simp [lookup, partitionPoint, h]
  · simp [lookup, partitionPoint, h]

@[simp]
theorem upsert_nil (x : α) : upsert key x [] = [x] := rfl

theorem upsert_cons (x a : α) (l : List α) :
    upsert key x (a :: l) =
      if key a < key x then a :: upsert key x l
      else if key a = key x then x :: l else x :: a :: l := by
  by_cases h : key a < key x
  · rw [if_pos h]
    simp only [upsert, partitionPoint, h, decide_true, List.takeWhile_cons, if_true,
      List.length_cons, List.getElem?_cons_succ, List.set_cons_succ, List.insertIdx_succ_cons]
    split
    · split <;> rfl
    · rfl
  · simp [upsert, partitionPoint, h]

/-! ## Membership, order and search -/

theorem mem_of_mem_upsert {x y : α} {l : List α} (h : y ∈ upsert key x l) : y = x ∨ y ∈ l := by
  induction l with
  | nil => simpa using h
  | cons a l ih =>
      rw [upsert_cons] at h
      split_ifs at h with hlt heq
      · rcases List.mem_cons.mp h with rfl | h
        · exact Or.inr (List.mem_cons_self ..)
        · exact (ih h).imp_right (List.mem_cons_of_mem a)
      · exact (List.mem_cons.mp h).imp_right (List.mem_cons_of_mem a)
      · exact List.mem_cons.mp h

/-- **`sorted_upsert`** — an upsert keeps the keys strictly increasing. -/
theorem sorted_upsert {x : α} {l : List α} (h : Sorted key l) : Sorted key (upsert key x l) := by
  induction l with
  | nil => simp [Sorted]
  | cons a l ih =>
      have hhead : ∀ b ∈ l, key a < key b := (List.pairwise_cons.mp h).1
      have htail : Sorted key l := (List.pairwise_cons.mp h).2
      rw [upsert_cons]
      split_ifs with hlt heq
      · refine List.pairwise_cons.mpr ⟨fun b hb => ?_, ih htail⟩
        rcases mem_of_mem_upsert key hb with rfl | hb
        · exact hlt
        · exact hhead b hb
      · exact List.pairwise_cons.mpr ⟨fun b hb => heq ▸ hhead b hb, htail⟩
      · have hxa : key x < key a := lt_of_le_of_ne (not_lt.mp hlt) (Ne.symm heq)
        refine List.pairwise_cons.mpr ⟨fun b hb => ?_, h⟩
        rcases List.mem_cons.mp hb with rfl | hb
        · exact hxa
        · exact hxa.trans (hhead b hb)

theorem sorted_upsertAll {l : List α} (h : Sorted key l) (xs : List α) :
    Sorted key (upsertAll key l xs) := by
  induction xs generalizing l with
  | nil => exact h
  | cons x xs ih => exact ih (sorted_upsert key h)

/-- **`lookup_eq_some_iff`** — on a sorted list the binary search finds exactly the members. -/
theorem upsert_of_lt {x : α} {l : List α} (h : ∀ a ∈ l, key a < key x) : upsert key x l = l ++ [x] := by
  induction l with
  | nil => rfl
  | cons a l ih =>
      rw [upsert_cons, if_pos (h a (List.mem_cons_self ..)),
        ih fun b hb => h b (List.mem_cons_of_mem a hb), List.cons_append]

/-- A sorted list is built up as it stands. -/
theorem upsertAll_of_sorted {l xs : List α} (h : Sorted key (l ++ xs)) :
    upsertAll key l xs = l ++ xs := by
  induction xs generalizing l with
  | nil => exact (List.append_nil l).symm
  | cons x xs ih =>
      have hx : upsert key x l = l ++ [x] := upsert_of_lt key fun a ha =>
        (List.pairwise_append.mp h).2.2 a ha x (List.mem_cons_self ..)
      show upsertAll key (upsert key x l) xs = _
      rw [hx, ih (by rwa [List.append_assoc]), List.append_assoc]
      rfl

theorem lookup_eq_some_iff {l : List α} (h : Sorted key l) {k : κ} {a : α} :
    lookup key k l = some a ↔ a ∈ l ∧ key a = k := by
  induction l with
  | nil => simp
  | cons b l ih =>
      have hhead : ∀ c ∈ l, key b < key c := (List.pairwise_cons.mp h).1
      rw [lookup_cons]
      split_ifs with hlt heq
      · rw [ih (List.pairwise_cons.mp h).2]
        constructor
        · rintro ⟨ha, hk⟩
          exact ⟨List.mem_cons_of_mem b ha, hk⟩
        · rintro ⟨ha, hk⟩
          rcases List.mem_cons.mp ha with rfl | ha
          · exact absurd hlt (hk ▸ lt_irrefl _)
          · exact ⟨ha, hk⟩
      · constructor
        · intro hs
          obtain rfl : b = a := by simpa using hs
          exact ⟨List.mem_cons_self .., heq⟩
        · rintro ⟨ha, hk⟩
          rcases List.mem_cons.mp ha with rfl | ha
          · rfl
          · exact absurd (hhead a ha) (by rw [heq, hk]; exact lt_irrefl _)
      · constructor
        · intro hs
          cases hs
        · rintro ⟨ha, hk⟩
          rcases List.mem_cons.mp ha with rfl | ha
          · exact absurd hk heq
          · exact absurd (hk ▸ hhead a ha) hlt

/-- **`lookup_upsert`** — an upsert is seen under its own key and nowhere else. -/
theorem lookup_upsert {l : List α} (h : Sorted key l) (x : α) (k : κ) :
    lookup key k (upsert key x l) = if k = key x then some x else lookup key k l := by
  induction l with
  | nil =>
      rw [upsert_nil, lookup_cons]
      by_cases hk : k = key x
      · simp [hk]
      · simp [hk, Ne.symm hk]
  | cons a l ih =>
      have ih := ih (List.pairwise_cons.mp h).2
      rw [upsert_cons]
      by_cases hk : k = key x
      · subst hk
        rw [if_pos rfl]
        split_ifs with hlt heq
        · rw [lookup_cons, if_pos hlt, ih, if_pos rfl]
        · rw [lookup_cons, if_neg (lt_irrefl _), if_pos rfl]
        · rw [lookup_cons, if_neg (lt_irrefl _), if_pos rfl]
      · rw [if_neg hk] at ih ⊢
        split_ifs with hlt heq
        · rw [lookup_cons, ih, lookup_cons]
        · rw [lookup_cons, lookup_cons, heq, if_neg (Ne.symm hk), if_neg (Ne.symm hk)]
        · have hxa : key x < key a := lt_of_le_of_ne (not_lt.mp hlt) (Ne.symm heq)
          rw [lookup_cons, if_neg (Ne.symm hk)]
          split_ifs with hxk
          · rfl
          · rw [lookup_cons, if_neg (fun hak => hxk (hxa.trans hak)),
              if_neg (fun hak : key a = k => hxk (hak ▸ hxa))]

/-- The last element of `xs` under a key wins; a key `xs` does not mention is as before. -/
theorem lookup_upsertAll {l : List α} (h : Sorted key l) (xs : List α) (k : κ) :
    lookup key k (upsertAll key l xs) =
      (xs.reverse.find? (fun x => decide (key x = k))).or (lookup key k l) := by
  induction xs generalizing l with
  | nil => rfl
  | cons x xs ih =>
      have hstep : upsertAll key l (x :: xs) = upsertAll key (upsert key x l) xs := rfl
      rw [hstep, ih (sorted_upsert key h), lookup_upsert key h, List.reverse_cons,
        List.find?_append, Option.or_assoc]
      by_cases hk : key x = k
      · simp [hk]
      · simp [hk, Ne.symm hk]

/-- When no two elements of `xs` share a key, the order of the upserts does not matter. -/
theorem lookup_upsertAll_of_nodup {xs : List α} (hnd : (xs.map key).Nodup) {l : List α}
    (h : Sorted key l) {x : α} (hx : x ∈ xs) :
    lookup key (key x) (upsertAll key l xs) = some x := by
  rw [lookup_upsertAll key h]
  cases hf : xs.reverse.find? (fun y => decide (key y = key x)) with
  | none =>
      have := List.find?_eq_none.mp hf x (List.mem_reverse.mpr hx)
      simp at this
  | some y =>
      have hy : y ∈ xs := List.mem_reverse.mp (List.mem_of_find?_eq_some hf)
      have hkey : key y = key x := by simpa using List.find?_some hf
      rw [Option.some_or, List.inj_on_of_nodup_map hnd hy hx hkey]

theorem lookup_upsertAll_of_notMem {xs : List α} {l : List α} (h : Sorted key l) {k : κ}
    (hk : ∀ x ∈ xs, key x ≠ k) : lookup key k (upsertAll key l xs) = lookup key k l := by
  have hf : xs.reverse.find? (fun x => decide (key x = k)) = none :=
    List.find?_eq_none.mpr fun x hx => by simpa using hk x (List.mem_reverse.mp hx)
  rw [lookup_upsertAll key h, hf, Option.none_or]

end Omemfs.Lib.SortedAssoc
