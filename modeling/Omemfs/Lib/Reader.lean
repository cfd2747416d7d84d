/-
# Omemfs.Lib.Reader — readers that may deliver less than they are asked for.

A read yields at least one element while there is something left, and never more than was asked for.
How much it yields, and how much the caller asks for, decides into which pieces the contents fall and
nothing else: whatever the requests were, the pieces put together are the contents (`flatten_pieces`).
-/
import Mathlib.Data.List.Basic

namespace Omemfs.Lib

universe u v

/-- A reader in a state, with what it has yet to deliver. -/
structure Reader (α : Type u) (σ : Type v) where
  read : σ → Nat → List α × σ
  rest : σ → List α
  read_append : ∀ s n, (read s n).1 ++ rest (read s n).2 = rest s
  read_le : ∀ s n, (read s n).1.length ≤ n
  read_ne_nil : ∀ s n, 0 < n → rest s ≠ [] → (read s n).1 ≠ []

namespace Reader

variable {α : Type u} {σ : Type v} (R : Reader α σ)

theorem length_rest (s : σ) (n : Nat) :
    (R.rest s).length = (R.read s n).1.length + (R.rest (R.read s n).2).length := by
  have hlen := congrArg List.length (R.read_append s n)
  rw [List.length_append] at hlen
  exact hlen.symm

/-- A read that yields something leaves less. -/
theorem rest_lt {s : σ} {n : Nat} (h : (R.read s n).1 ≠ []) :
    (R.rest (R.read s n).2).length < (R.rest s).length := by
  have hsplit := R.length_rest s n
  have hpos := List.length_pos_iff.mpr h
  omega

/-- Nothing is yielded only at the end. -/
theorem rest_eq_nil {s : σ} {n : Nat} (hn : 0 < n) (h : (R.read s n).1 = []) : R.rest s = [] := by
  by_contra hne
  exact R.read_ne_nil s n hn hne h

/-- All the reads until one yields nothing; the `i`-th of them asks for `request i`. -/
def pieces (request : Nat → Nat) (s : σ) : List (List α) :=
  if h : (R.read s (request 0)).1 = [] then []
  else
    have := R.rest_lt h
    (R.read s (request 0)).1 :: pieces (fun i => request (i + 1)) (R.read s (request 0)).2
termination_by (R.rest s).length

/-- **`flatten_pieces`** — the pieces make up the contents. -/
theorem flatten_pieces {request : Nat → Nat} (hpos : ∀ i, 0 < request i) (s : σ) :
    (R.pieces request s).flatten = R.rest s := by
  induction request, s using pieces.induct R with
  | case1 request s h =>
      rw [pieces, dif_pos h, R.rest_eq_nil (hpos 0) h]
      rfl
  | case2 request s h hlt ih =>
      rw [pieces, dif_neg h, List.flatten_cons, ih fun i => hpos (i + 1)]
      exact R.read_append s (request 0)

theorem pieces_ne_nil (request : Nat → Nat) (s : σ) : ∀ p ∈ R.pieces request s, p ≠ [] := by
  induction request, s using pieces.induct R with
  | case1 request s h =>
      rw [pieces, dif_pos h]
      nofun
  | case2 request s h hlt ih =>
      rw [pieces, dif_neg h]
      intro p hp
      rcases List.mem_cons.mp hp with rfl | hp
      · exact h
      · exact ih p hp

/-- Reads until `n` elements are there, or nothing is left; `got` are those there already. -/
def fill (n : Nat) (got : List α) (s : σ) : List α × σ :=
  if n ≤ got.length then (got, s)
  else if h : (R.read s (n - got.length)).1 = [] then (got, (R.read s (n - got.length)).2)
  else
    have := R.rest_lt h
    fill n (got ++ (R.read s (n - got.length)).1) (R.read s (n - got.length)).2
termination_by (R.rest s).length

/-- **`fill_fst`** — short reads do not show in a buffer that is filled. -/
theorem fill_fst (n : Nat) (got : List α) (s : σ) (hgot : got.length ≤ n) :
    (R.fill n got s).1 = (got ++ R.rest s).take n := by
  induction got, s using fill.induct R n with
  | case1 got s hfull =>
      have hlen : got.length = n := by omega
      rw [fill, if_pos hfull, ← hlen, List.take_left]
  | case2 got s hshort h =>
      rw [fill, if_neg hshort, dif_pos h, R.rest_eq_nil (by omega) h, List.append_nil,
        List.take_of_length_le hgot]
  | case3 got s hshort h hlt ih =>
      have hle := R.read_le s (n - got.length)
      rw [fill, if_neg hshort, dif_neg h, ih (by rw [List.length_append]; omega), List.append_assoc,
        R.read_append]

/-- What every read keeps is kept while a buffer is filled. -/
theorem fill_keeps {P : σ → Prop} (hread : ∀ s n, P s → P (R.read s n).2) (n : Nat) (got : List α)
    (s : σ) (hs : P s) : P (R.fill n got s).2 := by
  induction got, s using fill.induct R n with
  | case1 got s hfull =>
      rw [fill, if_pos hfull]
      exact hs
  | case2 got s hshort h =>
      rw [fill, if_neg hshort, dif_pos h]
      exact hread s _ hs
  | case3 got s hshort h hlt ih =>
      rw [fill, if_neg hshort, dif_neg h]
      exact ih (hread s _ hs)

end Reader

end Omemfs.Lib
