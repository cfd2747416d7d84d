/-
# Omemfs.Lib.BinarySearch — the lower-bound search, whatever it searches.

`lowerBound less n` is the loop every binary search for a first position is: halve the range, go right
of a middle that is `less`, left of one that is not.  Over a range that is not sorted it still ends at
an edge, a position with something `less` just before it (unless it is the first) and something that
is not at it (unless it is the end); that is all `lowerBound_spec` says, and where `less` holds up to
some position only, there is one edge.
-/
import Mathlib.Order.Basic

namespace Omemfs.Lib.BinarySearch

variable {less : Nat → Bool}

/-- The loop on `[lo, hi)`; its length is fuel enough. -/
def searchLoop (less : Nat → Bool) : Nat → Nat → Nat → Nat
  | 0, lo, _ => lo
  | fuel + 1, lo, hi =>
      if lo < hi then
        let mid := lo + (hi - lo) / 2
        if less mid then searchLoop less fuel (mid + 1) hi else searchLoop less fuel lo mid
      else lo

def lowerBound (less : Nat → Bool) (n : Nat) : Nat := searchLoop less n 0 n

theorem searchLoop_spec {fuel lo hi : Nat} (hle : lo ≤ hi) (hfuel : hi - lo ≤ fuel) :
    lo ≤ searchLoop less fuel lo hi ∧ searchLoop less fuel lo hi ≤ hi ∧
      (searchLoop less fuel lo hi = lo ∨ less (searchLoop less fuel lo hi - 1) = true) ∧
      (searchLoop less fuel lo hi = hi ∨ less (searchLoop less fuel lo hi) = false) := by
  induction fuel generalizing lo hi with
  | zero =>
      have heq : lo = hi := by omega
      rw [searchLoop]
      exact ⟨Nat.le_refl _, hle, Or.inl rfl, Or.inl heq⟩
  | succ fuel ih =>
      rw [searchLoop]
      simp only
      split_ifs with hlt hless
      · obtain ⟨hl, hh, hbefore, hat⟩ :=
          @ih (lo + (hi - lo) / 2 + 1) hi (by omega) (by omega)
        refine ⟨by omega, hh, Or.inr ?_, hat⟩
        rcases hbefore with heq | h
        · rw [heq, Nat.add_sub_cancel]
          exact hless
        · exact h
      · obtain ⟨hl, hh, hbefore, hat⟩ := @ih lo (lo + (hi - lo) / 2) (by omega) (by omega)
        refine ⟨hl, by omega, hbefore, Or.inr ?_⟩
        rcases hat with heq | h
        · rw [heq]
          simpa using hless
        · exact h
      · exact ⟨Nat.le_refl _, hle, Or.inl rfl, Or.inl (by omega)⟩

/-- **`lowerBound_spec`** — the search ends at an edge. -/
theorem lowerBound_spec (less : Nat → Bool) (n : Nat) :
    lowerBound less n ≤ n ∧ (lowerBound less n = 0 ∨ less (lowerBound less n - 1) = true) ∧
      (lowerBound less n = n ∨ less (lowerBound less n) = false) := by
  obtain ⟨_, hle, hbefore, hat⟩ :=
    @searchLoop_spec less n 0 n (Nat.zero_le n) (by omega)
  exact ⟨hle, hbefore, hat⟩

end Omemfs.Lib.BinarySearch
