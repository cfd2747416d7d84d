/-
# Omemfs.Lib.Pool — a fixed number of workers over shared data.

A pool is shared data and a place in its program for each of `n` workers.  One step is one worker's
next atomic action, `turn`: it reads the data and its own place, gives new data and its next place,
and may wake the others.  Waking (`wake`) moves a worker that is parked and leaves every other where
it is; nobody else's place changes in a step (`step_cases`).

Facts about all workers come in two shapes.  What is counted over the workers moves by what the
acting worker's own place gained or lost (`total_step`); what holds at each place is kept when the
acting worker keeps it and the others do not mind the new data (`step_all`).
-/
import Mathlib.Algebra.BigOperators.Fin
import Mathlib.Algebra.Order.BigOperators.Group.Finset
import Omemfs.Lib.Runs

namespace Omemfs.Lib

universe u v

/-- What one action leaves: the data, the acting worker's next place, and whether it wakes. -/
structure Turn (δ : Type u) (π : Type v) where
  data : δ
  pc : π
  wakes : Bool

structure Pool (n : Nat) (δ : Type u) (π : Type v) where
  data : δ
  pcs : Fin n → π

namespace Pool

variable {n : Nat} {δ : Type u} {π : Type v}

/-- The next action of worker `w`, if it has one. -/
def step (turn : Fin n → δ → π → Option (Turn δ π)) (wake : π → π) (s : Pool n δ π) (w : Fin n) :
    Option (Pool n δ π) :=
  (turn w s.data (s.pcs w)).map fun t =>
    ⟨t.data, Function.update (if t.wakes then fun v => wake (s.pcs v) else s.pcs) w t.pc⟩

/-- The graph of `step`, for runs. -/
def Steps (turn : Fin n → δ → π → Option (Turn δ π)) (wake : π → π) (s : Pool n δ π) (w : Fin n)
    (s' : Pool n δ π) : Prop :=
  step turn wake s w = some s'

/-- All that a step does. -/
structure Moved (wake : π → π) (s : Pool n δ π) (w : Fin n) (t : Turn δ π) (s' : Pool n δ π) :
    Prop where
  data : s'.data = t.data
  self : s'.pcs w = t.pc
  others : ∀ v, v ≠ w → s'.pcs v = if t.wakes then wake (s.pcs v) else s.pcs v

section Steps

variable {turn : Fin n → δ → π → Option (Turn δ π)} {wake : π → π} {s s' : Pool n δ π} {w : Fin n}

/-- **`step_cases`** — a step is a turn of the acting worker, and nobody else moves but to wake. -/
theorem step_cases (h : Steps turn wake s w s') :
    ∃ t, turn w s.data (s.pcs w) = some t ∧ Moved wake s w t s' := by
  obtain ⟨t, ht, rfl⟩ := Option.map_eq_some_iff.mp h
  refine ⟨t, ht, rfl, Function.update_self .., ?_⟩
  intro v hv
  dsimp only
  rw [Function.update_of_ne hv]
  split_ifs <;> rfl

/-- Another worker is at its old place or has been woken from it. -/
theorem Moved.other {t : Turn δ π} (h : Moved wake s w t s') {v : Fin n} (hv : v ≠ w) :
    s'.pcs v = s.pcs v ∨ s'.pcs v = wake (s.pcs v) := by
  rw [h.others v hv]
  split_ifs
  · exact Or.inr rfl
  · exact Or.inl rfl

/-- What waking does not change of a place, no action changes of another's. -/
theorem Moved.other_eq {β : Type*} {f : π → β} (hf : ∀ p, f (wake p) = f p) {t : Turn δ π}
    (h : Moved wake s w t s') {v : Fin n} (hv : v ≠ w) : f (s'.pcs v) = f (s.pcs v) := by
  rcases h.other hv with he | he
  · rw [he]
  · rw [he, hf]

/-- A step keeps what its own turn establishes and the others' places do not lose. -/
theorem step_all {P : Fin n → δ → π → Prop} {t : Turn δ π} (h : Moved wake s w t s')
    (hself : P w t.data t.pc) (hothers : ∀ v, v ≠ w → P v t.data (s'.pcs v)) :
    ∀ v, P v s'.data (s'.pcs v) := by
  intro v
  rw [h.data]
  by_cases hv : v = w
  · subst hv
    rw [h.self]
    exact hself
  · exact hothers v hv

/-- Counted over the workers. -/
def total (f : π → Nat) (s : Pool n δ π) : Nat := ∑ v, f (s.pcs v)

/-- **`total_step`** — a count over the workers moves by what the acting worker's place gains. -/
theorem total_step {f : π → Nat} (hf : ∀ p, f (wake p) = f p) {t : Turn δ π}
    (h : Moved wake s w t s') : total f s' + f (s.pcs w) = total f s + f t.pc := by
  have hpcs : (fun v => f (s'.pcs v)) = Function.update (fun v => f (s.pcs v)) w (f t.pc) := by
    funext v
    by_cases hv : v = w
    · subst hv
      rw [Function.update_self, h.self]
    · rw [Function.update_of_ne hv]
      exact h.other_eq hf hv
  have hnew : total f s' = f t.pc + ∑ v ∈ Finset.univ \ {w}, f (s.pcs v) := by
    show ∑ v, f (s'.pcs v) = _
    rw [hpcs, Finset.sum_update_of_mem (Finset.mem_univ w)]
  have hold : total f s = f (s.pcs w) + ∑ v ∈ Finset.univ \ {w}, f (s.pcs v) := by
    rw [total, ← Finset.sum_update_of_mem (Finset.mem_univ w), Function.update_eq_self]
  omega

/-- A count is what one worker's place adds to it, and what the others' do. -/
theorem add_rest (f : π → Nat) (s : Pool n δ π) (w : Fin n) :
    f (s.pcs w) + ∑ v ∈ Finset.univ.erase w, f (s.pcs v) = total f s :=
  Finset.add_sum_erase Finset.univ (fun v => f (s.pcs v)) (Finset.mem_univ w)

/-- Without a wakeup, a count moves by what the acting worker's place gains. -/
theorem total_step_quiet (f : π → Nat) {t : Turn δ π} (h : Moved wake s w t s')
    (hquiet : t.wakes = false) : total f s' + f (s.pcs w) = total f s + f t.pc := by
  have hnew := add_rest f s' w
  have hold := add_rest f s w
  rw [h.self] at hnew
  have hrest : ∑ v ∈ Finset.univ.erase w, f (s'.pcs v) = ∑ v ∈ Finset.univ.erase w, f (s.pcs v) := by
    refine Finset.sum_congr rfl fun v hv => ?_
    rw [h.others v (Finset.ne_of_mem_erase hv), hquiet, if_neg Bool.false_ne_true]
  omega

/-- What waking adds to a count, it adds for each worker at most once. -/
theorem total_step_le {f : π → Nat} {c : Nat} (hf : ∀ p, f (wake p) ≤ f p + c) {t : Turn δ π}
    (h : Moved wake s w t s') : total f s' + f (s.pcs w) ≤ total f s + f t.pc + c * n := by
  have hnew := add_rest f s' w
  have hold := add_rest f s w
  rw [h.self] at hnew
  have hrest : ∑ v ∈ Finset.univ.erase w, f (s'.pcs v) ≤
      ∑ v ∈ Finset.univ.erase w, (f (s.pcs v) + c) := by
    refine Finset.sum_le_sum fun v hv => ?_
    rcases h.other (Finset.ne_of_mem_erase hv) with he | he
    · rw [he]
      exact Nat.le_add_right _ _
    · rw [he]
      exact hf _
  have hcard : (Finset.univ.erase w).card * c ≤ c * n := by
    rw [Nat.mul_comm]
    exact Nat.mul_le_mul_left c ((Finset.card_le_univ _).trans_eq (Fintype.card_fin n))
  rw [Finset.sum_add_distrib, Finset.sum_const, smul_eq_mul] at hrest
  omega

end Steps

theorem le_total (f : π → Nat) (s : Pool n δ π) (v : Fin n) : f (s.pcs v) ≤ total f s := by
  have hnonneg : ∀ u ∈ Finset.univ, 0 ≤ f (s.pcs u) := fun _ _ => Nat.zero_le _
  exact Finset.single_le_sum hnonneg (Finset.mem_univ v)

theorem total_eq_zero {f : π → Nat} {s : Pool n δ π} : total f s = 0 ↔ ∀ v, f (s.pcs v) = 0 := by
  simp [total, Finset.sum_eq_zero_iff]

end Pool

end Omemfs.Lib
