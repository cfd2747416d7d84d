/-
# Omemfs.Lib.Settle — operations that each bring a part of a state to one goal.

An operation that succeeds leaves its region as the goal has it, and everything else as it was.  So what a
list of such operations leaves is told by which of them were done, whatever their order (`Settled`); and
where none of them stands in another's way, the list goes through exactly if each of them can
(`Effect.settle`).  An invariant that every operation keeps, however it ends, is at hand all along.
-/
import Omemfs.Lib.Footprint

namespace Omemfs.Lib

variable {ε σ ι κ β : Type} {view : σ → κ → β} {goal : κ → β} {region : ι → κ → Prop}

/-! ## What every operation keeps -/

/-- Whatever becomes of the operation, the invariant holds afterwards. -/
def Maintains {α : Type} (inv : σ → Prop) (m : EStateM ε σ α) : Prop := ∀ s, inv s → inv (after m s)

namespace Maintains

variable {α : Type} {inv : σ → Prop} {m m' : EStateM ε σ α} {s t : σ}

theorem of_eq_ok (h : Maintains inv m) (hs : inv s) {a : α} (hm : m s = .ok a t) : inv t :=
  after_of_ok hm ▸ h s hs

theorem of_eq_error (h : Maintains inv m) (hs : inv s) {e : ε} (hm : m s = .error e t) : inv t :=
  after_of_error hm ▸ h s hs

theorem of_pure (a : α) : Maintains inv (pure a : EStateM ε σ α) := fun _ hs => hs

theorem of_throw (e : ε) : Maintains inv (throw e : EStateM ε σ α) := fun _ hs => hs

theorem bind {γ : Type} {f : α → EStateM ε σ γ} (h : Maintains inv m)
    (hf : ∀ a, Maintains inv (f a)) : Maintains inv (m >>= f) := by
  intro s hs
  rcases hm : m s with ⟨a, t⟩ | ⟨e, t⟩
  · have hrun : after (m >>= f) s = after (f a) t := by simp only [after, bind_eq_of_ok hm]
    rw [hrun]
    exact hf a t (h.of_eq_ok hs hm)
  · rw [after_of_error (bind_eq_of_error hm f)]
    exact h.of_eq_error hs hm

theorem forM {f : ι → EStateM ε σ PUnit} (h : ∀ a, Maintains inv (f a)) (l : List ι) :
    Maintains inv (l.forM f) := by
  induction l with
  | nil => exact of_pure _
  | cons a l ih => exact (h a).bind fun _ => ih

/-- An operation that runs in each state as one that keeps the invariant does. -/
theorem of_run (hs : inv s) (h : ∃ m' : EStateM ε σ α, m s = m' s ∧ Maintains inv m') :
    inv (after m s) := by
  obtain ⟨m', hrun, hm⟩ := h
  have hafter : after m s = after m' s := by simp only [after, hrun]
  exact hafter ▸ hm s hs

end Maintains

/-! ## One goal -/

/-- One operation has brought its region to the goal. -/
structure Reaches (view : σ → κ → β) (goal : κ → β) (R : κ → Prop) (s t : σ) : Prop where
  reached : ∀ q, R q → view t q = goal q
  kept : ∀ q, ¬ R q → view t q = view s q

/-- The regions of all that was done are as the goal has them. -/
structure Settled (view : σ → κ → β) (goal : κ → β) (region : ι → κ → Prop) (done : List ι)
    (s t : σ) : Prop where
  reached : ∀ a ∈ done, ∀ q, region a q → view t q = goal q
  kept : ∀ q, (∀ a ∈ done, ¬ region a q) → view t q = view s q

namespace Settled

variable {done : List ι} {s t u : σ}

theorem refl (s : σ) : Settled view goal region [] s s where
  reached := by
    intro a ha
    cases ha
  kept := fun _ _ => rfl

theorem step (h : Settled view goal region done s t) {a : ι}
    (ha : Reaches view goal (region a) t u) : Settled view goal region (done ++ [a]) s u where
  reached := by
    intro b hb q hq
    by_cases haq : region a q
    · exact ha.reached q haq
    · rw [ha.kept q haq]
      rcases List.mem_append.mp hb with hb | hb
      · exact h.reached b hb q hq
      · exact absurd (List.mem_singleton.mp hb ▸ hq) haq
  kept := by
    intro q hq
    have haq : ¬ region a q := hq a (List.mem_append_right _ (List.mem_singleton_self a))
    rw [ha.kept q haq]
    exact h.kept q fun b hb => hq b (List.mem_append_left _ hb)

/-- Everywhere there is what was there or what the goal has. -/
theorem view_or (h : Settled view goal region done s t) (q : κ) :
    view t q = view s q ∨ ((∃ a ∈ done, region a q) ∧ view t q = goal q) := by
  by_cases hq : ∃ a ∈ done, region a q
  · obtain ⟨a, ha, hr⟩ := hq
    exact .inr ⟨⟨a, ha, hr⟩, h.reached a ha q hr⟩
  · exact .inl (h.kept q fun a ha hr => hq ⟨a, ha, hr⟩)

end Settled

/-- **`Effect.settle`** — operations of which each succeeds in its own case, whichever of the others are
done, all succeed if each case is given, and then everything they were for is as the goal has it. -/
theorem Effect.settle {f : ι → EStateM ε σ PUnit} {plan : List ι} {s : σ} (inv : σ → Prop)
    (hinv : inv s) (hkeep : ∀ a ∈ plan, Maintains inv (f a)) (ok : ι → Prop)
    (step : ∀ done t, inv t → (∀ a ∈ done, a ∈ plan ∧ ok a) → Settled view goal region done s t →
      ∀ a ∈ plan, Effect (f a) t (ok a) fun _ => Reaches view goal (region a) t) :
    Effect (plan.forM f) s (∀ a ∈ plan, ok a) fun _ => Settled view goal region plan s := by
  -- `done` is what the run has behind it, `l` what is left
  suffices hrun : ∀ l done t, plan = done ++ l → inv t → (∀ a ∈ done, ok a) →
      Settled view goal region done s t →
      Effect (l.forM f) t (∀ a ∈ l, ok a) fun _ => Settled view goal region plan s from
    hrun plan [] s rfl hinv (by simp) (Settled.refl s)
  intro l
  induction l with
  | nil =>
      intro done t hplan _ _ ht
      rw [List.append_nil] at hplan
      subst hplan
      refine (Effect.pure PUnit.unit t).congr (by simp) ?_
      rintro - - u ⟨-, rfl⟩
      exact ht
  | cons a l ih =>
      intro done t hplan hinvt hdone ht
      have hmem : ∀ b ∈ done, b ∈ plan ∧ ok b := by
        intro b hb
        exact ⟨hplan ▸ List.mem_append_left _ hb, hdone b hb⟩
      have ha : a ∈ plan := hplan ▸ List.mem_append_right _ (List.mem_cons_self ..)
      have hfirst := (step done t hinvt hmem ht a ha).and_ok
        fun _ u hu => (hkeep a ha).of_eq_ok hinvt hu
      have hall : Effect (f a >>= fun _ => l.forM f) t (ok a ∧ ∀ b ∈ l, ok b)
          fun _ => Settled view goal region plan s := by
        refine hfirst.bind ?_
        rintro _ u hok ⟨hu, hinvu⟩
        apply ih (done ++ [a]) u (by simp [hplan]) hinvu ?_ (ht.step hu)
        intro b hb
        rcases List.mem_append.mp hb with hb | hb
        · exact hdone b hb
        · exact List.mem_singleton.mp hb ▸ hok
      exact hall.congr (by simp) fun _ _ _ h => h

end Omemfs.Lib
