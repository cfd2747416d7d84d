/-
# Omemfs.Lib.Triple — pre- and postconditions of operations that can fail.

`Triple P m E Q` says of an operation started in a state with `P`: if it succeeds, `Q` holds of its
value and the state it leaves, and if it fails, it fails in a way `E` allows.  Nothing is said of the
state a failure leaves.  A loop over a list is proved by an invariant that tells what is left to do
(`Triple.forM`).

`Leads m R` relates the state before a success to the state after it; for an `R` that is reflexive and
transitive it is proved one operation at a time.
-/
import Omemfs.Lib.Effect

namespace Omemfs.Lib

variable {ε σ α β : Type}

def Triple (P : σ → Prop) (m : EStateM ε σ α) (E : ε → Prop) (Q : α → σ → Prop) : Prop :=
  ∀ s, P s → match m s with
    | .ok a t => Q a t
    | .error e _ => E e

/-- The state before a success and the state after it. -/
def Leads (m : EStateM ε σ α) (R : σ → σ → Prop) : Prop := ∀ s a t, m s = .ok a t → R s t

namespace Triple

variable {P P' : σ → Prop} {m : EStateM ε σ α} {E : ε → Prop} {Q Q' : α → σ → Prop}

theorem of_ok (h : Triple P m E Q) {s t : σ} {a : α} (hP : P s) (hm : m s = .ok a t) : Q a t := by
  have hs := h s hP
  rw [hm] at hs
  exact hs

theorem of_error (h : Triple P m E Q) {s t : σ} {e : ε} (hP : P s) (hm : m s = .error e t) : E e := by
  have hs := h s hP
  rw [hm] at hs
  exact hs

theorem intro (hok : ∀ s a t, P s → m s = .ok a t → Q a t)
    (herr : ∀ s e t, P s → m s = .error e t → E e) : Triple P m E Q := by
  intro s hP
  cases hm : m s with
  | ok a t => exact hok s a t hP hm
  | error e t => exact herr s e t hP hm

theorem mono (h : Triple P m E Q) (hP : ∀ s, P' s → P s) (hQ : ∀ a s, Q a s → Q' a s) :
    Triple P' m E Q' :=
  .intro (fun s a t hs hm => hQ a t (h.of_ok (hP s hs) hm)) fun s _ _ hs hm => h.of_error (hP s hs) hm

theorem pure {a : α} (h : ∀ s, P s → Q a s) : Triple P (Pure.pure a : EStateM ε σ α) E Q := h

theorem throw {e : ε} (h : E e) : Triple P (MonadExcept.throw e : EStateM ε σ α) E Q := fun _ _ => h

theorem bind {f : α → EStateM ε σ β} {R : β → σ → Prop} (h : Triple P m E Q)
    (hf : ∀ a, Triple (Q a) (f a) E R) : Triple P (m >>= f) E R := by
  intro s hP
  show match EStateM.bind m f s with
    | .ok b t => R b t
    | .error e _ => E e
  have hm := h s hP
  cases hrun : m s with
  | ok a t =>
      rw [hrun] at hm
      simp only [EStateM.bind, hrun]
      exact hf a t hm
  | error e t =>
      rw [hrun] at hm
      simp only [EStateM.bind, hrun]
      exact hm

/-- One start at a time. -/
theorem of_each (h : ∀ s, P s → Triple (· = s) m E Q) : Triple P m E Q := fun s hP => h s hP s rfl

/-- A branch on the state the operation starts in. -/
theorem ite {c : σ → Prop} [DecidablePred c] {m₁ m₂ : EStateM ε σ α}
    (h₁ : Triple (fun s => P s ∧ c s) m₁ E Q) (h₂ : Triple (fun s => P s ∧ ¬ c s) m₂ E Q) :
    Triple P (fun s => if c s then m₁ s else m₂ s) E Q := by
  intro s hP
  by_cases hc : c s
  · simp only [if_pos hc]
    exact h₁ s ⟨hP, hc⟩
  · simp only [if_neg hc]
    exact h₂ s ⟨hP, hc⟩

/-- **`Triple.forM`** — `inv` says how things are while the list is left to do. -/
theorem forM (inv : List β → σ → Prop) {f : β → EStateM ε σ PUnit}
    (step : ∀ b l, Triple (inv (b :: l)) (f b) E fun _ => inv l) (l : List β) :
    Triple (inv l) (l.forM f) E fun _ => inv [] := by
  induction l with
  | nil => exact .pure fun _ h => h
  | cons b l ih => exact (step b l).bind fun _ => ih

end Triple

namespace Leads

variable {R R' : σ → σ → Prop} {m : EStateM ε σ α}

theorem mono (h : Leads m R) (hR : ∀ s t, R s t → R' s t) : Leads m R' :=
  fun s a t hm => hR s t (h s a t hm)

theorem pure (hrefl : ∀ s, R s s) (a : α) : Leads (Pure.pure a : EStateM ε σ α) R := by
  rintro s b t hm
  cases hm
  exact hrefl s

theorem throw (e : ε) : Leads (MonadExcept.throw e : EStateM ε σ α) R := by
  intro s a t hm
  cases hm

theorem bind (htrans : ∀ s t u, R s t → R t u → R s u) {f : α → EStateM ε σ β} (h : Leads m R)
    (hf : ∀ a, Leads (f a) R) : Leads (m >>= f) R := by
  intro s b u hm
  have hm : EStateM.bind m f s = .ok b u := hm
  cases hrun : m s with
  | ok a t =>
      simp only [EStateM.bind, hrun] at hm
      exact htrans s t u (h s a t hrun) (hf a t b u hm)
  | error e t => simp [EStateM.bind, hrun] at hm

/-- An operation chosen by the state it starts in. -/
theorem of_choice {f : σ → EStateM ε σ α} (h : ∀ s, Leads (f s) R) : Leads (fun s => f s s) R :=
  fun s => h s s

theorem ite {c : σ → Prop} [DecidablePred c] {m₁ m₂ : EStateM ε σ α} (h₁ : Leads m₁ R)
    (h₂ : Leads m₂ R) : Leads (fun s => if c s then m₁ s else m₂ s) R := by
  intro s a t hrun
  by_cases hc : c s
  · exact h₁ s a t (by simpa only [if_pos hc] using hrun)
  · exact h₂ s a t (by simpa only [if_neg hc] using hrun)

end Leads

end Omemfs.Lib
