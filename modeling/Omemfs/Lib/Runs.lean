/-
# Omemfs.Lib.Runs — finite runs of a labelled step relation.

`Run step s es s'` says that the events `es`, taken one after the other, lead from `s` to `s'`.
Statements about whole runs come in three shapes, each with its own induction here: what every step
keeps holds at the end (`Run.invariant`), what every step relates is related end to end
(`Run.relate`), and a run through `es ++ fs` passes a state between the two (`run_append`), so that
what one event establishes can be carried to a later one.
-/
import Mathlib.Data.List.Basic
import Mathlib.Data.List.ReduceOption

namespace Omemfs.Lib

variable {σ ε : Type*} {step : σ → ε → σ → Prop}

inductive Run (step : σ → ε → σ → Prop) : σ → List ε → σ → Prop
  | nil (s : σ) : Run step s [] s
  | cons {s m s' : σ} {e : ε} {es : List ε} :
      step s e m → Run step m es s' → Run step s (e :: es) s'

/-- **`Run.invariant`** — what holds at the start and is kept by every step holds at the end. -/
theorem Run.invariant {P : σ → Prop} {s s' : σ} {es : List ε} (hrun : Run step s es s')
    (hs : P s) (hstep : ∀ a e b, e ∈ es → step a e b → P a → P b) : P s' := by
  induction hrun with
  | nil s => exact hs
  | cons hab _ ih =>
      exact ih (hstep _ _ _ (List.mem_cons_self ..) hab hs)
        fun a e b he => hstep a e b (List.mem_cons_of_mem _ he)

/-- **`Run.relate`** — a reflexive, transitive relation that holds across every step holds across
the run. -/
theorem Run.relate {R : σ → σ → Prop} (hrefl : ∀ a, R a a)
    (htrans : ∀ a b c, R a b → R b c → R a c) {s s' : σ} {es : List ε}
    (hrun : Run step s es s') (hstep : ∀ a e b, step a e b → R a b) : R s s' := by
  induction hrun with
  | nil s => exact hrefl s
  | cons hab _ ih => exact htrans _ _ _ (hstep _ _ _ hab) ih

/-- **`run_append`** — a run through two lists of events passes a state between them. -/
theorem run_append {s s' : σ} {es fs : List ε} :
    Run step s (es ++ fs) s' ↔ ∃ m, Run step s es m ∧ Run step m fs s' := by
  induction es generalizing s with
  | nil =>
      constructor
      · intro h
        exact ⟨s, .nil s, h⟩
      · rintro ⟨m, hnil, h⟩
        cases hnil
        exact h
  | cons e es ih =>
      constructor
      · intro h
        cases h with
        | cons hab hrest =>
            obtain ⟨m, hes, hfs⟩ := ih.mp hrest
            exact ⟨m, .cons hab hes, hfs⟩
      · rintro ⟨m, hes, hfs⟩
        cases hes with
        | cons hab hrest => exact .cons hab (ih.mpr ⟨m, hrest, hfs⟩)

/-- The events determine where a run ends if each determines its step. -/
theorem Run.unique (hstep : ∀ s e a b, step s e a → step s e b → a = b) {s a b : σ} {es : List ε}
    (ha : Run step s es a) (hb : Run step s es b) : a = b := by
  induction ha with
  | nil s =>
      cases hb
      rfl
  | cons hab _ ih =>
      cases hb with
      | cons hab' hrest =>
          obtain rfl := hstep _ _ _ _ hab hab'
          exact ih hrest

/-- A step function run through a list of events gives a run of its graph. -/
theorem run_of_foldlM {f : σ → ε → Option σ} {s s' : σ} {es : List ε}
    (h : es.foldlM f s = some s') : Run (fun a e b => f a e = some b) s es s' := by
  induction es generalizing s with
  | nil =>
      rw [List.foldlM_nil] at h
      cases h
      exact .nil _
  | cons e es ih =>
      rw [List.foldlM_cons] at h
      obtain ⟨m, hm, hrest⟩ := Option.bind_eq_some_iff.mp h
      exact .cons hm (ih hrest)

/-- A run whose steps are also steps of another relation is a run of it. -/
theorem Run.mono {step' : σ → ε → σ → Prop} (h : ∀ a e b, step a e b → step' a e b) {s s' : σ}
    {es : List ε} (hrun : Run step s es s') : Run step' s es s' := by
  induction hrun with
  | nil s => exact .nil s
  | cons hab _ ih => exact .cons (h _ _ _ hab) ih

/-- What holds of a run with what was seen of it is told by what a step adds to both. -/
theorem Run.history {step : σ → Option ε → σ → Prop} {P : List ε → σ → Prop} {s s' : σ} {tr : List ε}
    {os : List (Option ε)} (hrun : Run step s os s') (hs : P tr s)
    (hstep : ∀ tr a o b, step a o b → P tr a → P (tr ++ o.toList) b) : P (tr ++ os.reduceOption) s' := by
  induction hrun generalizing tr with
  | nil s => rwa [List.reduceOption_nil, List.append_nil]
  | @cons a m b o os hab _ ih =>
      have h := ih (hstep tr _ _ _ hab hs)
      rw [List.append_assoc] at h
      cases o with
      | none => exact h
      | some e => exact h

/-- **`Run.simulated`** — if every step is some steps of another machine in which the same is seen, every
run is a run of that machine in which the same is seen. -/
theorem Run.simulated {τ : Type*} {step : σ → Option ε → σ → Prop} {step' : τ → Option ε → τ → Prop}
    {R : σ → τ → Prop}
    (hsim : ∀ a o b x, step a o b → R a x →
      ∃ os y, Run step' x os y ∧ R b y ∧ os.reduceOption = o.toList)
    {s s' : σ} {x : τ} {os : List (Option ε)} (hrun : Run step s os s') (hR : R s x) :
    ∃ os' y, Run step' x os' y ∧ R s' y ∧ os'.reduceOption = os.reduceOption := by
  induction hrun generalizing x with
  | nil s => exact ⟨[], x, .nil x, hR, rfl⟩
  | @cons a m b o os hab _ ih =>
      obtain ⟨os₁, y, h₁, hy, hseen⟩ := hsim _ _ _ x hab hR
      obtain ⟨os₂, z, h₂, hz, hseen'⟩ := ih hy
      refine ⟨os₁ ++ os₂, z, run_append.mpr ⟨y, h₁, h₂⟩, hz, ?_⟩
      rw [List.reduceOption_append, hseen, hseen']
      cases o with
      | none => rfl
      | some e => rfl

/-- A check of where a step function leads through a list of events finds a run that ends there. -/
theorem exists_run_of_any {f : σ → ε → Option σ} {P : σ → Prop} [DecidablePred P] {s : σ}
    {es : List ε} (h : (es.foldlM f s).any (fun s' => decide (P s')) = true) :
    ∃ s', Run (fun a e b => f a e = some b) s es s' ∧ P s' := by
  obtain ⟨s', hs', hp⟩ := (Option.any_eq_true ..).mp h
  exact ⟨s', run_of_foldlM hs', of_decide_eq_true hp⟩

end Omemfs.Lib
