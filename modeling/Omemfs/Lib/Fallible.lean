/-
# Omemfs.Lib.Fallible — reading a successful run of a fallible computation backwards.

A computation in `Except` that ended in `ok` went through every one of its binds.  `bind_eq_ok`
turns a successful bind into its two successful halves; the `if` and `match` guards of a fallible
function are peeled off the same way.  Where many computations are run and all of them have to succeed,
`failures` and `results` say what each gave.
-/
import Mathlib.Data.List.Forall2

namespace Omemfs.Lib

universe u v

variable {ε : Type u} {α β : Type v}

/-- **`bind_eq_ok`** — a bind succeeds exactly when its first half does and its second half does on
the value of the first. -/
theorem bind_eq_ok {x : Except ε α} {f : α → Except ε β} {b : β} :
    (x >>= f) = .ok b ↔ ∃ a, x = .ok a ∧ f a = .ok b := by
  cases x with
  | error e =>
      constructor
      · intro h
        cases h
      · rintro ⟨a, h, _⟩
        cases h
  | ok a =>
      constructor
      · intro h
        exact ⟨a, rfl, h⟩
      · rintro ⟨a', h, hf⟩
        cases h
        exact hf

theorem map_eq_ok {x : Except ε α} {f : α → β} {b : β} :
    x.map f = .ok b ↔ ∃ a, x = .ok a ∧ f a = b := by
  cases x with
  | error e => exact iff_of_false nofun fun ⟨a, h, _⟩ => nomatch h
  | ok a => simp [Except.map]

/-- A check on the value of a computation that has to succeed. -/
def okAnd (x : Except ε α) (p : α → Bool) : Bool :=
  match x with
  | .ok a => p a
  | .error _ => false

theorem okAnd_eq_true {x : Except ε α} {p : α → Bool} :
    okAnd x p = true ↔ ∃ a, x = .ok a ∧ p a = true := by
  cases x with
  | error e => simp [okAnd]
  | ok a => simp [okAnd]

/-! ## Which result, and not which failure -/

theorem toOption_eq_some {x : Except ε α} {a : α} : x.toOption = some a ↔ x = .ok a := by
  cases x <;> simp [Except.toOption]

/-- Two computations that succeed alike. -/
theorem toOption_eq_iff {x y : Except ε α} :
    x.toOption = y.toOption ↔ ∀ a, x = .ok a ↔ y = .ok a := by
  rw [Option.ext_iff]
  simp only [toOption_eq_some]

theorem toOption_bind (x : Except ε α) (f : α → Except ε β) :
    (x >>= f).toOption = x.toOption.bind fun a => (f a).toOption := by
  cases x <;> rfl

/-- Binds succeed alike when both of their halves do. -/
theorem toOption_bind_congr {x y : Except ε α} {f g : α → Except ε β}
    (h : x.toOption = y.toOption) (hf : ∀ a, (f a).toOption = (g a).toOption) :
    (x >>= f).toOption = (y >>= g).toOption := by
  rw [toOption_bind, toOption_bind, h]
  exact congrArg _ (funext hf)

section All

variable {γ : Type v}

/-- The failures among many runs. -/
def failures (f : γ → Except ε α) (l : List γ) : List ε :=
  l.filterMap fun x => match f x with
    | .ok _ => none
    | .error e => some e

def results (f : γ → Except ε α) (l : List γ) : List α := l.filterMap fun x => (f x).toOption

theorem failures_eq_nil {f : γ → Except ε α} {l : List γ} :
    failures f l = [] ↔ ∀ x ∈ l, ∃ a, f x = .ok a := by
  unfold failures
  rw [List.filterMap_eq_nil_iff]
  refine forall₂_congr fun x _ => ?_
  cases f x <;> simp

/-- **`results_eq_iff`** — all succeed, and the results are these values in their order. -/
theorem results_eq_iff {f : γ → Except ε α} {l : List γ} {out : List α} :
    (∀ x ∈ l, ∃ a, f x = .ok a) ∧ results f l = out ↔
      List.Forall₂ (fun x a => f x = .ok a) l out := by
  induction l generalizing out with
  | nil => cases out <;> simp [results]
  | cons x l ih =>
      rw [List.forall_mem_cons, List.forall₂_cons_left_iff]
      have hcons : ∀ {a}, f x = .ok a → results f (x :: l) = a :: results f l := fun ha => by
        simp [results, ha, Except.toOption]
      constructor
      · rintro ⟨⟨⟨a, ha⟩, hl⟩, rfl⟩
        exact ⟨a, _, ha, ih.mp ⟨hl, rfl⟩, hcons ha⟩
      · rintro ⟨a, out', ha, hout, rfl⟩
        obtain ⟨hl, hres⟩ := ih.mpr hout
        exact ⟨⟨⟨a, ha⟩, hl⟩, by rw [hcons ha, hres]⟩

/-- **`mapM_eq_ok`** — one run after the other: all succeed, and these are their values. -/
theorem mapM_eq_ok {f : γ → Except ε α} {l : List γ} {out : List α} :
    l.mapM f = .ok out ↔ List.Forall₂ (fun x a => f x = .ok a) l out := by
  induction l generalizing out with
  | nil =>
      rw [List.mapM_nil, List.forall₂_nil_left_iff]
      exact ⟨fun h => (Except.ok.inj h).symm, fun h => h ▸ rfl⟩
  | cons x l ih =>
      rw [List.mapM_cons, List.forall₂_cons_left_iff, bind_eq_ok]
      constructor
      · rintro ⟨a, ha, h⟩
        obtain ⟨out', hout', h⟩ := bind_eq_ok.mp h
        exact ⟨a, out', ha, ih.mp hout', (Except.ok.inj h).symm⟩
      · rintro ⟨a, out', ha, hout', rfl⟩
        exact ⟨a, ha, bind_eq_ok.mpr ⟨out', ih.mpr hout', rfl⟩⟩

end All

end Omemfs.Lib
