/-
# Omemfs.Lib.Effect — what an operation that can fail does to a state.

`Effect m s ok post` says all there is to know of running `m` in `s`: it succeeds in exactly the case
`ok`, and then leaves a state with `post`.  A list of operations none of which decides over another
one succeeds when each of them would (`Effect.forM`), in whatever order they are listed.
-/
import Mathlib.Logic.Basic

namespace Omemfs.Lib

variable {ε σ α β : Type}

/-- The outcome of an operation in one state. -/
structure Effect (m : EStateM ε σ α) (s : σ) (ok : Prop) (post : α → σ → Prop) : Prop where
  succeeds : ok → ∃ a s', m s = .ok a s' ∧ post a s'
  fails : ¬ ok → ∃ e s', m s = .error e s'

theorem bind_eq_of_ok {m : EStateM ε σ α} {s s' : σ} {a : α} (h : m s = .ok a s')
    (f : α → EStateM ε σ β) : (m >>= f) s = f a s' := by
  show EStateM.bind m f s = _
  simp only [EStateM.bind, h]

theorem bind_eq_of_error {m : EStateM ε σ α} {s s' : σ} {e : ε} (h : m s = .error e s')
    (f : α → EStateM ε σ β) : (m >>= f) s = .error e s' := by
  show EStateM.bind m f s = _
  simp only [EStateM.bind, h]

/-- What the first half of a run that succeeds has answered. -/
theorem bind_ok {m : EStateM ε σ α} {f : α → EStateM ε σ β} {s u : σ} {b : β}
    (h : (m >>= f) s = .ok b u) : ∃ a t, m s = .ok a t ∧ f a t = .ok b u := by
  cases hm : m s with
  | ok a t =>
      rw [bind_eq_of_ok hm] at h
      exact ⟨a, t, rfl, h⟩
  | error e t =>
      rw [bind_eq_of_error hm] at h
      cases h

/-- A run through two lists passes a state between them. -/
theorem forM_append_ok {f : α → EStateM ε σ PUnit} {l₁ l₂ : List α} {s u : σ} :
    (l₁ ++ l₂).forM f s = .ok ⟨⟩ u ↔ ∃ t, l₁.forM f s = .ok ⟨⟩ t ∧ l₂.forM f t = .ok ⟨⟩ u := by
  induction l₁ generalizing s with
  | nil =>
      constructor
      · intro h
        exact ⟨s, rfl, h⟩
      · rintro ⟨t, ht, h⟩
        cases ht
        exact h
  | cons x l₁ ih =>
      constructor
      · intro h
        obtain ⟨⟨⟩, t, hx, h⟩ := bind_ok h
        obtain ⟨t', h₁, h₂⟩ := ih.mp h
        exact ⟨t', (bind_eq_of_ok hx _).trans h₁, h₂⟩
      · rintro ⟨t, h₁, h₂⟩
        obtain ⟨⟨⟩, t', hx, h₁⟩ := bind_ok h₁
        exact (bind_eq_of_ok hx _).trans (ih.mpr ⟨t, h₁, h₂⟩)

/-- A run that fails has gone through what comes before the element it fails at. -/
theorem forM_error {f : α → EStateM ε σ PUnit} {l : List α} {s u : σ} {e : ε}
    (h : l.forM f s = .error e u) :
    ∃ l₁ x l₂ t, l = l₁ ++ x :: l₂ ∧ l₁.forM f s = .ok ⟨⟩ t ∧ f x t = .error e u := by
  induction l generalizing s with
  | nil => cases h
  | cons x l ih =>
      cases hx : f x s with
      | error e' t =>
          have hrun : (x :: l).forM f s = .error e' t := bind_eq_of_error hx _
          rw [hrun] at h
          cases h
          exact ⟨[], x, l, s, rfl, rfl, hx⟩
      | ok a t =>
          have hrun : (x :: l).forM f s = l.forM f t := bind_eq_of_ok hx _
          rw [hrun] at h
          obtain ⟨l₁, y, l₂, t', rfl, h₁, hy⟩ := ih h
          exact ⟨x :: l₁, y, l₂, t', rfl, (bind_eq_of_ok hx _).trans h₁, hy⟩

/-! ## Going on after a failure -/

/-- Every operation is tried, whatever became of those before it. -/
def tryAll (f : β → EStateM ε σ PUnit) : List β → σ → List (β × ε) × σ
  | [], s => ([], s)
  | b :: l, s =>
      match f b s with
      | .ok _ t => tryAll f l t
      | .error e t => ((b, e) :: (tryAll f l t).1, (tryAll f l t).2)

theorem tryAll_cons_of_ok {f : β → EStateM ε σ PUnit} {b : β} {l : List β} {s t : σ}
    (h : f b s = .ok ⟨⟩ t) : tryAll f (b :: l) s = tryAll f l t := by
  simp only [tryAll, h]

theorem tryAll_cons_of_error {f : β → EStateM ε σ PUnit} {b : β} {l : List β} {s t : σ} {e : ε}
    (h : f b s = .error e t) :
    tryAll f (b :: l) s = ((b, e) :: (tryAll f l t).1, (tryAll f l t).2) := by
  simp only [tryAll, h]

/-- **`tryAll_succeeds_iff`** — nothing fails exactly if a run that stops at a failure gets through. -/
theorem tryAll_succeeds_iff {f : β → EStateM ε σ PUnit} {l : List β} {s t : σ} :
    tryAll f l s = ([], t) ↔ l.forM f s = .ok ⟨⟩ t := by
  induction l generalizing s with
  | nil =>
      show ([], s) = ([], t) ↔ (EStateM.Result.ok ⟨⟩ s : EStateM.Result ε σ PUnit) = .ok ⟨⟩ t
      simp
  | cons b l ih =>
      show _ ↔ (f b >>= fun _ => l.forM f) s = .ok ⟨⟩ t
      cases hb : f b s with
      | ok a u =>
          rw [tryAll_cons_of_ok hb, bind_eq_of_ok hb, ih]
      | error e u =>
          rw [tryAll_cons_of_error hb, bind_eq_of_error hb]
          simp

namespace Effect

variable {m : EStateM ε σ α} {s s' : σ} {ok ok' : Prop} {post post' : α → σ → Prop}

theorem of_ok (h : Effect m s ok post) {a : α} (hm : m s = .ok a s') : ok ∧ post a s' := by
  by_cases hok : ok
  · obtain ⟨b, t, ht, hpost⟩ := h.succeeds hok
    rw [ht] at hm
    cases hm
    exact ⟨hok, hpost⟩
  · obtain ⟨e, t, ht⟩ := h.fails hok
    rw [ht] at hm
    cases hm

theorem congr (h : Effect m s ok post) (hok : ok ↔ ok') (hpost : ok → ∀ a t, post a t → post' a t) :
    Effect m s ok' post' where
  succeeds := by
    intro h'
    obtain ⟨a, t, ht, hp⟩ := h.succeeds (hok.mpr h')
    exact ⟨a, t, ht, hpost (hok.mpr h') a t hp⟩
  fails := fun h' => h.fails fun hn => h' (hok.mp hn)

theorem pure (a : α) (s : σ) :
    Effect (Pure.pure a : EStateM ε σ α) s True fun b t => b = a ∧ t = s where
  succeeds := fun _ => ⟨a, s, rfl, rfl, rfl⟩
  fails := fun h => absurd trivial h

theorem of_eq_ok {a : α} {t : σ} (h : m s = .ok a t) (hok : ok) (hpost : post a t) :
    Effect m s ok post where
  succeeds := fun _ => ⟨a, t, h, hpost⟩
  fails := fun hno => absurd hok hno

theorem of_eq_error {e : ε} {t : σ} (h : m s = .error e t) (hok : ¬ ok) : Effect m s ok post where
  succeeds := fun h => absurd h hok
  fails := fun _ => ⟨e, t, h⟩

/-- One operation after another: the second has to succeed wherever the first leads. -/
theorem bind {f : α → EStateM ε σ β} {ok₂ : Prop} {post₂ : β → σ → Prop} (h : Effect m s ok post)
    (h₂ : ∀ a t, ok → post a t → Effect (f a) t ok₂ post₂) :
    Effect (m >>= f) s (ok ∧ ok₂) post₂ := by
  by_cases hok : ok
  · obtain ⟨a, t, ht, hp⟩ := h.succeeds hok
    have hrun : (m >>= f) s = f a t := bind_eq_of_ok ht f
    have hf := h₂ a t hok hp
    constructor
    · intro hall
      rw [hrun]
      exact hf.succeeds hall.2
    · intro hall
      rw [hrun]
      exact hf.fails fun h => hall ⟨hok, h⟩
  · obtain ⟨e, t, ht⟩ := h.fails hok
    constructor
    · exact fun hall => absurd hall.1 hok
    · intro _
      refine ⟨e, t, ?_⟩
      show EStateM.bind m f s = _
      simp only [EStateM.bind, ht]

theorem and_ok {Q : α → σ → Prop} (h : Effect m s ok post) (hQ : ∀ a t, m s = .ok a t → Q a t) :
    Effect m s ok fun a t => post a t ∧ Q a t where
  succeeds := by
    intro hok
    obtain ⟨a, t, ht, hp⟩ := h.succeeds hok
    exact ⟨a, t, ht, hp, hQ a t ht⟩
  fails := h.fails

/-- After an operation that succeeds the second one decides. -/
theorem andThen {f : α → EStateM ε σ β} {post₂ : β → σ → Prop} (h : Effect m s True post)
    (h₂ : ∀ a t, post a t → Effect (f a) t ok post₂) : Effect (m >>= f) s ok post₂ :=
  (h.bind fun a t _ hp => h₂ a t hp).congr (and_iff_right trivial) fun _ _ _ hp => hp

/-- Before an operation that succeeds the first one decides. -/
theorem andAlways {f : α → EStateM ε σ β} {post₂ : β → σ → Prop} (h : Effect m s ok post)
    (h₂ : ∀ a t, ok → post a t → Effect (f a) t True post₂) : Effect (m >>= f) s ok post₂ :=
  (h.bind h₂).congr (and_iff_left trivial) fun _ _ _ hp => hp

/-- **`Effect.forM`** — operations that leave each other's case alone all succeed when each would at
the start.  `inv` says what the state is while `l` is left to do. -/
theorem forM {f : β → EStateM ε σ PUnit} (ok : β → σ → Prop) (inv : List β → σ → Prop)
    (step : ∀ b l s, inv (b :: l) s →
      Effect (f b) s (ok b s) fun _ s' => inv l s' ∧ ∀ c ∈ l, ok c s' ↔ ok c s) :
    ∀ l s, inv l s → Effect (l.forM f) s (∀ b ∈ l, ok b s) fun _ => inv [] := by
  intro l
  induction l with
  | nil =>
      intro s hs
      exact (Effect.pure PUnit.unit s).congr (by simp) fun _ _ t ht => ht.2 ▸ hs
  | cons b l ih =>
      intro s hs
      have hstep := step b l s hs
      have hall : Effect (f b >>= fun _ => l.forM f) s (ok b s ∧ ∀ c ∈ l, ok c s)
          fun _ => inv [] := by
        apply hstep.bind
        rintro _ t - ⟨hinv, hkeep⟩
        refine (ih t hinv).congr ?_ fun _ _ _ h => h
        exact forall₂_congr hkeep
      exact hall.congr (by simp) fun _ _ _ h => h

end Effect

end Omemfs.Lib
