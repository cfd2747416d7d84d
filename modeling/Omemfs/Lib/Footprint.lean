/-
# Omemfs.Lib.Footprint — what an operation on a directory tree touches.

An operation may fail half-way and leave what it has done.  `Footprint` says where in the tree an
operation works, when it succeeds, and whether what was there before is there afterwards, however it
ends.  Two operations that work in different places are put together by `Footprint.bind`: what the first
one spoils stays spoilt, because the second does not come back to it.
-/
import Omemfs.Lib.DirTree
import Omemfs.Lib.Effect

namespace Omemfs.Lib

variable {ε σ ν α : Type}

/-- The state an operation leaves, whether it succeeds or fails. -/
def after {β : Type} (m : EStateM ε σ β) (s : σ) : σ :=
  match m s with
  | .ok _ t => t
  | .error _ t => t

theorem after_of_ok {β : Type} {m : EStateM ε σ β} {s t : σ} {a : β} (h : m s = .ok a t) :
    after m s = t := by
  rw [after, h]

theorem after_of_error {β : Type} {m : EStateM ε σ β} {s t : σ} {e : ε} (h : m s = .error e t) :
    after m s = t := by
  rw [after, h]

variable [DecidableEq ν]

/-- What there is in a tree is there, unchanged, in another. -/
def Keeps (d d' : DirTree ν α) : Prop := ∀ q k, d.get q = some k → d'.get q = some k

theorem Keeps.refl (d : DirTree ν α) : Keeps d d := fun _ _ h => h

theorem Keeps.trans {d d' d'' : DirTree ν α} (h : Keeps d d') (h' : Keeps d' d'') : Keeps d d'' :=
  fun q k hk => h' q k (h q k hk)

/-- The operation in the tree `d`: it works inside `R`, succeeds in the case `ok` with what `post` says,
and in the case `spoils` something of `d` is lost or changed. -/
structure Footprint (m : EStateM ε (DirTree ν α) PUnit) (d : DirTree ν α) (R : List ν → Prop)
    (ok spoils : Prop) (post : DirTree ν α → Prop) : Prop where
  frame : ∀ q, ¬ R q → (after m d).get q = d.get q
  ok_iff : (∃ d', m d = .ok ⟨⟩ d') ↔ ok
  keeps_iff : Keeps d (after m d) ↔ ¬ spoils
  lands : ∀ d', m d = .ok ⟨⟩ d' → post d'

namespace Footprint

variable {m m₁ m₂ : EStateM ε (DirTree ν α) PUnit} {d : DirTree ν α} {R R' R₁ R₂ : List ν → Prop}
  {ok ok' spoils spoils' ok₁ ok₂ spoils₁ spoils₂ : Prop} {post post' post₁ post₂ : DirTree ν α → Prop}

theorem congr (h : Footprint m d R ok spoils post) (hR : ∀ q, R q → R' q) (hok : ok ↔ ok')
    (hspoils : spoils ↔ spoils') (hpost : ∀ d', ok → post d' → post' d') :
    Footprint m d R' ok' spoils' post' where
  frame q hq := h.frame q fun hr => hq (hR q hr)
  ok_iff := h.ok_iff.trans hok
  keeps_iff := h.keeps_iff.trans (not_congr hspoils)
  lands d' hd' := hpost d' (h.ok_iff.mp ⟨d', hd'⟩) (h.lands d' hd')

/-- What an operation does in one tree is what another does that runs the same there. -/
theorem of_run (h : Footprint m d R ok spoils post) {m' : EStateM ε (DirTree ν α) PUnit}
    (hrun : m' d = m d) : Footprint m' d R ok spoils post := by
  have hafter : after m' d = after m d := by rw [after, after, hrun]
  refine ⟨fun q hq => ?_, ?_, ?_, fun d' hd' => h.lands d' (hrun ▸ hd')⟩
  · rw [hafter, h.frame q hq]
  · rw [hrun, h.ok_iff]
  · rw [hafter, h.keeps_iff]

theorem frame_of_ok (h : Footprint m d R ok spoils post) {d' : DirTree ν α} (hd' : m d = .ok ⟨⟩ d')
    {q : List ν} (hq : ¬ R q) : d'.get q = d.get q := by
  rw [← h.frame q hq, after_of_ok hd']

/-- Nothing is done. -/
theorem pure (d : DirTree ν α) :
    Footprint (Pure.pure ⟨⟩ : EStateM ε (DirTree ν α) PUnit) d (fun _ => False) True False (· = d) where
  frame _ _ := rfl
  ok_iff := ⟨fun _ => trivial, fun _ => ⟨d, rfl⟩⟩
  keeps_iff := ⟨fun _ => id, fun _ => Keeps.refl d⟩
  lands d' hd' := by
    cases hd'
    rfl

/-- An operation that fails before it has done anything. -/
theorem of_error {e : ε} (h : m d = .error e d) :
    Footprint m d (fun _ => False) False False fun _ => False where
  frame q _ := by rw [after_of_error h]
  ok_iff := by simp [h]
  keeps_iff := by simp [after_of_error h, Keeps.refl]
  lands d' hd' := by
    rw [h] at hd'
    cases hd'

/-- An operation that puts something at one path. -/
theorem of_put {d' : DirTree ν α} {p : List ν} {k : Kind α} (h : m d = .ok ⟨⟩ d')
    (hget : ∀ q, d'.get q = if q = p then some k else d.get q) :
    Footprint m d (· = p) True (∃ k', d.get p = some k' ∧ k' ≠ k)
      fun d' => ∀ q, d'.get q = if q = p then some k else d.get q where
  frame q hq := by rw [after_of_ok h, hget, if_neg hq]
  ok_iff := ⟨fun _ => trivial, fun _ => ⟨d', h⟩⟩
  keeps_iff := by
    rw [after_of_ok h]
    constructor
    · rintro hkeeps ⟨k', hk', hne⟩
      have hp := hkeeps p k' hk'
      rw [hget, if_pos rfl] at hp
      exact hne (Option.some.inj hp).symm
    · intro hno q k' hk'
      rw [hget]
      by_cases hq : q = p
      · subst hq
        rw [if_pos rfl]
        by_contra hne
        exact hno ⟨k', hk', fun heq => hne (congrArg some heq.symm)⟩
      · rw [if_neg hq, hk']
  lands e he := by
    rw [h] at he
    cases he
    exact hget

/-- **`Footprint.bind`** — one operation after another, in different places. -/
theorem bind (h₁ : Footprint m₁ d R₁ ok₁ spoils₁ post₁)
    (h₂ : ∀ d', ok₁ → post₁ d' → (∀ q, ¬ R₁ q → d'.get q = d.get q) →
      Footprint m₂ d' R₂ ok₂ spoils₂ post₂)
    (hapart : ∀ q, R₁ q → ¬ R₂ q) :
    Footprint (m₁ >>= fun _ => m₂) d (fun q => R₁ q ∨ R₂ q) (ok₁ ∧ ok₂) (spoils₁ ∨ ok₁ ∧ spoils₂)
      fun d'' => ∃ d', post₁ d' ∧ (∀ q, ¬ R₁ q → d'.get q = d.get q) ∧
        (∀ q, ¬ R₂ q → d''.get q = d'.get q) ∧ post₂ d'' := by
  by_cases hok : ok₁
  · obtain ⟨d', hd'⟩ := h₁.ok_iff.mpr hok
    have hframe : ∀ q, ¬ R₁ q → d'.get q = d.get q := fun q hq => h₁.frame_of_ok hd' hq
    have h₂ := h₂ d' hok (h₁.lands d' hd') hframe
    have hrun : (m₁ >>= fun _ => m₂) d = m₂ d' := bind_eq_of_ok hd' _
    have hafter : after (m₁ >>= fun _ => m₂) d = after m₂ d' := by rw [after, after, hrun]
    have hd : after m₁ d = d' := after_of_ok hd'
    refine ⟨fun q hq => ?_, ?_, ?_, fun d'' hd'' => ?_⟩
    · rw [hafter, h₂.frame q fun h => hq (.inr h), hframe q fun h => hq (.inl h)]
    · rw [hrun, h₂.ok_iff]
      simp [hok]
    · rw [hafter]
      have hkeeps₁ := h₁.keeps_iff
      rw [hd] at hkeeps₁
      have hboth : Keeps d (after m₂ d') ↔ Keeps d d' ∧ Keeps d' (after m₂ d') := by
        constructor
        · intro h
          constructor
          · -- where the first operation works, the second leaves what it finds
            intro q k hk
            by_cases hq : R₁ q
            · rw [← h₂.frame q (hapart q hq)]
              exact h q k hk
            · rw [hframe q hq, hk]
          · intro q k hk
            by_cases hq : R₁ q
            · rw [h₂.frame q (hapart q hq), hk]
            · rw [hframe q hq] at hk
              exact h q k hk
        · exact fun h => h.1.trans h.2
      rw [hboth, hkeeps₁, h₂.keeps_iff]
      simp [hok]
    · rw [hrun] at hd''
      exact ⟨d', h₁.lands d' hd', hframe, fun q hq => h₂.frame_of_ok hd'' hq, h₂.lands d'' hd''⟩
  · have hno : ∀ d', m₁ d ≠ .ok ⟨⟩ d' := fun d' hd' => hok (h₁.ok_iff.mp ⟨d', hd'⟩)
    cases hm : m₁ d with
    | ok a d' => exact absurd hm (hno d')
    | error e d' =>
        have hrun : (m₁ >>= fun _ => m₂) d = .error e d' := by
          show EStateM.bind m₁ _ d = _
          simp only [EStateM.bind, hm]
        have hafter : after (m₁ >>= fun _ => m₂) d = after m₁ d := by
          rw [after_of_error hrun, after_of_error hm]
        refine ⟨fun q hq => ?_, ?_, ?_, fun d'' hd'' => ?_⟩
        · rw [hafter, h₁.frame q fun h => hq (.inl h)]
        · simp [hrun, hok]
        · rw [hafter, h₁.keeps_iff]
          simp [hok]
        · rw [hrun] at hd''
          cases hd''

end Footprint

end Omemfs.Lib
