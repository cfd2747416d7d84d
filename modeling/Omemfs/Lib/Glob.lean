/-
# Omemfs.Lib.Glob — matching literals with gaps between them, greedily.

A text is literals with a gap before each, and no gap may contain the separator (`Gapped`).  Looking
for the literals one after the other, each at its first occurrence, and for the last one at the end
finds such gaps whenever there are any (`greedy_iff`), without ever going back.  The reason is the
separator: where a literal has none, moving it to an earlier place only lengthens the gap after it by
text without a separator, and where it has one, its place is fixed by the first separator of the text
(`gapped_of_cut`).
-/
import Mathlib.Data.List.Basic
import Mathlib.Data.List.Infix

namespace Omemfs.Lib.Glob

variable {α : Type*} {sep : α}

/-! ## Literals with gaps -/

/-- The text is the literals, each with a gap before it that has no separator. -/
inductive Gapped (sep : α) : List (List α) → List α → Prop
  | nil : Gapped sep [] []
  | cons {gap lit rest : List α} {lits : List (List α)} :
      sep ∉ gap → Gapped sep lits rest → Gapped sep (lit :: lits) (gap ++ (lit ++ rest))

theorem gapped_cons {lit text : List α} {lits : List (List α)} :
    Gapped sep (lit :: lits) text ↔
      ∃ gap rest, text = gap ++ (lit ++ rest) ∧ sep ∉ gap ∧ Gapped sep lits rest := by
  constructor
  · intro h
    cases h with
    | cons hgap hrest => exact ⟨_, _, rfl, hgap, hrest⟩
  · rintro ⟨gap, rest, rfl, hgap, hrest⟩
    exact .cons hgap hrest

theorem gapped_singleton {lit text : List α} :
    Gapped sep [lit] text ↔ ∃ gap, text = gap ++ lit ∧ sep ∉ gap := by
  rw [gapped_cons]
  constructor
  · rintro ⟨gap, rest, rfl, hgap, hrest⟩
    cases hrest
    exact ⟨gap, by rw [List.append_nil], hgap⟩
  · rintro ⟨gap, rfl, hgap⟩
    exact ⟨gap, [], by rw [List.append_nil], hgap, .nil⟩

/-- The text up to the first separator is the same however the text is split there. -/
theorem length_eq_of_sep {a a' b b' : List α} (ha : sep ∉ a) (ha' : sep ∉ a')
    (h : a ++ sep :: b = a' ++ sep :: b') : a.length = a'.length := by
  induction a generalizing a' with
  | nil =>
      cases a' with
      | nil => rfl
      | cons c cs =>
          rw [List.nil_append, List.cons_append, List.cons.injEq] at h
          exact absurd (h.1 ▸ List.mem_cons_self ..) ha'
  | cons c cs ih =>
      cases a' with
      | nil =>
          rw [List.nil_append, List.cons_append, List.cons.injEq] at h
          exact absurd (h.1 ▸ List.mem_cons_self ..) ha
      | cons d ds =>
          rw [List.cons_append, List.cons_append, List.cons.injEq] at h
          rw [List.length_cons, List.length_cons,
            ih (fun hm => ha (List.mem_cons_of_mem _ hm)) (fun hm => ha' (List.mem_cons_of_mem _ hm))
              h.2]

variable [DecidableEq α]

/-! ## The first occurrence of a literal -/

/-- The text before the first occurrence of `lit`, and the text after it. -/
def cut (lit : List α) : List α → Option (List α × List α)
  | [] => if lit = [] then some ([], []) else none
  | c :: cs =>
      if lit <+: c :: cs then some ([], (c :: cs).drop lit.length)
      else (cut lit cs).map fun x => (c :: x.1, x.2)

theorem cut_of_prefix {lit text : List α} (h : lit <+: text) :
    cut lit text = some ([], text.drop lit.length) := by
  cases text with
  | nil => rw [cut, if_pos (List.prefix_nil.mp h), List.drop_nil]
  | cons c cs => rw [cut, if_pos h]

theorem cut_eq_some {lit text before after : List α} (h : cut lit text = some (before, after)) :
    text = before ++ (lit ++ after) ∧
      ∀ before' after', text = before' ++ (lit ++ after') → before <+: before' := by
  induction text generalizing before after with
  | nil =>
      rw [cut] at h
      split_ifs at h with hlit
      cases h
      subst hlit
      exact ⟨rfl, fun _ _ _ => List.nil_prefix⟩
  | cons c cs ih =>
      rw [cut] at h
      split_ifs at h with hpre
      · cases h
        obtain ⟨rest, hrest⟩ := hpre
        refine ⟨?_, fun _ _ _ => List.nil_prefix⟩
        rw [← hrest, List.drop_left, List.nil_append]
      · obtain ⟨⟨b, a⟩, hcut, heq⟩ := Option.map_eq_some_iff.mp h
        cases heq
        obtain ⟨hcs, hfirst⟩ := ih hcut
        refine ⟨by rw [List.cons_append, ← hcs], ?_⟩
        intro before' after' heq
        cases before' with
        | nil => exact absurd ⟨after', heq.symm⟩ hpre
        | cons d ds =>
            rw [List.cons_append, List.cons.injEq] at heq
            obtain ⟨rfl, hds⟩ := heq
            exact List.cons_prefix_cons.mpr ⟨rfl, hfirst ds after' hds⟩

theorem cut_eq_none {lit text : List α} (h : cut lit text = none) (before after : List α) :
    text ≠ before ++ (lit ++ after) := by
  induction text generalizing before with
  | nil =>
      rw [cut] at h
      split_ifs at h with hlit
      intro heq
      have hnil := List.append_eq_nil_iff.mp (List.append_eq_nil_iff.mp heq.symm).2
      exact hlit hnil.1
  | cons c cs ih =>
      rw [cut] at h
      split_ifs at h with hpre
      rw [Option.map_eq_none_iff] at h
      intro heq
      cases before with
      | nil => exact hpre ⟨after, heq.symm⟩
      | cons d ds =>
          rw [List.cons_append, List.cons.injEq] at heq
          exact ih h ds heq.2

/-- **`gapped_of_cut`** — the first occurrence of a literal serves as well as any other. -/
theorem gapped_of_cut {lit next text before after : List α} {lits : List (List α)}
    (h : Gapped sep (lit :: next :: lits) text) (hcut : cut lit text = some (before, after)) :
    sep ∉ before ∧ Gapped sep (next :: lits) after := by
  obtain ⟨htext, hfirst⟩ := cut_eq_some hcut
  obtain ⟨gap, rest, heq, hgap, hrest⟩ := gapped_cons.mp h
  obtain ⟨more, hmore⟩ := hfirst gap rest heq
  have hbefore : sep ∉ before := fun hm => hgap (hmore ▸ List.mem_append_left _ hm)
  refine ⟨hbefore, ?_⟩
  -- the two ways to place the literal, read from its earlier place on
  have hafter : lit ++ after = more ++ (lit ++ rest) := by
    rw [htext, ← hmore, List.append_assoc] at heq
    exact List.append_cancel_left heq
  by_cases hsep : sep ∈ lit
  · -- its separator is the first one of the text in both places, so they are one place
    obtain ⟨l₁, l₂, hlit, hl₁⟩ := List.eq_append_cons_of_mem hsep
    have hfree : sep ∉ more ++ l₁ := by
      intro hm
      rcases List.mem_append.mp hm with hm | hm
      · exact hgap (hmore ▸ List.mem_append_right _ hm)
      · exact hl₁ hm
    have hplaces : l₁ ++ sep :: (l₂ ++ after) = (more ++ l₁) ++ sep :: (l₂ ++ rest) := by
      rw [hlit] at hafter
      simpa using hafter
    have hlen : l₁.length = (more ++ l₁).length := length_eq_of_sep hl₁ hfree hplaces
    have hnil : more = [] := by
      rw [List.length_append] at hlen
      exact List.length_eq_zero_iff.mp (by omega)
    rw [hnil, List.nil_append] at hafter
    rw [List.append_cancel_left hafter]
    exact hrest
  · -- what lies between the two places has no separator and joins the next gap
    obtain ⟨gap', rest', rfl, hgap', hrest'⟩ := gapped_cons.mp hrest
    have hmid : lit <+: more ++ lit := by
      have hlater : more ++ lit <+: lit ++ after := by
        rw [hafter, ← List.append_assoc]
        exact List.prefix_append _ _
      exact List.prefix_of_prefix_length_le (List.prefix_append _ _) hlater (by simp)
    obtain ⟨mid, hmid⟩ := hmid
    have hrejoin : after = (mid ++ gap') ++ (next ++ rest') := by
      have hjoin : lit ++ after = lit ++ (mid ++ (gap' ++ (next ++ rest'))) := by
        rw [hafter, ← List.append_assoc lit mid, hmid, List.append_assoc]
      rw [List.append_cancel_left hjoin, List.append_assoc]
    have hfree : sep ∉ more ++ lit := by
      intro hm
      rcases List.mem_append.mp hm with hm | hm
      · exact hgap (hmore ▸ List.mem_append_right _ hm)
      · exact hsep hm
    rw [hrejoin]
    refine .cons ?_ hrest'
    intro hm
    rcases List.mem_append.mp hm with hm | hm
    · exact hfree (hmid ▸ List.mem_append_right _ hm)
    · exact hgap' hm

/-! ## The greedy search -/

/-- Each literal at its first occurrence, the last one at the end. -/
def greedy (sep : α) : List (List α) → List α → Bool
  | [], text => text.isEmpty
  | [lit], text => decide (lit <:+ text ∧ sep ∉ text.take (text.length - lit.length))
  | lit :: next :: lits, text =>
      match cut lit text with
      | some (before, after) => decide (sep ∉ before) && greedy sep (next :: lits) after
      | none => false

/-- **`greedy_iff`** — the greedy search finds gaps exactly when there are any. -/
theorem greedy_iff {lits : List (List α)} {text : List α} :
    greedy sep lits text = true ↔ Gapped sep lits text := by
  induction lits generalizing text with
  | nil =>
      rw [greedy, List.isEmpty_iff]
      constructor
      · rintro rfl
        exact .nil
      · intro h
        cases h
        rfl
  | cons lit lits ih =>
      cases lits with
      | nil =>
          rw [greedy, decide_eq_true_iff, gapped_singleton]
          constructor
          · rintro ⟨⟨gap, rfl⟩, hgap⟩
            exact ⟨gap, rfl, by simpa using hgap⟩
          · rintro ⟨gap, rfl, hgap⟩
            exact ⟨List.suffix_append _ _, by simpa using hgap⟩
      | cons next lits =>
          rw [greedy]
          split
          next before after hcut =>
            rw [Bool.and_eq_true, decide_eq_true_iff, ih]
            constructor
            · rintro ⟨hbefore, hafter⟩
              rw [(cut_eq_some hcut).1]
              exact .cons hbefore hafter
            · exact fun h => gapped_of_cut h hcut
          next hcut =>
            refine iff_of_false Bool.false_ne_true fun h => ?_
            obtain ⟨gap, rest, heq, _⟩ := gapped_cons.mp h
            exact cut_eq_none hcut gap rest heq

/-! ## Wildcards -/

/-- The pattern with its wildcards replaced, the first by `σ i`, the next by `σ (i + 1)`, … -/
def fill (star : α) (σ : Nat → List α) : Nat → List α → List α
  | _, [] => []
  | i, c :: cs => if c = star then σ i ++ fill star σ (i + 1) cs else c :: fill star σ i cs

/-- Some replacement of the wildcards by texts without a separator turns the pattern into the
text. -/
def Fits (sep star : α) (pattern text : List α) : Prop :=
  ∃ σ : Nat → List α, (∀ i, sep ∉ σ i) ∧ fill star σ 0 pattern = text

variable {star : α}

theorem fill_congr {σ τ : Nat → List α} {i : Nat} {pattern : List α}
    (h : ∀ j, i ≤ j → σ j = τ j) : fill star σ i pattern = fill star τ i pattern := by
  induction pattern generalizing i with
  | nil => rfl
  | cons c cs ih =>
      rw [fill, fill, h i le_rfl, ih h, ih fun j hj => h j (by omega)]

theorem splitOn_cons (c : α) (cs : List α) :
    (c :: cs).splitOn star =
      if c = star then [] :: cs.splitOn star else (cs.splitOn star).modifyHead (c :: ·) := by
  rw [List.splitOn, List.splitOnP_cons_eq_if_modifyHead, List.splitOn]
  simp only [beq_iff_eq]

/-- A wildcard separates two literals. -/
theorem splitOn_of_mem {pattern : List α} (h : star ∈ pattern) :
    ∃ lit next lits, pattern.splitOn star = lit :: next :: lits := by
  induction pattern with
  | nil => cases h
  | cons c cs ih =>
      rw [splitOn_cons]
      split_ifs with hc
      · obtain ⟨next, lits, hcs⟩ := List.exists_cons_of_ne_nil (List.splitOnP_ne_nil (· == star) cs)
        exact ⟨[], next, lits, congrArg _ hcs⟩
      · obtain ⟨lit, next, lits, hcs⟩ := ih ((List.mem_cons.mp h).resolve_left (Ne.symm hc))
        rw [hcs]
        exact ⟨c :: lit, next, lits, rfl⟩

/-- Filling the wildcards is putting gaps between the literals they separate. -/
theorem exists_fill_iff {pattern text lit : List α} {lits : List (List α)} {i : Nat}
    (hsplit : pattern.splitOn star = lit :: lits) :
    (∃ σ : Nat → List α, (∀ j, sep ∉ σ j) ∧ fill star σ i pattern = text) ↔
      ∃ rest, text = lit ++ rest ∧ Gapped sep lits rest := by
  induction pattern generalizing text lit lits i with
  | nil =>
      rw [List.splitOn_nil] at hsplit
      cases hsplit
      constructor
      · rintro ⟨σ, _, rfl⟩
        exact ⟨[], rfl, .nil⟩
      · rintro ⟨rest, rfl, hrest⟩
        cases hrest
        exact ⟨fun _ => [], by simp, rfl⟩
  | cons c cs ih =>
      rw [splitOn_cons] at hsplit
      obtain ⟨next, more, hcs⟩ := List.exists_cons_of_ne_nil (List.splitOnP_ne_nil (· == star) cs)
      have hcs : cs.splitOn star = next :: more := hcs
      rw [hcs] at hsplit
      split_ifs at hsplit with hc
      · -- a wildcard: its text is the gap before the next literal
        cases hsplit
        constructor
        · rintro ⟨σ, hσ, rfl⟩
          rw [fill, if_pos hc]
          obtain ⟨rest, hrest, hgapped⟩ := (ih hcs).mp ⟨σ, hσ, rfl⟩
          rw [hrest]
          exact ⟨_, rfl, .cons (hσ i) hgapped⟩
        · rintro ⟨rest, rfl, hgapped⟩
          obtain ⟨gap, rest', rfl, hgap, hrest'⟩ := gapped_cons.mp hgapped
          obtain ⟨σ, hσ, hfill⟩ := (ih (i := i + 1) hcs).mpr ⟨rest', rfl, hrest'⟩
          refine ⟨Function.update σ i gap, ?_, ?_⟩
          · intro j
            by_cases hj : j = i
            · rw [hj, Function.update_self]
              exact hgap
            · rw [Function.update_of_ne hj]
              exact hσ j
          · have hsame : fill star (Function.update σ i gap) (i + 1) cs = fill star σ (i + 1) cs :=
              fill_congr fun j hj => Function.update_of_ne (by omega) ..
            rw [fill, if_pos hc, Function.update_self, hsame, hfill]
      · cases hsplit
        constructor
        · rintro ⟨σ, hσ, rfl⟩
          rw [fill, if_neg hc]
          obtain ⟨rest, hrest, hgapped⟩ := (ih hcs).mp ⟨σ, hσ, rfl⟩
          exact ⟨rest, by rw [hrest, List.cons_append], hgapped⟩
        · rintro ⟨rest, rfl, hgapped⟩
          obtain ⟨σ, hσ, hfill⟩ := (ih (i := i) hcs).mpr ⟨rest, rfl, hgapped⟩
          exact ⟨σ, hσ, by rw [fill, if_neg hc, hfill, List.cons_append]⟩

/-- **`fits_iff`** — a text fits a pattern when it starts with the pattern's first literal and goes
on with the others, each after a gap. -/
theorem fits_iff {pattern text lit : List α} {lits : List (List α)}
    (hsplit : pattern.splitOn star = lit :: lits) :
    Fits sep star pattern text ↔ ∃ rest, text = lit ++ rest ∧ Gapped sep lits rest :=
  exists_fill_iff hsplit

/-- A pattern without a wildcard fits itself. -/
theorem fits_of_notMem {pattern text : List α} (h : star ∉ pattern) :
    Fits sep star pattern text ↔ pattern = text := by
  have hsplit : pattern.splitOn star = [pattern] := by
    apply List.splitOnP_eq_singleton
    intro c hc
    rw [beq_eq_false_iff_ne]
    rintro rfl
    exact h hc
  rw [fits_iff hsplit]
  constructor
  · rintro ⟨rest, rfl, hrest⟩
    cases hrest
    rw [List.append_nil]
  · rintro rfl
    exact ⟨[], by rw [List.append_nil], .nil⟩

end Omemfs.Lib.Glob
