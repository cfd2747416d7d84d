/-
# Omemfs.Filter.Grammar — filter matching is what the documented grammar says.

The grammar is stated on its own: `*` stands for any text without a slash (`Fits`), a pattern with a
leading slash is about the whole path and any other one about some suffix of it that starts at a
component (`Means`), the last pattern of a section that matches has the say (`LastHit`), and a filter
file is about the paths below its directory (`Within`).  `Decides` says that a match comes to an end,
no slice having fallen inside a character, and answers a question right; each function of the source
decides its part of the grammar (`matching_is_documented`).
-/
import Omemfs.Filter.Pattern

namespace Omemfs.Filter

open Lib

/-! ## Deciding -/

/-- The computation ends, and its answer is right. -/
def Decides (x : Except Stop Bool) (P : Prop) : Prop := ∃ b, x = .ok b ∧ (b = true ↔ P)

theorem decides_ok {b : Bool} {P : Prop} (h : b = true ↔ P) : Decides (.ok b) P := ⟨b, rfl, h⟩

theorem Decides.congr {x : Except Stop Bool} {P Q : Prop} (h : Decides x P) (hpq : P ↔ Q) :
    Decides x Q := by
  obtain ⟨b, hx, hb⟩ := h
  exact ⟨b, hx, hb.trans hpq⟩

/-- One question, and another one where the first is answered no. -/
theorem Decides.orElse {x y : Except Stop Bool} {P Q : Prop} (hx : Decides x P) (hy : Decides y Q) :
    Decides (x >>= fun b => if b = true then pure true else y) (P ∨ Q) := by
  obtain ⟨b, rfl, hb⟩ := hx
  cases b with
  | true => exact ⟨true, rfl, iff_of_true rfl (Or.inl (hb.mp rfl))⟩
  | false =>
      refine hy.congr ?_
      have hnot : ¬ P := fun hp => Bool.false_ne_true (hb.mpr hp)
      exact (or_iff_right hnot).symm

theorem Decides.eq_true_iff {x : Except Stop Bool} {P : Prop} (h : Decides x P) :
    x = .ok true ↔ P := by
  obtain ⟨b, rfl, hb⟩ := h
  rw [← hb]
  exact ⟨Except.ok.inj, congrArg _⟩

/-! ## Slices at the end of a first part -/

theorem sliceFrom_append (a b : Str) : sliceFrom (a ++ b) (Utf8.byteLen a) = .ok b := by
  rw [sliceFrom, Utf8.splitAtByte_append]

theorem sliceTo_append (a b : Str) : sliceTo (a ++ b) (Utf8.byteLen a) = .ok a := by
  rw [sliceTo, Utf8.splitAtByte_append]

theorem stripPrefix_eq_some {part s rest : Str} : stripPrefix part s = some rest ↔ s = part ++ rest := by
  unfold stripPrefix
  constructor
  · intro h
    split_ifs at h with hp
    cases h
    exact (List.prefix_append_drop hp)
  · rintro rfl
    rw [if_pos (List.prefix_append _ _), List.drop_left]

/-! ## Globs -/

/-- Some text without a slash for each `*` turns the pattern into the path. -/
abbrev Fits (pattern path : Str) : Prop := Glob.Fits '/' '*' pattern path

/-- The loop of `glob_match`, past its first part, is the greedy search for the rest. -/
theorem globLoop_eq {n i : Nat} {parts : List Str} {remaining : Str} (hi : i ≠ 0)
    (hparts : parts ≠ []) (hn : i + parts.length = n) :
    globLoop n i parts remaining = .ok (Glob.greedy '/' parts remaining) := by
  induction parts generalizing i remaining with
  | nil => exact absurd rfl hparts
  | cons part parts ih =>
      cases parts with
      | nil =>
          have hlast : i = n - 1 := by
            rw [← hn]
            rfl
          rw [globLoop, if_neg hi, if_pos hlast, Glob.greedy]
          by_cases hsuf : part <:+ remaining
          · obtain ⟨gap, rfl⟩ := hsuf
            have hlen : Utf8.byteLen (gap ++ part) - Utf8.byteLen part = Utf8.byteLen gap := by
              rw [Utf8.byteLen_append, Nat.add_sub_cancel]
            rw [if_neg (not_not_intro (List.suffix_append gap part)), hlen, sliceTo_append]
            by_cases hgap : '/' ∈ gap
            · simp [hgap, Bind.bind, Except.bind, Pure.pure, Except.pure]
            · simp [hgap, globLoop, Bind.bind, Except.bind]
          · rw [if_pos hsuf]
            simp [hsuf]
      | cons next parts =>
          have hnot : i ≠ n - 1 := by
            rw [← hn, List.length_cons, List.length_cons]
            omega
          rw [globLoop, if_neg hi, if_neg hnot, Glob.greedy, find]
          cases hcut : Glob.cut part remaining with
          | none => rfl
          | some x =>
              obtain ⟨before, after⟩ := x
              have htext := (Glob.cut_eq_some hcut).1
              have hto : sliceTo remaining (Utf8.byteLen before) = .ok before := by
                rw [htext, sliceTo_append]
              have hfrom : sliceFrom remaining (Utf8.byteLen before + Utf8.byteLen part) =
                  .ok after := by
                rw [htext, ← List.append_assoc, ← Utf8.byteLen_append, sliceFrom_append]
              have hnext := @ih (i + 1) after (by omega) (by simp) (by
                rw [← hn, List.length_cons (a := part)]
                omega)
              simp only [Option.map_some, hto]
              by_cases hgap : '/' ∈ before
              · simp [hgap, Bind.bind, Except.bind, Pure.pure, Except.pure]
              · simp [hgap, hfrom, hnext, Bind.bind, Except.bind]

/-- **`globMatch_decides`** — the search decides whether the path fits the pattern. -/
theorem globMatch_decides (pattern path : Str) : Decides (globMatch pattern path) (Fits pattern path) := by
  unfold globMatch
  by_cases hstar : '*' ∈ pattern
  · rw [if_neg (not_not_intro hstar)]
    obtain ⟨lit, next, lits, hsplit⟩ := Glob.splitOn_of_mem hstar
    rw [hsplit, globLoop, if_pos rfl]
    refine Decides.congr ?_ (Glob.fits_iff hsplit).symm
    by_cases hpre : lit <+: path
    · obtain ⟨rest, rfl⟩ := hpre
      rw [if_neg (not_not_intro (List.prefix_append lit rest)), sliceFrom_append]
      have hloop := @globLoop_eq (lit :: next :: lits).length 1 (next :: lits) rest (by simp)
        (by simp) (by simp; omega)
      refine ⟨_, hloop, Glob.greedy_iff.trans ?_⟩
      constructor
      · intro h
        exact ⟨rest, rfl, h⟩
      · rintro ⟨rest', heq, h⟩
        rwa [List.append_cancel_left heq]
    · rw [if_pos hpre]
      refine decides_ok (iff_of_false Bool.false_ne_true ?_)
      rintro ⟨rest, rfl, _⟩
      exact hpre (List.prefix_append lit rest)
  · rw [if_pos hstar]
    exact decides_ok (decide_eq_true_iff.trans (Glob.fits_of_notMem hstar).symm)

/-! ## Patterns -/

/-- `s` is the path from one of its components on. -/
def AtBoundary (path s : Str) : Prop := s = path ∨ ∃ before, path = before ++ '/' :: s

/-- What follows a slash of a path follows its first slash, or a slash after that. -/
theorem exists_after_slash {before after : Str} (hfirst : '/' ∉ before) (P : Str → Prop) :
    (∃ b s, before ++ '/' :: after = b ++ '/' :: s ∧ P s) ↔
      P after ∨ ∃ b s, after = b ++ '/' :: s ∧ P s := by
  constructor
  · rintro ⟨b, s, heq, hs⟩
    rcases List.append_eq_append_iff.mp heq with ⟨mid, rfl, hmid⟩ | ⟨mid, rfl, hmid⟩
    · cases mid with
      | nil =>
          rw [List.nil_append, List.cons.injEq] at hmid
          exact Or.inl (hmid.2 ▸ hs)
      | cons c cs =>
          rw [List.cons_append, List.cons.injEq] at hmid
          exact Or.inr ⟨cs, s, hmid.2, hs⟩
    · cases mid with
      | nil =>
          rw [List.nil_append, List.cons.injEq] at hmid
          exact Or.inl (hmid.2 ▸ hs)
      | cons c cs =>
          rw [List.cons_append, List.cons.injEq] at hmid
          exact absurd (List.mem_append_right b (hmid.1 ▸ List.mem_cons_self ..)) hfirst
  · rintro (h | ⟨b, s, rfl, hs⟩)
    · exact ⟨before, after, rfl, h⟩
    · exact ⟨before ++ '/' :: b, s, by simp, hs⟩

theorem Pattern.descend_decides {suffix rest : Str} {fuel : Nat} (hfuel : rest.length < fuel) :
    Decides (descend suffix fuel rest) (∃ b s, rest = b ++ '/' :: s ∧ Fits suffix s) := by
  induction fuel generalizing rest with
  | zero => omega
  | succ fuel ih =>
      rw [descend, find]
      cases hcut : Glob.cut ['/'] rest with
      | none =>
          refine decides_ok (iff_of_false Bool.false_ne_true ?_)
          rintro ⟨b, s, heq, _⟩
          exact Glob.cut_eq_none hcut b s heq
      | some x =>
          obtain ⟨before, after⟩ := x
          obtain ⟨htext, hfirst⟩ := Glob.cut_eq_some hcut
          have hslice : sliceFrom rest (Utf8.byteLen before + 1) = .ok after := by
            have hone : Utf8.byteLen before + 1 = Utf8.byteLen (before ++ ['/']) := by
              rw [Utf8.byteLen_append]
              rfl
            rw [hone, htext, ← List.append_assoc, sliceFrom_append]
          have hfree : '/' ∉ before := by
            intro hm
            obtain ⟨b₁, b₂, rfl, hb₁⟩ := List.eq_append_cons_of_mem hm
            have hle := (hfirst b₁ (b₂ ++ '/' :: after) (by rw [htext]; simp)).length_le
            rw [List.length_append, List.length_cons] at hle
            omega
          have hshort : after.length < fuel := by
            rw [htext, List.length_append, List.length_append, List.length_singleton] at hfuel
            omega
          have hboth := (globMatch_decides suffix after).orElse (ih hshort)
          simp only [Option.map_some, hslice]
          refine hboth.congr ?_
          rw [htext]
          exact (exists_after_slash hfree _).symm

theorem Pattern.matchesAnyDepth_decides (suffix path : Str) :
    Decides (matchesAnyDepth suffix path) (∃ s, AtBoundary path s ∧ Fits suffix s) := by
  refine ((globMatch_decides suffix path).orElse (descend_decides (Nat.lt_succ_self _))).congr ?_
  constructor
  · rintro (h | ⟨b, s, heq, hs⟩)
    · exact ⟨path, Or.inl rfl, h⟩
    · exact ⟨s, Or.inr ⟨b, heq⟩, hs⟩
  · rintro ⟨s, rfl | ⟨b, heq⟩, hs⟩
    · exact Or.inl hs
    · exact Or.inr ⟨b, s, heq, hs⟩

/-- What a pattern says about a path: with a leading slash, the path itself; otherwise, with or
without a leading `**/`, the path from one of its components on. -/
def Means : Str → Str → Prop
  | '/' :: rest, path => Fits rest path
  | '*' :: '*' :: '/' :: rest, path => ∃ s, AtBoundary path s ∧ Fits rest s
  | pattern, path => ∃ s, AtBoundary path s ∧ Fits pattern s

/-- How a line is read: an escaped `#` or `!` for itself, a `!` as the negation of what follows it,
and anything else but a comment as it stands. -/
inductive Reads : Str → Bool → Str → Prop
  | escaped {c : Char} {rest : Str} : c = '#' ∨ c = '!' → Reads ('\\' :: c :: rest) false (c :: rest)
  | negated (rest : Str) : Reads ('!' :: rest) true rest
  | plain {line : Str} : ¬ ['!'] <+: line → ¬ ['\\', '#'] <+: line → ¬ ['\\', '!'] <+: line →
      Reads line false line

/-- A line without a pattern: blank or a comment, nothing but slashes, or with unsupported syntax. -/
def Skipped (line rest : Str) : Prop :=
  line = [] ∨ ['#'] <+: line ∨ trimEndMatches '/' rest = [] ∨
    '?' ∈ trimEndMatches '/' rest ∨ '[' ∈ trimEndMatches '/' rest

theorem Pattern.splitMark_reads (line : Str) :
    ∃ negated rest, splitMark line = .ok (negated, rest) ∧ Reads line negated rest := by
  unfold splitMark
  split_ifs with hesc
  · have hcases : ∃ c rest, (c = '#' ∨ c = '!') ∧ line = '\\' :: c :: rest := by
      rcases hesc with ⟨rest, rfl⟩ | ⟨rest, rfl⟩
      · exact ⟨'#', rest, Or.inl rfl, rfl⟩
      · exact ⟨'!', rest, Or.inr rfl, rfl⟩
    obtain ⟨c, rest, hc, rfl⟩ := hcases
    have hslice : sliceFrom ('\\' :: c :: rest) 1 = .ok (c :: rest) :=
      sliceFrom_append ['\\'] (c :: rest)
    rw [hslice]
    exact ⟨false, c :: rest, rfl, .escaped hc⟩
  · cases hstrip : stripPrefix ['!'] line with
    | some rest =>
        rw [stripPrefix_eq_some.mp hstrip]
        exact ⟨true, rest, rfl, .negated rest⟩
    | none =>
        refine ⟨false, line, rfl, .plain ?_ (fun h => hesc (Or.inl h)) (fun h => hesc (Or.inr h))⟩
        rintro ⟨rest, rfl⟩
        rw [stripPrefix_eq_some.mpr rfl] at hstrip
        cases hstrip

/-- The text kept of a pattern, and whether it is anchored, say what the pattern means. -/
theorem Pattern.text_means (body : Str) (negated : Bool) :
    ∃ text, (if decide (['/'] <+: body) = true then sliceFrom body 1 else .ok body) = .ok text ∧
      ∀ path, Decides (matchesPath ⟨text, decide (['/'] <+: body), negated⟩ path)
        (Means body path) := by
  by_cases hslash : ['/'] <+: body
  · obtain ⟨text, rfl⟩ := hslash
    have hpre : ['/'] <+: ['/'] ++ text := List.prefix_append _ _
    refine ⟨text, ?_, fun path => ?_⟩
    · rw [if_pos (decide_eq_true hpre)]
      exact sliceFrom_append ['/'] text
    · rw [decide_eq_true hpre]
      exact globMatch_decides text path
  · refine ⟨body, by rw [if_neg (by simpa using hslash)], fun path => ?_⟩
    rw [decide_eq_false hslash, matchesPath, if_neg Bool.false_ne_true]
    by_cases hdeep : ['*', '*', '/'] <+: body
    · obtain ⟨rest, rfl⟩ := hdeep
      have hslice : sliceFrom (['*', '*', '/'] ++ rest) 3 = .ok rest := sliceFrom_append ['*', '*', '/'] rest
      rw [if_pos (List.prefix_append _ _), hslice]
      exact matchesAnyDepth_decides rest path
    · rw [if_neg hdeep]
      have hmeans : Means body path = ∃ s, AtBoundary path s ∧ Fits body s := by
        unfold Means
        split
        · exact absurd (List.prefix_append ['/'] _) hslash
        · exact absurd (List.prefix_append ['*', '*', '/'] _) hdeep
        · rfl
      rw [hmeans]
      exact matchesAnyDepth_decides body path

/-- **`parse_spec`** — parsing a line comes to an end; a pattern it gives means what the line's text
means, and it gives none for the lines without one. -/
theorem Pattern.parse_spec (line : Str) :
    ∃ negated rest r, Reads (trimEnd line) negated rest ∧ parse line = .ok r ∧
      (r = none ↔ Skipped (trimEnd line) rest) ∧
      ∀ p, r = some p → p.negated = negated ∧
        ∀ path, Decides (p.matchesPath path) (Means (trimEndMatches '/' rest) path) := by
  obtain ⟨negated, rest, hmark, hreads⟩ := splitMark_reads (trimEnd line)
  obtain ⟨text, htext, hmeans⟩ := text_means (trimEndMatches '/' rest) negated
  unfold parse
  by_cases hskip : trimEnd line = [] ∨ ['#'] <+: trimEnd line
  · have hskipped : Skipped (trimEnd line) rest := hskip.imp_right Or.inl
    exact ⟨negated, rest, none, hreads, if_pos hskip, iff_of_true rfl hskipped, nofun⟩
  simp only [if_neg hskip, hmark]
  by_cases hnil : trimEndMatches '/' rest = []
  · have hskipped : Skipped (trimEnd line) rest := Or.inr (Or.inr (Or.inl hnil))
    exact ⟨negated, rest, none, hreads, if_pos hnil, iff_of_true rfl hskipped, nofun⟩
  by_cases hunsup : '?' ∈ trimEndMatches '/' rest ∨ '[' ∈ trimEndMatches '/' rest
  · have hskipped : Skipped (trimEnd line) rest := Or.inr (Or.inr (Or.inr hunsup))
    refine ⟨negated, rest, none, hreads, ?_, iff_of_true rfl hskipped, nofun⟩
    show (if trimEndMatches '/' rest = [] then _ else _) = _
    rw [if_neg hnil, if_pos hunsup]
    rfl
  refine ⟨negated, rest, some ⟨text, decide (['/'] <+: trimEndMatches '/' rest), negated⟩, hreads,
    ?_, ?_, ?_⟩
  · show (if trimEndMatches '/' rest = [] then _ else _) = _
    rw [if_neg hnil, if_neg hunsup]
    simp only
    split_ifs at htext ⊢ with hslash
    · rw [htext]
      rfl
    · rw [htext]
      rfl
  · refine iff_of_false nofun ?_
    rintro (h | h | h | h)
    · exact hskip (Or.inl h)
    · exact hskip (Or.inr h)
    · exact hnil h
    · exact hunsup h
  · rintro p hp
    cases hp
    exact ⟨rfl, hmeans⟩

/-! ## Sections -/

/-- The pattern matches the path. -/
def Pattern.Hits (p : Pattern) (path : Str) : Prop := p.matchesPath path = .ok true

/-- Some pattern matches, and the last one that does is not negated. -/
def LastHit (patterns : List Pattern) (path : Str) : Prop :=
  ∃ before p after, patterns = before ++ p :: after ∧ p.Hits path ∧ p.negated = false ∧
    ∀ q ∈ after, ¬ q.Hits path

/-- Matching any pattern at all comes to an end, whether it was parsed or not. -/
theorem Pattern.matchesPath_ends (p : Pattern) (path : Str) : ∃ b, p.matchesPath path = .ok b := by
  unfold matchesPath
  split_ifs with hanchored hdeep
  · obtain ⟨b, hb, _⟩ := globMatch_decides p.text path
    exact ⟨b, hb⟩
  · obtain ⟨rest, hrest⟩ := hdeep
    have hslice : sliceFrom p.text 3 = .ok rest := by
      rw [← hrest]
      exact sliceFrom_append ['*', '*', '/'] rest
    obtain ⟨b, hb, _⟩ := matchesAnyDepth_decides rest path
    exact ⟨b, by rw [hslice]; exact hb⟩
  · obtain ⟨b, hb, _⟩ := matchesAnyDepth_decides p.text path
    exact ⟨b, hb⟩

theorem lastHit_cons {p : Pattern} {ps : List Pattern} {path : Str} :
    LastHit (p :: ps) path ↔
      LastHit ps path ∨ p.Hits path ∧ p.negated = false ∧ ∀ q ∈ ps, ¬ q.Hits path := by
  constructor
  · rintro ⟨before, r, after, heq, hr⟩
    cases before with
    | nil =>
        rw [List.nil_append, List.cons.injEq] at heq
        obtain ⟨rfl, rfl⟩ := heq
        exact Or.inr hr
    | cons c cs =>
        rw [List.cons_append, List.cons.injEq] at heq
        exact Or.inl ⟨cs, r, after, heq.2, hr⟩
  · rintro (⟨before, r, after, rfl, hr⟩ | hp)
    · exact ⟨p :: before, r, after, rfl, hr⟩
    · exact ⟨[], p, ps, rfl, hp⟩

/-- From any patterns on, an earlier match stands unless a later pattern matches. -/
theorem Section.foldlM_decides (patterns : List Pattern) (path : Str) (matched : Bool) :
    Decides (patterns.foldlM (consider path) matched)
      (LastHit patterns path ∨ matched = true ∧ ∀ q ∈ patterns, ¬ q.Hits path) := by
  induction patterns generalizing matched with
  | nil =>
      refine decides_ok ?_
      constructor
      · intro h
        exact Or.inr ⟨h, by simp⟩
      · rintro (⟨before, p, after, heq, _⟩ | ⟨h, _⟩)
        · simp at heq
        · exact h
  | cons p ps ih =>
      obtain ⟨b, hb⟩ := p.matchesPath_ends path
      have hhits : p.Hits path ↔ b = true := by
        rw [Pattern.Hits, hb]
        exact ⟨Except.ok.inj, congrArg _⟩
      have hstep : consider path matched p = .ok (if b = true then !p.negated else matched) := by
        rw [consider, hb]
        cases b <;> rfl
      rw [List.foldlM_cons, hstep]
      refine (ih _).congr ?_
      rw [lastHit_cons, hhits]
      simp only [List.mem_cons, forall_eq_or_imp, hhits]
      cases b <;> cases p.negated <;> simp

theorem Section.matchesPath_decides (s : Section) (path : Str) :
    Decides (s.matchesPath path) (LastHit s.patterns path) := by
  refine (foldlM_decides s.patterns path false).congr ?_
  simp

/-! ## Sets of filter files -/

/-- The directory is the path's own or an ancestor of it, and `path` is the path from there. -/
def Within (dirPrefix relPath path : Str) : Prop :=
  dirPrefix = [] ∧ path = relPath ∨ dirPrefix ≠ [] ∧ relPath = dirPrefix ++ '/' :: path

theorem pathInScope_eq_some {dirPrefix relPath path : Str} :
    FilterSet.pathInScope dirPrefix relPath = some path ↔ Within dirPrefix relPath path := by
  unfold FilterSet.pathInScope Within
  split_ifs with h
  · simp [h, eq_comm]
  · rw [stripPrefix_eq_some]
    simp [h]

/-- Some file above the path matches the path from its directory on. -/
def SomeFile (select : FilterFile → Section) (files : List (Str × FilterFile)) (relPath : Str) : Prop :=
  ∃ x ∈ files, ∃ path, Within x.1 relPath path ∧ LastHit (select x.2).patterns path

theorem FilterSet.testFiles_decides (select : FilterFile → Section) (files : List (Str × FilterFile))
    (relPath : Str) :
    Decides (testFiles (fun ff path => (select ff).matchesPath path) relPath files)
      (SomeFile select files relPath) := by
  induction files with
  | nil =>
      refine decides_ok (iff_of_false Bool.false_ne_true ?_)
      rintro ⟨x, hx, _⟩
      cases hx
  | cons x files ih =>
      obtain ⟨dirPrefix, ff⟩ := x
      have hcons : SomeFile select ((dirPrefix, ff) :: files) relPath ↔
          (∃ path, Within dirPrefix relPath path ∧ LastHit (select ff).patterns path) ∨
            SomeFile select files relPath := by
        simp only [SomeFile, List.mem_cons, exists_eq_or_imp]
      refine Decides.congr ?_ hcons.symm
      rw [testFiles]
      cases hscope : pathInScope dirPrefix relPath with
      | none =>
          refine ih.congr (or_iff_right ?_).symm
          rintro ⟨path, hpath, _⟩
          rw [pathInScope_eq_some.mpr hpath] at hscope
          cases hscope
      | some path =>
          refine (((select ff).matchesPath_decides path).orElse ih).congr (or_congr_left ?_)
          constructor
          · intro h
            exact ⟨path, pathInScope_eq_some.mp hscope, h⟩
          · rintro ⟨other, hother, h⟩
            rw [pathInScope_eq_some.mpr hother] at hscope
            rwa [← Option.some.inj hscope]

theorem FilterFile.parse_ends (content : Str) : ∃ f, parse content = .ok f := by
  have hlines : ∀ (ls : List Str) (x : FilterFile × CurrentSection),
      ∃ y, ls.foldlM parseLine x = .ok y := by
    intro ls
    induction ls with
    | nil => exact fun x => ⟨x, rfl⟩
    | cons line ls ih =>
        intro x
        have hline : ∃ y, parseLine x line = .ok y := by
          unfold parseLine
          cases sectionHeader (trim line) with
          | some next => exact ⟨_, rfl⟩
          | none =>
              obtain ⟨_, _, r, _, hr, _⟩ := Pattern.parse_spec line
              simp only [hr]
              cases r with
              | none => exact ⟨_, rfl⟩
              | some pat => exact ⟨_, rfl⟩
        obtain ⟨y, hy⟩ := hline
        rw [List.foldlM_cons, hy]
        exact ih y
  obtain ⟨y, hy⟩ := hlines (lines content) (⟨⟨[]⟩, ⟨[]⟩, ⟨[]⟩⟩, .ignore)
  exact ⟨y.1, by rw [parse, hy]; rfl⟩

/-- **`matching_is_documented`** — glob matching, patterns, sections and sets of filter files all
come to an end and decide what the documented grammar says. -/
theorem matching_is_documented :
    (∀ pattern path, Decides (globMatch pattern path) (Fits pattern path)) ∧
      (∀ line, ∃ negated rest r, Reads (trimEnd line) negated rest ∧ Pattern.parse line = .ok r ∧
        (r = none ↔ Skipped (trimEnd line) rest) ∧
        ∀ p, r = some p → p.negated = negated ∧
          ∀ path, Decides (p.matchesPath path) (Means (trimEndMatches '/' rest) path)) ∧
      (∀ content, ∃ f, FilterFile.parse content = .ok f) ∧
      (∀ (s : Section) path, Decides (s.matchesPath path) (LastHit s.patterns path)) ∧
      ∀ (set : FilterSet) relPath,
        Decides (set.isIgnored relPath) (SomeFile FilterFile.ignore set.files relPath) ∧
          Decides (set.isAggregated relPath) (SomeFile FilterFile.aggregate set.files relPath) ∧
          Decides (set.isLineMerge relPath) (SomeFile FilterFile.lineMerge set.files relPath) := by
  refine ⟨globMatch_decides, Pattern.parse_spec, FilterFile.parse_ends,
    Section.matchesPath_decides, fun set relPath => ⟨?_, ?_, ?_⟩⟩
  · exact FilterSet.testFiles_decides FilterFile.ignore set.files relPath
  · exact FilterSet.testFiles_decides FilterFile.aggregate set.files relPath
  · exact FilterSet.testFiles_decides FilterFile.lineMerge set.files relPath

/-- The slash of a literal is not in a gap, and a literal may not overlap the one before it. -/
theorem matching_samples :
    globMatch "*/a*b".toList "x/aab".toList = .ok true ∧ Fits "*/a*b".toList "x/aab".toList ∧
      globMatch "ab*ba".toList "aba".toList = .ok false ∧ ¬ Fits "ab*ba".toList "aba".toList := by
  have hyes : globMatch "*/a*b".toList "x/aab".toList = .ok true := by decide
  have hno : globMatch "ab*ba".toList "aba".toList = .ok false := by decide
  refine ⟨hyes, (matching_is_documented.1 _ _).eq_true_iff.mp hyes, hno, ?_⟩
  rw [← (matching_is_documented.1 _ _).eq_true_iff, hno]
  exact nofun

end Omemfs.Filter
