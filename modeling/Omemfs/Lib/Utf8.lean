/-
# Omemfs.Lib.Utf8 — slicing a text at byte offsets.

A text is its characters; a slice is asked for by a byte offset in their UTF-8 form, and there is none
where the offset falls inside a character (`splitAtByte`).  An offset that is the size of a first part
of the text is always a boundary (`splitAtByte_append`), which is what offsets found by searching are.
-/
import Mathlib.Data.List.Basic

namespace Omemfs.Lib.Utf8

/-- The size of a text in bytes. -/
def byteLen : List Char → Nat
  | [] => 0
  | c :: cs => c.utf8Size + byteLen cs

/-- The text before a byte offset and from it on, where the offset is a character boundary. -/
def splitAtByte : List Char → Nat → Option (List Char × List Char)
  | text, 0 => some ([], text)
  | [], _ + 1 => none
  | c :: cs, n + 1 =>
      if c.utf8Size ≤ n + 1 then
        (splitAtByte cs (n + 1 - c.utf8Size)).map fun x => (c :: x.1, x.2)
      else none

@[simp]
theorem byteLen_append (a b : List Char) : byteLen (a ++ b) = byteLen a + byteLen b := by
  induction a with
  | nil => simp [byteLen]
  | cons c cs ih => rw [List.cons_append, byteLen, byteLen, ih, Nat.add_assoc]

/-- **`splitAtByte_append`** — the end of a first part is a boundary. -/
theorem splitAtByte_append (a b : List Char) : splitAtByte (a ++ b) (byteLen a) = some (a, b) := by
  induction a with
  | nil =>
      cases b <;> rfl
  | cons c cs ih =>
      have hpos := c.utf8Size_pos
      obtain ⟨n, hn⟩ : ∃ n, byteLen (c :: cs) = n + 1 := ⟨byteLen (c :: cs) - 1, by
        rw [byteLen]
        omega⟩
      have hrest : n + 1 - c.utf8Size = byteLen cs := by
        rw [byteLen] at hn
        omega
      have hfit : c.utf8Size ≤ n + 1 := by
        rw [byteLen] at hn
        omega
      rw [hn, List.cons_append, splitAtByte, if_pos hfit, hrest, ih]
      rfl

/-- An offset inside a character is no boundary. -/
example : splitAtByte ['é', 'a'] 1 = none ∧ splitAtByte ['é', 'a'] 2 = some (['é'], ['a']) := by
  decide

end Omemfs.Lib.Utf8
