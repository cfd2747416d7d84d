/-
# Omemfs.Object — object hashes and the errors the commands return.

A `Hash` is the 32-byte SHA-256 name of an object.  The program keeps it as 64 hex digits and
compares those strings; on strings of one length that is the order of the numbers they spell, so a
hash is a 256-bit vector here, `toBytes` and `ofBytes` are its 32-byte form and `asStr` its hex
form.  `Error` has the variants of the program's error type that the modelled functions return.
-/
import Mathlib.Tactic.IntervalCases
import Mathlib.Tactic.NormNum
import Omemfs.Lib.Bytes

namespace Omemfs

open Lib

/-- The name of a content-addressed object. -/
abbrev Hash := BitVec 256

instance instLawfulBEqHash : LawfulBEq Hash := inferInstance

namespace Hash

/-- The 32 raw bytes of a hash. -/
def toBytes (h : Hash) : Bytes := Bytes.toBE 32 h.toNat

/-- The hash with the given raw bytes. -/
def ofBytes (b : Bytes) : Hash := BitVec.ofNat 256 (Bytes.ofBE b)

/-- 64 lower-case hex digits. -/
def asStr (h : Hash) : String := BitVec.toHex h

@[simp]
theorem length_toBytes (h : Hash) : h.toBytes.length = 32 := Bytes.length_toBE _ _

@[simp]
theorem ofBytes_toBytes (h : Hash) : ofBytes h.toBytes = h := by
  have hlt : h.toNat < 256 ^ 32 := h.isLt
  rw [ofBytes, toBytes, Bytes.ofBE_toBE hlt, BitVec.ofNat_toNat, BitVec.setWidth_eq]

theorem toBytes_ofBytes {b : Bytes} (hb : b.length = 32) : toBytes (ofBytes b) = b := by
  have hlt : Bytes.ofBE b < 2 ^ 256 := by
    have := Bytes.ofBE_lt b
    rw [hb] at this
    exact this
  rw [toBytes, ofBytes, BitVec.toNat_ofNat, Nat.mod_eq_of_lt hlt, ← hb, Bytes.toBE_ofBE]

/-- The first byte of a hash. -/
def firstByte (h : Hash) : UInt8 := h.toBytes.headD 0

theorem toNat_firstByte (h : Hash) : h.firstByte.toNat = h.toNat / 2 ^ 248 := by
  have hlt : h.toNat < 2 ^ 256 := h.isLt
  have hget : h.toBytes[0]? = some (UInt8.ofNat (h.toNat / 256 ^ 31)) :=
    Bytes.getElem?_toBE (by omega) _
  rw [firstByte, List.headD_eq_head?_getD, List.head?_eq_getElem?, hget, Option.getD_some,
    UInt8.toNat_ofNat']
  omega

/-- The first `bits` bits of a hash, read byte by byte from the front. -/
def prefixBits (h : Hash) (bits : Nat) : Nat :=
  let bytes := h.toBytes
  let byteIdx := bits / 8
  let bitOffset := bits % 8
  let v := (bytes.take (min byteIdx bytes.length)).foldl (fun v b => (v <<< 8) ||| b.toNat) 0
  if bitOffset = 0 then v
  else match bytes[byteIdx]? with
    | some b => (v <<< bitOffset) ||| (b.toNat >>> (8 - bitOffset))
    | none => v

/-- **`prefixBits_eq`** — the byte loop computes the leading bits of the 256-bit number. -/
theorem prefixBits_eq (h : Hash) {bits : Nat} (hbits : bits ≤ 248) :
    h.prefixBits bits = h.toNat / 2 ^ (256 - bits) := by
  have hlt : h.toNat < 256 ^ 32 := h.isLt
  obtain ⟨k, hk⟩ : ∃ k, bits / 8 = k := ⟨_, rfl⟩
  obtain ⟨o, ho⟩ : ∃ o, bits % 8 = o := ⟨_, rfl⟩
  have hk31 : k ≤ 31 := by omega
  have ho8 : o < 8 := by omega
  have hsplit : bits = 8 * k + o := by omega
  -- the whole bytes of the prefix
  have hv : Bytes.ofBE (h.toBytes.take (min k h.toBytes.length)) = h.toNat / 256 ^ (32 - k) := by
    have hfit : h.toNat / 256 ^ (32 - k) < 256 ^ k := by
      apply Nat.div_lt_of_lt_mul
      rw [← pow_add, show 32 - k + k = 32 by omega]
      exact hlt
    rw [length_toBytes, show min k 32 = k by omega, toBytes, Bytes.take_toBE (by omega),
      Bytes.ofBE_toBE hfit]
  have hb : h.toBytes[k]? = some (UInt8.ofNat (h.toNat / 256 ^ (31 - k))) :=
    Bytes.getElem?_toBE (by omega) _
  have hpow : (256 : Nat) ^ (32 - k) = 256 ^ (31 - k) * 256 := by
    rw [← pow_succ, show 31 - k + 1 = 32 - k by omega]
  have hgoal : (2 : Nat) ^ (256 - bits) = 256 ^ (31 - k) * 2 ^ (8 - o) := by
    have hbase : (256 : Nat) ^ (31 - k) = 2 ^ (8 * (31 - k)) := by
      rw [pow_mul]
      norm_num
    rw [hbase, ← pow_add, show 8 * (31 - k) + (8 - o) = 256 - bits by omega]
  unfold prefixBits
  simp only [hk, ho, Bytes.foldl_shift_eq_ofBE, hv, hb]
  rw [hpow, hgoal, ← Nat.div_div_eq_div_mul, ← Nat.div_div_eq_div_mul]
  generalize h.toNat / 256 ^ (31 - k) = w
  have hbyte : (UInt8.ofNat w).toNat = w % 256 := UInt8.toNat_ofNat'
  split_ifs with ho0
  · subst ho0
    rfl
  · rw [hbyte, ← Nat.shiftLeft_add_eq_or_of_lt, Nat.shiftLeft_eq, Nat.shiftRight_eq_div_pow]
    · interval_cases o <;> omega
    · rw [Nat.shiftRight_eq_div_pow]
      interval_cases o <;> omega

theorem prefixBits_eight (h : Hash) : h.prefixBits 8 = h.firstByte.toNat := by
  rw [prefixBits_eq h (by omega), toNat_firstByte]

end Hash

/-- The error values of the modelled commands. -/
inductive Error where
  | objectNotFound (hash : String)
  | localObjectMissing (hash : String)
  | casFailed
  | conflict
  | authTagMismatch
  | invalidObject (msg : String)
  | symlinkEscape (path : String)
  | io (msg : String)
  | other (msg : String)
  deriving DecidableEq, Repr

/-- Two upper-case hex digits, as `{:02X}` prints a byte. -/
def hex02 (b : UInt8) : String :=
  let digit (n : Nat) : Char := Char.ofNat (if n < 10 then 48 + n else 55 + n)
  String.ofList [digit (b.toNat / 16), digit (b.toNat % 16)]

end Omemfs
