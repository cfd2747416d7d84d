/-
# Omemfs.Base32 — the text form of a connection string.

A character stands for five bits; the alphabet leaves out what is easily taken for something else.
Whatever is encoded is decoded again (`decode_encode`), so a connection string gives back the JSON that
it was made from.  Of the texts that can be decoded, those that an encoding gives have no character too
many and nothing in the bits that fill up the last one (`encode_decode_iff`).  A text is its bytes.
-/
import Mathlib.Data.List.Basic
import Omemfs.Lib.Bytes
import Omemfs.Lib.Regroup

namespace Omemfs.Base32

open Lib

def alphabet : Bytes := "23456789abcdefghijkmnpqrstuvwxyz".toList.map fun c => UInt8.ofNat c.toNat

def decodeTable : List Nat :=
  alphabet.zipIdx.foldl (fun table x => table.set x.1.toNat x.2) (List.replicate 256 0xFF)

def charAt (idx : Nat) : UInt8 := alphabet.getD idx 0

def valueOf (c : UInt8) : Nat := decodeTable.getD c.toNat 0xFF

def encode (data : Bytes) : Bytes :=
  let st := (data.map UInt8.toNat).foldl (Regroup.feed 8 5 (by decide)) .empty
  st.output.map charAt ++
    if 0 < st.bits then [charAt (((st.buf <<< (5 - st.bits)) % 2 ^ 64) &&& 0x1F)] else []

/-- A byte is shown as the character of the same number. -/
def invalidChar (c : UInt8) : String :=
  "invalid character in connection string: '" ++ String.singleton (Char.ofNat c.toNat) ++ "'"

def decodeChar (st : Regroup) (c : UInt8) : Except String Regroup :=
  if valueOf c = 0xFF then .error (invalidChar c) else .ok (st.feed 5 8 (by decide) (valueOf c))

def decode (s : Bytes) : Except String Bytes :=
  match s.foldlM decodeChar .empty with
  | .ok st => .ok (st.output.map UInt8.ofNat)
  | .error e => .error e

/-! ## The alphabet -/

theorem valueOf_charAt : ∀ i < 32, valueOf (charAt i) = i := by decide +kernel

theorem charAt_valueOf (c : UInt8) (h : valueOf c ≠ 0xFF) : valueOf c < 32 ∧ charAt (valueOf c) = c := by
  have hall : ∀ n < 256, decodeTable.getD n 0xFF ≠ 0xFF →
      decodeTable.getD n 0xFF < 32 ∧ (charAt (decodeTable.getD n 0xFF)).toNat = n := by decide +kernel
  obtain ⟨hlt, hback⟩ := hall c.toNat c.toNat_lt h
  exact ⟨hlt, UInt8.toNat_inj.mp hback⟩

theorem valueOf_ne_iff {c : UInt8} : valueOf c ≠ 0xFF ↔ c ∈ alphabet := by
  have hall : ∀ n < 256, decodeTable.getD n 0xFF ≠ 0xFF ↔ n ∈ alphabet.map UInt8.toNat := by
    decide +kernel
  rw [valueOf, hall c.toNat c.toNat_lt, List.mem_map]
  constructor
  · rintro ⟨d, hd, heq⟩
    exact UInt8.toNat_inj.mp heq ▸ hd
  · intro hc
    exact ⟨c, hc, rfl⟩

theorem map_valueOf_charAt {digits : List Nat} (h : ∀ x ∈ digits, x < 2 ^ 5) :
    (digits.map charAt).map valueOf = digits := by
  rw [List.map_map]
  exact (List.map_congr_left fun x hx => valueOf_charAt x (h x hx)).trans (List.map_id digits)

theorem map_charAt_valueOf {s : Bytes} (h : ∀ c ∈ s, valueOf c ≠ 0xFF) :
    (s.map valueOf).map charAt = s := by
  rw [List.map_map]
  exact (List.map_congr_left fun c hc => (charAt_valueOf c (h c hc)).2).trans (List.map_id s)

theorem valueOf_lt {s : Bytes} (h : ∀ c ∈ s, valueOf c ≠ 0xFF) : ∀ x ∈ s.map valueOf, x < 2 ^ 5 := by
  intro x hx
  obtain ⟨c, hc, rfl⟩ := List.mem_map.mp hx
  exact (charAt_valueOf c (h c hc)).1

/-! ## Bytes as digits -/

theorem toNat_lt_of_mem (data : Bytes) : ∀ x ∈ data.map UInt8.toNat, x < 2 ^ 8 := by
  intro x hx
  obtain ⟨c, -, rfl⟩ := List.mem_map.mp hx
  exact c.toNat_lt

theorem map_ofNat_toNat (data : Bytes) : (data.map UInt8.toNat).map UInt8.ofNat = data := by
  rw [List.map_map]
  exact (List.map_congr_left fun c _ => UInt8.ofNat_toNat).trans (List.map_id data)

theorem map_toNat_ofNat {out : List Nat} (h : ∀ x ∈ out, x < 2 ^ 8) :
    (out.map UInt8.ofNat).map UInt8.toNat = out := by
  rw [List.map_map]
  exact (List.map_congr_left fun x hx => UInt8.toNat_ofNat_of_lt' (h x hx)).trans (List.map_id out)

/-! ## The two loops -/

section Loops

variable {s data : Bytes} {st st' : Regroup}

theorem foldlM_decodeChar (h : ∀ c ∈ s, valueOf c ≠ 0xFF) (st : Regroup) :
    s.foldlM decodeChar st = .ok ((s.map valueOf).foldl (Regroup.feed 5 8 (by decide)) st) := by
  induction s generalizing st with
  | nil => rfl
  | cons c s ih =>
      have hc : decodeChar st c = .ok (st.feed 5 8 (by decide) (valueOf c)) :=
        if_neg (h c (List.mem_cons_self ..))
      rw [List.foldlM_cons, hc]
      exact ih (fun x hx => h x (List.mem_cons_of_mem _ hx)) _

theorem valid_of_foldlM (h : s.foldlM decodeChar st = .ok st') : ∀ c ∈ s, valueOf c ≠ 0xFF := by
  induction s generalizing st with
  | nil => simp
  | cons c s ih =>
      rw [List.foldlM_cons] at h
      by_cases hc : valueOf c = 0xFF
      · rw [decodeChar, if_pos hc] at h
        cases h
      · rw [decodeChar, if_neg hc] at h
        intro x hx
        rcases List.mem_cons.mp hx with rfl | hx
        · exact hc
        · exact ih h x hx

theorem decode_of_invalid {c : UInt8} {s₂ : Bytes} (h : ∀ x ∈ s, valueOf x ≠ 0xFF)
    (hc : valueOf c = 0xFF) : decode (s ++ c :: s₂) = .error (invalidChar c) := by
  have hfold : (s ++ c :: s₂).foldlM decodeChar .empty = .error (invalidChar c) := by
    rw [List.foldlM_append, foldlM_decodeChar h]
    show (decodeChar _ c >>= fun st => s₂.foldlM decodeChar st) = .error (invalidChar c)
    rw [decodeChar, if_pos hc]
    rfl
  rw [decode, hfold]

/-- **`decode_eq_ok_iff`** — a text can be decoded if it has characters of the alphabet only; the bytes
are its bits, of which fewer than eight are left over. -/
theorem decode_eq_ok_iff : decode s = .ok data ↔
    (∀ c ∈ s, valueOf c ≠ 0xFF) ∧ ∃ r : List Bool, r.length < 8 ∧
      (s.map valueOf).flatMap (msb 5) = (data.map UInt8.toNat).flatMap (msb 8) ++ r := by
  have hrun : (∀ c ∈ s, valueOf c ≠ 0xFF) → ∃ out : List Nat, ∃ r : List Bool,
      decode s = .ok (out.map UInt8.ofNat) ∧ (∀ x ∈ out, x < 2 ^ 8) ∧ r.length < 8 ∧
        (s.map valueOf).flatMap (msb 5) = out.flatMap (msb 8) ++ r := by
    intro hvalid
    obtain ⟨hready, hcarries⟩ := Regroup.carries_foldl (a := 5) (b := 8) (by decide)
      (valueOf_lt hvalid) (Regroup.ready_empty (by decide))
    refine ⟨_, _, by rw [decode, foldlM_decodeChar hvalid], hready.digits, ?_, hcarries.symm⟩
    rw [length_msb]
    exact hready.bits
  constructor
  · intro h
    have hvalid : ∀ c ∈ s, valueOf c ≠ 0xFF := by
      rcases hfold : s.foldlM decodeChar .empty with c | st
      · rw [decode, hfold] at h
        cases h
      · exact valid_of_foldlM hfold
    obtain ⟨out, r, hout, hlt, hr, hbits⟩ := hrun hvalid
    rw [hout] at h
    cases h
    exact ⟨hvalid, r, hr, by rw [map_toNat_ofNat hlt, hbits]⟩
  · rintro ⟨hvalid, r, hr, hbits⟩
    obtain ⟨out, r', hout, hlt, hr', hbits'⟩ := hrun hvalid
    obtain ⟨heq, -⟩ := digits_unique hlt (toNat_lt_of_mem data) hr' hr (hbits'.symm.trans hbits)
    rw [hout, heq, map_ofNat_toNat]

/-- **`decode_eq_error_iff`** — the error tells the first character that is not in the alphabet. -/
theorem decode_eq_error_iff {e : String} : decode s = .error e ↔
    ∃ s₁ c s₂, s = s₁ ++ c :: s₂ ∧ (∀ x ∈ s₁, x ∈ alphabet) ∧ c ∉ alphabet ∧ e = invalidChar c := by
  constructor
  · intro h
    -- the loop stops at the first character that the table does not have
    obtain ⟨c, hfind⟩ : ∃ c, s.find? (fun c => valueOf c = 0xFF) = some c := by
      by_contra hnone
      have hvalid : ∀ c ∈ s, valueOf c ≠ 0xFF := by simpa [← Option.isSome_iff_exists] using hnone
      rw [decode, foldlM_decodeChar hvalid] at h
      cases h
    obtain ⟨hc, s₁, s₂, rfl, hbefore⟩ := List.find?_eq_some_iff_append.mp hfind
    have hvalid : ∀ x ∈ s₁, valueOf x ≠ 0xFF := by simpa using hbefore
    have hbad : valueOf c = 0xFF := by simpa using hc
    rw [decode_of_invalid hvalid hbad] at h
    cases h
    exact ⟨s₁, c, s₂, rfl, fun x hx => valueOf_ne_iff.mp (hvalid x hx),
      fun hmem => valueOf_ne_iff.mpr hmem hbad, rfl⟩
  · rintro ⟨s₁, c, s₂, rfl, hbefore, hc, rfl⟩
    exact decode_of_invalid (fun x hx => valueOf_ne_iff.mpr (hbefore x hx))
      (not_not.mp fun hne => hc (valueOf_ne_iff.mp hne))

/-- **`encode_spec`** — the bits of the characters are those of the bytes, filled up with zeros. -/
theorem encode_spec (data : Bytes) : ∃ (digits : List Nat) (k : Nat), encode data = digits.map charAt ∧
    (∀ x ∈ digits, x < 2 ^ 5) ∧ k < 5 ∧ digits.flatMap (msb 5) =
      (data.map UInt8.toNat).flatMap (msb 8) ++ List.replicate k false := by
  obtain ⟨hready, hcarries⟩ := Regroup.carries_foldl (a := 8) (b := 5) (by decide)
    (toNat_lt_of_mem data) (Regroup.ready_empty (by decide))
  obtain ⟨st, hst⟩ : ∃ st,
      (data.map UInt8.toNat).foldl (Regroup.feed 8 5 (by decide)) .empty = st := ⟨_, rfl⟩
  have hencode : encode data = st.output.map charAt ++
      if 0 < st.bits then [charAt (((st.buf <<< (5 - st.bits)) % 2 ^ 64) &&& 0x1F)] else [] := by
    rw [← hst]
    rfl
  rw [hst] at hready hcarries
  have hbits := hready.bits
  by_cases hleft : 0 < st.bits
  · -- the last character takes what is left, and zeros
    have hpad : msb 5 (((st.buf <<< (5 - st.bits)) % 2 ^ 64) &&& 0x1F) =
        msb st.bits st.buf ++ List.replicate (5 - st.bits) false := by
      have hmask : msb 5 (((st.buf <<< (5 - st.bits)) % 2 ^ 64) &&& 0x1F) =
          msb 5 (st.buf <<< (5 - st.bits)) := by
        apply msb_congr
        intro i hi
        have hword : i < 64 := by omega
        rw [Nat.testBit_and, show (0x1F : Nat) = 2 ^ 5 - 1 from rfl, Nat.testBit_two_pow_sub_one,
          Nat.testBit_mod_two_pow]
        simp [hi, hword]
      have hwidth : 5 = st.bits + (5 - st.bits) := by omega
      rw [hmask]
      conv_lhs => rw [hwidth]
      rw [show st.bits + (5 - st.bits) - st.bits = 5 - st.bits by omega, msb_shiftLeft]
    refine ⟨st.output ++ [((st.buf <<< (5 - st.bits)) % 2 ^ 64) &&& 0x1F], 5 - st.bits, ?_, ?_,
      by omega, ?_⟩
    · rw [hencode, if_pos hleft, List.map_append, List.map_singleton]
    · intro x hx
      rcases List.mem_append.mp hx with hx | hx
      · exact hready.digits x hx
      · rw [List.mem_singleton.mp hx]
        exact Nat.and_lt_two_pow _ (by decide)
    · rw [List.flatMap_append, List.flatMap_singleton, hpad, ← List.append_assoc]
      exact congrArg (· ++ List.replicate (5 - st.bits) false) hcarries
  · refine ⟨st.output, 0, ?_, hready.digits, by decide, ?_⟩
    · rw [hencode, if_neg hleft, List.append_nil]
    · have hnone : st.bits = 0 := by omega
      rw [Regroup.carries, hnone] at hcarries
      simpa [msb, Regroup.carries, Regroup.empty] using hcarries

/-- What is written are characters of the alphabet. -/
theorem mem_alphabet_of_encode (data : Bytes) : ∀ c ∈ encode data, c ∈ alphabet := by
  obtain ⟨digits, k, henc, hdigits, -, -⟩ := encode_spec data
  intro c hc
  rw [henc] at hc
  obtain ⟨x, hx, rfl⟩ := List.mem_map.mp hc
  apply valueOf_ne_iff.mp
  have hlt : x < 32 := hdigits x hx
  rw [valueOf_charAt x hlt]
  omega

end Loops

/-! ## Round trips -/

/-- **`decode_encode`** — what is encoded is decoded again. -/
theorem decode_encode (data : Bytes) : decode (encode data) = .ok data := by
  obtain ⟨digits, k, henc, hdigits, hk, hbits⟩ := encode_spec data
  have hback : (encode data).map valueOf = digits := by
    rw [henc, map_valueOf_charAt hdigits]
  have hvalid : ∀ c ∈ encode data, valueOf c ≠ 0xFF :=
    fun c hc => valueOf_ne_iff.mpr (mem_alphabet_of_encode data c hc)
  refine decode_eq_ok_iff.mpr ⟨hvalid, List.replicate k false, ?_, hback ▸ hbits⟩
  rw [List.length_replicate]
  omega

/-- **`encode_decode_iff`** — a text is what its bytes are encoded as, exactly if fewer than five bits are
left over, and they are zero. -/
theorem encode_decode_iff {s data : Bytes} (h : decode s = .ok data) : encode data = s ↔
    5 * s.length % 8 < 5 ∧ ∀ c, s.getLast? = some c → 2 ^ (5 * s.length % 8) ∣ valueOf c := by
  obtain ⟨hvalid, r, hr, hbits⟩ := decode_eq_ok_iff.mp h
  obtain ⟨digits, k, henc, hdigits, hk, hbits'⟩ := encode_spec data
  have hlen : 5 * s.length = 8 * data.length + r.length := by
    have hl := congrArg List.length hbits
    rwa [List.length_append, length_flatMap_msb, length_flatMap_msb, List.length_map,
      List.length_map] at hl
  have hlen' : 5 * digits.length = 8 * data.length + k := by
    have hl := congrArg List.length hbits'
    rwa [List.length_append, length_flatMap_msb, length_flatMap_msb, List.length_map,
      List.length_replicate] at hl
  have hrest : 5 * s.length % 8 = r.length := by omega
  -- the texts are the same if the bits that fill them up are
  have hsame : encode data = s ↔ r = List.replicate k false := by
    constructor
    · intro heq
      have hback : s.map valueOf = digits := by
        rw [← heq, henc, map_valueOf_charAt hdigits]
      rw [hback, hbits'] at hbits
      exact (List.append_cancel_left hbits).symm
    · rintro rfl
      have hall : s.map valueOf = digits := by
        refine (@digits_unique 5 _ _ [] [] (valueOf_lt hvalid) hdigits (by decide) (by decide) ?_).1
        rw [List.append_nil, List.append_nil, hbits, hbits']
      rw [henc, ← hall, map_charAt_valueOf hvalid]
  rw [hsame, hrest]
  rcases List.eq_nil_or_concat s with rfl | ⟨s', c, rfl⟩
  · have hr0 : r.length = 0 := by simpa using hrest.symm
    have hk0 : k = 0 := by
      simp at hlen
      omega
    simp [List.eq_nil_of_length_eq_zero hr0, hk0]
  · -- what is left over are the last bits of the last character
    have hlast : r.length ≤ 5 → r = msb r.length (valueOf c) := by
      intro hle
      rw [List.concat_eq_append, List.map_append, List.flatMap_append, List.map_singleton,
        List.flatMap_singleton] at hbits
      have hsplit : msb 5 (valueOf c) =
          msb (5 - r.length) (valueOf c >>> r.length) ++ msb r.length (valueOf c) := by
        rw [← msb_add, Nat.sub_add_cancel hle]
      rw [hsplit, ← List.append_assoc] at hbits
      exact (List.append_inj' hbits (by simp)).2.symm
    have hgetLast : (s'.concat c).getLast? = some c := by simp
    constructor
    · intro heq
      have hlenr : r.length = k := by rw [heq, List.length_replicate]
      refine ⟨by omega, fun c' hc' => ?_⟩
      rw [hgetLast] at hc'
      cases hc'
      apply msb_eq_replicate_iff.mp
      rw [← hlast (by omega), hlenr, heq]
    · rintro ⟨hlt, hdvd⟩
      have hlenr : r.length = k := by omega
      rw [hlast (by omega), msb_eq_replicate_iff.mpr (hdvd c hgetLast), hlenr]

theorem encode_decode_zz : decode [122, 122] = .ok [255] ∧ encode [255] ≠ [122, 122] := by
  have hdecode : decode [122, 122] = .ok [255] := by
    apply decode_eq_ok_iff.mpr
    exact ⟨by decide +kernel, [true, true], by decide, by decide +kernel⟩
  refine ⟨hdecode, fun h => ?_⟩
  obtain ⟨-, hdvd⟩ := (encode_decode_iff hdecode).mp h
  exact absurd (hdvd 122 rfl) (by decide +kernel)

/-! ## Connection strings -/

section Connection

inductive ConnectionError where
  | json (e : String)
  | other (message : String)

-- how the configuration is written as JSON and read from it
variable {Config : Type} (toJson : Config → Except String Bytes)
  (fromSlice : Bytes → Except String Config)

def connectionPrefix : Bytes := "omemfs_repo_".toList.map fun c => UInt8.ofNat c.toNat

def encodeConnectionString (config : Config) : Except ConnectionError Bytes :=
  match toJson config with
  | .ok json => .ok (connectionPrefix ++ encode json)
  | .error e => .error (.json e)

def parseConnectionString (s : Bytes) : Except ConnectionError Config :=
  match s.dropPrefix? connectionPrefix with
  | none => .error (.other "invalid connection string: missing omemfs_repo_ prefix")
  | some encoded =>
      match decode encoded with
      | .error e => .error (.other ("invalid connection string: " ++ e))
      | .ok bytes => (fromSlice bytes).mapError fun e =>
          .other ("invalid connection string (JSON parse error): " ++ e)

variable {toJson fromSlice}

/-- **`parse_encodeConnectionString`** — a connection string is parsed as the JSON is that it was made
from, whatever stands in it. -/
theorem parse_encodeConnectionString {config : Config} {s : Bytes}
    (h : encodeConnectionString toJson config = .ok s) :
    ∃ json, toJson config = .ok json ∧ parseConnectionString fromSlice s =
      (fromSlice json).mapError fun e =>
        .other ("invalid connection string (JSON parse error): " ++ e) := by
  rcases hjson : toJson config with e | json
  · rw [encodeConnectionString, hjson] at h
    cases h
  · rw [encodeConnectionString, hjson] at h
    cases h
    have hdrop : (connectionPrefix ++ encode json).dropPrefix? connectionPrefix =
        some (encode json) :=
      List.dropPrefix?_append_of_beq _ (beq_self_eq_true connectionPrefix)
    refine ⟨json, rfl, ?_⟩
    simp only [parseConnectionString, hdrop, decode_encode]

/-- The JSON of a configuration that has no remotes. -/
def noRemotesJson (version : String) : Bytes :=
  ("\x7b\"version\":\"" ++ version ++ "\",\"remotes\":\x7b\x7d\x7d").toList.map
    fun c => UInt8.ofNat c.toNat

theorem parse_encodeConnectionString_noRemotes : ∃ s,
    encodeConnectionString (fun version => .ok (noRemotesJson version)) "1" = .ok s ∧
      parseConnectionString (fun json =>
        if json = noRemotesJson "1" then .ok "1" else .error "expected value at line 1 column 1") s =
          .ok "1" := by
  refine ⟨_, rfl, ?_⟩
  obtain ⟨json, hjson, hparse⟩ := @parse_encodeConnectionString String
    (fun version => .ok (noRemotesJson version)) (fun json =>
      if json = noRemotesJson "1" then .ok "1" else .error "expected value at line 1 column 1")
    "1" _ rfl
  cases hjson
  rw [hparse, if_pos rfl]
  rfl

end Connection

end Omemfs.Base32
