/-
# Omemfs.Pack.Bloom — the `ED E4` Bloom filter over the indexed hashes.

The filter is double-hashed over the first sixteen bytes of an object hash.  A `BloomFilter` holds
exactly `⌈numBits / 8⌉` bytes of bits, as a field: `fromParts` is the only check the program makes
on untrusted filters, and no filter that fails it exists here.  Inserting never clears a bit
(`mayContain_insert_of_mayContain`) and sets every bit the inserted hash is tested on
(`mayContain_insert_self`), which is all the index ever needs from the filter.

The number of bits of a fresh filter comes from the floating-point formula
`ceil(-n * ln p / ln(2)^2)`; that formula is the parameter `optimalNumBits`, and nothing below
depends on its value: `sizedFor` itself guards against the one value (zero) that would matter.
-/
import Mathlib.Data.Nat.Bitwise
import Omemfs.Object
import Omemfs.Lib.Fallible

namespace Omemfs.Pack

open Lib

/-! ## Sizing -/

def minCapacity : Nat := 100000
def maxCapacity : Nat := 100000000

/-- The first of `power`, `2 * power`, `5 * power`, `10 * power`, … that is at least `value`; `u64`
overflow ends the search at the largest step. -/
def ladderFrom : Nat → Nat → Nat → Nat
  | 0, _, _ => UInt64.size - 1
  | fuel + 1, power, value =>
      match [1, 2, 5].find? (fun step => step * power < UInt64.size ∧ value ≤ step * power) with
      | some step => step * power
      | none =>
          if power * 10 < UInt64.size then ladderFrom fuel (power * 10) value
          else if 5 * power < UInt64.size then 5 * power else UInt64.size - 1

/-- Round up to the `{1, 2, 5} × 10^k` ladder; twenty powers of ten fit in a `u64`. -/
def ladderCeil (value : Nat) : Nat := if value = 0 then 0 else ladderFrom 20 1 value

/-- Clamp to a range. -/
def clamp (n lo hi : Nat) : Nat := max lo (min n hi)

/-- The capacity a filter for `elementCount` elements is designed for. -/
def capacityFor (elementCount : Nat) : Nat :=
  let n := clamp elementCount 1 maxCapacity
  let margin := n * 3 / 2
  clamp (ladderCeil margin) minCapacity maxCapacity

/-! ## Bits -/

def setBit (bits : Bytes) (index : Nat) : Bytes :=
  bits.modify (index / 8) (fun b => b ||| UInt8.ofNat (1 <<< (index % 8)))

def getBit (bits : Bytes) (index : Nat) : Bool :=
  (bits.getD (index / 8) 0).toNat.testBit (index % 8)

@[simp]
theorem length_setBit (bits : Bytes) (i : Nat) : (setBit bits i).length = bits.length := by
  simp [setBit]

theorem testBit_orBit (b : UInt8) {s t : Nat} (hs : s < 8) :
    (b ||| UInt8.ofNat (1 <<< s)).toNat.testBit t = (b.toNat.testBit t || decide (s = t)) := by
  have hfit : (UInt8.ofNat (1 <<< s)).toNat = 1 <<< s := by
    rw [UInt8.toNat_ofNat', Nat.mod_eq_of_lt]
    rw [Nat.shiftLeft_eq, one_mul]
    exact Nat.pow_lt_pow_right (by omega) hs
  rw [UInt8.toNat_or, Nat.testBit_or, hfit, Nat.shiftLeft_eq, one_mul, Nat.testBit_two_pow]

theorem getBit_setBit_self {bits : Bytes} {i : Nat} (h : i / 8 < bits.length) :
    getBit (setBit bits i) i = true := by
  have hget : (setBit bits i).getD (i / 8) 0 =
      bits[i / 8] ||| UInt8.ofNat (1 <<< (i % 8)) := by
    rw [setBit, List.getD_eq_getElem _ _ (by simpa using h), List.getElem_modify_eq]
  rw [getBit, hget, testBit_orBit _ (Nat.mod_lt _ (by omega))]
  simp

theorem getBit_setBit_of_getBit {bits : Bytes} {i j : Nat} (h : getBit bits j = true) :
    getBit (setBit bits i) j = true := by
  unfold getBit at h ⊢
  by_cases hij : i / 8 = j / 8
  · by_cases hlt : j / 8 < bits.length
    · have hget : (setBit bits i).getD (j / 8) 0 =
          bits[j / 8] ||| UInt8.ofNat (1 <<< (i % 8)) := by
        simp only [setBit, hij]
        rw [List.getD_eq_getElem _ _ (by simpa using hlt), List.getElem_modify_eq]
      rw [List.getD_eq_getElem _ _ hlt] at h
      rw [hget, testBit_orBit _ (Nat.mod_lt _ (by omega)), h, Bool.true_or]
    · rw [List.getD_eq_default _ _ (not_lt.mp hlt)] at h
      simp at h
  · have hget : (setBit bits i).getD (j / 8) 0 = bits.getD (j / 8) 0 := by
      simp only [setBit, List.getD_eq_getElem?_getD, List.getElem?_modify, hij, if_false]
      cases bits[j / 8]? <;> rfl
    rw [hget]
    exact h

/-! ## The filter -/

structure BloomFilter where
  numHashFunctions : UInt8
  numBits : UInt64
  elementCount : UInt64
  bits : Bytes
  size_eq : bits.length = (numBits.toNat + 7) / 8

namespace BloomFilter

/-- The `k`-th bit of a hash: `(h1 + k * h2) mod num_bits` in wrapping 64-bit arithmetic. -/
def bitIndex (hash : Hash) (k : Nat) (numBits : UInt64) : Nat :=
  let h1 := UInt64.ofNat (Bytes.ofLE (Bytes.slice 0 8 hash.toBytes))
  let h2 := UInt64.ofNat (Bytes.ofLE (Bytes.slice 8 8 hash.toBytes))
  ((h1 + UInt64.ofNat k * h2) % numBits).toNat

/-- An empty filter of `numBits` bits. -/
def empty (numBits : UInt64) (numHashFunctions : UInt8) : BloomFilter :=
  ⟨numHashFunctions, numBits, 0, List.replicate ((numBits.toNat + 7) / 8) 0, by simp⟩

def fromParts (numHashFunctions : UInt8) (numBits elementCount : UInt64) (bits : Bytes) :
    Except Error BloomFilter :=
  if h : bits.length = (numBits.toNat + 7) / 8 then
    .ok ⟨numHashFunctions, numBits, elementCount, bits, h⟩
  else .error (.invalidObject ("Bloom filter bits length " ++ toString bits.length ++
    " != expected " ++ toString ((numBits.toNat + 7) / 8)))

def structuralDefect (bf : BloomFilter) : Option String :=
  if bf.numBits = 0 then some "num_bits == 0"
  else if bf.numHashFunctions = 0 then some "num_hash_functions == 0"
  else none

/-- Set the bits of `hash` for the first `k` hash functions. -/
def setBits (hash : Hash) (numBits : UInt64) (k : Nat) (bits : Bytes) : Bytes :=
  (List.range k).foldl (fun bits i => setBit bits (bitIndex hash i numBits)) bits

@[simp]
theorem length_setBits (hash : Hash) (numBits : UInt64) (k : Nat) (bits : Bytes) :
    (setBits hash numBits k bits).length = bits.length := by
  induction k with
  | zero => rfl
  | succ k ih =>
      rw [setBits, List.range_succ, List.foldl_append]
      simpa [setBits] using ih

def insert (bf : BloomFilter) (hash : Hash) : BloomFilter :=
  if bf.numBits = 0 then bf
  else
    { bf with
      bits := setBits hash bf.numBits bf.numHashFunctions.toNat bf.bits
      elementCount := bf.elementCount + 1
      size_eq := by rw [length_setBits, bf.size_eq] }

/-- `insert` for each hash in turn. -/
def insertAll (bf : BloomFilter) (hashes : List Hash) : BloomFilter := hashes.foldl insert bf

/-- `false` means definitely absent. -/
def mayContain (bf : BloomFilter) (hash : Hash) : Bool :=
  if bf.numBits = 0 then true
  else (List.range bf.numHashFunctions.toNat).all fun i =>
    getBit bf.bits (bitIndex hash i bf.numBits)

@[simp]
theorem numBits_insert (bf : BloomFilter) (h : Hash) : (bf.insert h).numBits = bf.numBits := by
  unfold insert
  split_ifs <;> rfl

@[simp]
theorem numHashFunctions_insert (bf : BloomFilter) (h : Hash) :
    (bf.insert h).numHashFunctions = bf.numHashFunctions := by
  unfold insert
  split_ifs <;> rfl

@[simp]
theorem structuralDefect_insert (bf : BloomFilter) (h : Hash) :
    (bf.insert h).structuralDefect = bf.structuralDefect := by
  simp [structuralDefect]

theorem getBit_setBits_of_getBit {hash : Hash} {numBits : UInt64} {k j : Nat} {bits : Bytes}
    (h : getBit bits j = true) : getBit (setBits hash numBits k bits) j = true := by
  induction k with
  | zero => exact h
  | succ k ih =>
      rw [setBits, List.range_succ, List.foldl_append]
      exact getBit_setBit_of_getBit ih

theorem getBit_setBits {hash : Hash} {numBits : UInt64} {k i : Nat} {bits : Bytes}
    (hi : i < k) (hlen : bitIndex hash i numBits / 8 < bits.length) :
    getBit (setBits hash numBits k bits) (bitIndex hash i numBits) = true := by
  induction k with
  | zero => omega
  | succ k ih =>
      rw [setBits, List.range_succ, List.foldl_append]
      rcases Nat.lt_succ_iff_lt_or_eq.mp hi with hlt | rfl
      · exact getBit_setBit_of_getBit (ih hlt)
      · refine getBit_setBit_self ?_
        have hsame := length_setBits hash numBits i bits
        rw [setBits] at hsame
        rwa [hsame]

theorem bitIndex_lt (bf : BloomFilter) (h0 : bf.numBits ≠ 0) (hash : Hash) (k : Nat) :
    bitIndex hash k bf.numBits / 8 < bf.bits.length := by
  have hpos : 0 < bf.numBits.toNat := by
    apply Nat.pos_of_ne_zero
    intro hz
    exact h0 (UInt64.toNat_inj.mp hz)
  have hlt : bitIndex hash k bf.numBits < bf.numBits.toNat := by
    rw [bitIndex, UInt64.toNat_mod]
    exact Nat.mod_lt _ hpos
  rw [bf.size_eq]
  omega

/-- **`mayContain_insert_self`** — an inserted hash is never reported absent. -/
theorem mayContain_insert_self (bf : BloomFilter) (h : Hash) : (bf.insert h).mayContain h := by
  unfold insert
  split_ifs with h0
  · simp [mayContain, h0]
  · simp only [mayContain, h0, if_false, List.all_eq_true, List.mem_range]
    intro i hi
    exact getBit_setBits hi (bf.bitIndex_lt h0 h i)

/-- **`mayContain_insert_of_mayContain`** — inserting never makes another hash absent. -/
theorem mayContain_insert_of_mayContain {bf : BloomFilter} {h k : Hash} (hk : bf.mayContain k) :
    (bf.insert h).mayContain k := by
  unfold insert
  split_ifs with h0
  · exact hk
  · simp only [mayContain, h0, if_false, List.all_eq_true, List.mem_range] at hk ⊢
    intro i hi
    exact getBit_setBits_of_getBit (hk i hi)

theorem mayContain_insertAll_of_mayContain {bf : BloomFilter} {hs : List Hash} {k : Hash}
    (hk : bf.mayContain k) : (bf.insertAll hs).mayContain k := by
  induction hs generalizing bf with
  | nil => exact hk
  | cons h hs ih => exact ih (mayContain_insert_of_mayContain hk)

theorem mayContain_insertAll {bf : BloomFilter} {hs : List Hash} {k : Hash} (hk : k ∈ hs) :
    (bf.insertAll hs).mayContain k := by
  induction hs generalizing bf with
  | nil => cases hk
  | cons h hs ih =>
      rcases List.mem_cons.mp hk with rfl | hk
      · have hself : (bf.insert k).mayContain k := mayContain_insert_self bf k
        show ((bf.insert k).insertAll hs).mayContain k
        exact mayContain_insertAll_of_mayContain hself
      · exact ih hk

@[simp]
theorem structuralDefect_insertAll (bf : BloomFilter) (hs : List Hash) :
    (bf.insertAll hs).structuralDefect = bf.structuralDefect := by
  induction hs generalizing bf with
  | nil => rfl
  | cons h hs ih => exact (ih (bf.insert h)).trans (structuralDefect_insert bf h)

/-- A fresh filter with a bit and a hash function to test reports everything absent. -/
theorem mayContain_empty {numBits : UInt64} {k : UInt8} (hb : numBits ≠ 0) (hk : k ≠ 0)
    (h : Hash) : (empty numBits k).mayContain h = false := by
  have hpos : 0 < k.toNat := by
    apply Nat.pos_of_ne_zero
    intro hz
    exact hk (UInt8.toNat_inj.mp hz)
  have hzero : ∀ j, getBit (empty numBits k).bits j = false := by
    intro j
    rw [getBit, empty, List.getD_eq_getElem?_getD, List.getElem?_replicate]
    split_ifs <;> simp
  have h0 : (empty numBits k).numBits ≠ 0 := hb
  rw [mayContain, if_neg h0]
  simp only [hzero, List.all_eq_false, List.mem_range]
  exact ⟨0, hpos, by simp⟩

/-! ## Wire format -/

def magic : Bytes := [0xED, 0xE4]
def version : UInt8 := 0x01
def headerLen : Nat := 20

def serialise (bf : BloomFilter) : Bytes :=
  magic ++ ([version, bf.numHashFunctions] ++ (Bytes.toBE 8 bf.numBits.toNat ++
    (Bytes.toBE 8 bf.elementCount.toNat ++ bf.bits)))

def deserialise (data : Bytes) : Except Error BloomFilter :=
  if data.length < headerLen then
    .error (.invalidObject ("Bloom filter too short: " ++ toString data.length ++ " bytes"))
  else if Bytes.slice 0 2 data ≠ magic then
    .error (.invalidObject ("Bloom filter bad magic " ++ hex02 (data.getD 0 0) ++ " " ++
      hex02 (data.getD 1 0)))
  else if Bytes.slice 2 1 data ≠ [version] then
    .error (.invalidObject ("Bloom filter unknown version " ++ toString (data.getD 2 0).toNat))
  else
    let numHashFunctions := data.getD 3 0
    let numBits := UInt64.ofNat (Bytes.ofBE (Bytes.slice 4 8 data))
    let elementCount := UInt64.ofNat (Bytes.ofBE (Bytes.slice 12 8 data))
    let expectedBytes := (numBits.toNat + 7) / 8
    if data.length ≠ headerLen + expectedBytes then
      .error (.invalidObject ("Bloom filter bits size mismatch: expected " ++
        toString expectedBytes ++ " bytes, got " ++ toString (data.length - headerLen)))
    else fromParts numHashFunctions numBits elementCount (data.drop headerLen)

/-- **`deserialise_serialise`** — a written filter is read back unchanged. -/
theorem deserialise_serialise (bf : BloomFilter) : deserialise bf.serialise = .ok bf := by
  have hnb : Bytes.ofBE (Bytes.toBE 8 bf.numBits.toNat) = bf.numBits.toNat :=
    Bytes.ofBE_toBE bf.numBits.toNat_lt
  have hec : Bytes.ofBE (Bytes.toBE 8 bf.elementCount.toNat) = bf.elementCount.toNat :=
    Bytes.ofBE_toBE bf.elementCount.toNat_lt
  have hlen : bf.serialise.length = headerLen + bf.bits.length := by
    simp only [serialise, List.length_append, Bytes.length_toBE, magic, headerLen,
      List.length_cons, List.length_nil]
    omega
  have hnbits : Bytes.slice 4 8 bf.serialise = Bytes.toBE 8 bf.numBits.toNat := by
    rw [serialise, ← List.append_assoc]
    exact Bytes.slice_append rfl (by simp)
  have hcount : Bytes.slice 12 8 bf.serialise = Bytes.toBE 8 bf.elementCount.toNat := by
    rw [serialise, ← List.append_assoc, ← List.append_assoc]
    exact Bytes.slice_append (by simp [magic]) (by simp)
  have hbits : bf.serialise.drop headerLen = bf.bits := by
    rw [serialise, ← List.append_assoc, ← List.append_assoc, ← List.append_assoc]
    exact List.drop_left' (by simp [magic, headerLen])
  have hmagic : Bytes.slice 0 2 bf.serialise = magic := rfl
  have hversion : Bytes.slice 2 1 bf.serialise = [version] := rfl
  have hk : bf.serialise.getD 3 0 = bf.numHashFunctions := rfl
  have hshort : ¬ headerLen + (bf.numBits.toNat + 7) / 8 < headerLen := by omega
  unfold deserialise
  simp only [hlen, hshort, hmagic, hversion, hk, hnbits, hcount, hbits, hnb, hec,
    UInt64.ofNat_toNat, if_false, ne_eq, not_true_eq_false, fromParts, bf.size_eq, dite_true]

end BloomFilter

/-! ## Fresh filters -/

def defaultNumHashFunctions : UInt8 := 7

/-- An empty filter for `elementCount` elements, never with zero bits. -/
def sizedFor (optimalNumBits : Nat → UInt64) (elementCount : Nat) : BloomFilter :=
  let m := optimalNumBits (capacityFor elementCount)
  if m ≠ 0 then BloomFilter.empty m defaultNumHashFunctions
  else BloomFilter.empty 1 defaultNumHashFunctions

theorem structuralDefect_sizedFor (m : Nat → UInt64) (n : Nat) :
    (sizedFor m n).structuralDefect = none := by
  unfold sizedFor
  simp only
  split_ifs with h
  · simp [BloomFilter.structuralDefect, BloomFilter.empty, h, defaultNumHashFunctions]
  · rfl

theorem mayContain_sizedFor (m : Nat → UInt64) (n : Nat) (h : Hash) :
    (sizedFor m n).mayContain h = false := by
  unfold sizedFor
  simp only
  split_ifs with hm
  · exact BloomFilter.mayContain_empty hm (by decide) h
  · exact BloomFilter.mayContain_empty (by decide) (by decide) h

end Omemfs.Pack
