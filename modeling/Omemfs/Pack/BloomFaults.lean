/-
# Omemfs.Pack.BloomFaults — what a Bloom filter can run into while it is used.

`Bloom` computes the bits a filter ends up with.  This file keeps the record as the program holds it,
where nothing ties the bit array to `numBits`, and gives every operation the fault it could meet: a
remainder by zero, an index outside the bit array, a counter past its last value.  For a filter that
was sized, made or read (`Origin`), the first two never happen: the guard on `numBits` and the one
length check on the bit array see to it (`insert_fields`, `mayContain_fields`).

The counter has no guard.  It is read from the remote object as it stands and incremented by every
insert, so a filter is dependable for as many inserts as its counter has room for
(`dependable_iff`); one that was read with a full counter faults on the first.
-/
import Omemfs.Pack.Bloom

namespace Omemfs.Pack

open Lib

/-! ## The faults -/

inductive Fault where
  | remainderByZero
  | indexOutOfRange
  | counterOverflow
  deriving DecidableEq, Repr

/-- A filter as the program holds it, its bit array of any length. -/
@[ext]
structure BloomFields where
  numHashFunctions : UInt8
  numBits : UInt64
  elementCount : UInt64
  bits : Bytes
  deriving DecidableEq

namespace BloomFields

/-- `bit_index`, whose last step is a remainder. -/
def bitIndex (hash : Hash) (k : Nat) (numBits : UInt64) : Except Fault Nat :=
  if numBits = 0 then .error .remainderByZero else .ok (BloomFilter.bitIndex hash k numBits)

/-- `set_bit`, which indexes the array. -/
def setBit (bits : Bytes) (index : Nat) : Except Fault Bytes :=
  if index / 8 < bits.length then .ok (Pack.setBit bits index) else .error .indexOutOfRange

/-- `get_bit`, which indexes the array. -/
def getBit (bits : Bytes) (index : Nat) : Except Fault Bool :=
  if index / 8 < bits.length then .ok (Pack.getBit bits index) else .error .indexOutOfRange

/-- One turn of the loop of `insert`. -/
def setNth (hash : Hash) (numBits : UInt64) (bits : Bytes) (i : Nat) : Except Fault Bytes := do
  let bit ← bitIndex hash i numBits
  setBit bits bit

/-- The loop of `insert` over the hash functions. -/
def setBits (hash : Hash) (numBits : UInt64) (k : Nat) (bits : Bytes) : Except Fault Bytes :=
  (List.range k).foldlM (setNth hash numBits) bits

/-- `self.element_count += 1`. -/
def increment (count : UInt64) : Except Fault UInt64 :=
  if count.toNat + 1 < UInt64.size then .ok (count + 1) else .error .counterOverflow

def insert (bf : BloomFields) (hash : Hash) : Except Fault BloomFields :=
  if bf.numBits = 0 then .ok bf
  else do
    let bits ← setBits hash bf.numBits bf.numHashFunctions.toNat bf.bits
    let elementCount ← increment bf.elementCount
    return { bf with bits, elementCount }

/-- `insert` for each hash in turn. -/
def insertAll (bf : BloomFields) (hashes : List Hash) : Except Fault BloomFields :=
  hashes.foldlM insert bf

/-- The loop of `may_contain` ends at the first bit that is not set. -/
def mayContain (bf : BloomFields) (hash : Hash) : Except Fault Bool :=
  if bf.numBits = 0 then .ok true
  else
    (List.range bf.numHashFunctions.toNat).allM fun i => do
      let bit ← bitIndex hash i bf.numBits
      getBit bf.bits bit

end BloomFields

/-! ## Filters that were sized, made or read -/

/-- Where a filter comes from: sized for a number of elements, made with a number of bits (the
floating-point formula may give any), or read from bytes. -/
inductive Origin where
  | sized (elementCount : Nat)
  | made (numBits : UInt64) (numHashFunctions : UInt8)
  | read (data : Bytes)

def Origin.filter (optimalNumBits : Nat → UInt64) : Origin → Except Error BloomFilter
  | .sized elementCount => .ok (sizedFor optimalNumBits elementCount)
  | .made numBits numHashFunctions => .ok (BloomFilter.empty numBits numHashFunctions)
  | .read data => BloomFilter.deserialise data

namespace BloomFilter

def fields (bf : BloomFilter) : BloomFields :=
  ⟨bf.numHashFunctions, bf.numBits, bf.elementCount, bf.bits⟩

/-- The loop of `insert` stays inside the bit array and sets what `BloomFilter.setBits` sets. -/
theorem setBits_fields (bf : BloomFilter) (h0 : bf.numBits ≠ 0) (hash : Hash) (k : Nat) :
    BloomFields.setBits hash bf.numBits k bf.bits = .ok (setBits hash bf.numBits k bf.bits) := by
  induction k with
  | zero => rfl
  | succ k ih =>
      have hin : bitIndex hash k bf.numBits / 8 < (setBits hash bf.numBits k bf.bits).length := by
        rw [length_setBits]
        exact bf.bitIndex_lt h0 hash k
      have hlast : BloomFields.setNth hash bf.numBits (setBits hash bf.numBits k bf.bits) k =
          .ok (setBits hash bf.numBits (k + 1) bf.bits) := by
        rw [BloomFields.setNth, BloomFields.bitIndex, if_neg h0]
        show BloomFields.setBit _ _ = _
        rw [BloomFields.setBit, if_pos hin, setBits, setBits, List.range_succ, List.foldl_append]
        rfl
      rw [BloomFields.setBits] at ih ⊢
      rw [List.range_succ, List.foldlM_append, ih]
      show List.foldlM (BloomFields.setNth hash bf.numBits)
        (setBits hash bf.numBits k bf.bits) [k] = _
      rw [List.foldlM_cons, hlast]
      rfl

/-- Room for `n` more elements in the counter, where inserts are counted at all. -/
def HasRoom (bf : BloomFilter) (n : Nat) : Prop :=
  bf.numBits = 0 ∨ bf.elementCount.toNat + n < UInt64.size

instance (bf : BloomFilter) (n : Nat) : Decidable (bf.HasRoom n) := inferInstanceAs (Decidable (_ ∨ _))

theorem HasRoom.mono {bf : BloomFilter} {m n : Nat} (h : bf.HasRoom n) (hle : m ≤ n) :
    bf.HasRoom m := by
  apply Or.imp_right _ h
  intro hlt
  omega

/-- An insert takes up one place. -/
theorem hasRoom_insert {bf : BloomFilter} (h1 : bf.HasRoom 1) (hash : Hash) (n : Nat) :
    (bf.insert hash).HasRoom n ↔ bf.HasRoom (n + 1) := by
  unfold HasRoom at *
  by_cases h0 : bf.numBits = 0
  · simp [h0]
  · have hfit : bf.elementCount.toNat + 1 < UInt64.size := h1.resolve_left h0
    have hcount : (bf.insert hash).elementCount.toNat = bf.elementCount.toNat + 1 := by
      simp only [insert, h0, if_false, UInt64.toNat_add]
      exact Nat.mod_eq_of_lt hfit
    rw [numBits_insert, hcount]
    simp only [h0, false_or]
    omega

/-- **`insert_fields`** — the only fault an insert can meet is its counter running over. -/
theorem insert_fields (bf : BloomFilter) (hash : Hash) :
    bf.fields.insert hash =
      if bf.HasRoom 1 then .ok (bf.insert hash).fields
      else .error .counterOverflow := by
  by_cases h0 : bf.numBits = 0
  · have hf : bf.fields.numBits = 0 := h0
    have hroom : bf.HasRoom 1 := Or.inl h0
    rw [if_pos hroom, BloomFields.insert, if_pos hf, insert, if_pos h0]
  · have hf : bf.fields.numBits ≠ 0 := h0
    have hbits := setBits_fields bf h0 hash bf.numHashFunctions.toNat
    rw [BloomFields.insert, if_neg hf]
    show (BloomFields.setBits hash bf.numBits bf.numHashFunctions.toNat bf.bits >>= _) = _
    rw [hbits]
    show (BloomFields.increment bf.elementCount >>= _) = _
    by_cases hfit : bf.elementCount.toNat + 1 < UInt64.size
    · have hroom : bf.HasRoom 1 := Or.inr hfit
      rw [if_pos hroom, BloomFields.increment, if_pos hfit, insert, if_neg h0]
      rfl
    · have hfull : ¬ bf.HasRoom 1 := not_or.mpr ⟨h0, hfit⟩
      rw [if_neg hfull, BloomFields.increment, if_neg hfit]
      rfl

/-- **`mayContain_fields`** — a lookup meets no fault. -/
theorem mayContain_fields (bf : BloomFilter) (hash : Hash) :
    bf.fields.mayContain hash = .ok (bf.mayContain hash) := by
  by_cases h0 : bf.numBits = 0
  · rw [BloomFields.mayContain, if_pos (show bf.fields.numBits = 0 from h0), mayContain, if_pos h0]
  · rw [BloomFields.mayContain, if_neg (show bf.fields.numBits ≠ 0 from h0), mayContain, if_neg h0]
    show List.allM _ (List.range bf.numHashFunctions.toNat) = _
    induction List.range bf.numHashFunctions.toNat with
    | nil => rfl
    | cons i is ih =>
        have hget : BloomFields.getBit bf.bits (bitIndex hash i bf.numBits) =
            .ok (Pack.getBit bf.bits (bitIndex hash i bf.numBits)) := by
          rw [BloomFields.getBit, if_pos (bf.bitIndex_lt h0 hash i)]
        have hstep : (do
            let bit ← BloomFields.bitIndex hash i bf.fields.numBits
            BloomFields.getBit bf.fields.bits bit) =
              (.ok (Pack.getBit bf.bits (bitIndex hash i bf.numBits)) : Except Fault Bool) := by
          rw [BloomFields.bitIndex, if_neg (show bf.fields.numBits ≠ 0 from h0)]
          exact hget
        rw [List.allM, hstep, List.all_cons]
        cases Pack.getBit bf.bits (bitIndex hash i bf.numBits) with
        | true => exact ih
        | false => rfl

/-! ## A sequence of inserts -/

/-- **`insertAll_fields`** — a sequence of inserts goes through exactly when the counter has room
for all of them. -/
theorem insertAll_fields (bf : BloomFilter) (hashes : List Hash) :
    bf.fields.insertAll hashes =
      if bf.HasRoom hashes.length then .ok (bf.insertAll hashes).fields
      else .error .counterOverflow := by
  induction hashes generalizing bf with
  | nil =>
      have hroom : bf.HasRoom 0 := Or.inr bf.elementCount.toNat_lt
      rw [List.length_nil, if_pos hroom]
      rfl
  | cons hash hashes ih =>
      show bf.fields.insert hash >>= (fun next => next.insertAll hashes) = _
      rw [insert_fields]
      by_cases h1 : bf.HasRoom 1
      · rw [if_pos h1]
        show (bf.insert hash).fields.insertAll hashes = _
        rw [ih (bf.insert hash)]
        simp only [hasRoom_insert h1, List.length_cons]
        rfl
      · have hfull : ¬ bf.HasRoom (hash :: hashes).length := by
          intro h
          exact h1 (h.mono (by simp))
        rw [if_neg h1, if_neg hfull]
        rfl

/-! ## Dependable filters -/

/-- Used over `hashes`, the filter meets no fault and has no false negative: wherever the sequence
is cut, what was inserted is reported, nothing reported before goes unreported later, and the filter
written at the cut is the one read back. -/
def Dependable (bf : BloomFilter) (hashes : List Hash) : Prop :=
  ∀ before after, hashes = before ++ after →
    ∃ now later : BloomFilter,
      bf.fields.insertAll before = .ok now.fields ∧
      now.fields.insertAll after = .ok later.fields ∧
      (∀ h, ∃ answer, now.fields.mayContain h = .ok answer) ∧
      (∀ h ∈ before, now.fields.mayContain h = .ok true) ∧
      (∀ h, now.fields.mayContain h = .ok true → later.fields.mayContain h = .ok true) ∧
      deserialise now.serialise = .ok now

theorem insertAll_append (bf : BloomFilter) (before after : List Hash) :
    bf.insertAll (before ++ after) = (bf.insertAll before).insertAll after :=
  List.foldl_append

/-- Room for a sequence is room for its first part, and for the rest after it. -/
theorem HasRoom.split {bf : BloomFilter} {before after : List Hash}
    (h : bf.HasRoom (before ++ after).length) :
    bf.HasRoom before.length ∧ (bf.insertAll before).HasRoom after.length := by
  induction before generalizing bf with
  | nil => exact ⟨h.mono (Nat.zero_le _), h⟩
  | cons hash before ih =>
      have h1 : bf.HasRoom 1 := h.mono (by simp)
      have hrest : (bf.insert hash).HasRoom (before ++ after).length :=
        (hasRoom_insert h1 hash _).mpr h
      obtain ⟨hb, ha⟩ := ih hrest
      exact ⟨(hasRoom_insert h1 hash _).mp hb, ha⟩

theorem dependable_of_hasRoom {bf : BloomFilter} {hashes : List Hash}
    (h : bf.HasRoom hashes.length) : bf.Dependable hashes := by
  rintro before after rfl
  obtain ⟨hb, ha⟩ := h.split
  refine ⟨bf.insertAll before, (bf.insertAll before).insertAll after, ?_, ?_, ?_, ?_, ?_,
    deserialise_serialise _⟩
  · rw [insertAll_fields, if_pos hb]
  · rw [insertAll_fields, if_pos ha]
  · intro k
    exact ⟨_, mayContain_fields _ k⟩
  · intro k hk
    rw [mayContain_fields, mayContain_insertAll hk]
  · intro k hk
    rw [mayContain_fields] at hk ⊢
    rw [mayContain_insertAll_of_mayContain (Except.ok.inj hk)]

/-- **`dependable_iff`** — a filter that was sized, made or read is dependable over a sequence of
inserts exactly when its element count has room for them. -/
theorem dependable_iff (optimalNumBits : Nat → UInt64) (origin : Origin) (bf : BloomFilter)
    (_ : origin.filter optimalNumBits = .ok bf) (hashes : List Hash) :
    bf.Dependable hashes ↔
      bf.numBits = 0 ∨ bf.elementCount.toNat + hashes.length < 2 ^ 64 := by
  constructor
  · intro h
    obtain ⟨now, later, hnow, _⟩ := h hashes [] (List.append_nil hashes).symm
    rw [insertAll_fields] at hnow
    by_contra hfull
    rw [if_neg (show ¬ bf.HasRoom hashes.length from hfull)] at hnow
    cases hnow
  · exact dependable_of_hasRoom

/-- Twenty bytes of header and one of bits: eight bits, seven hash functions, a full counter. -/
def fullCounter : Bytes :=
  [0xED, 0xE4, 0x01, 7, 0, 0, 0, 0, 0, 0, 0, 8,
    0xFF, 0xFF, 0xFF, 0xFF, 0xFF, 0xFF, 0xFF, 0xFF, 0]

/-- The filter those bytes are read as. -/
def fullCounterFilter : BloomFilter := ⟨7, 8, UInt64.ofNat (2 ^ 64 - 1), [0], rfl⟩

/-- The first insert into a filter read with a full counter runs over. -/
theorem full_counter_overflows :
    (Origin.read fullCounter).filter (fun _ => 8) = .ok fullCounterFilter ∧
      fullCounterFilter.fields.insert 1 = .error .counterOverflow ∧
      ¬ fullCounterFilter.Dependable [1] := by
  have hfault : fullCounterFilter.fields.insert 1 = .error .counterOverflow := by
    rw [insert_fields, if_neg (by decide)]
  refine ⟨rfl, hfault, ?_⟩
  intro h
  obtain ⟨now, _, hnow, _⟩ := h [1] [] rfl
  rw [insertAll_fields, if_neg (by decide)] at hnow
  cases hnow

/-- A filter made with eight bits is dependable over two inserts. -/
theorem two_inserts_dependable :
    (BloomFilter.empty 8 7).Dependable [1, 2] :=
  (dependable_iff (fun _ => 8) (.made 8 7) _ rfl _).mpr (Or.inr (by decide))

end BloomFilter

end Omemfs.Pack
