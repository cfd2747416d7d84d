/-
# Omemfs.Pack.IndexRoot — the `ED E3` index root: the one mutable object of a remote.

The root names the remote tree, the hot index, the Bloom filter, the delta files (newest first)
and the cold shard table of `2 ^ coldPrefixBits` slots.  An all-zero hash means "none recorded".
`deserialise_serialise` is the round trip; `coldShardHashFor` is the slot a hash is addressed
through, and `coldShardHashFor_eq` states it as one table lookup whatever the number of bits.
-/
import Omemfs.Object
import Omemfs.Lib.Fallible

namespace Omemfs.Pack

open Lib

/-- The all-zero hash, "not recorded" in every field of the root. -/
def zeroHash : Hash := 0

/-- A recorded hash, `none` for all zeros. -/
def hashOpt (h : Hash) : Option Hash := if h = zeroHash then none else some h

@[simp]
theorem hashOpt_eq_some {h k : Hash} : hashOpt h = some k ↔ h ≠ zeroHash ∧ h = k := by
  unfold hashOpt
  split_ifs with hz
  · simp [hz]
  · simp [hz]

@[simp]
theorem hashOpt_eq_none {h : Hash} : hashOpt h = none ↔ h = zeroHash := by
  unfold hashOpt
  split_ifs with hz <;> simp [hz]

structure IndexRoot where
  remoteRoot : Hash
  hotHash : Hash
  bloomHash : Hash
  coldPrefixBits : UInt8
  deltaHashes : List Hash
  coldShards : List Hash
  deriving DecidableEq

namespace IndexRoot

/-- The root of a fresh repository: one empty cold slot, nothing else. -/
def newEmpty : IndexRoot := ⟨zeroHash, zeroHash, zeroHash, 0, [], [zeroHash]⟩

def coldShardCount (ir : IndexRoot) : Nat := 2 ^ ir.coldPrefixBits.toNat

def remoteRootHash (ir : IndexRoot) : Option Hash := hashOpt ir.remoteRoot
def hotHashOpt (ir : IndexRoot) : Option Hash := hashOpt ir.hotHash
def bloomHashOpt (ir : IndexRoot) : Option Hash := hashOpt ir.bloomHash

def coldShardHash (ir : IndexRoot) (slot : Nat) : Option Hash := ir.coldShards[slot]? >>= hashOpt

/-- The cold shard a hash is looked up in, if one is recorded. -/
def coldShardHashFor (h : Hash) (ir : IndexRoot) : Option Hash :=
  if 0 < ir.coldPrefixBits.toNat then
    ir.coldShardHash (h.prefixBits ir.coldPrefixBits.toNat)
  else if ir.coldShards.isEmpty then none
  else ir.coldShardHash 0

/-- The table slot a hash is addressed through. -/
def slotOf (ir : IndexRoot) (h : Hash) : Nat := h.prefixBits ir.coldPrefixBits.toNat

/-- **`coldShardHashFor_eq`** — with zero prefix bits every hash goes to slot 0, so the addressing
is one table lookup in every case. -/
theorem coldShardHashFor_eq (h : Hash) (ir : IndexRoot) :
    coldShardHashFor h ir = ir.coldShardHash (ir.slotOf h) := by
  unfold coldShardHashFor slotOf
  split_ifs with hb he
  · rfl
  · have hnil : ir.coldShards = [] := List.isEmpty_iff.mp he
    simp [coldShardHash, hnil]
  · have hzero : ir.coldPrefixBits.toNat = 0 := by omega
    rw [hzero]
    rfl

/-! ## Wire format -/

def magic : Bytes := [0xED, 0xE3]
def version : UInt8 := 0x01

/-- The header up to and including the padding. -/
def fixedHeaderLen : Nat := 108

def maxColdPrefixBits : Nat := 32

def serialise (ir : IndexRoot) : Except Error Bytes :=
  if ir.coldShards.length ≠ ir.coldShardCount then
    .error (.other ("cold_shards length " ++ toString ir.coldShards.length ++
      " does not match 2^cold_prefix_bits (" ++ toString ir.coldShardCount ++ ")"))
  else if ir.deltaHashes.length > UInt16.size - 1 then
    .error (.other "delta_count exceeds u16::MAX")
  else
    .ok (magic ++ ([version, 0x00] ++ (ir.remoteRoot.toBytes ++ (ir.hotHash.toBytes ++
      (ir.bloomHash.toBytes ++ ([ir.coldPrefixBits] ++ ([0, 0, 0] ++
      (Bytes.toBE 2 ir.deltaHashes.length ++ ([0, 0] ++
      (ir.deltaHashes.flatMap Hash.toBytes ++ ir.coldShards.flatMap Hash.toBytes))))))))))

/-- `n` hashes off the front of `b`. -/
def readHashes : Nat → Bytes → List Hash
  | 0, _ => []
  | n + 1, b => Hash.ofBytes (b.take 32) :: readHashes n (b.drop 32)

def deserialise (data : Bytes) : Except Error IndexRoot :=
  if data.length < fixedHeaderLen then
    .error (.invalidObject ("INDEX_ROOT too short: " ++ toString data.length ++ " bytes"))
  else if Bytes.slice 0 2 data ≠ magic then
    .error (.invalidObject ("INDEX_ROOT bad magic " ++ hex02 (data.getD 0 0) ++ " " ++
      hex02 (data.getD 1 0)))
  else if Bytes.slice 2 1 data ≠ [version] then
    .error (.invalidObject ("INDEX_ROOT unknown version " ++ toString (data.getD 2 0).toNat))
  else
    let coldPrefixBits := (Bytes.slice 100 1 data).headD 0
    let deltaCount := Bytes.ofBE (Bytes.slice 104 2 data)
    let body := data.drop fixedHeaderLen
    if coldPrefixBits.toNat > maxColdPrefixBits then
      .error (.invalidObject ("INDEX_ROOT cold_prefix_bits " ++ toString coldPrefixBits.toNat ++
        " exceeds the maximum of " ++ toString maxColdPrefixBits))
    else
      let coldShardCount := 2 ^ coldPrefixBits.toNat
      let needed := deltaCount * 32 + coldShardCount * 32
      if needed > body.length then
        .error (.invalidObject ("INDEX_ROOT truncated: need " ++ toString needed ++
          " more bytes, have " ++ toString body.length))
      else
        .ok {
          remoteRoot := Hash.ofBytes (Bytes.slice 4 32 data)
          hotHash := Hash.ofBytes (Bytes.slice 36 32 data)
          bloomHash := Hash.ofBytes (Bytes.slice 68 32 data)
          coldPrefixBits := coldPrefixBits
          deltaHashes := readHashes deltaCount body
          coldShards := readHashes coldShardCount (body.drop (deltaCount * 32)) }

@[simp]
theorem length_readHashes (n : Nat) (b : Bytes) : (readHashes n b).length = n := by
  induction n generalizing b with
  | zero => rfl
  | succ n ih => simp [readHashes, ih]

@[simp]
theorem length_flatMap_toBytes (hs : List Hash) :
    (hs.flatMap Hash.toBytes).length = hs.length * 32 := by
  induction hs with
  | nil => rfl
  | cons h hs ih =>
      rw [List.flatMap_cons, List.length_append, ih, Hash.length_toBytes, List.length_cons]
      omega

theorem readHashes_flatMap (hs : List Hash) (rest : Bytes) :
    readHashes hs.length (hs.flatMap Hash.toBytes ++ rest) = hs := by
  induction hs with
  | nil => rfl
  | cons h hs ih =>
      have htake : (h.toBytes ++ (hs.flatMap Hash.toBytes ++ rest)).take 32 = h.toBytes :=
        List.take_left' (Hash.length_toBytes h)
      have hdrop : (h.toBytes ++ (hs.flatMap Hash.toBytes ++ rest)).drop 32 =
          hs.flatMap Hash.toBytes ++ rest := List.drop_left' (Hash.length_toBytes h)
      rw [List.flatMap_cons, List.append_assoc, List.length_cons, readHashes, htake, hdrop,
        Hash.ofBytes_toBytes, ih]

/-- An accepted root has at most 32 prefix bits and a full table. -/
theorem deserialise_wellFormed {b : Bytes} {ir : IndexRoot} (h : deserialise b = .ok ir) :
    ir.coldPrefixBits.toNat ≤ 32 ∧ ir.coldShards.length = ir.coldShardCount := by
  unfold deserialise at h
  split_ifs at h with h1 h2 h3
  simp only at h
  split_ifs at h with h4 h5
  cases h
  refine ⟨?_, length_readHashes _ _⟩
  have hmax : maxColdPrefixBits = 32 := rfl
  simp only
  omega

/-- **`deserialise_serialise`** — a written root is read back unchanged. -/
theorem deserialise_serialise {ir : IndexRoot} {b : Bytes} (h : ir.serialise = .ok b)
    (hbits : ir.coldPrefixBits.toNat ≤ 32) : deserialise b = .ok ir := by
  unfold serialise at h
  split_ifs at h with hshards hdeltas
  have hshards : ir.coldShards.length = ir.coldShardCount := not_not.mp hshards
  have hcount : ir.deltaHashes.length < 256 ^ 2 := by
    have : UInt16.size = 256 ^ 2 := rfl
    omega
  have hmax : ¬ ir.coldPrefixBits.toNat > maxColdPrefixBits := by
    have : maxColdPrefixBits = 32 := rfl
    omega
  -- where each field of the header lies in the written bytes
  have hmagic : Bytes.slice 0 2 b = magic := by
    cases h
    rfl
  have hversion : Bytes.slice 2 1 b = [version] := by
    cases h
    rfl
  have hroot : Bytes.slice 4 32 b = ir.remoteRoot.toBytes := by
    cases h
    rw [← List.append_assoc]
    exact Bytes.slice_append rfl (by simp)
  have hhot : Bytes.slice 36 32 b = ir.hotHash.toBytes := by
    cases h
    rw [← List.append_assoc, ← List.append_assoc]
    exact Bytes.slice_append (by simp [magic]) (by simp)
  have hbloom : Bytes.slice 68 32 b = ir.bloomHash.toBytes := by
    cases h
    rw [← List.append_assoc, ← List.append_assoc, ← List.append_assoc]
    exact Bytes.slice_append (by simp [magic]) (by simp)
  have hpbits : Bytes.slice 100 1 b = [ir.coldPrefixBits] := by
    cases h
    rw [← List.append_assoc, ← List.append_assoc, ← List.append_assoc, ← List.append_assoc]
    exact Bytes.slice_append (by simp [magic]) rfl
  have hdcount : Bytes.slice 104 2 b = Bytes.toBE 2 ir.deltaHashes.length := by
    cases h
    rw [← List.append_assoc, ← List.append_assoc, ← List.append_assoc, ← List.append_assoc,
      ← List.append_assoc, ← List.append_assoc]
    exact Bytes.slice_append (by simp [magic]) (by simp)
  have hbody : b.drop fixedHeaderLen =
      ir.deltaHashes.flatMap Hash.toBytes ++ ir.coldShards.flatMap Hash.toBytes := by
    cases h
    simp only [← List.append_assoc]
    rw [List.append_assoc]
    exact List.drop_left' (by simp [magic, fixedHeaderLen])
  have hlen : ¬ b.length < fixedHeaderLen := by
    cases h
    simp only [List.length_append, Hash.length_toBytes, Bytes.length_toBE, fixedHeaderLen, magic,
      List.length_cons, List.length_nil]
    omega
  have hroom : ¬ (ir.deltaHashes.length * 32 + 2 ^ ir.coldPrefixBits.toNat * 32 >
      (ir.deltaHashes.flatMap Hash.toBytes ++ ir.coldShards.flatMap Hash.toBytes).length) := by
    rw [List.length_append, length_flatMap_toBytes, length_flatMap_toBytes, hshards]
    exact lt_irrefl _
  have hdrop : (ir.deltaHashes.flatMap Hash.toBytes ++ ir.coldShards.flatMap Hash.toBytes).drop
      (ir.deltaHashes.length * 32) = ir.coldShards.flatMap Hash.toBytes :=
    List.drop_left' (length_flatMap_toBytes _)
  have hcold : readHashes (2 ^ ir.coldPrefixBits.toNat) (ir.coldShards.flatMap Hash.toBytes) =
      ir.coldShards := by
    rw [← coldShardCount, ← hshards]
    simpa using readHashes_flatMap ir.coldShards []
  unfold deserialise
  simp only [hlen, hmagic, hversion, hroot, hhot, hbloom, hpbits, hdcount, hbody,
    Bytes.ofBE_toBE hcount, hmax, hroom, hdrop, hcold, readHashes_flatMap, List.headD_cons,
    Hash.ofBytes_toBytes, if_false, ne_eq, not_true_eq_false]

end IndexRoot

end Omemfs.Pack
