/-
# Omemfs.Codec — from object bytes to stored bytes, and the hashes an object refers to.

An object is compressed and then encrypted before it is stored.  `compress` keeps the smallest of
three candidates and marks which one it took in two leading bytes; what it wrote is read back as the
object (`decode_encode`), except that an output over the size limit is refused.  The compressor and
the JSON parser are libraries: `Codec` is what the program asks of them.

`childHashes` is how a transfer finds what an object refers to: the chunks of a manifest, the
entries of a tree, nothing else.
-/
import Omemfs.Pack.Remote

namespace Omemfs

open Lib

/-- The libraries behind the codec: zstd with and without the tree dictionary, and the JSON parser
of trees. -/
structure Codec where
  zstdEncode : Bool → Bytes → Bytes
  /-- what the decoder yields, and the failure it then ends in -/
  zstdDecode : Bool → Bytes → Bytes × Option Error
  zstdDecode_encode : ∀ dict b, zstdDecode dict (zstdEncode dict b) = (b, none)
  /-- name and hash of every entry of a tree; a symlink has no hash -/
  parseTree : Bytes → Option (List (String × Option Hash))

namespace Codec

/-! ## Compression -/

def magicDictZstd : Bytes := [0xED, 0xDE]
def magicPlainZstd : Bytes := [0xED, 0xDF]
def magicEscapedRaw : Bytes := [0xED, 0xD0]
def decompressMax : Nat := 64 * 1024 * 1024

def needsEscape (data : Bytes) : Bool :=
  match data with
  | x :: b :: _ => x == 0xED && decide (0xD0 ≤ b) && decide (b ≤ 0xDF)
  | _ => false

def rawStoredLen (data : Bytes) : Nat :=
  if needsEscape data then 2 + data.length else data.length

def escapeRawOwned (data : Bytes) : Bytes :=
  if needsEscape data then magicEscapedRaw ++ data else data

/-- The smallest candidate; the dictionary wins ties, then plain zstd. -/
def compress (C : Codec) (data : Bytes) : Bytes :=
  let dictPayload := C.zstdEncode true data
  let dictTotal := 2 + dictPayload.length
  let plainPayload := C.zstdEncode false data
  let plainTotal := 2 + plainPayload.length
  let best := min (min dictTotal plainTotal) (rawStoredLen data)
  if best = dictTotal then magicDictZstd ++ dictPayload
  else if best = plainTotal then magicPlainZstd ++ plainPayload
  else escapeRawOwned data

/-- The decoder is read up to one byte over the limit. -/
def decompressZstdBytes (C : Codec) (dict : Bool) (data : Bytes) : Except Error Bytes :=
  let (out, failure) := C.zstdDecode dict data
  if decompressMax < out.length then
    .error (.invalidObject s!"decompressed output exceeds the {decompressMax} byte limit")
  else match failure with
    | some e => .error e
    | none => .ok out

def decompress (C : Codec) (stored : Bytes) : Except Error Bytes :=
  match stored with
  | x :: y :: rest =>
      if x = 0xED ∧ y = 0xDE then decompressZstdBytes C true rest
      else if x = 0xED ∧ y = 0xDF then decompressZstdBytes C false rest
      else if x = 0xED ∧ y = 0xD0 then .ok rest
      else .ok stored
  | _ => .ok stored

def encode (C : Codec) (E : Pack.Env) (serialised : Bytes) (h : Hash) : Bytes :=
  Pack.encrypt E (compress C serialised) h.toBytes

def decode (C : Codec) (E : Pack.Env) (stored : Bytes) (h : Hash) : Except Error Bytes := do
  let decrypted ← Pack.decrypt E stored h.toBytes
  decompress C decrypted

theorem decompressZstdBytes_encode {C : Codec} {dict : Bool} {b out : Bytes}
    (h : decompressZstdBytes C dict (C.zstdEncode dict b) = .ok out) : out = b := by
  unfold decompressZstdBytes at h
  rw [C.zstdDecode_encode] at h
  simp only at h
  split_ifs at h
  cases h
  rfl

/-- Raw content is never taken for a marked candidate. -/
theorem decompress_escapeRawOwned (C : Codec) (b : Bytes) :
    decompress C (escapeRawOwned b) = .ok b := by
  unfold escapeRawOwned
  split_ifs with hesc
  · rfl
  · match b, hesc with
    | [], _ => rfl
    | [x], _ => rfl
    | x :: y :: rest, hesc =>
        have hout : ∀ m : UInt8, 0xD0 ≤ m → m ≤ 0xDF → ¬ (x = 0xED ∧ y = m) := by
          rintro m hlo hhi ⟨rfl, rfl⟩
          apply hesc
          show ((0xED : UInt8) == 0xED && decide (0xD0 ≤ y) && decide (y ≤ 0xDF)) = true
          rw [decide_eq_true hlo, decide_eq_true hhi]
          rfl
        rw [decompress, if_neg (hout 0xDE (by decide) (by decide)),
          if_neg (hout 0xDF (by decide) (by decide)), if_neg (hout 0xD0 (by decide) (by decide))]

theorem decompress_compress {C : Codec} {b out : Bytes}
    (h : decompress C (compress C b) = .ok out) : out = b := by
  unfold compress at h
  simp only at h
  split_ifs at h
  · exact decompressZstdBytes_encode h
  · exact decompressZstdBytes_encode h
  · rw [decompress_escapeRawOwned] at h
    cases h
    rfl

/-- **`decode_encode`** — stored bytes decode to nothing but the object they were made from. -/
theorem decode_encode {C : Codec} {E : Pack.Env} {b out : Bytes} {h : Hash}
    (hd : decode C E (encode C E b h) h = .ok out) : out = b := by
  rcases bind_eq_ok.mp hd with ⟨plain, hplain, hout⟩
  rw [encode, Pack.decrypt_encrypt] at hplain
  cases hplain
  exact decompress_compress hout

/-! ## What an object refers to -/

def typeTagTree : Bytes := [0xED, 0xF1]
def typeTagManifest : Bytes := [0xED, 0xF2]

def isReservedName (name : String) : Bool := name.contains ".omemfs-"

/-- The checks of `validate_entry_name`. -/
def validateEntryName (name : String) : Bool :=
  name != "" && name != "." && name != ".." && !name.contains '/' &&
    !name.contains (Char.ofNat 0) && name != ".omemfs" &&
    (name == ".omemfs-filter" || !isReservedName name)

/-- The entries of a tree, with or without its tag; a bad name refuses the whole tree. -/
def deserialiseTree (C : Codec) (data : Bytes) : Option (List (String × Option Hash)) := do
  let entries ← C.parseTree (if typeTagTree.isPrefixOf data then data.drop 2 else data)
  if entries.all fun e => validateEntryName e.1 then some entries else none

/-- The chunk hashes of a manifest. -/
def deserialiseManifest (stored : Bytes) : Option (List Hash) :=
  if !typeTagManifest.isPrefixOf stored then none
  else
    let payload := stored.drop 2
    if payload.length % 32 ≠ 0 then none
    else some (Pack.IndexRoot.readHashes (payload.length / 32) payload)

def serialiseManifest (chunkHashes : List Hash) : Bytes :=
  typeTagManifest ++ chunkHashes.flatMap Hash.toBytes

/-- `child_hashes`: what a transfer follows from the bytes of an object. -/
def childHashes (C : Codec) (data : Bytes) : List Hash :=
  match deserialiseManifest data with
  | some chunkHashes => chunkHashes
  | none =>
      if typeTagTree.isPrefixOf data then
        match deserialiseTree C data with
        | some entries => entries.filterMap Prod.snd
        | none => []
      else []

theorem deserialiseManifest_serialiseManifest (hs : List Hash) :
    deserialiseManifest (serialiseManifest hs) = some hs := by
  have hlen := Pack.IndexRoot.length_flatMap_toBytes hs
  have hread : Pack.IndexRoot.readHashes hs.length (hs.flatMap Hash.toBytes) = hs := by
    have := Pack.IndexRoot.readHashes_flatMap hs []
    rwa [List.append_nil] at this
  show (if (hs.flatMap Hash.toBytes).length % 32 ≠ 0 then none
    else some (Pack.IndexRoot.readHashes ((hs.flatMap Hash.toBytes).length / 32)
      (hs.flatMap Hash.toBytes))) = some hs
  rw [hlen, if_neg (by omega), show hs.length * 32 / 32 = hs.length by omega, hread]

/-- **`childHashes_manifest`** — a manifest refers to its chunks. -/
theorem childHashes_manifest (C : Codec) (hs : List Hash) :
    childHashes C (serialiseManifest hs) = hs := by
  rw [childHashes, deserialiseManifest_serialiseManifest]

/-- An object without a type tag refers to nothing. -/
theorem childHashes_untagged {C : Codec} {data : Bytes}
    (hm : typeTagManifest.isPrefixOf data = false) (ht : typeTagTree.isPrefixOf data = false) :
    childHashes C data = [] := by
  rw [childHashes, deserialiseManifest, hm, ht]
  rfl

end Codec

end Omemfs
