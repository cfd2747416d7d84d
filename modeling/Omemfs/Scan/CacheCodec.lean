/-
# Omemfs.Scan.CacheCodec — the bytes of the file STAT_CACHE.

Four sections: a header with the number of entries and the offsets of the others, an index of path
offsets and lengths, the paths, and one record of fixed size for each entry; sixteen bytes of the
trailer hold the seal epoch.  The entries are written in the byte order of their paths.

`parse_v1` reads all of it.  `parse_v1_scoped` looks for the entries at and below one path by two
binary searches over the index.  Both read the file at offsets the file itself gives, so every slice
is a checked one here: a parse is rejected where the program says so (`rejected`), and would panic
where an index is out of range (`outOfRange`).
-/
import Omemfs.Lib.BinarySearch
import Omemfs.Lib.Bytes
import Omemfs.Lib.Fallible
import Omemfs.Lib.KeyMap
import Omemfs.Object

namespace Omemfs.Scan.CacheCodec

open Lib

/-! ## Entries -/

/-- A STAT_CACHE entry in the integers of the source. -/
structure Entry where
  mtimeSecs : Int64
  mtimeNanos : UInt32
  fsSize : UInt64
  hash : Hash
  isUnsafe : Bool
  sealed : Bool
  deriving DecidableEq

/-- Sixteen bytes. -/
abbrev SealEpoch := { b : Bytes // b.length = 16 }

/-- What the file holds. -/
structure Contents where
  entries : KeyMap String Entry
  sealEpoch : Bytes

def magic : Bytes := [0x4F, 0x53, 0x54, 0x43]
def version : Nat := 1
def headerLen : Nat := 32
def indexEntryLen : Nat := 8
def dataEntryLen : Nat := 56
def digestLen : Nat := 32
def pathsAlign : Nat := 8
def unsafeFlag : Nat := 1
def sealedFlag : Nat := 2
def sealEpochLen : Nat := 16

/-! ## Texts as bytes -/

def utf8 (s : String) : Bytes := s.toByteArray.data.toList

/-- `str::from_utf8`. -/
def fromUtf8 (b : Bytes) : Option String := String.fromUTF8? ⟨b.toArray⟩

theorem fromUtf8_eq_some {b : Bytes} {s : String} : fromUtf8 b = some s ↔ utf8 s = b := by
  unfold fromUtf8 utf8 String.fromUTF8?
  constructor
  · intro h
    split at h
    · cases h
      simp [String.fromUTF8]
    · cases h
  · rintro rfl
    have h : (⟨s.toByteArray.data.toList.toArray⟩ : ByteArray) = s.toByteArray := by simp
    rw [h, dif_pos s.isValidUTF8]
    rfl

theorem utf8_inj {s t : String} (h : utf8 s = utf8 t) : s = t := by
  have hs : fromUtf8 (utf8 s) = some s := fromUtf8_eq_some.mpr rfl
  rw [h, fromUtf8_eq_some.mpr rfl] at hs
  exact (Option.some.inj hs).symm

/-! ## Encoding -/

/-- The order of the file. -/
def sortEntries (entries : List (String × Entry)) : List (String × Entry) :=
  entries.mergeSort fun a b => decide (utf8 a.1 ≤ utf8 b.1)

def totalPathLen (sorted : List (String × Entry)) : Nat :=
  (sorted.map fun x => (utf8 x.1).length).sum

/-- Rounded up to the alignment. -/
def pathsPadded (total : Nat) : Nat := (total + (pathsAlign - 1)) / pathsAlign * pathsAlign

def pathsOffset (sorted : List (String × Entry)) : Nat := headerLen + sorted.length * indexEntryLen

def dataOffset (sorted : List (String × Entry)) : Nat :=
  pathsOffset sorted + pathsPadded (totalPathLen sorted)

/-- The index from an entry on, whose path starts at `cursor`; `as u32` keeps the low half of a
length, and the sum is checked. -/
def encodeIndex : Nat → List (String × Entry) → Except Error Bytes
  | _, [] => .ok []
  | cursor, (path, _) :: rest =>
      let len := (utf8 path).length % 2 ^ 32
      if cursor + len < 2 ^ 32 then do
        let more ← encodeIndex (cursor + len) rest
        return Bytes.toBE 4 cursor ++ (Bytes.toBE 4 len ++ more)
      else .error (.other "STAT_CACHE: path section overflow")

def flagsOf (e : Entry) : Nat :=
  (if e.isUnsafe then unsafeFlag else 0) ||| (if e.sealed then sealedFlag else 0)

def encodeEntry (e : Entry) : Bytes :=
  Bytes.toBE 8 e.mtimeSecs.toUInt64.toNat ++ (Bytes.toBE 4 e.mtimeNanos.toNat ++
    (Bytes.toBE 8 e.fsSize.toNat ++ (e.hash.toBytes ++ Bytes.toBE 4 (flagsOf e))))

def encodeHeader (sorted : List (String × Entry)) : Bytes :=
  magic ++ (Bytes.toBE 4 version ++ (Bytes.toBE 4 sorted.length ++ (Bytes.toBE 4 0 ++
    (Bytes.toBE 4 headerLen ++ (Bytes.toBE 4 (pathsOffset sorted) ++
      (Bytes.toBE 4 (dataOffset sorted) ++ Bytes.toBE 4 0))))))

/-- `encode_v1`, over the entries in any order of iteration. -/
def encodeV1 (entries : List (String × Entry)) (sealEpoch : SealEpoch) : Except Error Bytes :=
  let sorted := sortEntries entries
  let total := totalPathLen sorted
  do
    let index ← encodeIndex 0 sorted
    return encodeHeader sorted ++ (index ++ (sorted.flatMap (fun x => utf8 x.1) ++
      (List.replicate (pathsPadded total - total) 0 ++ (sorted.flatMap (fun x => encodeEntry x.2) ++
        (sealEpoch.1 ++ List.replicate (digestLen - sealEpochLen) 0)))))

/-! ## Reading -/

inductive Halt where
  | rejected
  | outOfRange
  | outOfFuel
  deriving DecidableEq, Repr

/-- `bytes[a..b]`. -/
def range (bytes : Bytes) (a b : Nat) : Except Halt Bytes :=
  if a ≤ b ∧ b ≤ bytes.length then .ok (Bytes.slice a (b - a) bytes) else .error .outOfRange

def u32At (bytes : Bytes) (pos : Nat) : Except Halt Nat :=
  (range bytes pos (pos + 4)).map Bytes.ofBE

/-- `usize` arithmetic that is rejected on overflow. -/
def checked (n : Nat) : Except Halt Nat := if n < 2 ^ 64 then .ok n else .error .rejected

structure Header where
  entryCount : Nat
  indexOffset : Nat
  pathsOffset : Nat
  dataOffset : Nat
  pathsSize : Nat
  bodyEnd : Nat
  deriving DecidableEq

/-- The checks both parsers begin with. -/
def parseHeader (bytes : Bytes) : Except Halt Header :=
  if bytes.length < headerLen + digestLen then .error .rejected
  else do
    let found ← range bytes 0 4
    if found ≠ magic then throw .rejected
    let foundVersion ← u32At bytes 4
    if foundVersion ≠ version then throw .rejected
    let entryCount ← u32At bytes 8
    let indexOffset ← u32At bytes 16
    let pathsOffset ← u32At bytes 20
    let dataOffset ← u32At bytes 24
    if indexOffset ≠ headerLen then throw .rejected
    let indexSize ← checked (entryCount * indexEntryLen)
    let indexEnd ← checked (indexOffset + indexSize)
    if indexEnd > pathsOffset ∨ pathsOffset > dataOffset then throw .rejected
    let dataSize ← checked (entryCount * dataEntryLen)
    let bodyEnd ← checked (dataOffset + dataSize)
    if bodyEnd + digestLen > bytes.length then throw .rejected
    return ⟨entryCount, indexOffset, pathsOffset, dataOffset, dataOffset - pathsOffset, bodyEnd⟩

/-- The path of an index entry, if it lies in the path section. -/
def pathBytesAt (bytes : Bytes) (h : Header) (i : Nat) : Except Halt (Option Bytes) := do
  let idx := h.indexOffset + i * indexEntryLen
  let pathOffset ← u32At bytes idx
  let pathLen ← u32At bytes (idx + 4)
  if pathOffset + pathLen > h.pathsSize then return none
  let path ← range bytes (h.pathsOffset + pathOffset) (h.pathsOffset + pathOffset + pathLen)
  return some path

/-- The record of an entry. -/
def entryAt (bytes : Bytes) (h : Header) (i : Nat) : Except Halt Entry := do
  let off := h.dataOffset + i * dataEntryLen
  let mtimeSecs ← range bytes off (off + 8)
  let mtimeNanos ← range bytes (off + 8) (off + 12)
  let fsSize ← range bytes (off + 12) (off + 20)
  let hash ← range bytes (off + 20) (off + 52)
  let flags ← u32At bytes (off + 52)
  return {
    mtimeSecs := (UInt64.ofNat (Bytes.ofBE mtimeSecs)).toInt64
    mtimeNanos := UInt32.ofNat (Bytes.ofBE mtimeNanos)
    fsSize := UInt64.ofNat (Bytes.ofBE fsSize)
    hash := Hash.ofBytes hash
    isUnsafe := decide (flags &&& unsafeFlag ≠ 0)
    sealed := decide (flags &&& sealedFlag ≠ 0) }

/-- One turn of the loop of `parse_v1`: an entry whose path is out of its section is passed over, one
whose path is no text rejects the file. -/
def loadEntry (bytes : Bytes) (h : Header) (entries : KeyMap String Entry) (i : Nat) :
    Except Halt (KeyMap String Entry) := do
  match ← pathBytesAt bytes h i with
  | none => return entries
  | some pathBytes =>
      match fromUtf8 pathBytes with
      | none => throw .rejected
      | some path => do
          let e ← entryAt bytes h i
          return entries.insert path e

def parseV1 (bytes : Bytes) : Except Halt Contents := do
  let h ← parseHeader bytes
  let entries ← (List.range h.entryCount).foldlM (loadEntry bytes h) KeyMap.empty
  let sealEpoch ← range bytes h.bodyEnd (h.bodyEnd + sealEpochLen)
  return ⟨entries, sealEpoch⟩

/-! ## Reading one scope -/

/-- `path_in_scope`, whose index is guarded by the comparison of the lengths. -/
def pathInScope (path pfx : Bytes) : Bool :=
  decide (path = pfx ∨ pfx.length < path.length ∧ path[pfx.length]? = some 0x2F ∧ pfx <+: path)

/-- The comparison of the search; an entry that cannot be read is not less. -/
def lessAt (bytes : Bytes) (h : Header) (key : Bytes) (i : Nat) : Except Halt Bool := do
  match ← pathBytesAt bytes h i with
  | some p => return decide (p < key)
  | none => return false

def lowerBoundLoop (bytes : Bytes) (h : Header) (key : Bytes) : Nat → Nat → Nat → Except Halt Nat
  | 0, lo, hi => if lo < hi then .error .outOfFuel else .ok lo
  | fuel + 1, lo, hi =>
      if lo < hi then do
        let mid := lo + (hi - lo) / 2
        if ← lessAt bytes h key mid then lowerBoundLoop bytes h key fuel (mid + 1) hi
        else lowerBoundLoop bytes h key fuel lo mid
      else .ok lo

def lowerBound (bytes : Bytes) (h : Header) (key : Bytes) : Except Halt Nat :=
  lowerBoundLoop bytes h key h.entryCount 0 h.entryCount

/-- The prefix with its last byte incremented, unless there is no such byte. -/
def prefixUpper (pfx : Bytes) : Option Bytes :=
  match pfx.getLast? with
  | some b => if b < 0xFF then some (pfx.dropLast ++ [b + 1]) else none
  | none => none

/-- Where the entries in scope end: at the first path from the incremented prefix on. -/
def upperBound (bytes : Bytes) (h : Header) (pfx : Bytes) : Except Halt Nat :=
  match prefixUpper pfx with
  | some upper => lowerBound bytes h upper
  | none => .ok h.entryCount

/-- One turn of the loop of `parse_v1_scoped`. -/
def loadScopedEntry (bytes : Bytes) (h : Header) (pfx : Bytes) (entries : KeyMap String Entry)
    (i : Nat) : Except Halt (KeyMap String Entry) := do
  match ← pathBytesAt bytes h i with
  | none => return entries
  | some pathBytes =>
      match fromUtf8 pathBytes with
      | none => return entries
      | some path =>
          if pathInScope pathBytes pfx then do
            let e ← entryAt bytes h i
            return entries.insert path e
          else return entries

def parseV1Scoped (bytes : Bytes) (scopePrefix : String) : Except Halt Contents := do
  let pfx := utf8 scopePrefix
  let h ← parseHeader bytes
  let first ← lowerBound bytes h pfx
  let last ← upperBound bytes h pfx
  let entries ←
    (List.range' first (last - first)).foldlM (loadScopedEntry bytes h pfx) KeyMap.empty
  let sealEpoch ← range bytes h.bodyEnd (h.bodyEnd + sealEpochLen)
  return ⟨entries, sealEpoch⟩

end Omemfs.Scan.CacheCodec
