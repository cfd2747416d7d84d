/-
# Omemfs.Store.TreeObject — tree objects in an object store.

A tree is written under the hash of its serialised entries, in one piece: nothing cuts it.  It is read
back with its hash and its names checked.

What was built is loaded again exactly where the decoder does not refuse it (`loads_iff`): a tree longer
than the decoder's limit is lost once it has been compressed.
-/
import Mathlib.Data.String.Basic
import Mathlib.Logic.Equiv.List
import Omemfs.Scan.Names
import Omemfs.Store.Chunk
import Omemfs.Tree

namespace Omemfs.Store

open Lib

/-! ## Entries -/

/-- An entry as it is written, with the hash of what it names. -/
inductive StoredEntry where
  | blob (name : String) (hash : Hash) (mtime : Option Time) (size : UInt64) (mode : Option String)
  | tree (name : String) (hash : Hash) (mtime : Option Time) (size : UInt64) (blobCount : UInt64)
  | symlink (name : String) (target : String) (mtime : Option Time)
  deriving DecidableEq

def StoredEntry.name : StoredEntry → String
  | .blob name .. => name
  | .tree name .. => name
  | .symlink name .. => name

/-- The JSON of a list of entries. -/
structure TreeJson where
  toVec : List StoredEntry → Bytes
  fromSlice : Bytes → Except Error (List StoredEntry)
  fromSlice_toVec : ∀ entries, fromSlice (toVec entries) = .ok entries

def serialiseTree (J : TreeJson) (entries : List StoredEntry) : Bytes :=
  Codec.typeTagTree ++ J.toVec entries

def validateEntries : List StoredEntry → Except Error Unit
  | [] => .ok ()
  | e :: entries => do
      Scan.validateEntryName e.name
      validateEntries entries

/-- `Tree::deserialise` -/
def deserialiseTree (J : TreeJson) (data : Bytes) : Except Error (List StoredEntry) := do
  let entries ← J.fromSlice (if Codec.typeTagTree.isPrefixOf data then data.drop 2 else data)
  validateEntries entries
  pure entries

theorem validateEntries_ok {entries : List StoredEntry}
    (h : ∀ e ∈ entries, Scan.ValidName e.name) : validateEntries entries = .ok () := by
  induction entries with
  | nil => rfl
  | cons e entries ih =>
      rw [validateEntries, h e (List.mem_cons_self ..)]
      exact ih fun x hx => h x (List.mem_cons_of_mem _ hx)

/-- Stable, by name. -/
def sortedEntries (entries : List StoredEntry) : List StoredEntry :=
  entries.mergeSort fun a b => decide (a.name ≤ b.name)

/-! ## Writing and reading -/

/-- `build_and_store`, which hands the store no key. -/
def buildAndStore (C : Codec) (E : Pack.Env) (J : TreeJson) (entries : List StoredEntry) (S : Objects) :
    Hash × Objects :=
  let bytes := serialiseTree J (sortedEntries entries)
  let hash := E.sha256 bytes
  (hash, if (S.get hash).isSome then S else storeWrite C { E with key := none } S hash bytes)

/-- `read_tree`: what is read has to have the hash it is read by. -/
def readTree (C : Codec) (E : Pack.Env) (J : TreeJson) (hash : Hash) (S : Objects) :
    Except Error (List StoredEntry) := do
  let data ← storeRead C { E with key := none } S hash
  let computed := E.sha256 data
  if computed ≠ hash then
    .error (.invalidObject ("tree object hash mismatch: expected " ++ hash.asStr ++ ", computed " ++
      computed.asStr ++ " (remote data may be corrupted or tampered)"))
  else deserialiseTree J data

/-- `load_all_entries`, past an empty cache. -/
def loadAllEntries (C : Codec) (E : Pack.Env) (J : TreeJson) (hash : Hash) (S : Objects) :
    Except Error (List StoredEntry) :=
  readTree C E J hash S

/-! ## What is loaded -/

/-- What the store already has under the hash of the object is what a write of the object puts there. -/
def Keeps (C : Codec) (E : Pack.Env) (S : Objects) (data : Bytes) : Prop :=
  ∀ v, S.get (E.sha256 data) = some v → v = C.encode { E with key := none } data (E.sha256 data)

variable {C : Codec} {E : Pack.Env} {J : TreeJson} {entries : List StoredEntry} {S : Objects}

theorem deserialiseTree_serialiseTree (hnames : ∀ e ∈ entries, Scan.ValidName e.name) :
    deserialiseTree J (serialiseTree J entries) = .ok entries := by
  have htag : Codec.typeTagTree.isPrefixOf (Codec.typeTagTree ++ J.toVec entries) = true :=
    (isPrefixOf_two _ _ _).mpr ⟨rfl, rfl⟩
  have hjson : J.fromSlice ((Codec.typeTagTree ++ J.toVec entries).drop 2) = .ok entries :=
    J.fromSlice_toVec entries
  rw [deserialiseTree, serialiseTree, if_pos htag, hjson]
  simp only [bind, Except.bind, validateEntries_ok hnames]
  rfl

theorem get_buildAndStore (hkept : Keeps C E S (serialiseTree J (sortedEntries entries))) :
    (buildAndStore C E J entries S).2.get (buildAndStore C E J entries S).1 =
      some (C.encode { E with key := none } (serialiseTree J (sortedEntries entries))
        (buildAndStore C E J entries S).1) := by
  unfold buildAndStore
  simp only
  split_ifs with hthere
  · obtain ⟨v, hv⟩ := Option.isSome_iff_exists.mp hthere
    rw [hv, hkept v hv]
  · rw [get_storeWrite, if_pos rfl]
    have hnone : S.get (E.sha256 (serialiseTree J (sortedEntries entries))) = none := by simpa using hthere
    rw [hnone]
    rfl

/-- **`loads_iff`** — a tree that was built is loaded again unless the decoder refuses it. -/
theorem loads_iff (hnames : ∀ e ∈ entries, Scan.ValidName e.name)
    (hkept : Keeps C E S (serialiseTree J (sortedEntries entries))) :
    loadAllEntries C E J (buildAndStore C E J entries S).1 (buildAndStore C E J entries S).2 =
        .ok (sortedEntries entries) ↔
      C.Readable (serialiseTree J (sortedEntries entries)) := by
  have hsorted : ∀ e ∈ sortedEntries entries, Scan.ValidName e.name := fun e he =>
    hnames e ((List.mergeSort_perm _ _).mem_iff.mp he)
  unfold loadAllEntries readTree storeRead
  rw [get_buildAndStore hkept]
  simp only
  rcases Codec.decode_encode_cases C { E with key := none } (serialiseTree J (sortedEntries entries))
    (buildAndStore C E J entries S).1 with ⟨hreadable, hok⟩ | ⟨hunreadable, e, herr⟩
  · refine iff_of_true ?_ hreadable
    rw [hok]
    show (if E.sha256 (serialiseTree J (sortedEntries entries)) ≠
      E.sha256 (serialiseTree J (sortedEntries entries)) then _ else _) = _
    rw [if_neg (not_not.mpr rfl)]
    exact deserialiseTree_serialiseTree hsorted
  · refine iff_of_false ?_ hunreadable
    rw [herr]
    exact nofun

/-! ## A directory with too many entries -/

instance instEncodableChar : Encodable Char := .ofLeftInverse Char.toNat Char.ofNat Char.ofNat_toNat

instance instEncodableString : Encodable String :=
  .ofLeftInverse String.toList String.ofList fun _ => String.ofList_toList

instance instEncodableHash : Encodable Hash := .ofLeftInverse BitVec.toNat (BitVec.ofNat 256) fun h => by
  rw [BitVec.ofNat_toNat, BitVec.setWidth_eq]

instance instEncodableUInt64 : Encodable UInt64 :=
  .ofLeftInverse UInt64.toNat UInt64.ofNat fun _ => UInt64.ofNat_toNat

/-- The fields of an entry, by kind. -/
def StoredEntry.fields : StoredEntry →
    (String × Hash × Option Time × UInt64 × Option String) ⊕
      (String × Hash × Option Time × UInt64 × UInt64) ⊕ (String × String × Option Time)
  | .blob name hash mtime size mode => .inl (name, hash, mtime, size, mode)
  | .tree name hash mtime size blobCount => .inr (.inl (name, hash, mtime, size, blobCount))
  | .symlink name target mtime => .inr (.inr (name, target, mtime))

def StoredEntry.ofFields :
    (String × Hash × Option Time × UInt64 × Option String) ⊕
      (String × Hash × Option Time × UInt64 × UInt64) ⊕ (String × String × Option Time) → StoredEntry
  | .inl (name, hash, mtime, size, mode) => .blob name hash mtime size mode
  | .inr (.inl (name, hash, mtime, size, blobCount)) => .tree name hash mtime size blobCount
  | .inr (.inr (name, target, mtime)) => .symlink name target mtime

instance : Encodable StoredEntry := .ofLeftInverse StoredEntry.fields StoredEntry.ofFields fun e => by
  cases e <;> rfl

/-- A way to write entries that, like JSON, gives a long list a long text of one character. -/
def tallyJson : TreeJson where
  toVec entries := List.replicate (Encodable.encode entries) 0x31
  fromSlice b :=
    match (Encodable.decode b.length : Option (List StoredEntry)) with
    | some entries => .ok entries
    | none => .error (.invalidObject "tally")
  fromSlice_toVec entries := by
    rw [List.length_replicate, Encodable.encodek]

/-- `n` links in one directory. -/
def linkEntries (n : Nat) : List StoredEntry := List.replicate n (.symlink "l" "x" none)

theorem sortedEntries_linkEntries (n : Nat) : sortedEntries (linkEntries n) = linkEntries n :=
  List.perm_replicate.mp (List.mergeSort_perm _ _)

theorem not_loads_linkEntries {n : Nat} (hn : Codec.decompressMax ≤ n) :
    loadAllEntries (runCodec (serialiseTree tallyJson (linkEntries n))) tagEnv tallyJson
        (buildAndStore (runCodec (serialiseTree tallyJson (linkEntries n))) tagEnv tallyJson
          (linkEntries n) .empty).1
        (buildAndStore (runCodec (serialiseTree tallyJson (linkEntries n))) tagEnv tallyJson
          (linkEntries n) .empty).2 ≠ .ok (sortedEntries (linkEntries n)) := by
  have hnames : ∀ e ∈ linkEntries n, Scan.ValidName e.name := by
    intro e he
    rw [List.eq_of_mem_replicate he]
    decide
  intro hload
  have hread := (loads_iff hnames (fun v hv => by cases hv)).mp hload
  rw [sortedEntries_linkEntries] at hread
  have hlen : n + 2 ≤ (serialiseTree tallyJson (linkEntries n)).length := by
    have hle := Encodable.length_le_encode (linkEntries n)
    rw [linkEntries, List.length_replicate] at hle
    rw [serialiseTree, List.length_append]
    show n + 2 ≤ 2 + (List.replicate (Encodable.encode (linkEntries n)) (0x31 : UInt8)).length
    rw [List.length_replicate, linkEntries]
    omega
  have hraw : (serialiseTree tallyJson (linkEntries n)).length ≤
      Codec.rawStoredLen (serialiseTree tallyJson (linkEntries n)) := by
    unfold Codec.rawStoredLen
    split_ifs
    · omega
    · exact Nat.le_refl _
  rcases hread with hshort | ⟨hdict, -⟩
  · omega
  · simp only [runCodec, if_pos, List.length_singleton] at hdict
    have hmax : 3 < Codec.decompressMax := by decide
    omega

/-- **`large_directory_lost`** — a directory whose entries take more than the decoder's limit. -/
theorem large_directory_lost :
    loadAllEntries (runCodec (serialiseTree tallyJson (linkEntries Codec.decompressMax))) tagEnv tallyJson
        (buildAndStore (runCodec (serialiseTree tallyJson (linkEntries Codec.decompressMax))) tagEnv
          tallyJson (linkEntries Codec.decompressMax) .empty).1
        (buildAndStore (runCodec (serialiseTree tallyJson (linkEntries Codec.decompressMax))) tagEnv
          tallyJson (linkEntries Codec.decompressMax) .empty).2 ≠
      .ok (sortedEntries (linkEntries Codec.decompressMax)) :=
  not_loads_linkEntries (Nat.le_refl _)

/-- Two entries come back sorted. -/
theorem loads_two :
    loadAllEntries (runCodec []) tagEnv tallyJson
        (buildAndStore (runCodec []) tagEnv tallyJson
          [.symlink "b" "x" none, .blob "a" 7 none 1 (some "755")] .empty).1
        (buildAndStore (runCodec []) tagEnv tallyJson
          [.symlink "b" "x" none, .blob "a" 7 none 1 (some "755")] .empty).2 =
      .ok (sortedEntries [.symlink "b" "x" none, .blob "a" 7 none 1 (some "755")]) := by
  have hnames : ∀ e ∈ ([.symlink "b" "x" none, .blob "a" 7 none 1 (some "755")] : List StoredEntry),
      Scan.ValidName e.name := by decide
  have hempty : Keeps (runCodec []) tagEnv .empty (serialiseTree tallyJson
      (sortedEntries [.symlink "b" "x" none, .blob "a" 7 none 1 (some "755")])) := fun v hv => by cases hv
  apply (loads_iff hnames hempty).mpr
  -- what does not shrink is stored as it is
  right
  generalize sortedEntries _ = entries
  have hlong : ∀ dict, (serialiseTree tallyJson entries).length + 1 =
      ((runCodec []).zstdEncode dict (serialiseTree tallyJson entries)).length := fun dict => rfl
  have hraw : Codec.rawStoredLen (serialiseTree tallyJson entries) =
      (serialiseTree tallyJson entries).length := rfl
  constructor
  · rw [← hlong, hraw]
    omega
  · rw [← hlong, hraw]
    omega

end Omemfs.Store
