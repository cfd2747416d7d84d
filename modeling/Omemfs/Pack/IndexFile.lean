/-
# Omemfs.Pack.IndexFile — the `ED E2` index file: delta, hot index and cold shard alike.

An index file is a list of entries sorted by hash.  `IndexFile` carries the order as a field, so
`push` and `deserialise` are the only ways to get one and `find` is a correct search on all of
them (`find_eq_some_iff`, `find_push`).  The wire format is modelled byte for byte, with every
bounds check of the reader in the order the reader makes them; `deserialise_serialise` says that
what `serialise` writes is read back.
-/
import Omemfs.Object
import Omemfs.Lib.SortedAssoc
import Omemfs.Lib.Fallible

namespace Omemfs.Pack

open Lib

/-! ## Entries -/

/-- Bytes small enough to live in the index itself. -/
structure InlineEntry where
  hash : Hash
  data : Bytes
  fits : data.length < 256
  deriving DecidableEq

/-- A slice of a pack file; `offset` counts from the end of the pack's two magic bytes. -/
structure PackEntry where
  hash : Hash
  packHash : Hash
  offset : UInt32
  length : UInt32
  deriving DecidableEq

/-- An object stored under its own key. -/
structure StandaloneEntry where
  hash : Hash
  deriving DecidableEq

inductive IndexEntry where
  | inline (e : InlineEntry)
  | pack (e : PackEntry)
  | standalone (e : StandaloneEntry)
  deriving DecidableEq

namespace IndexEntry

def hash : IndexEntry → Hash
  | .inline e => e.hash
  | .pack e => e.hash
  | .standalone e => e.hash

/-- The sort key: hex strings of one length compare as the numbers they spell. -/
def key (e : IndexEntry) : Nat := e.hash.toNat

theorem key_eq_iff {e : IndexEntry} {h : Hash} : e.key = h.toNat ↔ e.hash = h :=
  BitVec.toNat_inj

end IndexEntry

/-! ## Index files -/

structure IndexFile where
  entries : List IndexEntry
  sorted : SortedAssoc.Sorted IndexEntry.key entries

namespace IndexFile

theorem ext {f g : IndexFile} (h : f.entries = g.entries) : f = g := by
  cases f
  cases g
  cases h
  rfl

def new : IndexFile := ⟨[], List.Pairwise.nil⟩

/-- Add an entry and keep the list sorted; an entry of the same hash is replaced. -/
def push (f : IndexFile) (e : IndexEntry) : IndexFile :=
  ⟨SortedAssoc.upsert IndexEntry.key e f.entries, SortedAssoc.sorted_upsert _ f.sorted⟩

/-- `push` for each entry, first to last. -/
def pushAll (f : IndexFile) (es : List IndexEntry) : IndexFile := es.foldl push f

def find (f : IndexFile) (h : Hash) : Option IndexEntry :=
  SortedAssoc.lookup IndexEntry.key h.toNat f.entries

def isEmpty (f : IndexFile) : Bool := f.entries.isEmpty

@[simp]
theorem find_new (h : Hash) : new.find h = none := rfl

/-- **`find_eq_some_iff`** — `find` answers with exactly the entries of the file. -/
theorem find_eq_some_iff {f : IndexFile} {h : Hash} {e : IndexEntry} :
    f.find h = some e ↔ e ∈ f.entries ∧ e.hash = h := by
  rw [find, SortedAssoc.lookup_eq_some_iff _ f.sorted, IndexEntry.key_eq_iff]

theorem hash_of_find {f : IndexFile} {h : Hash} {e : IndexEntry} (hf : f.find h = some e) :
    e.hash = h :=
  (find_eq_some_iff.mp hf).2

theorem find_isSome_iff {f : IndexFile} {h : Hash} :
    (f.find h).isSome ↔ ∃ e ∈ f.entries, e.hash = h := by
  rw [Option.isSome_iff_exists]
  simp only [find_eq_some_iff]

/-- **`find_push`** — a pushed entry is found under its own hash, every other hash is as before. -/
theorem find_push (f : IndexFile) (e : IndexEntry) (h : Hash) :
    (f.push e).find h = if h = e.hash then some e else f.find h := by
  have hkey : h.toNat = e.key ↔ h = e.hash := BitVec.toNat_inj
  rw [find, push, SortedAssoc.lookup_upsert _ f.sorted]
  simp only [hkey, find]

theorem entries_pushAll (f : IndexFile) (es : List IndexEntry) :
    (f.pushAll es).entries = SortedAssoc.upsertAll IndexEntry.key f.entries es := by
  induction es generalizing f with
  | nil => rfl
  | cons e es ih => exact ih (f.push e)

/-- **`find_pushAll`** — in a run of pushes the last entry of a hash wins. -/
theorem find_pushAll (f : IndexFile) (es : List IndexEntry) (h : Hash) :
    (f.pushAll es).find h =
      (es.reverse.find? (fun e => decide (e.hash = h))).or (f.find h) := by
  have hkey : (fun e : IndexEntry => decide (e.key = h.toNat)) =
      fun e => decide (e.hash = h) := by
    funext e
    exact decide_eq_decide.mpr IndexEntry.key_eq_iff
  rw [find, entries_pushAll, SortedAssoc.lookup_upsertAll _ f.sorted, hkey, find]

/-- Every entry of a run of pushes was pushed or was there before. -/
theorem mem_of_find_pushAll {f : IndexFile} {es : List IndexEntry} {h : Hash} {e : IndexEntry}
    (hf : (f.pushAll es).find h = some e) : e ∈ es ∨ f.find h = some e := by
  rw [find_pushAll] at hf
  cases hr : es.reverse.find? (fun e => decide (e.hash = h)) with
  | none =>
      rw [hr, Option.none_or] at hf
      exact Or.inr hf
  | some e' =>
      rw [hr, Option.some_or] at hf
      cases hf
      exact Or.inl (List.mem_reverse.mp (List.mem_of_find?_eq_some hr))

theorem find_pushAll_isSome {f : IndexFile} {es : List IndexEntry} {h : Hash} :
    ((f.pushAll es).find h).isSome ↔ (∃ e ∈ es, e.hash = h) ∨ (f.find h).isSome := by
  rw [find_pushAll, Option.isSome_or, Bool.or_eq_true, List.find?_isSome]
  simp only [List.mem_reverse, decide_eq_true_eq]

/-- With one entry a hash, every pushed entry is found. -/
theorem find_pushAll_of_nodup {f : IndexFile} {es : List IndexEntry}
    (hnd : (es.map IndexEntry.hash).Nodup) {e : IndexEntry} (he : e ∈ es) :
    (f.pushAll es).find e.hash = some e := by
  have hkey : (es.map IndexEntry.key).Nodup := by
    have : es.map IndexEntry.key = (es.map IndexEntry.hash).map BitVec.toNat := by
      rw [List.map_map]
      rfl
    rw [this]
    exact hnd.map fun a b h => BitVec.toNat_inj.mp h
  rw [find, entries_pushAll]
  exact SortedAssoc.lookup_upsertAll_of_nodup _ hkey f.sorted he

theorem find_pushAll_of_notMem {f : IndexFile} {es : List IndexEntry} {h : Hash}
    (hne : ∀ e ∈ es, e.hash ≠ h) : (f.pushAll es).find h = f.find h := by
  rw [find, entries_pushAll, SortedAssoc.lookup_upsertAll_of_notMem _ f.sorted, find]
  intro e he hk
  exact hne e he (IndexEntry.key_eq_iff.mp hk)

theorem entries_nodup (f : IndexFile) : (f.entries.map IndexEntry.hash).Nodup := by
  have hlt := f.sorted
  rw [List.Nodup, List.pairwise_map]
  exact hlt.imp fun {a b} h heq => by
    have : a.key = b.key := congrArg BitVec.toNat heq
    omega

theorem entries_inj {f : IndexFile} {e e' : IndexEntry} (he : e ∈ f.entries) (he' : e' ∈ f.entries)
    (h : e.hash = e'.hash) : e = e' := by
  have hfind : f.find e'.hash = some e := find_eq_some_iff.mpr ⟨he, h⟩
  rw [find_eq_some_iff.mpr ⟨he', rfl⟩] at hfind
  exact (Option.some.inj hfind).symm

theorem pushAll_append (f : IndexFile) (as bs : List IndexEntry) :
    f.pushAll (as ++ bs) = (f.pushAll as).pushAll bs :=
  List.foldl_append ..

/-- Pushing a whole file: its entries win over the ones that were there. -/
theorem find_pushAll_entries (f g : IndexFile) (h : Hash) :
    (f.pushAll g.entries).find h = (g.find h).or (f.find h) := by
  cases hg : g.find h with
  | some e =>
      rcases find_eq_some_iff.mp hg with ⟨hmem, rfl⟩
      exact find_pushAll_of_nodup g.entries_nodup hmem
  | none =>
      apply find_pushAll_of_notMem
      intro e he heq
      rw [find_eq_some_iff.mpr ⟨he, heq⟩] at hg
      cases hg

/-- A file made of entries with one hash each holds exactly those entries. -/
theorem find_ofEntries {es : List IndexEntry} (hnd : (es.map IndexEntry.hash).Nodup) {h : Hash}
    {e : IndexEntry} : (new.pushAll es).find h = some e ↔ e ∈ es ∧ e.hash = h := by
  constructor
  · intro hf
    rcases mem_of_find_pushAll hf with he | hnew
    · exact ⟨he, hash_of_find hf⟩
    · cases hnew
  · rintro ⟨he, rfl⟩
    exact find_pushAll_of_nodup hnd he

/-! ## Wire format -/

def magic : Bytes := [0xED, 0xE2]
def version : UInt8 := 0x01
def tagInline : UInt8 := 0x01
def tagPack : UInt8 := 0x02
def tagStandalone : UInt8 := 0x03

/-- The encoding of one entry: tag, hash, then the fields of its variant. -/
def writeEntry : IndexEntry → Bytes
  | .inline e => tagInline :: (e.hash.toBytes ++ UInt8.ofNat e.data.length :: e.data)
  | .pack e =>
      tagPack :: (e.hash.toBytes ++ (e.packHash.toBytes ++
        (Bytes.toBE 4 e.offset.toNat ++ Bytes.toBE 4 e.length.toNat)))
  | .standalone e => tagStandalone :: e.hash.toBytes

def serialise (f : IndexFile) : Except Error Bytes :=
  if f.entries.length > UInt32.size - 1 then
    .error (.other "index entry count exceeds u32::MAX")
  else
    .ok (magic ++ (version :: 0x00 ::
      (Bytes.toBE 4 f.entries.length ++ f.entries.flatMap writeEntry)))

/-- Read the fields of an entry whose tag and hash have been read. -/
def readFields (tag : UInt8) (hash : Hash) (b : Bytes) : Except Error (IndexEntry × Bytes) :=
  if tag = tagInline then
    match b with
    | [] => .error (.invalidObject "inline entry truncated")
    | n :: b =>
        if n.toNat ≤ b.length then
          .ok (.inline ⟨hash, b.take n.toNat, by
            have := n.toNat_lt
            rw [List.length_take]
            omega⟩, b.drop n.toNat)
        else .error (.invalidObject "inline entry data truncated")
  else if tag = tagPack then
    match Bytes.takeExact (32 + 4 + 4) b with
    | none => .error (.invalidObject "pack entry truncated")
    | some (x, b) =>
        .ok (.pack ⟨hash, Hash.ofBytes (x.take 32),
          UInt32.ofNat (Bytes.ofBE ((x.drop 32).take 4)),
          UInt32.ofNat (Bytes.ofBE ((x.drop 36).take 4))⟩, b)
  else if tag = tagStandalone then .ok (.standalone ⟨hash⟩, b)
  else .error (.invalidObject ("unknown index entry tag 0x" ++ hex02 tag))

def readEntry (b : Bytes) : Except Error (IndexEntry × Bytes) :=
  match b with
  | [] => .error (.invalidObject "index file truncated")
  | tag :: b =>
      match Bytes.takeExact 32 b with
      | none => .error (.invalidObject "index file truncated in hash")
      | some (hb, b) => readFields tag (Hash.ofBytes hb) b

/-- The entry loop: `count` entries off the front of `b`. -/
def readEntries : Nat → Bytes → Except Error (List IndexEntry)
  | 0, _ => .ok []
  | count + 1, b => do
      let (e, b) ← readEntry b
      let es ← readEntries count b
      pure (e :: es)

def deserialise (data : Bytes) : Except Error IndexFile :=
  match data with
  | m0 :: m1 :: v :: _reserved :: c0 :: c1 :: c2 :: c3 :: body =>
      if [m0, m1] ≠ magic then
        .error (.invalidObject ("index file bad magic " ++ hex02 m0 ++ " " ++ hex02 m1))
      else if v ≠ version then
        .error (.invalidObject ("index file unknown version " ++ toString v.toNat))
      else
        -- an untrusted count is refused before anything is sized by it: the smallest entry
        -- takes 33 bytes
        let entryCount := Bytes.ofBE [c0, c1, c2, c3]
        if entryCount > body.length / 33 then
          .error (.invalidObject ("index file entry_count " ++ toString entryCount ++
            " exceeds what the remaining " ++ toString body.length ++
            " bytes could hold (max " ++ toString (body.length / 33) ++ ")"))
        else do
          let entries ← readEntries entryCount body
          if h : entries.IsChain (fun a b => a.key < b.key) then
            pure ⟨entries, List.isChain_iff_pairwise.mp h⟩
          else throw (.invalidObject "index entries not sorted")
  | _ => .error (.invalidObject "index file too short")

/-! ## Round trip -/

theorem readEntry_writeEntry (e : IndexEntry) (rest : Bytes) :
    readEntry (writeEntry e ++ rest) = .ok (e, rest) := by
  cases e with
  | inline e =>
      have hlen : (UInt8.ofNat e.data.length).toNat = e.data.length := by
        rw [UInt8.toNat_ofNat', Nat.mod_eq_of_lt e.fits]
      simp [readEntry, writeEntry, readFields, hlen]
  | pack e =>
      have hoff : Bytes.ofBE (Bytes.toBE 4 e.offset.toNat) = e.offset.toNat :=
        Bytes.ofBE_toBE e.offset.toNat_lt
      have hlen : Bytes.ofBE (Bytes.toBE 4 e.length.toNat) = e.length.toNat :=
        Bytes.ofBE_toBE e.length.toNat_lt
      have hcut : Bytes.takeExact (32 + 4 + 4) (e.packHash.toBytes ++
          (Bytes.toBE 4 e.offset.toNat ++ (Bytes.toBE 4 e.length.toNat ++ rest))) =
          some (e.packHash.toBytes ++ (Bytes.toBE 4 e.offset.toNat ++
            Bytes.toBE 4 e.length.toNat), rest) := by
        rw [Bytes.takeExact_eq_some]
        simp
      have hdrop : (e.packHash.toBytes ++ (Bytes.toBE 4 e.offset.toNat ++
          Bytes.toBE 4 e.length.toNat)).drop 36 = Bytes.toBE 4 e.length.toNat := by
        rw [← List.append_assoc, List.drop_left' (by simp)]
      have htake : (Bytes.toBE 4 e.length.toNat).take 4 = Bytes.toBE 4 e.length.toNat :=
        List.take_of_length_le (by simp)
      simp [readEntry, writeEntry, readFields, tagInline, tagPack, hcut, hdrop, htake, hoff, hlen]
  | standalone e =>
      simp [readEntry, writeEntry, readFields, tagInline, tagPack, tagStandalone]

theorem readEntries_flatMap (es : List IndexEntry) (rest : Bytes) :
    readEntries es.length (es.flatMap writeEntry ++ rest) = .ok es := by
  induction es with
  | nil => rfl
  | cons e es ih =>
      rw [List.flatMap_cons, List.append_assoc, List.length_cons, readEntries,
        readEntry_writeEntry]
      simp only [bind, Except.bind, ih, pure, Except.pure]

theorem le_length_writeEntry (e : IndexEntry) : 33 ≤ (writeEntry e).length := by
  cases e <;> simp [writeEntry]

theorem le_length_flatMap (es : List IndexEntry) :
    33 * es.length ≤ (es.flatMap writeEntry).length := by
  induction es with
  | nil => simp
  | cons e es ih =>
      have := le_length_writeEntry e
      rw [List.flatMap_cons, List.length_append, List.length_cons]
      omega

/-- **`deserialise_serialise`** — a written index file is read back unchanged. -/
theorem deserialise_serialise {f : IndexFile} {b : Bytes} (h : f.serialise = .ok b) :
    deserialise b = .ok f := by
  unfold serialise at h
  split_ifs at h with hbig
  cases h
  have hcount : f.entries.length < 256 ^ 4 := by
    have : UInt32.size = 256 ^ 4 := rfl
    omega
  obtain ⟨c0, c1, c2, c3, hc⟩ : ∃ c0 c1 c2 c3,
      Bytes.toBE 4 f.entries.length = [c0, c1, c2, c3] := ⟨_, _, _, _, rfl⟩
  have hread : Bytes.ofBE [c0, c1, c2, c3] = f.entries.length := by
    rw [← hc, Bytes.ofBE_toBE hcount]
  have hroom : ¬ f.entries.length > (f.entries.flatMap writeEntry).length / 33 := by
    have := le_length_flatMap f.entries
    omega
  have hloop : readEntries f.entries.length (f.entries.flatMap writeEntry) = .ok f.entries := by
    simpa using readEntries_flatMap f.entries []
  have hchain : f.entries.IsChain (fun a b => a.key < b.key) :=
    List.isChain_iff_pairwise.mpr f.sorted
  rw [hc]
  generalize f.entries.flatMap writeEntry = body at hroom hloop ⊢
  simp [deserialise, magic, version, hread, hroom, hloop, bind, Except.bind, hchain, pure,
    Except.pure]

end IndexFile

end Omemfs.Pack
