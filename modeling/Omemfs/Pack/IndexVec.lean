/-
# Omemfs.Pack.IndexVec — index files as the program keeps and reads them.

The program keeps the entries in a plain vector, sorted by the hex strings of their hashes, and reads
the wire format at byte positions.  Here both are modelled so: nothing about the vector is known from
its type, an access past the end of the input is a fault, and room reserved ahead is counted.

Hex strings are in the order of the hashes (`hex_lt_iff`), so the vector is that of an `IndexFile`
(`pushAll_eq`); the positions are those of a cursor, so the reader is `IndexFile.deserialise` and no
access faults (`deserialise_run`).
-/
import Mathlib.Data.List.Perm.Subperm
import Mathlib.Data.String.Basic
import Omemfs.Pack.IndexFile

namespace Omemfs

open Lib

/-! ## Hex strings -/

namespace Hash

def hexChars : List Char := "0123456789abcdef".toList

def hexChar (n : Nat) : Char := hexChars.getD n '0'

def encodeHex (bytes : Bytes) : String :=
  String.ofList (bytes.flatMap fun (b : UInt8) => [hexChar (b >>> 4).toNat, hexChar (b &&& 0x0f).toNat])

/-- The 64 digits by which hashes are compared. -/
def hex (h : Hash) : String := encodeHex h.toBytes

theorem hexChar_lt_iff {m n : Nat} (hm : m < 16) (hn : n < 16) : hexChar m < hexChar n ↔ m < n := by
  have hall : ∀ m : Fin 16, ∀ n : Fin 16, hexChar m < hexChar n ↔ m < n := by decide
  exact hall ⟨m, hm⟩ ⟨n, hn⟩

theorem hexChar_inj {m n : Nat} (hm : m < 16) (hn : n < 16) : hexChar m = hexChar n ↔ m = n := by
  have hall : ∀ m : Fin 16, ∀ n : Fin 16, hexChar m = hexChar n ↔ m = n := by decide
  have h := hall ⟨m, hm⟩ ⟨n, hn⟩
  rwa [Fin.mk.injEq] at h

theorem ofBE_cons (x : UInt8) (b : Bytes) :
    Bytes.ofBE (x :: b) = x.toNat * 256 ^ b.length + Bytes.ofBE b := by
  induction b using List.reverseRecOn with
  | nil => simp [Bytes.ofBE]
  | append_singleton b y ih =>
      rw [← List.cons_append, Bytes.ofBE_concat, ih, Bytes.ofBE_concat, List.length_append,
        List.length_singleton, pow_succ]
      ring

/-- Byte strings of one length are in the order of their hex strings. -/
theorem encodeHex_lt_iff {a b : Bytes} (h : a.length = b.length) :
    encodeHex a < encodeHex b ↔ Bytes.ofBE a < Bytes.ofBE b := by
  rw [String.lt_iff_toList_lt, encodeHex, encodeHex, String.toList_ofList, String.toList_ofList]
  induction a generalizing b with
  | nil =>
      cases b with
      | nil => simp
      | cons y b => cases h
  | cons x a ih =>
      cases b with
      | nil => cases h
      | cons y b =>
          have hlen : a.length = b.length := Nat.succ.inj h
          have hx := x.toNat_lt
          have hy := y.toNat_lt
          have ha := Bytes.ofBE_lt a
          have hb := Bytes.ofBE_lt b
          rw [hlen] at ha
          rw [List.flatMap_cons, List.flatMap_cons, List.cons_append, List.cons_append,
            List.cons_append, List.cons_append, List.cons_lt_cons_iff, List.cons_lt_cons_iff,
            List.nil_append, List.nil_append, ih hlen, ofBE_cons, ofBE_cons, hlen]
          have hhi : ∀ z : UInt8, (z >>> 4).toNat = z.toNat / 16 := by
            intro z
            simp [UInt8.toNat_shiftRight, Nat.shiftRight_eq_div_pow]
          have hlo : ∀ z : UInt8, (z &&& 0x0f).toNat = z.toNat % 16 := by
            intro z
            rw [UInt8.toNat_and]
            exact Nat.and_two_pow_sub_one_eq_mod z.toNat 4
          rw [hexChar_lt_iff (by rw [hhi]; omega) (by rw [hhi]; omega),
            hexChar_inj (by rw [hhi]; omega) (by rw [hhi]; omega),
            hexChar_lt_iff (by rw [hlo]; omega) (by rw [hlo]; omega),
            hexChar_inj (by rw [hlo]; omega) (by rw [hlo]; omega), hhi, hhi, hlo, hlo]
          generalize 256 ^ b.length = w at *
          generalize Bytes.ofBE a = u at *
          generalize Bytes.ofBE b = v at *
          rcases Nat.lt_trichotomy x.toNat y.toNat with hlt | heq | hgt
          · have hmul : (x.toNat + 1) * w ≤ y.toNat * w := Nat.mul_le_mul_right w hlt
            rw [Nat.add_mul, Nat.one_mul] at hmul
            constructor
            · omega
            · omega
          · rw [heq]
            constructor
            · omega
            · omega
          · have hmul : (y.toNat + 1) * w ≤ x.toNat * w := Nat.mul_le_mul_right w hgt
            rw [Nat.add_mul, Nat.one_mul] at hmul
            constructor
            · omega
            · omega

theorem hex_lt_iff {h h' : Hash} : h.hex < h'.hex ↔ h.toNat < h'.toNat := by
  have hof : ∀ g : Hash, Bytes.ofBE g.toBytes = g.toNat := fun g => Bytes.ofBE_toBE g.isLt
  rw [hex, hex, encodeHex_lt_iff (by simp), hof, hof]

theorem hex_inj {h h' : Hash} : h.hex = h'.hex ↔ h = h' := by
  constructor
  · intro heq
    have h1 : ¬ h.toNat < h'.toNat := fun hlt => absurd (hex_lt_iff.mpr hlt) (by rw [heq]; exact lt_irrefl _)
    have h2 : ¬ h'.toNat < h.toNat := fun hlt => absurd (hex_lt_iff.mpr hlt) (by rw [heq]; exact lt_irrefl _)
    apply BitVec.toNat_inj.mp
    omega
  · exact congrArg hex

end Hash

namespace Pack

/-! ## The vector -/

/-- The entries of an index file, as a vector. -/
abbrev IndexVec := List IndexEntry

namespace IndexVec

open IndexFile

/-- What the program compares entries by. -/
def hexKey (e : IndexEntry) : String := e.hash.hex

def push (v : IndexVec) (e : IndexEntry) : IndexVec := SortedAssoc.upsert hexKey e v

def pushAll (v : IndexVec) (es : List IndexEntry) : IndexVec := es.foldl push v

def find (v : IndexVec) (h : Hash) : Option IndexEntry := SortedAssoc.lookup hexKey h.hex v

def serialise (v : IndexVec) : Except Error Bytes :=
  if v.length > UInt32.size - 1 then .error (.other "index entry count exceeds u32::MAX")
  else .ok (magic ++ (version :: 0x00 :: (Bytes.toBE 4 v.length ++ v.flatMap writeEntry)))

theorem hexKey_lt_iff {e : IndexEntry} {h : Hash} : hexKey e < h.hex ↔ e.key < h.toNat :=
  Hash.hex_lt_iff

/-- **`push_eq`** — the vector of an index file is pushed to like the file. -/
theorem push_eq (f : IndexFile) (e : IndexEntry) : push f.entries e = (f.push e).entries := by
  have hpos : SortedAssoc.partitionPoint hexKey (hexKey e) f.entries =
      SortedAssoc.partitionPoint IndexEntry.key e.key f.entries := by
    unfold SortedAssoc.partitionPoint
    have hfun : (fun a => decide (hexKey a < hexKey e)) = fun a => decide (a.key < e.key) := by
      funext a
      exact decide_eq_decide.mpr hexKey_lt_iff
    rw [hfun]
  have hkey : ∀ a : IndexEntry, hexKey a = hexKey e ↔ a.key = e.key := fun a =>
    Hash.hex_inj.trans BitVec.toNat_inj.symm
  show SortedAssoc.upsert hexKey e f.entries = SortedAssoc.upsert IndexEntry.key e f.entries
  unfold SortedAssoc.upsert
  simp only [hpos, hkey]

theorem pushAll_eq (f : IndexFile) (es : List IndexEntry) :
    pushAll f.entries es = (f.pushAll es).entries := by
  induction es generalizing f with
  | nil => rfl
  | cons e es ih =>
      show pushAll (push f.entries e) es = ((f.push e).pushAll es).entries
      rw [push_eq, ih]

theorem find_eq (f : IndexFile) (h : Hash) : find f.entries h = f.find h := by
  have hpos : SortedAssoc.partitionPoint hexKey h.hex f.entries =
      SortedAssoc.partitionPoint IndexEntry.key h.toNat f.entries := by
    unfold SortedAssoc.partitionPoint
    have hfun : (fun a => decide (hexKey a < h.hex)) = fun a => decide (a.key < h.toNat) := by
      funext a
      exact decide_eq_decide.mpr hexKey_lt_iff
    rw [hfun]
  have hkey : ∀ a : IndexEntry, hexKey a = h.hex ↔ a.key = h.toNat := fun a =>
    Hash.hex_inj.trans BitVec.toNat_inj.symm
  show SortedAssoc.lookup hexKey h.hex f.entries = SortedAssoc.lookup IndexEntry.key h.toNat f.entries
  unfold SortedAssoc.lookup
  simp only [hpos, hkey]

/-! ## The reader -/

/-- How a run of the reader ends short of a value. -/
inductive Fault where
  /-- an access past the end, a panic -/
  | outOfRange
  | error (e : Error)

/-- The state is the number of entries room was reserved for. -/
abbrev Reader := EStateM Fault Nat

def byteAt (data : Bytes) (pos : Nat) : Reader UInt8 :=
  match data[pos]? with
  | some b => pure b
  | none => throw .outOfRange

/-- `data[pos..pos + n]` -/
def rangeAt (data : Bytes) (pos n : Nat) : Reader { b : Bytes // b.length = n } :=
  if h : pos + n ≤ data.length then pure ⟨Bytes.slice pos n data, Bytes.length_slice h⟩
  else throw .outOfRange

def u32At (data : Bytes) (pos : Nat) : Reader UInt32 := do
  let b0 ← byteAt data pos
  let b1 ← byteAt data (pos + 1)
  let b2 ← byteAt data (pos + 2)
  let b3 ← byteAt data (pos + 3)
  pure (UInt32.ofNat (Bytes.ofBE [b0, b1, b2, b3]))

def invalid {α : Type} (msg : String) : Reader α := throw (.error (.invalidObject msg))

/-- `Vec::with_capacity` -/
def reserve (n : Nat) : Reader Unit := modify (· + n)

/-- The fields of an entry, from behind its hash, and the position behind them. -/
def fieldsAt (data : Bytes) (tag : UInt8) (hash : Hash) (pos : Nat) : Reader (IndexEntry × Nat) :=
  if tag = tagInline then
    if pos ≥ data.length then invalid "inline entry truncated"
    else do
      let dataLen ← byteAt data pos
      let pos := pos + 1
      if pos + dataLen.toNat > data.length then invalid "inline entry data truncated"
      else do
        let entryData ← rangeAt data pos dataLen.toNat
        pure (.inline ⟨hash, entryData.1, entryData.2.trans_lt dataLen.toNat_lt⟩, pos + dataLen.toNat)
  else if tag = tagPack then
    if pos + 32 + 4 + 4 > data.length then invalid "pack entry truncated"
    else do
      let packHash ← rangeAt data pos 32
      let offset ← u32At data (pos + 32)
      let length ← u32At data (pos + 32 + 4)
      pure (.pack ⟨hash, Hash.ofBytes packHash.1, offset, length⟩, pos + 32 + 4 + 4)
  else if tag = tagStandalone then pure (.standalone ⟨hash⟩, pos)
  else invalid ("unknown index entry tag 0x" ++ hex02 tag)

def entryAt (data : Bytes) (pos : Nat) : Reader (IndexEntry × Nat) :=
  if pos ≥ data.length then invalid "index file truncated"
  else do
    let tag ← byteAt data pos
    let pos := pos + 1
    if pos + 32 > data.length then invalid "index file truncated in hash"
    else do
      let hash ← rangeAt data pos 32
      fieldsAt data tag (Hash.ofBytes hash.1) (pos + 32)

def entriesAt (data : Bytes) : Nat → Nat → Reader IndexVec
  | 0, _ => pure []
  | count + 1, pos => do
      let (e, pos) ← entryAt data pos
      let es ← entriesAt data count pos
      pure (e :: es)

def minEntrySize : Nat := 33

def deserialise (data : Bytes) : Reader IndexVec :=
  if data.length < 8 then invalid "index file too short"
  else do
    let head ← rangeAt data 0 2
    if head.1 ≠ magic then do
      let b0 ← byteAt data 0
      let b1 ← byteAt data 1
      invalid ("index file bad magic " ++ hex02 b0 ++ " " ++ hex02 b1)
    else do
      let v ← byteAt data 2
      if v ≠ version then invalid ("index file unknown version " ++ toString v.toNat)
      else do
        let entryCount ← u32At data 4
        let remaining := data.length - 8
        let maxPossibleEntries := remaining / minEntrySize
        if entryCount.toNat > maxPossibleEntries then
          invalid ("index file entry_count " ++ toString entryCount.toNat ++
            " exceeds what the remaining " ++ toString remaining ++
            " bytes could hold (max " ++ toString maxPossibleEntries ++ ")")
        else do
          reserve entryCount.toNat
          let entries ← entriesAt data entryCount.toNat 8
          if entries.IsChain (fun a b => hexKey a < hexKey b) then pure entries
          else invalid "index entries not sorted"

/-! ## No access past the end -/

section Run

variable {data : Bytes} {pos n : Nat} {α β : Type}

theorem run_bind {x : Reader α} {f : α → Reader β} {a : α} {room room' : Nat}
    (h : x room = .ok a room') : (x >>= f) room = f a room' := by
  show EStateM.bind x f room = f a room'
  unfold EStateM.bind
  rw [h]

theorem run_bind_error {x : Reader α} {f : α → Reader β} {e : Fault} {room room' : Nat}
    (h : x room = .error e room') : (x >>= f) room = .error e room' := by
  show EStateM.bind x f room = .error e room'
  unfold EStateM.bind
  rw [h]

theorem byteAt_run {b : UInt8} {rest : Bytes} (h : data.drop pos = b :: rest) (room : Nat) :
    byteAt data pos room = .ok b room := by
  have hget : data[pos]? = some b := by
    rw [← List.head?_drop, h]
    rfl
  unfold byteAt
  rw [hget]
  rfl

theorem drop_of_cons {b : UInt8} {rest : Bytes} (h : data.drop pos = b :: rest) :
    pos < data.length ∧ data.drop (pos + 1) = rest := by
  have hlen := congrArg List.length h
  rw [List.length_drop, List.length_cons] at hlen
  refine ⟨by omega, ?_⟩
  rw [← List.drop_drop, h]
  rfl

theorem rangeAt_run (h : pos + n ≤ data.length) (room : Nat) :
    rangeAt data pos n room = .ok ⟨Bytes.slice pos n data, Bytes.length_slice h⟩ room := by
  unfold rangeAt
  rw [dif_pos h]
  rfl

theorem u32At_run (h : pos + 4 ≤ data.length) (room : Nat) :
    u32At data pos room = .ok (UInt32.ofNat (Bytes.ofBE (Bytes.slice pos 4 data))) room := by
  obtain ⟨b0, b1, b2, b3, rest, hdrop⟩ : ∃ b0 b1 b2 b3 rest, data.drop pos = b0 :: b1 :: b2 :: b3 :: rest := by
    have hlen : (data.drop pos).length = data.length - pos := List.length_drop
    match hd : data.drop pos with
    | b0 :: b1 :: b2 :: b3 :: rest => exact ⟨b0, b1, b2, b3, rest, rfl⟩
    | [] | [_] | [_, _] | [_, _, _] =>
        rw [hd] at hlen
        simp only [List.length_cons, List.length_nil] at hlen
        omega
  have h1 := (drop_of_cons hdrop).2
  have h2 := (drop_of_cons h1).2
  have h3 := (drop_of_cons h2).2
  unfold u32At
  rw [run_bind (byteAt_run hdrop room), run_bind (byteAt_run h1 room), run_bind (byteAt_run h2 room),
    run_bind (byteAt_run h3 room), Bytes.slice, hdrop]
  rfl

/-- A reader that ends where a cursor ends. -/
def Follows (data : Bytes) (x : Reader (α × Nat)) (y : Except Error (α × Bytes)) : Prop :=
  ∀ room,
    (∃ a pos, x room = .ok (a, pos) room ∧ y = .ok (a, data.drop pos) ∧ pos ≤ data.length) ∨
    ∃ e, x room = .error (.error e) room ∧ y = .error e

theorem fieldsAt_follows (hpos : pos ≤ data.length) (tag : UInt8) (hash : Hash) :
    Follows data (fieldsAt data tag hash pos) (readFields tag hash (data.drop pos)) := by
  intro room
  unfold fieldsAt readFields
  by_cases hinline : tag = tagInline
  · rw [if_pos hinline, if_pos hinline]
    cases hdrop : data.drop pos with
    | nil =>
        have hend : pos ≥ data.length := List.drop_eq_nil_iff.mp hdrop
        rw [if_pos hend]
        exact .inr ⟨_, rfl, rfl⟩
    | cons dataLen rest =>
        obtain ⟨hlt, hrest⟩ := drop_of_cons hdrop
        rw [if_neg (by omega), run_bind (byteAt_run hdrop room)]
        have hlen : rest.length = data.length - (pos + 1) := by rw [← hrest, List.length_drop]
        by_cases hfit : dataLen.toNat ≤ rest.length
        · have hroom : pos + 1 + dataLen.toNat ≤ data.length := by omega
          simp only [if_neg (by omega : ¬ pos + 1 + dataLen.toNat > data.length), if_pos hfit]
          rw [run_bind (rangeAt_run hroom room)]
          left
          refine ⟨_, _, rfl, ?_, hroom⟩
          simp only [Bytes.slice, hrest, ← List.drop_drop]
        · simp only [if_pos (by omega : pos + 1 + dataLen.toNat > data.length), if_neg hfit]
          exact .inr ⟨_, rfl, rfl⟩
  · rw [if_neg hinline, if_neg hinline]
    by_cases hpack : tag = tagPack
    · rw [if_pos hpack, if_pos hpack]
      by_cases hfit : pos + 32 + 4 + 4 > data.length
      · have hnone : Bytes.takeExact (32 + 4 + 4) (data.drop pos) = none := by
          unfold Bytes.takeExact
          rw [if_neg (by rw [List.length_drop]; omega)]
        rw [if_pos hfit, hnone]
        exact .inr ⟨_, rfl, rfl⟩
      · have hsome : Bytes.takeExact (32 + 4 + 4) (data.drop pos) =
            some ((data.drop pos).take 40, data.drop (pos + 32 + 4 + 4)) := by
          unfold Bytes.takeExact
          rw [if_pos (by rw [List.length_drop]; omega), List.drop_drop]
        rw [if_neg hfit, hsome, run_bind (rangeAt_run (by omega) room),
          run_bind (u32At_run (by omega) room), run_bind (u32At_run (by omega) room)]
        left
        refine ⟨_, _, rfl, ?_, by omega⟩
        simp only [Bytes.slice, List.take_take, List.drop_take, List.drop_drop]
        rfl
    · rw [if_neg hpack, if_neg hpack]
      by_cases hstand : tag = tagStandalone
      · rw [if_pos hstand, if_pos hstand]
        exact .inl ⟨_, _, rfl, rfl, hpos⟩
      · rw [if_neg hstand, if_neg hstand]
        exact .inr ⟨_, rfl, rfl⟩

theorem entryAt_follows (data : Bytes) (pos : Nat) :
    Follows data (entryAt data pos) (readEntry (data.drop pos)) := by
  intro room
  unfold entryAt
  cases hdrop : data.drop pos with
  | nil =>
      rw [if_pos (List.drop_eq_nil_iff.mp hdrop)]
      exact .inr ⟨_, rfl, rfl⟩
  | cons tag rest =>
      obtain ⟨hlt, hrest⟩ := drop_of_cons hdrop
      rw [if_neg (by omega), run_bind (byteAt_run hdrop room), readEntry]
      have hlen : rest.length = data.length - (pos + 1) := by rw [← hrest, List.length_drop]
      by_cases hfit : pos + 1 + 32 > data.length
      · have hnone : Bytes.takeExact 32 rest = none := by
          unfold Bytes.takeExact
          rw [if_neg (by omega)]
        simp only [if_pos hfit, hnone]
        exact .inr ⟨_, rfl, rfl⟩
      · have hsome : Bytes.takeExact 32 rest =
            some (Bytes.slice (pos + 1) 32 data, data.drop (pos + 1 + 32)) := by
          unfold Bytes.takeExact
          rw [if_pos (by omega), Bytes.slice, ← hrest, List.drop_drop]
        simp only [if_neg hfit, hsome]
        rw [run_bind (rangeAt_run (by omega) room)]
        exact fieldsAt_follows (by omega) tag _ room

theorem entriesAt_run (data : Bytes) (count pos room : Nat) :
    (∃ es, entriesAt data count pos room = .ok es room ∧
      readEntries count (data.drop pos) = .ok es) ∨
    ∃ e, entriesAt data count pos room = .error (.error e) room ∧
      readEntries count (data.drop pos) = .error e := by
  induction count generalizing pos with
  | zero => exact .inl ⟨[], rfl, rfl⟩
  | succ count ih =>
      rw [entriesAt, readEntries]
      rcases entryAt_follows data pos room with ⟨e, pos', hrun, hread, -⟩ | ⟨e, hrun, hread⟩
      · rw [run_bind hrun, hread]
        rcases ih pos' with ⟨es, hrun, hread⟩ | ⟨err, hrun, hread⟩
        · left
          refine ⟨e :: es, ?_, ?_⟩
          · show (entriesAt data count pos' >>= fun es => pure (e :: es)) room = _
            rw [run_bind hrun]
            rfl
          · simp only [bind, Except.bind, hread, pure, Except.pure]
        · right
          refine ⟨err, ?_, ?_⟩
          · show (entriesAt data count pos' >>= fun es => pure (e :: es)) room = _
            rw [run_bind_error hrun]
          · simp only [bind, Except.bind, hread]
      · right
        refine ⟨e, ?_, ?_⟩
        · rw [run_bind_error hrun]
        · rw [hread]
          rfl

/-- **`deserialise_run`** — the reader at positions is the reader with a cursor, and reserves no more
than the input can hold. -/
theorem deserialise_run (data : Bytes) : ∃ room ≤ (data.length - 8) / minEntrySize,
    (∃ f : IndexFile, deserialise data 0 = .ok f.entries room ∧ IndexFile.deserialise data = .ok f) ∨
    ∃ e, deserialise data 0 = .error (.error e) room ∧ IndexFile.deserialise data = .error e := by
  match data with
  | [] | [_] | [_, _] | [_, _, _] | [_, _, _, _] | [_, _, _, _, _] | [_, _, _, _, _, _]
  | [_, _, _, _, _, _, _] => exact ⟨0, Nat.zero_le _, .inr ⟨_, rfl, rfl⟩⟩
  | m0 :: m1 :: v :: r :: c0 :: c1 :: c2 :: c3 :: body =>
      obtain ⟨data, hdata⟩ : ∃ data, m0 :: m1 :: v :: r :: c0 :: c1 :: c2 :: c3 :: body = data := ⟨_, rfl⟩
      have hlen : data.length = body.length + 8 := by
        rw [← hdata]
        rfl
      have hhead : Bytes.slice 0 2 data = [m0, m1] := by
        rw [← hdata]
        rfl
      have hbody : data.drop 8 = body := by
        rw [← hdata]
        rfl
      have h0 : data.drop 0 = m0 :: m1 :: v :: r :: c0 :: c1 :: c2 :: c3 :: body := hdata.symm
      have h1 : data.drop 1 = m1 :: v :: r :: c0 :: c1 :: c2 :: c3 :: body := (drop_of_cons h0).2
      have h2 : data.drop 2 = v :: r :: c0 :: c1 :: c2 :: c3 :: body := (drop_of_cons h1).2
      have hcount : u32At data 4 0 = .ok (UInt32.ofNat (Bytes.ofBE [c0, c1, c2, c3])) 0 := by
        rw [u32At_run (by omega), ← hdata]
        rfl
      have hfit : (UInt32.ofNat (Bytes.ofBE [c0, c1, c2, c3])).toNat = Bytes.ofBE [c0, c1, c2, c3] := by
        have hlt := Bytes.ofBE_lt [c0, c1, c2, c3]
        rw [List.length_cons, List.length_cons, List.length_cons, List.length_cons, List.length_nil] at hlt
        rw [UInt32.toNat_ofNat', Nat.mod_eq_of_lt]
        omega
      have hshort : ¬ data.length < 8 := by omega
      rw [hdata, deserialise, if_neg hshort, run_bind (rangeAt_run (by omega) 0),
        ← congrArg IndexFile.deserialise hdata, IndexFile.deserialise]
      simp only [hhead]
      by_cases hmagic : [m0, m1] ≠ magic
      · refine ⟨0, Nat.zero_le _, .inr ⟨_, ?_, if_pos hmagic⟩⟩
        rw [if_pos hmagic, run_bind (byteAt_run h0 0), run_bind (byteAt_run h1 0)]
        rfl
      rw [if_neg hmagic, if_neg hmagic, run_bind (byteAt_run h2 0)]
      by_cases hversion : v ≠ version
      · exact ⟨0, Nat.zero_le _, .inr ⟨_, by rw [if_pos hversion]; rfl, if_pos hversion⟩⟩
      rw [if_neg hversion, if_neg hversion, run_bind hcount]
      simp only [hfit, hlen, Nat.add_sub_cancel, minEntrySize]
      by_cases hroom : Bytes.ofBE [c0, c1, c2, c3] > body.length / 33
      · refine ⟨0, Nat.zero_le _, .inr ⟨_, ?_, if_pos hroom⟩⟩
        rw [if_pos hroom]
        rfl
      rw [if_neg hroom, if_neg hroom]
      refine ⟨Bytes.ofBE [c0, c1, c2, c3], Nat.not_lt.mp hroom, ?_⟩
      have hreserve : reserve (Bytes.ofBE [c0, c1, c2, c3]) 0 =
          .ok () (Bytes.ofBE [c0, c1, c2, c3]) := by
        show EStateM.Result.ok () (0 + _) = _
        rw [Nat.zero_add]
      rw [run_bind hreserve]
      rcases entriesAt_run data (Bytes.ofBE [c0, c1, c2, c3]) 8 (Bytes.ofBE [c0, c1, c2, c3]) with
        ⟨es, hrun, hread⟩ | ⟨e, hrun, hread⟩
      · rw [hbody] at hread
        rw [run_bind hrun, hread]
        simp only [bind, Except.bind]
        have hkey : (es.IsChain fun a b => hexKey a < hexKey b) ↔ es.IsChain fun a b => a.key < b.key := by
          simp only [hexKey, Hash.hex_lt_iff, IndexEntry.key]
        by_cases hsorted : es.IsChain fun a b => a.key < b.key
        · left
          refine ⟨⟨es, List.isChain_iff_pairwise.mp hsorted⟩, ?_, dif_pos hsorted⟩
          rw [if_pos (hkey.mpr hsorted)]
          rfl
        · right
          refine ⟨_, ?_, dif_neg hsorted⟩
          rw [if_neg (fun h => hsorted (hkey.mp h))]
          rfl
      · rw [hbody] at hread
        rw [run_bind_error hrun, hread]
        exact .inr ⟨e, rfl, rfl⟩

end Run

/-! ## What is accepted -/

theorem toBE_ofBE_of_length {b : Bytes} {n : Nat} (h : b.length = n) : Bytes.toBE n (Bytes.ofBE b) = b := by
  subst h
  exact Bytes.toBE_ofBE b

theorem u32_bytes (b : Bytes) (h : b.length = 4) :
    Bytes.toBE 4 (UInt32.ofNat (Bytes.ofBE b)).toNat = b := by
  have hlt := Bytes.ofBE_lt b
  rw [h] at hlt
  rw [UInt32.toNat_ofNat', Nat.mod_eq_of_lt (by omega), toBE_ofBE_of_length h]

/-- An entry that was read stands in the input as it is written. -/
theorem eq_writeEntry {b rest : Bytes} {e : IndexEntry} (h : readEntry b = .ok (e, rest)) :
    b = writeEntry e ++ rest := by
  unfold readEntry at h
  cases b with
  | nil => cases h
  | cons tag b =>
      simp only at h
      cases hcut : Bytes.takeExact 32 b with
      | none =>
          rw [hcut] at h
          cases h
      | some x =>
          obtain ⟨hb, b'⟩ := x
          obtain ⟨hlen, rfl⟩ := Bytes.takeExact_eq_some.mp hcut
          rw [hcut] at h
          simp only [readFields] at h
          have hhash : (Hash.ofBytes hb).toBytes = hb := Hash.toBytes_ofBytes hlen
          split_ifs at h with hinline hpack hstand
          · cases b' with
            | nil => cases h
            | cons n b' =>
                simp only at h
                split_ifs at h with hfit
                cases h
                have htake : (b'.take n.toNat).length = n.toNat := by
                  rw [List.length_take]
                  omega
                simp only [writeEntry, hhash, htake, UInt8.ofNat_toNat, hinline, List.cons_append,
                  List.append_assoc, List.take_append_drop]
          · cases hrest : Bytes.takeExact (32 + 4 + 4) b' with
            | none =>
                rw [hrest] at h
                cases h
            | some x =>
                obtain ⟨fields, tail⟩ := x
                obtain ⟨hfields, rfl⟩ := Bytes.takeExact_eq_some.mp hrest
                rw [hrest] at h
                cases h
                have hpack32 : (Hash.ofBytes (fields.take 32)).toBytes = fields.take 32 :=
                  Hash.toBytes_ofBytes (by rw [List.length_take]; omega)
                have hoff := u32_bytes ((fields.drop 32).take 4)
                  (by rw [List.length_take, List.length_drop]; omega)
                have hlen4 := u32_bytes ((fields.drop 36).take 4)
                  (by rw [List.length_take, List.length_drop]; omega)
                have hsplit : fields = fields.take 32 ++
                    ((fields.drop 32).take 4 ++ (fields.drop 36).take 4) := by
                  have hlast : (fields.drop 36).take 4 = fields.drop 36 :=
                    List.take_of_length_le (by rw [List.length_drop]; omega)
                  rw [hlast, show fields.drop 36 = (fields.drop 32).drop 4 by rw [List.drop_drop],
                    List.take_append_drop, List.take_append_drop]
                simp only [writeEntry, hhash, hpack32, hoff, hlen4, hpack]
                rw [← hsplit, List.cons_append, List.append_assoc]
          · cases h
            simp only [writeEntry, hhash, hstand, List.cons_append]

theorem eq_flatMap_writeEntry {count : Nat} {b : Bytes} {es : List IndexEntry}
    (h : readEntries count b = .ok es) :
    es.length = count ∧ ∃ rest, b = es.flatMap writeEntry ++ rest := by
  induction count generalizing b es with
  | zero =>
      cases h
      exact ⟨rfl, b, rfl⟩
  | succ count ih =>
      rw [readEntries] at h
      obtain ⟨⟨e, b'⟩, he, h⟩ := bind_eq_ok.mp h
      obtain ⟨es', hes, h⟩ := bind_eq_ok.mp h
      cases h
      obtain ⟨hlen, rest, rfl⟩ := ih hes
      refine ⟨congrArg Nat.succ hlen, rest, ?_⟩
      rw [List.flatMap_cons, List.append_assoc]
      exact eq_writeEntry he

/-- **`serialise_deserialise`** — what is accepted is written back as it stood in the input, up to the
reserved byte. -/
theorem serialise_deserialise {data : Bytes} {f : IndexFile} (h : IndexFile.deserialise data = .ok f) :
    ∃ used reserved rest, serialise f.entries = .ok used ∧ data = used.set 3 reserved ++ rest := by
  unfold IndexFile.deserialise at h
  match data with
  | [] | [_] | [_, _] | [_, _, _] | [_, _, _, _] | [_, _, _, _, _] | [_, _, _, _, _, _]
  | [_, _, _, _, _, _, _] => cases h
  | m0 :: m1 :: v :: r :: c0 :: c1 :: c2 :: c3 :: body =>
      simp only at h
      split_ifs at h with hmagic hversion hcount
      obtain ⟨es, hes, h⟩ := bind_eq_ok.mp h
      split_ifs at h with hsorted
      cases h
      obtain ⟨hlen, rest, rfl⟩ := eq_flatMap_writeEntry hes
      have hlt := Bytes.ofBE_lt [c0, c1, c2, c3]
      rw [List.length_cons, List.length_cons, List.length_cons, List.length_cons, List.length_nil] at hlt
      have hsmall : ¬ es.length > UInt32.size - 1 := by
        have hsize : UInt32.size = 2 ^ 32 := rfl
        omega
      refine ⟨_, r, rest, if_neg hsmall, ?_⟩
      have hbytes : Bytes.toBE 4 es.length = [c0, c1, c2, c3] := by
        rw [hlen]
        exact toBE_ofBE_of_length rfl
      have hm : magic = [m0, m1] := (not_not.mp hmagic).symm
      rw [hbytes, hm, ← not_not.mp hversion]
      rfl

/-! ## Any pushes, any bytes -/

/-- **`index_files`** — what pushes make of an empty vector, and what the reader makes of any bytes. -/
theorem index_files :
    (∀ es : List IndexEntry,
      let v := pushAll [] es
      v.Pairwise (fun a b => a.hash.hex < b.hash.hex) ∧
      (∀ h, find v h = es.reverse.find? fun e => decide (e.hash = h)) ∧
      (∀ e, e ∈ v ↔ es.reverse.find? (fun x => decide (x.hash = e.hash)) = some e) ∧
      (v.length ≤ UInt32.size - 1 → ∃ b room, serialise v = .ok b ∧ deserialise b 0 = .ok v room) ∧
      (UInt32.size - 1 < v.length →
        serialise v = .error (.other "index entry count exceeds u32::MAX"))) ∧
    ∀ data : Bytes, ∃ room ≤ (data.length - 8) / minEntrySize,
      (∃ e, deserialise data 0 = .error (.error e) room) ∨
      ∃ v, deserialise data 0 = .ok v room ∧ v.Pairwise (fun a b => a.hash.hex < b.hash.hex) ∧
        ∃ used reserved rest, serialise v = .ok used ∧ data = used.set 3 reserved ++ rest := by
  have hsorted : ∀ f : IndexFile, f.entries.Pairwise fun a b => a.hash.hex < b.hash.hex :=
    fun f => f.sorted.imp Hash.hex_lt_iff.mpr
  refine ⟨fun es => ?_, fun data => ?_⟩
  · have heq : pushAll [] es = (IndexFile.new.pushAll es).entries := pushAll_eq IndexFile.new es
    have hfind : ∀ h, (IndexFile.new.pushAll es).find h =
        es.reverse.find? fun e => decide (e.hash = h) := fun h => by
      rw [find_pushAll, find_new, Option.or_none]
    simp only [heq]
    refine ⟨hsorted _, fun h => (find_eq _ h).trans (hfind h), fun e => ?_, fun hfew => ?_,
      fun hmany => if_pos hmany⟩
    · rw [← hfind, find_eq_some_iff]
      exact (and_iff_left rfl).symm
    · have hser : (IndexFile.new.pushAll es).serialise = .ok _ := if_neg (Nat.not_lt.mpr hfew)
      obtain ⟨room, -, ⟨f, hrun, hread⟩ | ⟨e, -, hread⟩⟩ := deserialise_run _
      · rw [deserialise_serialise hser] at hread
        cases hread
        exact ⟨_, room, hser, hrun⟩
      · rw [deserialise_serialise hser] at hread
        cases hread
  · obtain ⟨room, hroom, ⟨f, hrun, hread⟩ | ⟨e, hrun, -⟩⟩ := deserialise_run data
    · exact ⟨room, hroom, .inr ⟨f.entries, hrun, hsorted f, serialise_deserialise hread⟩⟩
    · exact ⟨room, hroom, .inl ⟨e, hrun⟩⟩

/-- Pushed entries with one hash each are all kept. -/
theorem length_le_pushAll {es : List IndexEntry} (hnd : (es.map IndexEntry.hash).Nodup) :
    es.length ≤ (pushAll [] es).length := by
  have heq : pushAll [] es = (IndexFile.new.pushAll es).entries := pushAll_eq IndexFile.new es
  have hsub : es ⊆ (IndexFile.new.pushAll es).entries := fun e he =>
    (find_eq_some_iff.mp (find_pushAll_of_nodup hnd he)).1
  rw [heq]
  exact (List.subperm_of_subset (List.Nodup.of_map _ hnd) hsub).length_le

/-- Standalone entries with the hashes below `n`. -/
def countedEntries (n : Nat) : List IndexEntry :=
  (List.range n).map fun i => .standalone ⟨BitVec.ofNat 256 i⟩

/-- **`too_many_entries`** — a file of `2 ^ 32` entries is not written. -/
theorem too_many_entries : serialise (pushAll [] (countedEntries (2 ^ 32))) =
    .error (.other "index entry count exceeds u32::MAX") := by
  have hnd : ((countedEntries (2 ^ 32)).map IndexEntry.hash).Nodup := by
    unfold countedEntries
    rw [List.map_map]
    apply List.Nodup.map_on _ List.nodup_range
    intro i hi j hj hij
    have hlt : ∀ k ∈ List.range (2 ^ 32), k < 2 ^ 256 := fun k hk =>
      (List.mem_range.mp hk).trans (by norm_num)
    have hnat := congrArg BitVec.toNat hij
    simp only [Function.comp, IndexEntry.hash, BitVec.toNat_ofNat, Nat.mod_eq_of_lt (hlt i hi),
      Nat.mod_eq_of_lt (hlt j hj)] at hnat
    exact hnat
  apply if_pos
  have hlen : (countedEntries (2 ^ 32)).length = 2 ^ 32 := by
    unfold countedEntries
    rw [List.length_map, List.length_range]
  have hle := length_le_pushAll hnd
  have hsize : UInt32.size = 2 ^ 32 := rfl
  omega

end IndexVec

end Pack

end Omemfs
