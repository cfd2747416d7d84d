/-
# Omemfs.Scan.CacheParse — what the two parsers of STAT_CACHE return.

Past the header's checks no slice is out of range, so everything the parsers read is a function of the
bytes (`pathAt`, `dataFrom`, `rowAt`): the full parse keeps the last readable row of each path
(`parseV1_cases`), and the scoped parse does so for the rows between the edges its two searches end at
(`parseV1Scoped_eq`).  On any bytes both come to an end without leaving the file (`parse_halts`).

An index is sorted (`SortedIndex`) when the paths of its readable entries are in byte order and a path
that is listed more than once is listed in one run; then what the scoped parse has for a path is what
the full one has (`scoped_subset`).
-/
import Mathlib.Tactic.NormNum
import Omemfs.Scan.CacheCodec

namespace Omemfs.Scan.CacheCodec

open Lib

variable {bytes : Bytes} {h : Header}

/-! ## The header -/

theorem range_ok {a b : Nat} (hab : a ≤ b) (hb : b ≤ bytes.length) :
    range bytes a b = .ok (Bytes.slice a (b - a) bytes) := if_pos ⟨hab, hb⟩

/-- Four bytes as a number. -/
def word (bytes : Bytes) (pos : Nat) : Nat := Bytes.ofBE (Bytes.slice pos 4 bytes)

theorem u32At_ok {pos : Nat} (hpos : pos + 4 ≤ bytes.length) :
    u32At bytes pos = .ok (word bytes pos) := by
  rw [u32At, range_ok (by omega) hpos, Nat.add_sub_cancel_left]
  rfl

theorem word_lt (bytes : Bytes) (pos : Nat) : word bytes pos < 2 ^ 32 := by
  have hlt := Bytes.ofBE_lt (Bytes.slice pos 4 bytes)
  have hlen : (Bytes.slice pos 4 bytes).length ≤ 4 := by
    rw [Bytes.slice, List.length_take]
    exact Nat.min_le_left _ _
  calc word bytes pos < 256 ^ (Bytes.slice pos 4 bytes).length := hlt
    _ ≤ 256 ^ 4 := Nat.pow_le_pow_right (by omega) hlen
    _ = 2 ^ 32 := by norm_num

/-- The header's sections follow one another and end inside the file. -/
structure Header.Valid (h : Header) (bytes : Bytes) : Prop where
  index : h.indexOffset = headerLen
  index_le : headerLen + h.entryCount * indexEntryLen ≤ h.pathsOffset
  paths_le : h.pathsOffset ≤ h.dataOffset
  size : h.pathsSize = h.dataOffset - h.pathsOffset
  body : h.bodyEnd = h.dataOffset + h.entryCount * dataEntryLen
  body_le : h.bodyEnd + digestLen ≤ bytes.length

/-- The header as the file gives it. -/
def headerOf (bytes : Bytes) : Header :=
  ⟨word bytes 8, word bytes 16, word bytes 20, word bytes 24, word bytes 24 - word bytes 20,
    word bytes 24 + word bytes 8 * dataEntryLen⟩

theorem bind_ok {ε α β : Type} (a : α) (f : α → Except ε β) : ((Except.ok a : Except ε α) >>= f) = f a :=
  rfl

theorem checked_ok {n : Nat} (hn : n < 2 ^ 64) : checked n = .ok n := if_pos hn

/-- The checks of the header, on the words they read. -/
theorem parseHeader_eq (hlen : headerLen + digestLen ≤ bytes.length) :
    parseHeader bytes =
      if Bytes.slice 0 4 bytes ≠ magic then .error .rejected
      else if word bytes 4 ≠ version then .error .rejected
      else if word bytes 16 ≠ headerLen then .error .rejected
      else if word bytes 16 + word bytes 8 * indexEntryLen > word bytes 20 ∨
          word bytes 20 > word bytes 24 then .error .rejected
      else if word bytes 24 + word bytes 8 * dataEntryLen + digestLen > bytes.length then
        .error .rejected
      else .ok (headerOf bytes) := by
  have h8 := word_lt bytes 8
  have h16 := word_lt bytes 16
  have h24 := word_lt bytes 24
  unfold headerLen digestLen at hlen
  have hindex : checked (word bytes 8 * indexEntryLen) = .ok (word bytes 8 * indexEntryLen) :=
    checked_ok (by unfold indexEntryLen; omega)
  have hend : checked (word bytes 16 + word bytes 8 * indexEntryLen) =
      .ok (word bytes 16 + word bytes 8 * indexEntryLen) :=
    checked_ok (by unfold indexEntryLen; omega)
  have hdata : checked (word bytes 8 * dataEntryLen) = .ok (word bytes 8 * dataEntryLen) :=
    checked_ok (by unfold dataEntryLen; omega)
  have hbody : checked (word bytes 24 + word bytes 8 * dataEntryLen) =
      .ok (word bytes 24 + word bytes 8 * dataEntryLen) :=
    checked_ok (by unfold dataEntryLen; omega)
  have hlong : ¬ bytes.length < headerLen + digestLen := by
    unfold headerLen digestLen
    omega
  rw [parseHeader, if_neg hlong, range_ok (Nat.zero_le 4) (by omega), u32At_ok (by omega),
    u32At_ok (by omega), u32At_ok (by omega), u32At_ok (by omega), u32At_ok (by omega)]
  simp only [bind_ok, hindex, hend, hdata, hbody]
  rfl

/-- The header is rejected, or its sections are in order. -/
theorem parseHeader_cases (bytes : Bytes) :
    parseHeader bytes = .error .rejected ∨
      parseHeader bytes = .ok (headerOf bytes) ∧ (headerOf bytes).Valid bytes := by
  by_cases hlen : headerLen + digestLen ≤ bytes.length
  · rw [parseHeader_eq hlen]
    split_ifs with hm hv hi ho hb
    · exact Or.inl rfl
    · exact Or.inl rfl
    · exact Or.inl rfl
    · exact Or.inl rfl
    · exact Or.inl rfl
    · have hindex : word bytes 16 = headerLen := not_not.mp hi
      rw [hindex] at ho
      refine Or.inr ⟨rfl, hindex, ?_, ?_, rfl, rfl, ?_⟩
      · exact Nat.le_of_not_lt fun hlt => ho (Or.inl hlt)
      · exact Nat.le_of_not_lt fun hlt => ho (Or.inr hlt)
      · exact Nat.le_of_not_lt hb
  · exact Or.inl (if_pos (Nat.lt_of_not_le hlen))

theorem parseHeader_ok (hm : Bytes.slice 0 4 bytes = magic) (hv : word bytes 4 = version)
    (hvalid : (headerOf bytes).Valid bytes) : parseHeader bytes = .ok (headerOf bytes) := by
  have hbody := hvalid.body_le
  have hindex : word bytes 16 = headerLen := hvalid.index
  have hle := hvalid.index_le
  have hpaths := hvalid.paths_le
  have hlen : headerLen + digestLen ≤ bytes.length := by
    have hb := hvalid.body
    omega
  rw [parseHeader_eq hlen, if_neg (not_not_intro hm), if_neg (not_not_intro hv),
    if_neg (not_not_intro hindex), if_neg, if_neg]
  · exact Nat.not_lt.mpr hbody
  · rw [hindex]
    rintro (hlt | hlt)
    · exact Nat.not_lt.mpr hle hlt
    · exact Nat.not_lt.mpr hpaths hlt

/-! ## Rows -/

/-- The path of an index entry, if it lies in the path section. -/
def pathAt (bytes : Bytes) (h : Header) (i : Nat) : Option Bytes :=
  let idx := h.indexOffset + i * indexEntryLen
  if word bytes idx + word bytes (idx + 4) > h.pathsSize then none
  else some (Bytes.slice (h.pathsOffset + word bytes idx) (word bytes (idx + 4)) bytes)

/-- The record that starts at `off`. -/
def dataFrom (bytes : Bytes) (off : Nat) : Entry where
  mtimeSecs := (UInt64.ofNat (Bytes.ofBE (Bytes.slice off 8 bytes))).toInt64
  mtimeNanos := UInt32.ofNat (word bytes (off + 8))
  fsSize := UInt64.ofNat (Bytes.ofBE (Bytes.slice (off + 12) 8 bytes))
  hash := Hash.ofBytes (Bytes.slice (off + 20) 32 bytes)
  isUnsafe := decide (word bytes (off + 52) &&& unsafeFlag ≠ 0)
  sealed := decide (word bytes (off + 52) &&& sealedFlag ≠ 0)

/-- What an entry of the file adds to the cache, if its path can be read. -/
def rowAt (bytes : Bytes) (h : Header) (i : Nat) : Option (String × Entry) :=
  (pathAt bytes h i).bind fun pathBytes =>
    (fromUtf8 pathBytes).map fun path => (path, dataFrom bytes (h.dataOffset + i * dataEntryLen))

theorem rowAt_eq_some {i : Nat} {path : String} {e : Entry} :
    rowAt bytes h i = some (path, e) ↔
      pathAt bytes h i = some (utf8 path) ∧ e = dataFrom bytes (h.dataOffset + i * dataEntryLen) := by
  unfold rowAt
  rw [Option.bind_eq_some_iff]
  constructor
  · rintro ⟨pathBytes, hpath, hmap⟩
    obtain ⟨p, hp, heq⟩ := Option.map_eq_some_iff.mp hmap
    cases heq
    rw [fromUtf8_eq_some.mp hp]
    exact ⟨hpath, rfl⟩
  · rintro ⟨hpath, rfl⟩
    exact ⟨_, hpath, by rw [fromUtf8_eq_some.mpr rfl]; rfl⟩

namespace Header.Valid

variable {i : Nat}

/-- The record of an entry ends inside the file. -/
theorem record_le (hv : h.Valid bytes) (hi : i < h.entryCount) :
    h.dataOffset + i * dataEntryLen + dataEntryLen + digestLen ≤ bytes.length := by
  have hbody := hv.body_le
  have hmul : (i + 1) * dataEntryLen ≤ h.entryCount * dataEntryLen := Nat.mul_le_mul_right _ hi
  rw [hv.body] at hbody
  rw [Nat.add_mul, Nat.one_mul] at hmul
  omega

theorem pathBytesAt_ok (hv : h.Valid bytes) (hi : i < h.entryCount) :
    pathBytesAt bytes h i = .ok (pathAt bytes h i) := by
  have hmul : (i + 1) * indexEntryLen ≤ h.entryCount * indexEntryLen := Nat.mul_le_mul_right _ hi
  have hindex := hv.index_le
  have hpaths := hv.paths_le
  have hsize := hv.size
  have hbody := hv.body_le
  have hcount := hv.body
  rw [Nat.add_mul, Nat.one_mul] at hmul
  have hidx : h.indexOffset + i * indexEntryLen + indexEntryLen ≤ h.pathsOffset := by
    rw [hv.index]
    omega
  unfold pathBytesAt pathAt
  simp only
  generalize h.indexOffset + i * indexEntryLen = idx at hidx ⊢
  unfold indexEntryLen at hidx
  unfold digestLen at hbody
  rw [u32At_ok (by omega), u32At_ok (by omega), bind_ok, bind_ok]
  by_cases hout : word bytes idx + word bytes (idx + 4) > h.pathsSize
  · rw [if_pos hout, if_pos hout]
    rfl
  · rw [if_neg hout, if_neg hout, range_ok (by omega) (by omega), bind_ok, Nat.add_sub_cancel_left]
    rfl

theorem entryAt_ok (hv : h.Valid bytes) (hi : i < h.entryCount) :
    entryAt bytes h i = .ok (dataFrom bytes (h.dataOffset + i * dataEntryLen)) := by
  have hle := hv.record_le hi
  unfold entryAt
  simp only
  generalize h.dataOffset + i * dataEntryLen = off at hle ⊢
  unfold dataEntryLen digestLen at hle
  rw [range_ok (by omega) (by omega), range_ok (by omega) (by omega), range_ok (by omega) (by omega),
    range_ok (by omega) (by omega), u32At_ok (by omega)]
  simp only [bind_ok, Nat.add_sub_cancel_left, Nat.add_sub_add_left]
  rfl

/-- The last sixteen bytes but sixteen. -/
theorem epoch_ok (hv : h.Valid bytes) :
    range bytes h.bodyEnd (h.bodyEnd + sealEpochLen) =
      .ok (Bytes.slice h.bodyEnd sealEpochLen bytes) := by
  have hbody := hv.body_le
  unfold digestLen at hbody
  unfold sealEpochLen
  rw [range_ok (by omega) (by omega), Nat.add_sub_cancel_left]

end Header.Valid

/-! ## The full parse -/

/-- Some entry has a path in its section that is no text. -/
def Garbled (bytes : Bytes) (h : Header) (i : Nat) : Prop :=
  ∃ pathBytes, pathAt bytes h i = some pathBytes ∧ fromUtf8 pathBytes = none

theorem loadEntry_eq (hv : h.Valid bytes) {i : Nat} (hi : i < h.entryCount)
    (m : KeyMap String Entry) :
    Garbled bytes h i ∧ loadEntry bytes h m i = .error .rejected ∨
      ¬ Garbled bytes h i ∧ loadEntry bytes h m i = .ok (m.insertAll (rowAt bytes h i).toList) := by
  unfold loadEntry Garbled rowAt
  rw [hv.pathBytesAt_ok hi, bind_ok]
  cases hpath : pathAt bytes h i with
  | none => exact Or.inr ⟨by simp, rfl⟩
  | some pathBytes =>
      cases htext : fromUtf8 pathBytes with
      | none => exact Or.inl ⟨⟨pathBytes, rfl, htext⟩, by simp [htext]; rfl⟩
      | some path =>
          refine Or.inr ⟨by simp [htext], ?_⟩
          simp only [htext, hv.entryAt_ok hi, bind_ok, Option.bind_some, Option.map_some]
          rfl

/-- The loop rejects the file at a garbled path, or keeps the rows. -/
theorem loadEntries_eq (hv : h.Valid bytes) {is : List Nat} (his : ∀ i ∈ is, i < h.entryCount)
    (m : KeyMap String Entry) :
    (∃ i ∈ is, Garbled bytes h i) ∧ is.foldlM (loadEntry bytes h) m = .error .rejected ∨
      (∀ i ∈ is, ¬ Garbled bytes h i) ∧
        is.foldlM (loadEntry bytes h) m = .ok (m.insertAll (is.filterMap (rowAt bytes h))) := by
  induction is generalizing m with
  | nil => exact Or.inr ⟨nofun, rfl⟩
  | cons i is ih =>
      rw [List.foldlM_cons]
      rcases loadEntry_eq hv (his i (List.mem_cons_self ..)) m with ⟨hbad, herr⟩ | ⟨hgood, hok⟩
      · rw [herr]
        exact Or.inl ⟨⟨i, List.mem_cons_self .., hbad⟩, rfl⟩
      · rw [hok, bind_ok]
        rcases ih (fun j hj => his j (List.mem_cons_of_mem _ hj)) _ with ⟨⟨j, hj, hbad⟩, herr⟩ | ⟨hall, hrest⟩
        · exact Or.inl ⟨⟨j, List.mem_cons_of_mem _ hj, hbad⟩, herr⟩
        · refine Or.inr ⟨List.forall_mem_cons.mpr ⟨hgood, hall⟩, ?_⟩
          rw [hrest]
          cases hrow : rowAt bytes h i with
          | none => rw [List.filterMap_cons_none hrow]; rfl
          | some x => rw [List.filterMap_cons_some hrow]; rfl

/-- The rows of a range of entries, the last of each path. -/
def rowsFrom (bytes : Bytes) (h : Header) (first n : Nat) : KeyMap String Entry :=
  KeyMap.empty.insertAll ((List.range' first n).filterMap (rowAt bytes h))

/-- **`parseV1_cases`** — the full parse rejects the file, or keeps the last readable row of each
path. -/
theorem parseV1_cases (hv : h.Valid bytes) (hh : parseHeader bytes = .ok h) :
    (∃ i < h.entryCount, Garbled bytes h i) ∧ parseV1 bytes = .error .rejected ∨
      (∀ i < h.entryCount, ¬ Garbled bytes h i) ∧ parseV1 bytes =
        .ok ⟨rowsFrom bytes h 0 h.entryCount, Bytes.slice h.bodyEnd sealEpochLen bytes⟩ := by
  have hloop := @loadEntries_eq bytes h hv (List.range h.entryCount)
    (fun i hi => List.mem_range.mp hi) KeyMap.empty
  rw [parseV1, hh, bind_ok]
  simp only [List.mem_range] at hloop
  rcases hloop with ⟨hbad, herr⟩ | ⟨hall, hok⟩
  · rw [herr]
    exact Or.inl ⟨hbad, rfl⟩
  · refine Or.inr ⟨hall, ?_⟩
    rw [hok, bind_ok, hv.epoch_ok, bind_ok, rowsFrom, ← List.range_eq_range']
    rfl

/-! ## The scoped parse -/

/-- The comparison of the search, read off the bytes. -/
def lessThan (bytes : Bytes) (h : Header) (key : Bytes) (i : Nat) : Bool :=
  match pathAt bytes h i with
  | some path => decide (path < key)
  | none => false

theorem lessThan_eq_true {key : Bytes} {i : Nat} :
    lessThan bytes h key i = true ↔ ∃ path, pathAt bytes h i = some path ∧ path < key := by
  unfold lessThan
  cases pathAt bytes h i <;> simp

theorem lowerBoundLoop_ok (hv : h.Valid bytes) {key : Bytes} {fuel lo hi : Nat}
    (hhi : hi ≤ h.entryCount) (hfuel : hi - lo ≤ fuel) :
    lowerBoundLoop bytes h key fuel lo hi =
      .ok (BinarySearch.searchLoop (lessThan bytes h key) fuel lo hi) := by
  induction fuel generalizing lo hi with
  | zero =>
      have hend : ¬ lo < hi := by omega
      rw [lowerBoundLoop, if_neg hend]
      rfl
  | succ fuel ih =>
      rw [lowerBoundLoop, BinarySearch.searchLoop]
      by_cases hlt : lo < hi
      · have hless : lessAt bytes h key (lo + (hi - lo) / 2) =
            .ok (lessThan bytes h key (lo + (hi - lo) / 2)) := by
          unfold lessAt lessThan
          rw [hv.pathBytesAt_ok (by omega), bind_ok]
          cases pathAt bytes h (lo + (hi - lo) / 2) <;> rfl
        rw [if_pos hlt, if_pos hlt]
        simp only
        rw [hless, bind_ok]
        split_ifs
        · exact ih hhi (by omega)
        · exact ih (by omega) (by omega)
      · rw [if_neg hlt, if_neg hlt]

/-- Where the search for a key ends. -/
def edge (bytes : Bytes) (h : Header) (key : Bytes) : Nat :=
  BinarySearch.lowerBound (lessThan bytes h key) h.entryCount

theorem lowerBound_ok (hv : h.Valid bytes) (key : Bytes) :
    lowerBound bytes h key = .ok (edge bytes h key) :=
  lowerBoundLoop_ok hv (Nat.le_refl _) (by omega)

/-- Where the scoped parse stops. -/
def lastEdge (bytes : Bytes) (h : Header) (pfx : Bytes) : Nat :=
  match prefixUpper pfx with
  | some upper => edge bytes h upper
  | none => h.entryCount

theorem upperBound_ok (hv : h.Valid bytes) (pfx : Bytes) :
    upperBound bytes h pfx = .ok (lastEdge bytes h pfx) := by
  unfold upperBound lastEdge
  cases prefixUpper pfx with
  | none => rfl
  | some upper => exact lowerBound_ok hv upper

/-- A row at or below the scope. -/
def scopedRow (bytes : Bytes) (h : Header) (pfx : Bytes) (i : Nat) : Option (String × Entry) :=
  (rowAt bytes h i).filter fun x => pathInScope (utf8 x.1) pfx

theorem loadScopedEntry_ok (hv : h.Valid bytes) {i : Nat} (hi : i < h.entryCount) (pfx : Bytes)
    (m : KeyMap String Entry) :
    loadScopedEntry bytes h pfx m i = .ok (m.insertAll (scopedRow bytes h pfx i).toList) := by
  unfold loadScopedEntry scopedRow rowAt
  rw [hv.pathBytesAt_ok hi, bind_ok]
  cases hpath : pathAt bytes h i with
  | none => rfl
  | some pathBytes =>
      cases htext : fromUtf8 pathBytes with
      | none => simp [htext]; rfl
      | some path =>
          have hbytes : utf8 path = pathBytes := fromUtf8_eq_some.mp htext
          simp only [htext, Option.bind_some, Option.map_some, Option.filter_some, hbytes]
          split_ifs
          · rw [hv.entryAt_ok hi, bind_ok]
            rfl
          · rfl

theorem lastEdge_le (pfx : Bytes) : lastEdge bytes h pfx ≤ h.entryCount := by
  unfold lastEdge
  split
  · exact (BinarySearch.lowerBound_spec _ _).1
  · exact Nat.le_refl _

/-- The rows in scope between the two edges. -/
def scopedRows (bytes : Bytes) (h : Header) (pfx : Bytes) : KeyMap String Entry :=
  KeyMap.empty.insertAll
    ((List.range' (edge bytes h pfx) (lastEdge bytes h pfx - edge bytes h pfx)).filterMap
      (scopedRow bytes h pfx))

/-- **`parseV1Scoped_eq`** — past the header, the scoped parse keeps the last row of each path in
scope between the edges its searches end at. -/
theorem parseV1Scoped_eq (hv : h.Valid bytes) (hh : parseHeader bytes = .ok h)
    (scopePrefix : String) :
    parseV1Scoped bytes scopePrefix =
      .ok ⟨scopedRows bytes h (utf8 scopePrefix), Bytes.slice h.bodyEnd sealEpochLen bytes⟩ := by
  have hloop : ∀ (is : List Nat) (m : KeyMap String Entry), (∀ i ∈ is, i < h.entryCount) →
      is.foldlM (loadScopedEntry bytes h (utf8 scopePrefix)) m =
        .ok (m.insertAll (is.filterMap (scopedRow bytes h (utf8 scopePrefix)))) := by
    intro is
    induction is with
    | nil => exact fun m _ => rfl
    | cons i is ih =>
        intro m his
        rw [List.foldlM_cons, loadScopedEntry_ok hv (his i (List.mem_cons_self ..)), bind_ok,
          ih _ fun j hj => his j (List.mem_cons_of_mem _ hj)]
        cases hrow : scopedRow bytes h (utf8 scopePrefix) i with
        | none => rw [List.filterMap_cons_none hrow]; rfl
        | some x => rw [List.filterMap_cons_some hrow]; rfl
  have hrange : ∀ i ∈ List.range' (edge bytes h (utf8 scopePrefix))
      (lastEdge bytes h (utf8 scopePrefix) - edge bytes h (utf8 scopePrefix)), i < h.entryCount := by
    intro i hi
    have hle := @lastEdge_le bytes h (utf8 scopePrefix)
    rw [List.mem_range'_1] at hi
    omega
  unfold parseV1Scoped
  simp only
  rw [hh, bind_ok, lowerBound_ok hv, bind_ok, upperBound_ok hv, bind_ok, hloop _ _ hrange, bind_ok,
    hv.epoch_ok]
  rfl

/-! ## Both on any bytes -/

/-- **`parse_halts`** — on any bytes and for any scope, both parsers reject the file or return; no
slice is out of range and no search goes on for ever. -/
theorem parse_halts (bytes : Bytes) (scopePrefix : String) :
    (parseV1 bytes = .error .rejected ∨ ∃ c, parseV1 bytes = .ok c) ∧
      (parseV1Scoped bytes scopePrefix = .error .rejected ∨
        ∃ c, parseV1Scoped bytes scopePrefix = .ok c) := by
  rcases parseHeader_cases bytes with herr | ⟨hh, hv⟩
  · rw [parseV1, parseV1Scoped, herr]
    exact ⟨Or.inl rfl, Or.inl rfl⟩
  · refine ⟨?_, Or.inr ⟨_, parseV1Scoped_eq hv hh scopePrefix⟩⟩
    rcases parseV1_cases hv hh with ⟨_, herr⟩ | ⟨_, hok⟩
    · exact Or.inl herr
    · exact Or.inr ⟨_, hok⟩

/-! ## Scopes in byte order -/

theorem pathInScope_iff {path pfx : Bytes} :
    pathInScope path pfx = true ↔ path = pfx ∨ ∃ rest, path = pfx ++ 0x2F :: rest := by
  unfold pathInScope
  rw [decide_eq_true_iff]
  apply or_congr_right
  constructor
  · rintro ⟨_, hslash, rest, rfl⟩
    rw [List.getElem?_append_right (Nat.le_refl _), Nat.sub_self] at hslash
    cases rest with
    | nil => cases hslash
    | cons c cs =>
        cases hslash
        exact ⟨cs, rfl⟩
  · rintro ⟨rest, rfl⟩
    refine ⟨by simp, ?_, List.prefix_append _ _⟩
    rw [List.getElem?_append_right (Nat.le_refl _), Nat.sub_self]
    rfl

theorem le_of_inScope {path pfx : Bytes} (hs : pathInScope path pfx = true) : pfx ≤ path := by
  rcases pathInScope_iff.mp hs with rfl | ⟨rest, rfl⟩
  · exact List.le_refl _
  · exact List.le_append_left

/-- What is in scope comes before the prefix with its last byte incremented. -/
theorem lt_of_inScope {path pfx upper : Bytes} (hs : pathInScope path pfx = true)
    (hupper : prefixUpper pfx = some upper) : path < upper := by
  unfold prefixUpper at hupper
  cases hlast : pfx.getLast? with
  | none =>
      rw [hlast] at hupper
      cases hupper
  | some b =>
      rw [hlast] at hupper
      simp only at hupper
      split_ifs at hupper with hb
      cases hupper
      have hpfx : pfx = pfx.dropLast ++ [b] := (List.dropLast_append_getLast? b hlast).symm
      have hlt : b < b + 1 := by
        rw [UInt8.lt_iff_toNat_lt] at hb ⊢
        rw [UInt8.toNat_add]
        simp at hb ⊢
        omega
      have hlater : ∀ rest : Bytes, pfx.dropLast ++ b :: rest < pfx.dropLast ++ [b + 1] := by
        intro rest
        exact List.append_left_lt (List.cons_lt_cons_iff.mpr (Or.inl hlt))
      rcases pathInScope_iff.mp hs with rfl | ⟨rest, rfl⟩
      · rw [hpfx]
        simpa using hlater []
      · rw [hpfx, List.append_assoc]
        simpa using hlater (0x2F :: rest)

/-! ## A sorted index -/

/-- The paths that can be read are in byte order, and the entries of one path are one run. -/
def SortedIndex (bytes : Bytes) (h : Header) : Prop :=
  ∀ i j p q, i < j → j < h.entryCount → pathAt bytes h i = some p → pathAt bytes h j = some q →
    p < q ∨ p = q ∧ ∀ k, i < k → k < j → pathAt bytes h k ≠ none

theorem SortedIndex.le (hs : SortedIndex bytes h) {i j : Nat} {p q : Bytes} (hij : i ≤ j)
    (hj : j < h.entryCount) (hp : pathAt bytes h i = some p) (hq : pathAt bytes h j = some q) :
    p ≤ q := by
  rcases Nat.lt_or_eq_of_le hij with hlt | rfl
  · rcases hs i j p q hlt hj hp hq with h | ⟨rfl, _⟩
    · exact List.le_of_lt h
    · exact List.le_refl _
  · rw [hp] at hq
    cases hq
    exact List.le_refl _

/-- Where the index is sorted, no path in scope goes on past the last edge. -/
theorem SortedIndex.not_past (hs : SortedIndex bytes h) {i j : Nat} {p pfx : Bytes}
    (hscope : pathInScope p pfx = true) (hi : i < lastEdge bytes h pfx)
    (hj : lastEdge bytes h pfx ≤ j) (hjn : j < h.entryCount) (hpi : pathAt bytes h i = some p)
    (hpj : pathAt bytes h j = some p) : False := by
  unfold lastEdge at hi hj
  cases hupper : prefixUpper pfx with
  | none =>
      rw [hupper] at hj
      simp only at hj
      omega
  | some upper =>
      rw [hupper] at hi hj
      simp only at hi hj
      obtain ⟨_, _, hat⟩ :=
        BinarySearch.lowerBound_spec (lessThan bytes h upper) h.entryCount
      rcases hat with hend | hnot
      · unfold edge at hj
        omega
      · -- the entry at the edge is no path below the scope's end, nor one that cannot be read
        have hlt : p < upper := lt_of_inScope hscope hupper
        cases hq : pathAt bytes h (edge bytes h upper) with
        | none =>
            have hne : edge bytes h upper ≠ j := by
              intro heq
              rw [heq, hpj] at hq
              cases hq
            rcases hs i j p p (by omega) hjn hpi hpj with hlt' | ⟨_, hrun⟩
            · exact List.lt_irrefl p hlt'
            · exact hrun _ hi (by omega) hq
        | some q =>
            have hle : q ≤ p := hs.le hj hjn hq hpj
            have hless : lessThan bytes h upper (edge bytes h upper) = true :=
              lessThan_eq_true.mpr ⟨q, hq, List.lt_of_le_of_lt hle hlt⟩
            unfold edge at hless
            rw [hnot] at hless
            cases hless

theorem scopedRow_eq_some {pfx : Bytes} {i : Nat} {path : String} {e : Entry} :
    scopedRow bytes h pfx i = some (path, e) ↔
      rowAt bytes h i = some (path, e) ∧ pathInScope (utf8 path) pfx = true := by
  unfold scopedRow
  rw [Option.filter_eq_some_iff]

/-- The paths of the scoped parse are paths of the full one, whatever the index. -/
theorem scoped_paths {pfx : Bytes} {path : String}
    (hpath : ∃ e, (scopedRows bytes h pfx).get path = some e) :
    ∃ e, (rowsFrom bytes h 0 h.entryCount).get path = some e := by
  obtain ⟨e, hget⟩ := hpath
  have hle := @lastEdge_le bytes h pfx
  obtain ⟨i, _, hlast, hrow, _⟩ := KeyMap.get_insertAll_range.mp hget
  apply KeyMap.get_insertAll_of_key
  exact Or.inl ⟨e, List.mem_filterMap.mpr
    ⟨i, List.mem_range'_1.mpr ⟨by omega, by omega⟩, (scopedRow_eq_some.mp hrow).1⟩⟩

/-- **`scoped_subset`** — over a sorted index, what the scoped parse has for a path the full parse
has. -/
theorem scoped_subset (hs : SortedIndex bytes h) {pfx : Bytes} {path : String} {e : Entry}
    (hget : (scopedRows bytes h pfx).get path = some e) :
    (rowsFrom bytes h 0 h.entryCount).get path = some e := by
  have hle := @lastEdge_le bytes h pfx
  obtain ⟨i, hfirst, hlast, hrow, hlater⟩ := KeyMap.get_insertAll_range.mp hget
  obtain ⟨hrow, hscope⟩ := scopedRow_eq_some.mp hrow
  have hpi := (rowAt_eq_some.mp hrow).1
  refine KeyMap.get_insertAll_range.mpr ⟨i, Nat.zero_le i, by omega, hrow, ?_⟩
  intro j hij hj b hrowj
  have hpj := (rowAt_eq_some.mp hrowj).1
  by_cases hin : j < lastEdge bytes h pfx
  · exact hlater j hij (by omega) b (scopedRow_eq_some.mpr ⟨hrowj, hscope⟩)
  · exact hs.not_past hscope (by omega) (Nat.le_of_not_lt hin) (by omega) hpi hpj

end Omemfs.Scan.CacheCodec
