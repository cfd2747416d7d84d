/-
# Omemfs.Scan.CacheRoundTrip — STAT_CACHE read back.

The encoder's file is the four sections one behind the other (`fileOf`), so the row of an entry is
found where the parsers look for it (`rowAt_fileOf`): a sum of the lengths before it in the path
section, a multiple of the record's size elsewhere.  The rows are strictly in byte order
(`sortEntries_lt`), which makes the two edges of a scoped read the ends of the entries in scope
(`edge_le_of_inScope`, `lt_lastEdge_of_inScope`), siblings between a directory and what is below it
notwithstanding: those are passed over by the test in the loop.
-/
import Mathlib.Data.List.Sort
import Omemfs.Scan.CacheParse

namespace Omemfs.Scan.CacheCodec

open Lib

variable {sorted : List (String × Entry)} {epoch : SealEpoch}

/-! ## The file -/

/-- The index from an entry on, nothing being cut off. -/
def indexBytes : Nat → List (String × Entry) → Bytes
  | _, [] => []
  | cursor, (path, _) :: rest =>
      Bytes.toBE 4 cursor ++ (Bytes.toBE 4 (utf8 path).length ++
        indexBytes (cursor + (utf8 path).length) rest)

theorem totalPathLen_cons (x : String × Entry) (rest : List (String × Entry)) :
    totalPathLen (x :: rest) = (utf8 x.1).length + totalPathLen rest := by
  simp [totalPathLen]

theorem encodeIndex_ok {cursor : Nat} (hfits : cursor + totalPathLen sorted < 2 ^ 32) :
    encodeIndex cursor sorted = .ok (indexBytes cursor sorted) := by
  induction sorted generalizing cursor with
  | nil => rfl
  | cons x rest ih =>
      obtain ⟨path, e⟩ := x
      rw [totalPathLen_cons] at hfits
      simp only at hfits
      have hlen : (utf8 path).length % 2 ^ 32 = (utf8 path).length :=
        Nat.mod_eq_of_lt (by omega)
      rw [encodeIndex, indexBytes]
      simp only [hlen]
      rw [if_pos (by omega), ih (by omega)]
      rfl

theorem length_indexBytes (cursor : Nat) (sorted : List (String × Entry)) :
    (indexBytes cursor sorted).length = sorted.length * indexEntryLen := by
  induction sorted generalizing cursor with
  | nil => simp [indexBytes]
  | cons x rest ih =>
      rw [indexBytes, List.length_append, List.length_append, Bytes.length_toBE, Bytes.length_toBE,
        ih, List.length_cons, indexEntryLen]
      omega

/-- The index entry of a path: the lengths before it, then its own. -/
theorem indexBytes_at {cursor i : Nat} (hi : i < sorted.length) :
    Bytes.StandsAt (i * indexEntryLen)
      (Bytes.toBE 4 (cursor + totalPathLen (sorted.take i)) ++ Bytes.toBE 4 (utf8 sorted[i].1).length)
      (indexBytes cursor sorted) := by
  induction sorted generalizing cursor i with
  | nil => cases hi
  | cons x rest ih =>
      have hsplit : indexBytes cursor (x :: rest) =
          (Bytes.toBE 4 cursor ++ Bytes.toBE 4 (utf8 x.1).length) ++
            indexBytes (cursor + (utf8 x.1).length) rest := by
        rw [indexBytes, List.append_assoc]
      rw [hsplit]
      cases i with
      | zero => exact ⟨[], _, (Nat.zero_mul _).symm, rfl⟩
      | succ i =>
          have hi' : i < rest.length := Nat.lt_of_succ_lt_succ hi
          obtain ⟨u, z, hu, heq⟩ := @ih (cursor + (utf8 x.1).length) i hi'
          refine ⟨(Bytes.toBE 4 cursor ++ Bytes.toBE 4 (utf8 x.1).length) ++ u, z, ?_, ?_⟩
          · rw [List.length_append, List.length_append, Bytes.length_toBE, Bytes.length_toBE, hu,
              indexEntryLen]
            omega
          · rw [heq, List.take_succ_cons, totalPathLen_cons, Nat.add_assoc, List.append_assoc]
            rfl

/-- The file over sorted entries. -/
def fileOf (sorted : List (String × Entry)) (epoch : SealEpoch) : Bytes :=
  encodeHeader sorted ++ (indexBytes 0 sorted ++ (sorted.flatMap (fun x => utf8 x.1) ++
    (List.replicate (pathsPadded (totalPathLen sorted) - totalPathLen sorted) 0 ++
      (sorted.flatMap (fun x => encodeEntry x.2) ++
        (epoch.1 ++ List.replicate (digestLen - sealEpochLen) 0)))))

theorem le_pathsPadded (total : Nat) : total ≤ pathsPadded total := by
  unfold pathsPadded pathsAlign
  omega

theorem totalPathLen_lt (hfits : dataOffset sorted < 2 ^ 32) : totalPathLen sorted < 2 ^ 32 := by
  have hpad := le_pathsPadded (totalPathLen sorted)
  unfold dataOffset at hfits
  omega

/-- Sorting moves no section. -/
theorem dataOffset_sortEntries (entries : List (String × Entry)) :
    dataOffset (sortEntries entries) = dataOffset entries := by
  have hperm : (sortEntries entries).Perm entries := List.mergeSort_perm _ _
  have htotal : totalPathLen (sortEntries entries) = totalPathLen entries := by
    unfold totalPathLen
    exact (hperm.map _).sum_nat
  rw [dataOffset, dataOffset, pathsOffset, pathsOffset, hperm.length_eq, htotal]

/-- **`encodeV1_ok`** — where the offsets fit, the encoder writes the file of the sorted entries. -/
theorem encodeV1_ok {entries : List (String × Entry)}
    (hfits : dataOffset (sortEntries entries) < 2 ^ 32) (epoch : SealEpoch) :
    encodeV1 entries epoch = .ok (fileOf (sortEntries entries) epoch) := by
  unfold encodeV1
  simp only
  rw [encodeIndex_ok (by have := totalPathLen_lt hfits; omega)]
  rfl

/-! ## Where the sections stand -/

theorem length_encodeHeader (sorted : List (String × Entry)) :
    (encodeHeader sorted).length = headerLen := by
  simp [encodeHeader, magic, headerLen]

theorem length_encodeEntry (e : Entry) : (encodeEntry e).length = dataEntryLen := by
  simp [encodeEntry, dataEntryLen]

theorem length_paths (sorted : List (String × Entry)) :
    (sorted.flatMap fun x => utf8 x.1).length = totalPathLen sorted := by
  rw [List.length_flatMap, totalPathLen]

theorem length_records (sorted : List (String × Entry)) :
    (sorted.flatMap fun x => encodeEntry x.2).length = sorted.length * dataEntryLen := by
  simp [List.length_flatMap, length_encodeEntry]

/-- **`sections_stand`** — each section is where its offset says. -/
theorem sections_stand (sorted : List (String × Entry)) (epoch : SealEpoch) :
    Bytes.StandsAt 0 (encodeHeader sorted) (fileOf sorted epoch) ∧
      Bytes.StandsAt headerLen (indexBytes 0 sorted) (fileOf sorted epoch) ∧
      Bytes.StandsAt (pathsOffset sorted) (sorted.flatMap fun x => utf8 x.1) (fileOf sorted epoch) ∧
      Bytes.StandsAt (dataOffset sorted) (sorted.flatMap fun x => encodeEntry x.2)
        (fileOf sorted epoch) ∧
      Bytes.StandsAt (dataOffset sorted + sorted.length * dataEntryLen) epoch.1
        (fileOf sorted epoch) := by
  have hpad := le_pathsPadded (totalPathLen sorted)
  have hall : Bytes.StandsAt 0 (fileOf sorted epoch) (fileOf sorted epoch) :=
    ⟨[], [], rfl, (List.append_nil _).symm⟩
  have hindex := Bytes.StandsAt.right (y := encodeHeader sorted) hall
  rw [length_encodeHeader, Nat.zero_add] at hindex
  have hpaths := hindex.right
  rw [length_indexBytes] at hpaths
  have hrecords := hpaths.right.right
  rw [length_paths, List.length_replicate] at hrecords
  have hdata : headerLen + sorted.length * indexEntryLen + totalPathLen sorted +
      (pathsPadded (totalPathLen sorted) - totalPathLen sorted) = dataOffset sorted := by
    unfold dataOffset pathsOffset
    omega
  rw [hdata] at hrecords
  have hepoch := hrecords.right
  rw [length_records] at hepoch
  exact ⟨Bytes.StandsAt.left (y := encodeHeader sorted) hall, hindex.left, hpaths.left, hrecords.left,
    hepoch.left⟩

theorem length_fileOf (sorted : List (String × Entry)) (epoch : SealEpoch) :
    (fileOf sorted epoch).length =
      dataOffset sorted + sorted.length * dataEntryLen + digestLen := by
  have hpad := le_pathsPadded (totalPathLen sorted)
  have hepoch := epoch.2
  simp only [fileOf, List.length_append, length_encodeHeader, length_indexBytes, length_paths,
    length_records, List.length_replicate, hepoch]
  unfold dataOffset pathsOffset digestLen sealEpochLen
  omega

/-! ## The header read back -/

theorem word_of_stands {bytes : Bytes} {pos v : Nat} (h : Bytes.StandsAt pos (Bytes.toBE 4 v) bytes)
    (hv : v < 2 ^ 32) : word bytes pos = v :=
  h.ofBE_slice (lt_of_lt_of_eq hv (by norm_num))

/-- The header of the file. -/
def fileHeader (sorted : List (String × Entry)) : Header :=
  ⟨sorted.length, headerLen, pathsOffset sorted, dataOffset sorted,
    dataOffset sorted - pathsOffset sorted, dataOffset sorted + sorted.length * dataEntryLen⟩

theorem headerOf_fileOf (hfits : dataOffset sorted < 2 ^ 32) :
    headerOf (fileOf sorted epoch) = fileHeader sorted ∧
      Bytes.slice 0 4 (fileOf sorted epoch) = magic ∧ word (fileOf sorted epoch) 4 = version := by
  have hcount : sorted.length < 2 ^ 32 ∧ pathsOffset sorted < 2 ^ 32 := by
    unfold dataOffset pathsOffset headerLen indexEntryLen at *
    omega
  have hmagic := (sections_stand sorted epoch).1
  have hversion := hmagic.right
  have hlength := hversion.right
  have hflags := hlength.right
  have hindex := hflags.right
  have hpaths := hindex.right
  have hdata := hpaths.right
  simp only [Bytes.length_toBE] at hlength hflags hindex hpaths hdata
  have h8 := word_of_stands hlength.left hcount.1
  have h16 := word_of_stands hindex.left (show headerLen < 2 ^ 32 by decide)
  have h20 := word_of_stands hpaths.left hcount.2
  have h24 := word_of_stands hdata.left hfits
  simp only [magic, List.length_cons, List.length_nil, Nat.zero_add, Nat.reduceAdd] at h8 h16 h20 h24
  refine ⟨?_, hmagic.left.slice_eq, word_of_stands hversion.left (by decide)⟩
  unfold headerOf fileHeader
  rw [h8, h16, h20, h24]

theorem fileHeader_valid (sorted : List (String × Entry)) (epoch : SealEpoch) :
    (fileHeader sorted).Valid (fileOf sorted epoch) where
  index := rfl
  index_le := Nat.le_refl _
  paths_le := Nat.le_add_right _ _
  size := rfl
  body := rfl
  body_le := Nat.le_of_eq (length_fileOf sorted epoch).symm

theorem parseHeader_fileOf (hfits : dataOffset sorted < 2 ^ 32) :
    parseHeader (fileOf sorted epoch) = .ok (fileHeader sorted) := by
  obtain ⟨hheader, hmagic, hversion⟩ := @headerOf_fileOf sorted epoch hfits
  have hok := parseHeader_ok hmagic hversion (by rw [hheader]; exact fileHeader_valid sorted epoch)
  rw [hok, hheader]

/-! ## The rows read back -/

theorem pathAt_fileOf (hfits : dataOffset sorted < 2 ^ 32) {i : Nat} (hi : i < sorted.length) :
    pathAt (fileOf sorted epoch) (fileHeader sorted) i = some (utf8 sorted[i].1) := by
  obtain ⟨_, hindex, hpaths, _, _⟩ := sections_stand sorted epoch
  have hentry := hindex.trans (@indexBytes_at sorted 0 i hi)
  have hpath := Bytes.StandsAt.flatMap (fun x : String × Entry => utf8 x.1) hi
  have hlast := hpath.le
  have htotal := totalPathLen_lt hfits
  have hpad := le_pathsPadded (totalPathLen sorted)
  rw [length_paths] at hlast
  change totalPathLen (sorted.take i) + _ ≤ _ at hlast
  have hcursor := word_of_stands hentry.left (by omega)
  have hlen := hentry.right
  rw [Bytes.length_toBE] at hlen
  have hlen := word_of_stands hlen (by omega)
  unfold pathAt fileHeader
  simp only
  rw [hcursor, hlen, Nat.zero_add, if_neg (by unfold dataOffset; omega)]
  exact congrArg some (hpaths.trans hpath).slice_eq

theorem flagsOf_spec (e : Entry) :
    flagsOf e < 2 ^ 32 ∧ decide (flagsOf e &&& unsafeFlag ≠ 0) = e.isUnsafe ∧
      decide (flagsOf e &&& sealedFlag ≠ 0) = e.sealed := by
  unfold flagsOf unsafeFlag sealedFlag
  cases e.isUnsafe <;> cases e.sealed <;> decide

theorem dataFrom_of_stands {bytes : Bytes} {off : Nat} {e : Entry}
    (h : Bytes.StandsAt off (encodeEntry e) bytes) : dataFrom bytes off = e := by
  have hnanos := h.right
  have hsize := hnanos.right
  have hhash := hsize.right
  have hflags := hhash.right
  simp only [Bytes.length_toBE, Hash.length_toBytes, Nat.add_assoc, Nat.reduceAdd] at hnanos hsize hhash hflags
  obtain ⟨hlt, hunsafe, hsealed⟩ := flagsOf_spec e
  have hmtime := h.left.ofBE_slice (lt_of_lt_of_eq e.mtimeSecs.toUInt64.toNat_lt (by norm_num))
  have hhash := hhash.left.slice_eq
  rw [Hash.length_toBytes] at hhash
  unfold dataFrom
  rw [hmtime, word_of_stands hnanos.left e.mtimeNanos.toNat_lt,
    hsize.left.ofBE_slice (lt_of_lt_of_eq e.fsSize.toNat_lt (by norm_num)), hhash,
    word_of_stands hflags hlt, hunsafe, hsealed, Hash.ofBytes_toBytes, UInt64.ofNat_toNat,
    UInt64.ofNat_toNat, UInt32.ofNat_toNat, Int64.toInt64_toUInt64]

/-- **`rowAt_fileOf`** — the rows of the file are the entries. -/
theorem rowAt_fileOf (hfits : dataOffset sorted < 2 ^ 32) {i : Nat} (hi : i < sorted.length) :
    rowAt (fileOf sorted epoch) (fileHeader sorted) i = some sorted[i] := by
  obtain ⟨_, _, _, hrecords, _⟩ := sections_stand sorted epoch
  have hrecord := hrecords.trans
    (Bytes.StandsAt.flatMap (fun x : String × Entry => encodeEntry x.2) hi)
  have hoffset : ((sorted.take i).map fun x => (encodeEntry x.2).length).sum = i * dataEntryLen := by
    simp [length_encodeEntry, Nat.min_eq_left (Nat.le_of_lt hi)]
  rw [hoffset] at hrecord
  exact rowAt_eq_some.mpr ⟨pathAt_fileOf hfits hi, (dataFrom_of_stands hrecord).symm⟩

/-! ## The order of the rows -/

/-- The entries of a map, iterated over in any order and sorted. -/
structure SortedOf (sorted : List (String × Entry)) (m : KeyMap String Entry) : Prop where
  mem : ∀ x, x ∈ sorted ↔ m.get x.1 = some x.2
  lt : sorted.Pairwise fun x y => utf8 x.1 < utf8 y.1

theorem sortEntries_sortedOf {order : List (String × Entry)} {m : KeyMap String Entry}
    (horder : order.Perm m.pairs) : SortedOf (sortEntries order) m := by
  have hperm : (sortEntries order).Perm m.pairs := (List.mergeSort_perm order _).trans horder
  have hle : (sortEntries order).Pairwise fun x y => utf8 x.1 ≤ utf8 y.1 := by
    apply List.Pairwise.imp _ (List.pairwise_mergeSort _ _ order)
    · exact fun h => of_decide_eq_true h
    · exact fun a b c hab hbc =>
        decide_eq_true (List.le_trans (of_decide_eq_true hab) (of_decide_eq_true hbc))
    · intro a b
      rcases List.le_total (utf8 a.1) (utf8 b.1) with h | h
      · simp [h]
      · simp [h]
  have hne : (sortEntries order).Pairwise fun x y => x.1 ≠ y.1 := by
    have hnodup : ((sortEntries order).map Prod.fst).Nodup :=
      (hperm.map Prod.fst).nodup_iff.mpr m.nodup_keys
    exact List.pairwise_map.mp hnodup
  refine ⟨fun x => ?_, ?_⟩
  · rw [hperm.mem_iff, KeyMap.get_eq_some_iff_mem]
  · apply List.Pairwise.imp _ (hle.and hne)
    rintro x y ⟨hxy, hkeys⟩
    exact Std.lt_of_le_of_ne hxy fun heq => hkeys (utf8_inj heq)

namespace SortedOf

variable {m : KeyMap String Entry} {i j : Nat}

theorem path_lt (hs : SortedOf sorted m) (hi : i < sorted.length) (hj : j < sorted.length)
    (hij : i < j) : utf8 sorted[i].1 < utf8 sorted[j].1 :=
  List.pairwise_iff_getElem.mp hs.lt i j hi hj hij

theorem path_le (hs : SortedOf sorted m) (hi : i < sorted.length) (hj : j < sorted.length)
    (hij : i ≤ j) : utf8 sorted[i].1 ≤ utf8 sorted[j].1 := by
  rcases Nat.lt_or_eq_of_le hij with hlt | rfl
  · exact List.le_of_lt (hs.path_lt hi hj hlt)
  · exact List.le_refl _

/-- A key of the map has one row. -/
theorem row_iff (hs : SortedOf sorted m) {path : String} {e : Entry} :
    m.get path = some e ↔ ∃ i, ∃ hi : i < sorted.length, sorted[i] = (path, e) := by
  rw [← List.mem_iff_getElem, hs.mem]

theorem row_unique (hs : SortedOf sorted m) (hi : i < sorted.length) (hj : j < sorted.length)
    (heq : sorted[i].1 = sorted[j].1) : i = j := by
  rcases Nat.lt_trichotomy i j with h | h | h
  · have hlt := hs.path_lt hi hj h
    rw [heq] at hlt
    exact absurd hlt (List.lt_irrefl _)
  · exact h
  · have hlt := hs.path_lt hj hi h
    rw [heq] at hlt
    exact absurd hlt (List.lt_irrefl _)

theorem lessThan_iff (hfits : dataOffset sorted < 2 ^ 32) {key : Bytes} (hi : i < sorted.length) :
    lessThan (fileOf sorted epoch) (fileHeader sorted) key i = true ↔ utf8 sorted[i].1 < key := by
  rw [lessThan_eq_true, pathAt_fileOf hfits hi]
  simp

/-- The search for a prefix ends at or before what is in its scope. -/
theorem edge_le_of_inScope (hs : SortedOf sorted m) (hfits : dataOffset sorted < 2 ^ 32) {pfx : Bytes}
    (hi : i < sorted.length) (hscope : pathInScope (utf8 sorted[i].1) pfx = true) :
    edge (fileOf sorted epoch) (fileHeader sorted) pfx ≤ i := by
  obtain ⟨hle, hbefore, _⟩ := BinarySearch.lowerBound_spec
    (lessThan (fileOf sorted epoch) (fileHeader sorted) pfx) (fileHeader sorted).entryCount
  change edge _ _ _ ≤ sorted.length at hle
  change edge _ _ _ = 0 ∨ lessThan _ _ _ (edge _ _ _ - 1) = true at hbefore
  rcases hbefore with hzero | hless
  · omega
  · by_contra hlt
    have hprev : edge (fileOf sorted epoch) (fileHeader sorted) pfx - 1 < sorted.length := by omega
    rw [lessThan_iff hfits hprev] at hless
    have hpath : utf8 sorted[i].1 < pfx :=
      List.lt_of_le_of_lt (hs.path_le hi hprev (by omega)) hless
    exact List.lt_irrefl _ (List.lt_of_le_of_lt (le_of_inScope hscope) hpath)

/-- The search for the end of a scope ends behind it. -/
theorem lt_lastEdge_of_inScope (hs : SortedOf sorted m) (hfits : dataOffset sorted < 2 ^ 32)
    {pfx : Bytes} (hi : i < sorted.length) (hscope : pathInScope (utf8 sorted[i].1) pfx = true) :
    i < lastEdge (fileOf sorted epoch) (fileHeader sorted) pfx := by
  unfold lastEdge
  cases hupper : prefixUpper pfx with
  | none => exact hi
  | some upper =>
      obtain ⟨_, _, hat⟩ := BinarySearch.lowerBound_spec
        (lessThan (fileOf sorted epoch) (fileHeader sorted) upper) (fileHeader sorted).entryCount
      change edge _ _ _ = sorted.length ∨ lessThan _ _ _ (edge _ _ _) = false at hat
      simp only
      by_contra hle
      rcases hat with hend | hnot
      · omega
      · have hedge : edge (fileOf sorted epoch) (fileHeader sorted) upper < sorted.length := by omega
        rw [← Bool.not_eq_true, lessThan_iff hfits hedge] at hnot
        exact hnot
          (List.lt_of_le_of_lt (hs.path_le hedge hi (by omega)) (lt_of_inScope hscope hupper))

end SortedOf

/-! ## What the parsers return -/

/-- Not a text's bytes alone: a path in the scope of another. -/
theorem pathInScope_utf8 {path scopePrefix : String} :
    pathInScope (utf8 path) (utf8 scopePrefix) = true ↔
      path = scopePrefix ∨ utf8 (scopePrefix ++ "/") <+: utf8 path := by
  have hslash : utf8 (scopePrefix ++ "/") = utf8 scopePrefix ++ [0x2F] := by
    unfold utf8
    rw [String.toByteArray_append, ByteArray.data_append, Array.toList_append]
    rfl
  rw [pathInScope_iff, hslash]
  apply or_congr
  · exact ⟨utf8_inj, fun h => h ▸ rfl⟩
  · constructor
    · rintro ⟨rest, hrest⟩
      exact ⟨rest, by rw [hrest, List.append_assoc]; rfl⟩
    · rintro ⟨rest, hrest⟩
      exact ⟨rest, by rw [← hrest, List.append_assoc]; rfl⟩

variable {m : KeyMap String Entry}

theorem rowsFrom_fileOf (hs : SortedOf sorted m) (hfits : dataOffset sorted < 2 ^ 32)
    (path : String) :
    (rowsFrom (fileOf sorted epoch) (fileHeader sorted) 0 sorted.length).get path = m.get path := by
  apply Option.ext
  intro e
  unfold rowsFrom
  rw [KeyMap.get_insertAll_range, hs.row_iff]
  constructor
  · rintro ⟨i, _, hi, hrow, _⟩
    have hi : i < sorted.length := by omega
    rw [rowAt_fileOf hfits hi] at hrow
    exact ⟨i, hi, Option.some.inj hrow⟩
  · rintro ⟨i, hi, hrow⟩
    refine ⟨i, Nat.zero_le i, by omega, by rw [rowAt_fileOf hfits hi, hrow], ?_⟩
    intro j hij hj b hother
    have hj : j < sorted.length := by omega
    rw [rowAt_fileOf hfits hj] at hother
    have heq := hs.row_unique hi hj (by rw [hrow, Option.some.inj hother])
    omega

theorem scopedRows_fileOf (hs : SortedOf sorted m) (hfits : dataOffset sorted < 2 ^ 32) (pfx : Bytes)
    (path : String) :
    (scopedRows (fileOf sorted epoch) (fileHeader sorted) pfx).get path =
      if pathInScope (utf8 path) pfx = true then m.get path else none := by
  have hend := @lastEdge_le (fileOf sorted epoch) (fileHeader sorted) pfx
  change lastEdge _ _ _ ≤ sorted.length at hend
  apply Option.ext
  intro e
  unfold scopedRows
  rw [KeyMap.get_insertAll_range]
  constructor
  · rintro ⟨i, _, hi, hrow, _⟩
    obtain ⟨hrow, hscope⟩ := scopedRow_eq_some.mp hrow
    have hi : i < sorted.length := by omega
    rw [rowAt_fileOf hfits hi] at hrow
    rw [if_pos hscope]
    exact hs.row_iff.mpr ⟨i, hi, Option.some.inj hrow⟩
  · intro hget
    split_ifs at hget with hscope
    obtain ⟨i, hi, hrow⟩ := hs.row_iff.mp hget
    have hpath : pathInScope (utf8 sorted[i].1) pfx = true := by rw [hrow]; exact hscope
    have hfirst := @SortedOf.edge_le_of_inScope _ epoch _ _ hs hfits pfx hi hpath
    have hlast := @SortedOf.lt_lastEdge_of_inScope _ epoch _ _ hs hfits pfx hi hpath
    refine ⟨i, hfirst, by omega, ?_, ?_⟩
    · rw [scopedRow_eq_some, rowAt_fileOf hfits hi, hrow]
      exact ⟨rfl, hscope⟩
    · intro j hij hj b hother
      have hj : j < sorted.length := by omega
      have hother := (scopedRow_eq_some.mp hother).1
      rw [rowAt_fileOf hfits hj] at hother
      have heq := hs.row_unique hi hj (by rw [hrow, Option.some.inj hother])
      omega

/-- The two parses of the file of a map. -/
theorem parses_fileOf (hs : SortedOf sorted m) (hfits : dataOffset sorted < 2 ^ 32)
    (epoch : SealEpoch) :
    (∃ c, parseV1 (fileOf sorted epoch) = .ok c ∧ (∀ path, c.entries.get path = m.get path) ∧
      c.sealEpoch = epoch.1) ∧
    ∀ scopePrefix, ∃ c, parseV1Scoped (fileOf sorted epoch) scopePrefix = .ok c ∧
      (∀ path, c.entries.get path =
        if path = scopePrefix ∨ utf8 (scopePrefix ++ "/") <+: utf8 path then m.get path else none) ∧
      c.sealEpoch = epoch.1 := by
  have hv := fileHeader_valid sorted epoch
  have hh := @parseHeader_fileOf sorted epoch hfits
  have hepoch : Bytes.slice (fileHeader sorted).bodyEnd sealEpochLen (fileOf sorted epoch) = epoch.1 := by
    have hslice := (sections_stand sorted epoch).2.2.2.2.slice_eq
    rwa [epoch.2] at hslice
  constructor
  · rcases parseV1_cases hv hh with ⟨⟨i, hi, pathBytes, hpath, htext⟩, _⟩ | ⟨_, hok⟩
    · rw [pathAt_fileOf hfits hi] at hpath
      cases hpath
      rw [fromUtf8_eq_some.mpr rfl] at htext
      cases htext
    · exact ⟨_, hok, rowsFrom_fileOf hs hfits, hepoch⟩
  · intro scopePrefix
    refine ⟨_, parseV1Scoped_eq hv hh scopePrefix, fun path => ?_, hepoch⟩
    simp only
    rw [scopedRows_fileOf hs hfits]
    simp only [pathInScope_utf8]

/-- **`cache_round_trips`** — where the offsets fit, the encoder's file of a cache is parsed to the
cache, and for a scope to the entries at the path or below it.  On any bytes both parsers reject or
return; what the scoped one has, the full one has a path for, and the same entry where the index is
sorted. -/
theorem cache_round_trips :
    (∀ (m : KeyMap String Entry) (order : List (String × Entry)) (epoch : SealEpoch),
      order.Perm m.pairs → dataOffset (sortEntries order) < 2 ^ 32 →
        ∃ bytes, encodeV1 order epoch = .ok bytes ∧
          (∃ c, parseV1 bytes = .ok c ∧ (∀ path, c.entries.get path = m.get path) ∧
            c.sealEpoch = epoch.1) ∧
          ∀ scopePrefix, ∃ c, parseV1Scoped bytes scopePrefix = .ok c ∧
            (∀ path, c.entries.get path =
              if path = scopePrefix ∨ utf8 (scopePrefix ++ "/") <+: utf8 path then m.get path
              else none) ∧
            c.sealEpoch = epoch.1) ∧
    ∀ (bytes : Bytes) (scopePrefix : String),
      (parseV1 bytes = .error .rejected ∨ ∃ c, parseV1 bytes = .ok c) ∧
      (parseV1Scoped bytes scopePrefix = .error .rejected ∨
        ∃ c, parseV1Scoped bytes scopePrefix = .ok c) ∧
      ∀ c c', parseV1 bytes = .ok c → parseV1Scoped bytes scopePrefix = .ok c' →
        ∀ path e, c'.entries.get path = some e →
          (∃ e', c.entries.get path = some e') ∧
            (SortedIndex bytes (headerOf bytes) → c.entries.get path = some e) := by
  constructor
  · intro m order epoch horder hfits
    exact ⟨_, encodeV1_ok hfits epoch, parses_fileOf (sortEntries_sortedOf horder) hfits epoch⟩
  · intro bytes scopePrefix
    obtain ⟨hfull, hscoped⟩ := parse_halts bytes scopePrefix
    refine ⟨hfull, hscoped, ?_⟩
    intro c c' hc hc' path e hget
    rcases parseHeader_cases bytes with herr | ⟨hh, hv⟩
    · rw [parseV1, herr] at hc
      cases hc
    · rw [parseV1Scoped_eq hv hh] at hc'
      cases hc'
      rcases parseV1_cases hv hh with ⟨_, herr⟩ | ⟨_, hok⟩
      · rw [herr] at hc
        cases hc
      · rw [hok] at hc
        cases hc
        exact ⟨scoped_paths ⟨e, hget⟩, fun hs => scoped_subset hs hget⟩

/-- A file between a directory and what is below it, and a time before 1970. -/
theorem three_paths_round_trip :
    let e : Entry := ⟨-1, 5, 7, 0, true, false⟩
    let m := ((KeyMap.empty.insert "foo/x" e).insert "foo-bar" e).insert "foo" e
    let epoch : SealEpoch := ⟨List.replicate 16 1, by decide⟩
    ∃ bytes, encodeV1 m.pairs epoch = .ok bytes ∧
      (∃ c, parseV1 bytes = .ok c ∧ (∀ path, c.entries.get path = m.get path) ∧
        c.sealEpoch = epoch.1) ∧
      ∃ c, parseV1Scoped bytes "foo" = .ok c ∧ c.entries.get "foo" = some e ∧
        c.entries.get "foo/x" = some e ∧ c.entries.get "foo-bar" = none := by
  intro e m epoch
  have hlen : dataOffset (sortEntries m.pairs) < 2 ^ 32 := by
    rw [dataOffset_sortEntries]
    decide
  obtain ⟨bytes, hok, hfull, hscoped⟩ := cache_round_trips.1 m m.pairs epoch (List.Perm.refl _) hlen
  obtain ⟨c, hc, hget, _⟩ := hscoped "foo"
  refine ⟨bytes, hok, hfull, c, hc, ?_, ?_, ?_⟩
  · rw [hget]
    decide
  · rw [hget]
    decide
  · rw [hget]
    decide

end Omemfs.Scan.CacheCodec
