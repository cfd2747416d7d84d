/-
# Omemfs.Pack.ColdSplit — which cold shard tables can be split.

A split separates the entries of one first byte from the rest and gives the dedicated shard the slot
with the number of that byte.  Slots are numbered by first bytes in a table of eight bits, and a
narrower table is widened to one.  In a wider table the slot of that number belongs to other hashes: the
entries are found afterwards only if the byte is zero and they all lie in slot zero
(`splitColdShards_keeps_iff`).
-/
import Omemfs.Pack.Preserve

namespace Omemfs.Pack.Compact

open Lib

/-- Every entry of every recorded shard is found through its own slot. -/
def OwnSlots (E : Env) (r : Remote) (ir : IndexRoot) : Prop :=
  ∀ s ∈ ir.coldShards, s ≠ zeroHash → ∀ f, readIndexFile E r s = .ok f → ∀ e ∈ f.entries,
    IndexRoot.coldShardHashFor e.hash ir = some s

/-- What a split has to keep: the size of the table, the entries of the recorded shards, and every slot
that named another shard than the one that is split. -/
structure SplitKeeps (E : Env) (r r' : Remote) (ir ir' : IndexRoot) : Prop where
  slots : ir'.coldShards.length = ir'.coldShardCount
  found : ∀ s ∈ ir.coldShards, s ≠ zeroHash → ∀ f, readIndexFile E r s = .ok f → ∀ e ∈ f.entries,
    AddressedTo E r' ir' e.hash e
  others : ∀ h s, ir.coldShards[ir.slotOf h]? = some s →
    largestShard r ir.coldShards [] none 0 ≠ some s → ir'.coldShards[ir'.slotOf h]? = some s

/-- At most eight prefix bits, or the byte that is split off is zero and its entries all lie in slot
zero. -/
def SplitsAtByte (E : Env) (ch : Choices) (r : Remote) (ir : IndexRoot) : Prop :=
  ir.coldPrefixBits.toNat ≤ 8 ∨
    ∀ old f best, largestShard r ir.coldShards [] none 0 = some old → readIndexFile E r old = .ok f →
      ch.bestPrefix f = some best →
      best = 0 ∧ ∀ e ∈ f.entries, e.hash.firstByte = 0 → ir.slotOf e.hash = 0

/-- The table after a split. -/
def splitTable (ir : IndexRoot) (old : Hash) (best : UInt8) (dedicated shared : Hash) : IndexRoot :=
  { widen ir with
    coldShards := (widen ir).coldShards.mapIdx fun i slot =>
      if slot = old then if i = best.toNat then dedicated else shared else slot }

section Table

variable {ir : IndexRoot}

theorem splitTable_slot (hwf : WellFormed ir) (old : Hash) (best : UInt8) (dedicated shared : Hash)
    {h s : Hash} (hs : ir.coldShards[ir.slotOf h]? = some s) :
    (splitTable ir old best dedicated shared).coldShards[
        (splitTable ir old best dedicated shared).slotOf h]? =
      some (if s = old then if (widen ir).slotOf h = best.toNat then dedicated else shared else s) := by
  show ((widen ir).coldShards.mapIdx _)[(widen ir).slotOf h]? = _
  rw [List.getElem?_mapIdx, widen_slot hwf h, hs]
  rfl

theorem splitTable_length (hwf : WellFormed ir) (old : Hash) (best : UInt8) (dedicated shared : Hash) :
    (splitTable ir old best dedicated shared).coldShards.length =
      (splitTable ir old best dedicated shared).coldShardCount := by
  show ((widen ir).coldShards.mapIdx _).length = (widen ir).coldShardCount
  rw [List.length_mapIdx]
  exact (widen_wellFormed hwf).2

theorem OwnSlots.slot {E : Env} {r : Remote} (hown : OwnSlots E r ir) {s : Hash}
    (hs : s ∈ ir.coldShards) (hne : s ≠ zeroHash) {f : IndexFile} (hf : readIndexFile E r s = .ok f)
    {e : IndexEntry} (he : e ∈ f.entries) : ir.coldShards[ir.slotOf e.hash]? = some s := by
  have hfor := hown s hs hne f hf e he
  rw [IndexRoot.coldShardHashFor_eq, IndexRoot.coldShardHash] at hfor
  obtain ⟨s', hslot, hopt⟩ := Option.bind_eq_some_iff.mp hfor
  rw [hslot, (hashOpt_eq_some.mp hopt).2]

/-- A slot of a wide table is narrowed to the first byte by its further bits. -/
theorem slotOf_wide (hwf : WellFormed ir) (hwide : 8 < ir.coldPrefixBits.toNat) (h : Hash) :
    (widen ir).slotOf h = ir.slotOf h ∧
      ir.slotOf h / 2 ^ (ir.coldPrefixBits.toNat - 8) = h.firstByte.toNat := by
  constructor
  · rw [widen, if_neg (by omega)]
  · have hbits := hwf.1
    rw [← Hash.prefixBits_eight, IndexRoot.slotOf, Hash.prefixBits_eq h (by omega),
      Hash.prefixBits_eq h (by omega), Nat.div_div_eq_div_mul, ← pow_add]
    congr 2
    omega

end Table

section Split

variable {E : Env} {ch : Choices} {r r' : Remote} {c c' : Cache} {ir ir' : IndexRoot}

/-- **`splitColdShards_cases`** — nothing is split, or the picked shard by the picked byte. -/
theorem splitColdShards_cases (hc : Faithful E r c)
    (hs : splitColdShards E ch r c ir = .ok (ir', r', c')) :
    (ir' = ir ∧ r' = r ∧ (largestShard r ir.coldShards [] none 0 = none ∨
      ∃ old f, largestShard r ir.coldShards [] none 0 = some old ∧ readIndexFile E r old = .ok f ∧
        ch.bestPrefix f = none)) ∨
    ∃ old f best dedicated shared r₁, largestShard r ir.coldShards [] none 0 = some old ∧
      readIndexFile E r old = .ok f ∧ ch.bestPrefix f = some best ∧
      writeIndexFile E r (f.entries.filter fun e => e.hash.firstByte == best) = .ok (dedicated, r₁) ∧
      writeIndexFile E r₁ (f.entries.filter fun e => !(e.hash.firstByte == best)) = .ok (shared, r') ∧
      ir' = splitTable ir old best dedicated shared := by
  unfold splitColdShards at hs
  cases hl : largestShard r ir.coldShards [] none 0 with
  | none =>
      rw [hl] at hs
      cases hs
      exact .inl ⟨rfl, rfl, .inl rfl⟩
  | some old =>
      rw [hl] at hs
      obtain ⟨⟨f, c₁⟩, hf, hs⟩ := bind_eq_ok.mp hs
      obtain ⟨hread, -⟩ := loadIndexFile_sound hc hf
      cases hb : ch.bestPrefix f with
      | none =>
          simp only [hb] at hs
          cases hs
          exact .inl ⟨rfl, rfl, .inr ⟨old, f, rfl, hread, hb⟩⟩
      | some best =>
          simp only [hb] at hs
          obtain ⟨⟨dedicated, r₁⟩, hded, hs⟩ := bind_eq_ok.mp hs
          obtain ⟨⟨shared, r₂⟩, hsh, hs⟩ := bind_eq_ok.mp hs
          cases hs
          exact .inr ⟨old, f, best, dedicated, shared, r₁, rfl, hread, hb, hded, hsh, rfl⟩

/-- **`addressedTo_split_iff`** — an entry of the split shard is found when the slot tells it from the
others as its first byte does. -/
theorem addressedTo_split_iff (hwf : WellFormed ir) (hon : r'.Honest) {old : Hash} {f : IndexFile}
    {best : UInt8} {dedicated shared : Hash} {r₁ : Remote}
    (hded : writeIndexFile E r (f.entries.filter fun e => e.hash.firstByte == best) =
      .ok (dedicated, r₁))
    (hsh : writeIndexFile E r₁ (f.entries.filter fun e => !(e.hash.firstByte == best)) =
      .ok (shared, r'))
    {e : IndexEntry} (he : e ∈ f.entries) (hslot : ir.coldShards[ir.slotOf e.hash]? = some old) :
    AddressedTo E r' (splitTable ir old best dedicated shared) e.hash e ↔
      ((widen ir).slotOf e.hash = best.toNat ↔ e.hash.firstByte = best) := by
  have hnd : ∀ p : IndexEntry → Bool, ((f.entries.filter p).map IndexEntry.hash).Nodup := fun p =>
    f.entries_nodup.sublist ((List.filter_sublist).map _)
  obtain ⟨hne₁, hf₁⟩ := (writeIndexFile_spec hded).2 r' (writeIndexFile_spec hsh).1.le hon
  obtain ⟨hne₂, hf₂⟩ := (writeIndexFile_spec hsh).2 r' (.refl r') hon
  -- what the slot names, and what is found there
  have hread : ∀ {s g}, s ≠ zeroHash → readIndexFile E r' s = .ok g →
      (splitTable ir old best dedicated shared).coldShards[
        (splitTable ir old best dedicated shared).slotOf e.hash]? = some s →
      (AddressedTo E r' (splitTable ir old best dedicated shared) e.hash e ↔
        g.find e.hash = some e) := by
    intro s g hne hg hs
    constructor
    · rintro ⟨s', g', hs', -, hg', hfind⟩
      rw [hs] at hs'
      obtain rfl := Option.some.inj hs'
      rw [hg] at hg'
      cases hg'
      exact hfind
    · exact fun hfind => ⟨s, g, hs, hne, hg, hfind⟩
  have hnew := splitTable_slot hwf old best dedicated shared hslot
  rw [if_pos rfl] at hnew
  split_ifs at hnew with hbest
  · rw [hread hne₁ hf₁ hnew, IndexFile.find_ofEntries (hnd _), List.mem_filter, beq_iff_eq]
    simp [he, hbest]
  · rw [hread hne₂ hf₂ hnew, IndexFile.find_ofEntries (hnd _), List.mem_filter]
    simp [he, hbest]

/-- The picked shard is recorded. -/
theorem largestShard_mem {old : Hash} (hl : largestShard r ir.coldShards [] none 0 = some old) :
    old ∈ ir.coldShards ∧ old ≠ zeroHash := by
  rcases largestShard_spec hl with hnone | ⟨hmem, hne, -⟩
  · cases hnone
  · exact ⟨hmem, hne⟩

/-- Which tables tell the entries of a shard apart by their slots. -/
theorem splitsAtByte_iff (hwf : WellFormed ir) {old : Hash} {f : IndexFile} {best : UInt8}
    (hl : largestShard r ir.coldShards [] none 0 = some old) (hread : readIndexFile E r old = .ok f)
    (hbest : ch.bestPrefix f = some best) :
    SplitsAtByte E ch r ir ↔
      ∀ e ∈ f.entries, ((widen ir).slotOf e.hash = best.toNat ↔ e.hash.firstByte = best) := by
  by_cases hbits : ir.coldPrefixBits.toNat ≤ 8
  · refine iff_of_true (.inl hbits) fun e _ => ?_
    rw [IndexRoot.slotOf, widen_bits hbits, Hash.prefixBits_eight]
    exact UInt8.toNat_inj
  have hwide : 8 < ir.coldPrefixBits.toNat := by omega
  have hpow : 2 ≤ 2 ^ (ir.coldPrefixBits.toNat - 8) :=
    Nat.le_self_pow (by omega) 2
  constructor
  · rintro (h | h)
    · exact absurd h hbits
    · obtain ⟨rfl, hzero⟩ := h old f best hl hread hbest
      intro e he
      obtain ⟨hsame, hdiv⟩ := slotOf_wide hwf hwide e.hash
      rw [hsame]
      constructor
      · intro hslot
        rw [hslot] at hdiv
        exact UInt8.toNat_inj.mp (hdiv.symm.trans (Nat.zero_div _))
      · exact hzero e he
  · intro hall
    right
    intro old' f' best' hl' hread' hbest'
    obtain rfl := Option.some.inj (hl.symm.trans hl')
    rw [hread] at hread'
    cases hread'
    obtain rfl := Option.some.inj (hbest.symm.trans hbest')
    -- an entry of the byte that is split off lies in the slot with its number, so both are zero
    have hzero : best = 0 := by
      obtain ⟨e, he, hfirst⟩ := List.countP_pos_iff.mp (ch.bestPrefix_most f best hbest).1
      have hfirst : e.hash.firstByte = best := beq_iff_eq.mp hfirst
      obtain ⟨hsame, hdiv⟩ := slotOf_wide hwf hwide e.hash
      have hslot := (hall e he).mpr hfirst
      rw [hsame] at hslot
      rw [hslot, hfirst] at hdiv
      apply UInt8.toNat_inj.mp
      by_contra hpos
      have hlt := Nat.div_lt_self (Nat.pos_of_ne_zero hpos) hpow
      omega
    subst hzero
    refine ⟨rfl, fun e he hfirst => ?_⟩
    rw [← (slotOf_wide hwf hwide e.hash).1]
    exact (hall e he).mpr hfirst

/-- Where every entry is found after a split, the slots told the split ones apart. -/
theorem SplitKeeps.splitsAtByte (hkeeps : SplitKeeps E r r' ir ir') (hc : Faithful E r c)
    (hwf : WellFormed ir) (hown : OwnSlots E r ir)
    (hs : splitColdShards E ch r c ir = .ok (ir', r', c')) (hon : r'.Honest) :
    SplitsAtByte E ch r ir := by
  rcases splitColdShards_cases hc hs with ⟨rfl, rfl, hnone⟩ |
    ⟨old, f, best, dedicated, shared, r₁, hl, hread, hbest, hded, hsh, rfl⟩
  · -- nothing is split
    right
    intro old f best hl hf hbest
    rcases hnone with hnone | ⟨old', f', hl', hf', hnone⟩
    · rw [hnone] at hl
      cases hl
    · rw [hl'] at hl
      obtain rfl := Option.some.inj hl
      rw [hf'] at hf
      cases hf
      rw [hnone] at hbest
      cases hbest
  · rw [splitsAtByte_iff hwf hl hread hbest]
    obtain ⟨holdmem, holdne⟩ := largestShard_mem hl
    intro e he
    rw [← addressedTo_split_iff hwf hon hded hsh he (hown.slot holdmem holdne hread he)]
    exact hkeeps.found old holdmem holdne f hread e he

/-- **`splitColdShards_keeps_iff`** — a split keeps every entry addressable exactly for tables whose
slots tell the split entries apart. -/
theorem splitColdShards_keeps_iff (hc : Faithful E r c) (hwf : WellFormed ir) (hown : OwnSlots E r ir)
    (hs : splitColdShards E ch r c ir = .ok (ir', r', c')) (hon : r'.Honest) :
    SplitKeeps E r r' ir ir' ↔ SplitsAtByte E ch r ir := by
  refine ⟨fun hkeeps => hkeeps.splitsAtByte hc hwf hown hs hon, fun hat => ?_⟩
  rcases splitColdShards_cases hc hs with ⟨rfl, rfl, -⟩ |
    ⟨old, f, best, dedicated, shared, r₁, hl, hread, hbest, hded, hsh, rfl⟩
  · refine ⟨hwf.2, ?_, fun _ _ hslot _ => hslot⟩
    intro s hsmem hne f hf e he
    exact ⟨s, f, hown.slot hsmem hne hf he, hne, hf, IndexFile.find_eq_some_iff.mpr ⟨he, rfl⟩⟩
  have hall := (splitsAtByte_iff hwf hl hread hbest).mp hat
  have hle : r.Le r' := (writeIndexFile_spec hded).1.le.trans (writeIndexFile_spec hsh).1.le
  refine ⟨splitTable_length hwf old best dedicated shared, ?_, ?_⟩
  · intro s hsmem hne g hg e he
    have hslot := hown.slot hsmem hne hg he
    by_cases hold : s = old
    · subst hold
      rw [hread] at hg
      cases hg
      exact (addressedTo_split_iff hwf hon hded hsh he hslot).mpr (hall e he)
    · refine ⟨s, g, ?_, hne, readIndexFile_mono hle hg, IndexFile.find_eq_some_iff.mpr ⟨he, rfl⟩⟩
      rw [splitTable_slot hwf old best dedicated shared hslot, if_neg hold]
  · intro h s hslot hne
    have hold : s ≠ old := by
      rintro rfl
      exact hne hl
    rw [splitTable_slot hwf old best dedicated shared hslot, if_neg hold]

end Split

/-! ## A shard over the threshold -/

section Big

variable {n : Nat}

def bigHash (i : Nat) : Hash := BitVec.ofNat 256 (0xFF * 2 ^ 248 + i)

theorem toNat_bigHash {i : Nat} (h : i < 2 ^ 32) : (bigHash i).toNat = 0xFF * 2 ^ 248 + i := by
  rw [bigHash, BitVec.toNat_ofNat, Nat.mod_eq_of_lt]
  omega

def bigEntries (n : Nat) : List IndexEntry := (List.range n).map fun i => .standalone ⟨bigHash i⟩

theorem bigEntries_sorted (hn : n < 2 ^ 32) : SortedAssoc.Sorted IndexEntry.key (bigEntries n) := by
  unfold SortedAssoc.Sorted bigEntries
  rw [List.pairwise_map]
  refine List.pairwise_lt_range.imp_of_mem fun {i j} hi hj hlt => ?_
  have hi := List.mem_range.mp hi
  have hj := List.mem_range.mp hj
  show (bigHash i).toNat < (bigHash j).toNat
  rw [toNat_bigHash (by omega), toNat_bigHash (by omega)]
  omega

/-- A shard with `n` entries of the first byte `FF`. -/
def bigFile (n : Nat) (hn : n < 2 ^ 32) : IndexFile := ⟨bigEntries n, bigEntries_sorted hn⟩

theorem bigFile_firstByte (hn : n < 2 ^ 32) {e : IndexEntry} (he : e ∈ (bigFile n hn).entries) :
    e.hash.firstByte = 0xFF := by
  obtain ⟨i, hi, rfl⟩ := List.mem_map.mp he
  have hi := List.mem_range.mp hi
  apply UInt8.toNat_inj.mp
  rw [Hash.toNat_firstByte]
  show (bigHash i).toNat / 2 ^ 248 = 255
  rw [toNat_bigHash (by omega)]
  omega

/-- The written form of the shard. -/
def bigBytes (n : Nat) : Bytes :=
  IndexFile.magic ++ (IndexFile.version :: 0x00 ::
    (Bytes.toBE 4 n ++ (bigEntries n).flatMap IndexFile.writeEntry))

theorem serialise_bigFile (hn : n < 2 ^ 32) : (bigFile n hn).serialise = .ok (bigBytes n) := by
  have hlen : (bigFile n hn).entries.length = n := by
    show (List.map _ (List.range n)).length = n
    rw [List.length_map, List.length_range]
  have hsize : UInt32.size = 2 ^ 32 := rfl
  rw [IndexFile.serialise, hlen, if_neg (by omega)]
  rfl

theorem length_bigBytes (n : Nat) : (bigBytes n).length = 8 + 33 * n := by
  have hentries : ((bigEntries n).flatMap IndexFile.writeEntry).length = 33 * n := by
    have hone : ∀ i, (IndexFile.writeEntry (.standalone ⟨bigHash i⟩)).length = 33 := fun i => by
      simp [IndexFile.writeEntry]
    rw [bigEntries, List.flatMap_map, List.length_flatMap]
    simp [hone, Nat.mul_comm]
  simp only [bigBytes, List.length_append, List.length_cons, hentries, Bytes.length_toBE]
  show 2 + (4 + 33 * n + 1 + 1) = _
  omega

/-- A hash that tells objects of different lengths apart. -/
def lengthEnv : Env := { sampleEnv with sha256 := fun b => BitVec.ofNat 256 (b.length + 1) }

def bigShard (n : Nat) : Hash := lengthEnv.sha256 (bigBytes n)

theorem toNat_bigShard (hn : n < 2 ^ 32) : (bigShard n).toNat = 9 + 33 * n := by
  show (BitVec.ofNat 256 ((bigBytes n).length + 1)).toNat = _
  rw [length_bigBytes, BitVec.toNat_ofNat, Nat.mod_eq_of_lt]
  · omega
  · omega

def bigRemote (n : Nat) : Remote := Remote.ofObjects [(bigShard n, bigBytes n)] none

/-- A table whose slots all name the shard. -/
def bigRoot (n : Nat) (bits : UInt8) : IndexRoot :=
  { IndexRoot.newEmpty with
    coldPrefixBits := bits
    coldShards := List.replicate (2 ^ bits.toNat) (bigShard n) }

theorem bigRoot_wellFormed (n : Nat) {bits : UInt8} (hbits : bits.toNat ≤ 32) :
    WellFormed (bigRoot n bits) :=
  ⟨hbits, List.length_replicate⟩

theorem bigShard_ne (hn : n < 2 ^ 32) : bigShard n ≠ zeroHash := by
  intro hzero
  have hnat := congrArg BitVec.toNat hzero
  rw [toNat_bigShard hn] at hnat
  exact absurd hnat (by show ¬ 9 + 33 * n = 0; omega)

theorem objects_bigRemote (n : Nat) : (bigRemote n).objects (bigShard n) = some (bigBytes n) := by
  show List.lookup _ _ = _
  rw [List.lookup_cons, beq_self_eq_true]

theorem readIndexFile_bigShard (hn : n < 2 ^ 32) :
    readIndexFile lengthEnv (bigRemote n) (bigShard n) = .ok (bigFile n hn) := by
  have hplain : plaintext lengthEnv (bigRemote n) (bigShard n) = .ok (bigBytes n) :=
    bind_eq_ok.mpr ⟨_, Remote.openRead_eq_ok.mpr (objects_bigRemote n), rfl⟩
  exact bind_eq_ok.mpr ⟨_, hplain, IndexFile.deserialise_serialise (serialise_bigFile hn)⟩

theorem bigRoot_ownSlots (n : Nat) {bits : UInt8} (hbits : bits.toNat ≤ 32) :
    OwnSlots lengthEnv (bigRemote n) (bigRoot n bits) := by
  intro s hs hne f _ e _
  obtain rfl : s = bigShard n := List.eq_of_mem_replicate hs
  have hlt := slotOf_lt (bigRoot_wellFormed n hbits) e.hash
  rw [IndexRoot.coldShardHashFor_eq, IndexRoot.coldShardHash]
  have hslot : (bigRoot n bits).coldShards[(bigRoot n bits).slotOf e.hash]? = some (bigShard n) := by
    rw [List.getElem?_eq_getElem hlt]
    exact congrArg some (List.getElem_replicate _)
  rw [hslot]
  exact hashOpt_eq_some.mpr ⟨hne, rfl⟩

theorem largestShard_replicate (r : Remote) (s : Hash) (k : Nat) {seen : List Hash} (hs : s ∈ seen)
    (largest : Option Hash) (size : Nat) :
    largestShard r (List.replicate k s) seen largest size = largest := by
  induction k with
  | zero => rfl
  | succ k ih => rw [List.replicate_succ, largestShard, if_pos (.inr hs), ih]

theorem largestShard_bigRoot (hn : n < 2 ^ 32) (hbig : coldShardSplitThreshold < 8 + 33 * n)
    (bits : UInt8) :
    largestShard (bigRemote n) (bigRoot n bits).coldShards [] none 0 = some (bigShard n) := by
  obtain ⟨k, hk⟩ := Nat.exists_eq_succ_of_ne_zero (Nat.two_pow_pos bits.toNat).ne'
  have hsize : ((bigRemote n).size (bigShard n)).toOption.getD 0 = 8 + 33 * n := by
    rw [Remote.size, Remote.openRead_eq_ok.mpr (objects_bigRemote n), ← length_bigBytes n]
    rfl
  show largestShard _ (List.replicate (2 ^ bits.toNat) _) _ _ _ = _
  rw [hk, List.replicate_succ, largestShard, if_neg]
  · simp only [hsize]
    rw [if_pos ⟨hbig, by omega⟩]
    exact largestShard_replicate _ _ _ (List.mem_cons_self ..) _ _
  · rintro (hzero | hmem)
    · exact bigShard_ne hn hzero
    · cases hmem

theorem bestPrefix_bigFile (hn : n < 2 ^ 32) (hpos : 0 < n) (ch : Choices) :
    ch.bestPrefix (bigFile n hn) = some 0xFF := by
  cases hbest : ch.bestPrefix (bigFile n hn) with
  | none =>
      have hnil : List.map _ (List.range n) = [] := ch.bestPrefix_isNone _ hbest
      have hlen := congrArg List.length hnil
      rw [List.length_map, List.length_range, List.length_nil] at hlen
      omega
  | some best =>
      obtain ⟨e, he, hfirst⟩ := List.countP_pos_iff.mp (ch.bestPrefix_most _ best hbest).1
      rw [← beq_iff_eq.mp hfirst, bigFile_firstByte hn he]

/-- The remote with both parts of the shard; the part of the other bytes is empty. -/
def bigSplitRemote (n : Nat) : Remote :=
  ((bigRemote n).writeFrom (bigShard n) (bigBytes n)).writeFrom 9 [0xED, 0xE2, 1, 0, 0, 0, 0, 0]

theorem bigSplitRemote_honest (hn : n < 2 ^ 32) (hpos : 0 < n) : (bigSplitRemote n).Honest := by
  have hne : bigShard n ≠ 9 := by
    intro heq
    have hnat := congrArg BitVec.toNat heq
    rw [toNat_bigShard hn] at hnat
    exact absurd hnat (by show ¬ 9 + 33 * n = 9; omega)
  have hnine : (bigRemote n).objects 9 = none := by
    show List.lookup _ _ = _
    rw [List.lookup_cons, beq_false_of_ne hne.symm]
    rfl
  intro w hw
  rcases List.mem_cons.mp hw with rfl | hw
  · refine ⟨by decide, ?_⟩
    show some ((if (9 : Hash) = bigShard n then _ else (bigRemote n).objects 9).getD _) = _
    rw [if_neg hne.symm, hnine]
    rfl
  · obtain rfl : w = (bigShard n, bigBytes n) := List.mem_singleton.mp hw
    refine ⟨bigShard_ne hn, ?_⟩
    show (if bigShard n = (9 : Hash) then _ else if bigShard n = bigShard n then
      some (((bigRemote n).objects (bigShard n)).getD _) else _) = _
    rw [if_neg hne, if_pos rfl, objects_bigRemote n]
    rfl

/-- **`splitColdShards_bigRoot`** — the shard is split, whatever the width of the table. -/
theorem splitColdShards_bigRoot (hn : n < 2 ^ 32) (hbig : coldShardSplitThreshold < 8 + 33 * n)
    (bits : UInt8) :
    ∃ c', splitColdShards lengthEnv (sampleChoices fun _ => true) (bigRemote n) (fun _ => none)
      (bigRoot n bits) =
        .ok (splitTable (bigRoot n bits) (bigShard n) 0xFF (bigShard n) 9, bigSplitRemote n, c') := by
  obtain ⟨c', hload, -⟩ := loadIndexFile_complete (faithful_empty lengthEnv (bigRemote n))
    (readIndexFile_bigShard hn)
  have hpos : 0 < n := by
    have hmax : 8 < coldShardSplitThreshold := by decide
    omega
  have hall : (bigFile n hn).entries.filter (fun e => e.hash.firstByte == 0xFF) = bigEntries n :=
    List.filter_eq_self.mpr fun e he => by rw [bigFile_firstByte hn he]; rfl
  have hrest : (bigFile n hn).entries.filter (fun e => !(e.hash.firstByte == 0xFF)) = [] :=
    List.filter_eq_nil_iff.mpr fun e he => by rw [bigFile_firstByte hn he]; decide
  have hpush : IndexFile.new.pushAll (bigEntries n) = bigFile n hn := by
    apply IndexFile.ext
    rw [IndexFile.entries_pushAll]
    exact SortedAssoc.upsertAll_of_sorted _ (bigEntries_sorted hn)
  have hdedicated : writeIndexFile lengthEnv (bigRemote n) (bigEntries n) =
      .ok (bigShard n, (bigRemote n).writeFrom (bigShard n) (bigBytes n)) := by
    rw [writeIndexFile, hpush, serialise_bigFile hn]
    rfl
  refine ⟨c', ?_⟩
  unfold splitColdShards
  rw [largestShard_bigRoot hn hbig]
  simp only [hload, bestPrefix_bigFile hn hpos, hall, hrest, hdedicated, bind, Except.bind]
  rfl

end Big

/-- A fresh table is widened, and the shard found through it. -/
theorem split_keeps_narrow :
    ∃ ir' r' c', splitColdShards lengthEnv (sampleChoices fun _ => true) (bigRemote 130000)
      (fun _ => none) (bigRoot 130000 0) = .ok (ir', r', c') ∧
      SplitKeeps lengthEnv (bigRemote 130000) r' (bigRoot 130000 0) ir' := by
  have hn : 130000 < 2 ^ 32 := by omega
  obtain ⟨c', hs⟩ := splitColdShards_bigRoot hn (by decide) 0
  refine ⟨_, _, c', hs, ?_⟩
  exact (splitColdShards_keeps_iff (faithful_empty _ _) (bigRoot_wellFormed 130000 (by decide))
    (bigRoot_ownSlots 130000 (by decide)) hs (bigSplitRemote_honest hn (by omega))).mpr
    (.inl (by decide))

/-- **`split_loses_wide`** — a table of nine bits: the slots `1FE` and `1FF` of the entries name the
shared shard afterwards, which has none of them. -/
theorem split_loses_wide :
    ∃ ir' r' c', WellFormed (bigRoot 130000 9) ∧
      OwnSlots lengthEnv (bigRemote 130000) (bigRoot 130000 9) ∧
      splitColdShards lengthEnv (sampleChoices fun _ => true) (bigRemote 130000) (fun _ => none)
        (bigRoot 130000 9) = .ok (ir', r', c') ∧ r'.Honest ∧
      ¬ SplitKeeps lengthEnv (bigRemote 130000) r' (bigRoot 130000 9) ir' := by
  have hn : 130000 < 2 ^ 32 := by omega
  have hbig : coldShardSplitThreshold < 8 + 33 * 130000 := by decide
  have hwf := @bigRoot_wellFormed 130000 9 (by decide)
  have hown := @bigRoot_ownSlots 130000 9 (by decide)
  have hon := bigSplitRemote_honest hn (by omega)
  obtain ⟨c', hs⟩ := splitColdShards_bigRoot hn hbig 9
  refine ⟨_, _, c', hwf, hown, hs, hon, fun hkeeps => ?_⟩
  rcases hkeeps.splitsAtByte (faithful_empty _ _) hwf hown hs hon with hnarrow | hzero
  · exact absurd hnarrow (by decide)
  · obtain ⟨habs, -⟩ := hzero (bigShard 130000) (bigFile 130000 hn) 0xFF (largestShard_bigRoot hn hbig 9)
      (readIndexFile_bigShard hn) (bestPrefix_bigFile hn (by omega) _)
    exact absurd habs (by decide)

end Omemfs.Pack.Compact
