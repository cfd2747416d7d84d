/-
# Omemfs.Pack.ColdTier — the cold shards through one compaction.

A cold entry is found only when the table slot of its hash names a shard file that holds it
(`AddressedTo`).  `apply_cold_entries` moves entries into the shard of slot 0 and repoints the
slots that named it, so an entry whose own slot names another shard is written where nothing looks
for it: `Applied.added` needs the two slots to agree.  `split_cold_shards` keeps every
addressed entry as long as slots stand for first bytes, that is for at most eight prefix bits
(`Split.kept`).
-/
import Omemfs.Pack.Compact

namespace Omemfs.Pack.Compact

open Lib

/-- The slot of `h` names a shard file with the entry `e` for `h`. -/
def AddressedTo (E : Env) (r : Remote) (ir : IndexRoot) (h : Hash) (e : IndexEntry) : Prop :=
  ∃ s f, ir.coldShards[ir.slotOf h]? = some s ∧ s ≠ zeroHash ∧ readIndexFile E r s = .ok f ∧
    f.find h = some e

/-- The cold table of a decoded root: at most 32 prefix bits, and one slot for each prefix. -/
def WellFormed (ir : IndexRoot) : Prop :=
  ir.coldPrefixBits.toNat ≤ 32 ∧ ir.coldShards.length = ir.coldShardCount

theorem slotOf_lt {ir : IndexRoot} (hw : WellFormed ir) (h : Hash) :
    ir.slotOf h < ir.coldShards.length := by
  rcases hw with ⟨hbits, hlen⟩
  rw [hlen, IndexRoot.slotOf, Hash.prefixBits_eq h (by omega), IndexRoot.coldShardCount]
  apply Nat.div_lt_of_lt_mul
  rw [← pow_add, show 256 - ir.coldPrefixBits.toNat + ir.coldPrefixBits.toNat = 256 by omega]
  exact h.isLt

theorem coldShards_ne_nil {ir : IndexRoot} (hw : WellFormed ir) : ir.coldShards ≠ [] := by
  intro hnil
  have hlen := hw.2
  rw [hnil, IndexRoot.coldShardCount] at hlen
  exact absurd hlen.symm (Nat.two_pow_pos _).ne'

section Cold

variable {E : Env} {ch : Choices} {r r' : Remote} {c c' : Cache} {ir ir' : IndexRoot}

/-- **`addressedTo_iff`** — an addressed entry is what the cold tier answers. -/
theorem addressedTo_iff {h : Hash} {e : IndexEntry} :
    AddressedTo E r ir h e ↔
      searchRemote E r h (IndexRoot.coldShardHashFor h ir).toList = .ok (some e) := by
  rw [IndexRoot.coldShardHashFor_eq, IndexRoot.coldShardHash]
  constructor
  · rintro ⟨s, f, hs, hne, hf, he⟩
    have hopt : hashOpt s = some s := hashOpt_eq_some.mpr ⟨hne, rfl⟩
    rw [hs]
    show searchRemote E r h (hashOpt s).toList = _
    rw [hopt]
    exact (searchRemote_singleton hf).trans (congrArg _ he)
  · intro hs
    rcases exists_file_of_searchRemote hs with ⟨k, hk, f, hf, he⟩
    rcases Option.bind_eq_some_iff.mp (Option.mem_toList.mp hk) with ⟨s, hslot, hopt⟩
    rcases hashOpt_eq_some.mp hopt with ⟨hne, rfl⟩
    exact ⟨s, f, hslot, hne, hf, he⟩

theorem AddressedTo.mono {h : Hash} {e : IndexEntry} (ha : AddressedTo E r ir h e)
    (hle : r.Le r') : AddressedTo E r' ir h e := by
  rcases ha with ⟨s, f, hs, hne, hf, he⟩
  exact ⟨s, f, hs, hne, readIndexFile_mono hle hf, he⟩

/-- The table alone decides what is addressed. -/
theorem AddressedTo.congr {h : Hash} {e : IndexEntry} (ha : AddressedTo E r ir h e)
    (hbits : ir'.coldPrefixBits = ir.coldPrefixBits) (hshards : ir'.coldShards = ir.coldShards) :
    AddressedTo E r ir' h e := by
  rcases ha with ⟨s, f, hs, hrest⟩
  refine ⟨s, f, ?_, hrest⟩
  rw [hshards, IndexRoot.slotOf, hbits]
  exact hs

/-! ## Writing index files -/

/-- **`writeIndexFile_spec`** — the file is there for every later reader. -/
theorem writeIndexFile_spec {es : List IndexEntry} {k : Hash}
    (hw : writeIndexFile E r es = .ok (k, r')) :
    r.Writes r' ∧ ∀ r'', r'.Le r'' → r''.Honest →
      k ≠ zeroHash ∧ readIndexFile E r'' k = .ok (IndexFile.new.pushAll es) := by
  rcases bind_eq_ok.mp hw with ⟨bytes, hser, hw⟩
  cases hw
  refine ⟨.one r _ _, ?_⟩
  intro r'' hle hon
  refine ⟨ne_zero_writeObject hon hle, ?_⟩
  exact bind_eq_ok.mpr
    ⟨bytes, plaintext_writeObject hon hle, IndexFile.deserialise_serialise hser⟩

/-- The bytes an index file is stored as. -/
def storedBytes (E : Env) (bytes : Bytes) : Bytes := encrypt E bytes (E.sha256 bytes).toBytes

theorem writeIndexFile_stored {es : List IndexEntry} {k : Hash}
    (hw : writeIndexFile E r es = .ok (k, r')) {r'' : Remote} (hle : r'.Le r'')
    (hon : r''.Honest) : ∃ bytes, (IndexFile.new.pushAll es).serialise = .ok bytes ∧
      r''.objects k = some (storedBytes E bytes) := by
  rcases bind_eq_ok.mp hw with ⟨bytes, hser, hw⟩
  cases hw
  exact ⟨bytes, hser, hon.objects_of_le hle (Remote.log_writeFrom ..)⟩

/-! ## Moving entries into the cold tier -/

/-- The entries of the shard of slot 0. -/
inductive SharedEntries (E : Env) (r : Remote) (ir : IndexRoot) : List IndexEntry → Prop
  | none (hzero : ir.coldShards.headD zeroHash = zeroHash) : SharedEntries E r ir []
  | file {f : IndexFile} (hzero : ir.coldShards.headD zeroHash ≠ zeroHash)
      (hf : readIndexFile E r (ir.coldShards.headD zeroHash) = .ok f) :
      SharedEntries E r ir f.entries

/-- What `apply_cold_entries` did: nothing, or a new shared shard with the old entries and the new
ones, in every slot that named the old one. -/
inductive Applied (E : Env) (r : Remote) (cold : List IndexEntry) (ir : IndexRoot) :
    IndexRoot → Remote → Prop
  | unchanged (hcold : cold = []) : Applied E r cold ir ir r
  | moved {shared : List IndexEntry} {newShard : Hash} {r' : Remote}
      (hshared : SharedEntries E r ir shared)
      (hwrite : writeIndexFile E r (shared ++ cold) = .ok (newShard, r')) :
      Applied E r cold ir
        { ir with
          coldShards := ir.coldShards.map fun slot =>
            if slot = ir.coldShards.headD zeroHash then newShard else slot } r'

theorem applyColdEntries_spec (hc : Faithful E r c) (hwf : WellFormed ir)
    {cold : List IndexEntry} (ha : applyColdEntries E r c cold ir = .ok (ir', r', c')) :
    Faithful E r' c' ∧ Applied E r cold ir ir' r' := by
  unfold applyColdEntries at ha
  split_ifs at ha with hempty hnil
  · exact absurd (List.isEmpty_iff.mp hnil) (coldShards_ne_nil hwf)
  · cases ha
    exact ⟨hc, .unchanged (List.isEmpty_iff.mp hempty)⟩
  · rcases bind_eq_ok.mp ha with ⟨⟨shared, c₁⟩, hshared, ha⟩
    rcases bind_eq_ok.mp ha with ⟨⟨newShard, r₁⟩, hwrite, ha⟩
    cases ha
    have hshared' : Faithful E r c' ∧ SharedEntries E r ir shared := by
      unfold loadSharedShard at hshared
      split_ifs at hshared with hzero
      · cases hshared
        exact ⟨hc, .none hzero⟩
      · rcases bind_eq_ok.mp hshared with ⟨⟨f, c₂⟩, hf, hshared⟩
        cases hshared
        rcases loadIndexFile_sound hc hf with ⟨hread, hc₂⟩
        exact ⟨hc₂, .file hzero hread⟩
    exact ⟨hshared'.1.mono (writeIndexFile_spec hwrite).1.le, .moved hshared'.2 hwrite⟩

theorem Applied.writes {cold : List IndexEntry} (ha : Applied E r cold ir ir' r') :
    r.Writes r' := by
  cases ha with
  | unchanged => exact .refl r
  | moved hshared hwrite => exact (writeIndexFile_spec hwrite).1

theorem Applied.same {cold : List IndexEntry} (ha : Applied E r cold ir ir' r') :
    ir'.hotHash = ir.hotHash ∧ ir'.deltaHashes = ir.deltaHashes ∧
      ir'.coldPrefixBits = ir.coldPrefixBits ∧
      ir'.coldShards.length = ir.coldShards.length := by
  cases ha with
  | unchanged => exact ⟨rfl, rfl, rfl, rfl⟩
  | moved hshared hwrite => exact ⟨rfl, rfl, rfl, List.length_map ..⟩

theorem Applied.wellFormed {cold : List IndexEntry} (ha : Applied E r cold ir ir' r')
    (hwf : WellFormed ir) : WellFormed ir' := by
  rcases ha.same with ⟨-, -, hbits, hlen⟩
  refine ⟨hbits ▸ hwf.1, ?_⟩
  rw [hlen, hwf.2, IndexRoot.coldShardCount, IndexRoot.coldShardCount, hbits]

/-- **`Applied.kept`** — an entry that was addressed stays so unless a moved one replaces it. -/
theorem Applied.kept {cold : List IndexEntry} (ha : Applied E r cold ir ir' r')
    {r'' : Remote} (hle : r'.Le r'') (hon : r''.Honest) {h : Hash} {e : IndexEntry}
    (he : AddressedTo E r'' ir h e) (hnot : ∀ x ∈ cold, x.hash ≠ h) : AddressedTo E r'' ir' h e := by
  cases ha with
  | unchanged => exact he
  | @moved shared newShard r' hshared hwrite =>
      rcases writeIndexFile_spec hwrite with ⟨hw, hread⟩
      rcases hread r'' hle hon with ⟨hne, hread⟩
      rcases he with ⟨s, f, hs, hzero, hf, hfind⟩
      by_cases hold : s = ir.coldShards.headD zeroHash
      · refine ⟨newShard, _, ?_, hne, hread, ?_⟩
        · show (ir.coldShards.map _)[ir.slotOf h]? = _
          rw [List.getElem?_map, hs, Option.map_some, if_pos hold]
        · have hshared' : shared = f.entries := by
            cases hshared with
            | none hz => exact absurd (hold.trans hz) hzero
            | file hz hg =>
                rw [← hold] at hg
                rw [readIndexFile_mono (hw.le.trans hle) hg] at hf
                cases hf
                rfl
          rw [IndexFile.pushAll_append, IndexFile.find_pushAll_of_notMem hnot, hshared',
            IndexFile.find_pushAll_entries, hfind]
          rfl
      · refine ⟨s, f, ?_, hzero, hf, hfind⟩
        show (ir.coldShards.map _)[ir.slotOf h]? = _
        rw [List.getElem?_map, hs, Option.map_some, if_neg hold]

/-- **`Applied.added`** — a moved entry is addressed when its slot named the shard of slot 0. -/
theorem Applied.added {cold : List IndexEntry} (ha : Applied E r cold ir ir' r')
    (hwf : WellFormed ir) {r'' : Remote} (hle : r'.Le r'') (hon : r''.Honest)
    (hnd : (cold.map IndexEntry.hash).Nodup) {e : IndexEntry} (he : e ∈ cold)
    (hslot : ir.coldShards[ir.slotOf e.hash]? = ir.coldShards[0]?) :
    AddressedTo E r'' ir' e.hash e := by
  cases ha with
  | unchanged hcold =>
      rw [hcold] at he
      cases he
  | @moved shared newShard r' hshared hwrite =>
      rcases (writeIndexFile_spec hwrite).2 r'' hle hon with ⟨hne, hread⟩
      refine ⟨newShard, _, ?_, hne, hread, ?_⟩
      · show (ir.coldShards.map _)[ir.slotOf e.hash]? = _
        rw [List.getElem?_map, hslot]
        cases hsh : ir.coldShards with
        | nil => exact absurd hsh (coldShards_ne_nil hwf)
        | cons s ss =>
            show some (if s = s then newShard else s) = _
            rw [if_pos rfl]
      · rw [IndexFile.pushAll_append]
        exact IndexFile.find_pushAll_of_nodup hnd he

/-! ## Splitting a shard -/

theorem largestShard_spec {ss seen : List Hash} {largest : Option Hash} {size : Nat} {s : Hash}
    (hl : largestShard r ss seen largest size = some s) :
    largest = some s ∨ s ∈ ss ∧ s ≠ zeroHash ∧
      ∃ b, r.objects s = some b ∧ coldShardSplitThreshold < b.length := by
  induction ss generalizing seen largest size with
  | nil => exact Or.inl hl
  | cons t ss ih =>
      unfold largestShard at hl
      simp only at hl
      split_ifs at hl with hskip hbig
      · exact (ih hl).imp_right fun ⟨hmem, hrest⟩ => ⟨List.mem_cons_of_mem t hmem, hrest⟩
      · rcases ih hl with hnew | ⟨hmem, hrest⟩
        · cases hnew
          refine Or.inr ⟨List.mem_cons_self .., fun hz => hskip (Or.inl hz), ?_⟩
          cases hobj : r.objects s with
          | none =>
              rw [Remote.size, Remote.openRead, hobj] at hbig
              exact absurd hbig.1 (Nat.not_lt_zero _)
          | some b =>
              rw [Remote.size, Remote.openRead, hobj] at hbig
              exact ⟨b, rfl, hbig.1⟩
        · exact Or.inr ⟨List.mem_cons_of_mem t hmem, hrest⟩
      · exact (ih hl).imp_right fun ⟨hmem, hrest⟩ => ⟨List.mem_cons_of_mem t hmem, hrest⟩

/-- What `split_cold_shards` did: nothing, or a split of one oversized shard by first byte. -/
inductive Split (E : Env) (r : Remote) (ir : IndexRoot) : IndexRoot → Remote → Prop
  | unchanged : Split E r ir ir r
  | split {old : Hash} {stored : Bytes} {f : IndexFile} {best : UInt8} {dedicated shared : Hash}
      {r₁ r' : Remote} (hmem : old ∈ ir.coldShards) (hzero : old ≠ zeroHash)
      (hstored : r.objects old = some stored)
      (hsize : coldShardSplitThreshold < stored.length) (hread : readIndexFile E r old = .ok f)
      (hdedicated : writeIndexFile E r
        (f.entries.filter fun e => e.hash.firstByte == best) = .ok (dedicated, r₁))
      (hshared : writeIndexFile E r₁
        (f.entries.filter fun e => !(e.hash.firstByte == best)) = .ok (shared, r')) :
      Split E r ir
        { widen ir with
          coldShards := (widen ir).coldShards.mapIdx fun i slot =>
            if slot = old then if i = best.toNat then dedicated else shared else slot } r'

theorem splitColdShards_spec (hc : Faithful E r c)
    (hs : splitColdShards E ch r c ir = .ok (ir', r', c')) :
    Faithful E r' c' ∧ Split E r ir ir' r' := by
  unfold splitColdShards at hs
  cases hl : largestShard r ir.coldShards [] none 0 with
  | none =>
      rw [hl] at hs
      cases hs
      exact ⟨hc, .unchanged⟩
  | some old =>
      rw [hl] at hs
      rcases bind_eq_ok.mp hs with ⟨⟨f, c₁⟩, hf, hs⟩
      rcases loadIndexFile_sound hc hf with ⟨hread, hc₁⟩
      cases hb : ch.bestPrefix f with
      | none =>
          simp only [hb] at hs
          cases hs
          exact ⟨hc₁, .unchanged⟩
      | some best =>
          simp only [hb] at hs
          rcases bind_eq_ok.mp hs with ⟨⟨dedicated, r₁⟩, hded, hs⟩
          rcases bind_eq_ok.mp hs with ⟨⟨shared, r₂⟩, hsh, hs⟩
          cases hs
          rcases largestShard_spec hl with hnone | ⟨hmem, hzero, b, hb, hsize⟩
          · cases hnone
          have hw := (writeIndexFile_spec hded).1.trans (writeIndexFile_spec hsh).1
          exact ⟨hc₁.mono hw.le, .split hmem hzero hb hsize hread hded hsh⟩

theorem Split.writes (hs : Split E r ir ir' r') : r.Writes r' := by
  cases hs with
  | unchanged => exact .refl r
  | split _ _ _ _ _ hded hsh => exact (writeIndexFile_spec hded).1.trans (writeIndexFile_spec hsh).1

theorem widen_same (ir : IndexRoot) :
    (widen ir).hotHash = ir.hotHash ∧ (widen ir).deltaHashes = ir.deltaHashes := by
  unfold widen
  split_ifs <;> exact ⟨rfl, rfl⟩

theorem widen_wellFormed (hwf : WellFormed ir) : WellFormed (widen ir) := by
  unfold widen
  split_ifs
  · refine ⟨by show (8 : UInt8).toNat ≤ 32; decide, ?_⟩
    show ((List.range (2 ^ 8)).map _).length = 2 ^ (8 : UInt8).toNat
    rw [List.length_map, List.length_range]
    rfl
  · exact hwf

theorem widen_bits (h : ir.coldPrefixBits.toNat ≤ 8) : (widen ir).coldPrefixBits.toNat = 8 := by
  unfold widen
  split_ifs with hlt
  · rfl
  · omega

/-- Widening the table names the same shard for every hash. -/
theorem widen_slot (hwf : WellFormed ir) (h : Hash) :
    (widen ir).coldShards[(widen ir).slotOf h]? = ir.coldShards[ir.slotOf h]? := by
  have hslot := slotOf_lt hwf h
  have hwide := slotOf_lt (widen_wellFormed hwf) h
  unfold widen at hwide ⊢
  split_ifs at hwide ⊢ with hlt
  · have hscale : 2 ^ 8 / ir.coldShardCount = 2 ^ (8 - ir.coldPrefixBits.toNat) :=
      Nat.pow_div hlt.le (by decide)
    -- the first byte, cut down to the old number of bits, is the old slot
    have hk : h.prefixBits 8 / 2 ^ (8 - ir.coldPrefixBits.toNat) = ir.slotOf h := by
      rw [IndexRoot.slotOf, Hash.prefixBits_eq h (by omega), Hash.prefixBits_eq h (by omega),
        Nat.div_div_eq_div_mul, ← pow_add]
      congr 2
      omega
    have hget : ((List.range (2 ^ 8)).map fun k => ir.coldShards.getD (k /
        (2 ^ 8 / ir.coldShardCount)) zeroHash)[h.prefixBits 8]? =
        some (ir.coldShards.getD (ir.slotOf h) zeroHash) := by
      rw [List.getElem?_map, hscale, List.getElem?_range, Option.map_some, hk]
      rw [Hash.prefixBits_eight]
      exact h.firstByte.toNat_lt
    refine hget.trans ?_
    rw [List.getD_eq_getElem?_getD, List.getElem?_eq_getElem hslot]
    rfl
  · rfl

theorem Split.same (hs : Split E r ir ir' r') (hwf : WellFormed ir) :
    ir'.hotHash = ir.hotHash ∧ ir'.deltaHashes = ir.deltaHashes ∧ WellFormed ir' := by
  cases hs with
  | unchanged => exact ⟨rfl, rfl, hwf⟩
  | split =>
      rcases widen_same ir with ⟨hhot, hdelta⟩
      rcases widen_wellFormed hwf with ⟨hbits, hlen⟩
      exact ⟨hhot, hdelta, hbits, (List.length_mapIdx ..).trans hlen⟩

/-- **`Split.kept`** — with at most eight prefix bits a split keeps every addressed entry. -/
theorem Split.kept (hs : Split E r ir ir' r') (hwf : WellFormed ir)
    (hbits : ir.coldPrefixBits.toNat ≤ 8 ∨ ir' = ir) {r'' : Remote} (hle : r'.Le r'')
    (hon : r''.Honest) {h : Hash} {e : IndexEntry} (he : AddressedTo E r'' ir h e) :
    AddressedTo E r'' ir' h e := by
  have hlew := hs.writes.le.trans hle
  cases hs with
  | unchanged => exact he
  | @split old stored f best dedicated shared r₁ r' hmem hne₀ hstored hsize hread hded hsh =>
      rcases hbits with hbits | hsame
      · rcases he with ⟨s, g, hslot, hzero, hg, hfind⟩
        rw [← widen_slot hwf h] at hslot
        by_cases hold : s = old
        · subst hold
          rw [readIndexFile_mono hlew hread] at hg
          cases hg
          rcases IndexFile.find_eq_some_iff.mp hfind with ⟨hin, rfl⟩
          have height : (widen ir).slotOf e.hash = e.hash.firstByte.toNat := by
            rw [IndexRoot.slotOf, widen_bits hbits]
            exact Hash.prefixBits_eight e.hash
          have hnd : ∀ p : IndexEntry → Bool,
              ((f.entries.filter p).map IndexEntry.hash).Nodup := fun p =>
            f.entries_nodup.sublist ((List.filter_sublist).map _)
          -- the slot is the first byte, so it tells the two new shards apart as the entries were
          by_cases hbest : e.hash.firstByte = best
          · rcases (writeIndexFile_spec hded).2 r''
              ((writeIndexFile_spec hsh).1.le.trans hle) hon with ⟨hne, hf⟩
            refine ⟨dedicated, _, ?_, hne, hf, ?_⟩
            · show ((widen ir).coldShards.mapIdx _)[(widen ir).slotOf e.hash]? = _
              rw [List.getElem?_mapIdx, hslot, height, hbest]
              simp
            · apply (IndexFile.find_ofEntries (hnd _)).mpr
              exact ⟨List.mem_filter.mpr ⟨hin, beq_iff_eq.mpr hbest⟩, rfl⟩
          · rcases (writeIndexFile_spec hsh).2 r'' hle hon with ⟨hne, hf⟩
            refine ⟨shared, _, ?_, hne, hf, ?_⟩
            · have hne' : e.hash.firstByte.toNat ≠ best.toNat := fun h =>
                hbest (UInt8.toNat_inj.mp h)
              show ((widen ir).coldShards.mapIdx _)[(widen ir).slotOf e.hash]? = _
              rw [List.getElem?_mapIdx, hslot, height]
              simp [hne']
            · apply (IndexFile.find_ofEntries (hnd _)).mpr
              refine ⟨List.mem_filter.mpr ⟨hin, ?_⟩, rfl⟩
              rw [beq_false_of_ne hbest]
              rfl
        · refine ⟨s, g, ?_, hzero, hg, hfind⟩
          show ((widen ir).coldShards.mapIdx _)[(widen ir).slotOf h]? = _
          rw [List.getElem?_mapIdx, hslot]
          simp [hold]
      · rw [hsame]
        exact he

/-! ## The new filter -/

/-- Every recorded shard was loaded. -/
theorem loadColdShardFiles_spec (hc : Faithful E r c) {ss seen : List Hash}
    {files : List IndexFile} (hl : loadColdShardFiles E r ss seen c = .ok (files, c')) :
    Faithful E r c' ∧ ∀ s ∈ ss, s ≠ zeroHash → s ∈ seen ∨
      ∃ f ∈ files, readIndexFile E r s = .ok f := by
  induction ss generalizing seen c files with
  | nil =>
      cases hl
      exact ⟨hc, fun s hs => nomatch hs⟩
  | cons t ss ih =>
      unfold loadColdShardFiles at hl
      split_ifs at hl with hskip
      · rcases ih hc hl with ⟨hc', hall⟩
        refine ⟨hc', ?_⟩
        intro s hs hzero
        rcases List.mem_cons.mp hs with rfl | hs
        · exact Or.inl (hskip.resolve_left hzero)
        · exact hall s hs hzero
      · rcases bind_eq_ok.mp hl with ⟨⟨f, c₁⟩, hf, hl⟩
        rcases bind_eq_ok.mp hl with ⟨⟨rest, c₂⟩, hrest, hl⟩
        cases hl
        rcases loadIndexFile_sound hc hf with ⟨hread, hc₁⟩
        rcases ih hc₁ hrest with ⟨hc', hall⟩
        refine ⟨hc', ?_⟩
        intro s hs hzero
        rcases List.mem_cons.mp hs with rfl | hs
        · exact Or.inr ⟨f, List.mem_cons_self .., hread⟩
        · rcases hall s hs hzero with hseen | ⟨g, hg, hgread⟩
          · rcases List.mem_cons.mp hseen with rfl | hseen
            · exact Or.inr ⟨f, List.mem_cons_self .., hread⟩
            · exact Or.inl hseen
          · exact Or.inr ⟨g, List.mem_cons_of_mem f hg, hgread⟩

/-- The new filter admits every hot entry and every entry of a loaded shard. -/
theorem mayContain_regenerateBloom {hot : List IndexEntry} {files : List IndexFile}
    {e : IndexEntry} (he : e ∈ hot ∨ ∃ f ∈ files, e ∈ f.entries) :
    (regenerateBloom E hot files).mayContain e.hash := by
  apply BloomFilter.mayContain_insertAll
  apply List.mem_map_of_mem
  rw [List.mem_append, List.mem_flatMap]
  exact he

end Cold

end Omemfs.Pack.Compact
