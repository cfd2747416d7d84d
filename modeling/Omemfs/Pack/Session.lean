/-
# Omemfs.Pack.Session — what a writer owes for every object it has been given.

`SessionInv` is the invariant of a writer between `new` and `finish`: every delta entry and every
pending slice stands for an object that was written, with its bytes; every object written is in one
of the two; the filter admits it.  Entries are judged by what any honest later remote gives for them
(`Backs`), so the invariant survives whatever other clients add to the remote in between.

`staged_root` then says what the published root is made of, and `staged_lookup` that a hash written
in the session resolves through it to the bytes written, while every other hash is looked up
exactly as in the root it replaced.
-/
import Omemfs.Pack.Writer

namespace Omemfs.Pack

open Lib

/-- Any honest remote that extends `r` gives the bytes `b` for the entry. -/
def Backs (r : Remote) (e : IndexEntry) (b : Bytes) : Prop :=
  ∀ r', r.Le r' → r'.Honest → payload r' e.hash e = some b

theorem Backs.mono {r r' : Remote} (hle : r.Le r') {e : IndexEntry} {b : Bytes}
    (h : Backs r e b) : Backs r' e b :=
  fun r'' hle' hon => h r'' (hle.trans hle') hon

/-- The objects a session has written, latest first. -/
abbrev Written := List (Hash × Bytes)

structure SessionInv (E : Env) (r : Remote) (w : PackWriter) (written : Written) : Prop where
  cache : Faithful E r w.objcache
  pending : ∀ p ∈ w.pending, ∃ b, (p.1, b) ∈ written ∧
    p.2.1.toNat + p.2.2.toNat ≤ w.packBuf.length ∧
    Bytes.slice p.2.1.toNat p.2.2.toNat w.packBuf = b
  delta : ∀ h e, w.delta.find h = some e → ∃ b, (h, b) ∈ written ∧ Backs r e b
  covered : ∀ x ∈ written, (w.delta.find x.1).isSome ∨ ∃ p ∈ w.pending, p.1 = x.1
  bloom : ∀ x ∈ written, w.bloom.mayContain x.1

namespace SessionInv

variable {E : Env} {r : Remote} {w : PackWriter} {written : Written}

theorem mono {r' : Remote} (hle : r.Le r') (hi : SessionInv E r w written) :
    SessionInv E r' w written where
  cache := hi.cache.mono hle
  pending := hi.pending
  delta := fun h e he => by
    obtain ⟨b, hb, hback⟩ := hi.delta h e he
    exact ⟨b, hb, hback.mono hle⟩
  covered := hi.covered
  bloom := hi.bloom

/-- A writer that was just opened owes nothing. -/
theorem new {c : Cache} (hc : Faithful E r c) (hw : PackWriter.new E r c = .ok w) :
    SessionInv E r w [] := by
  obtain ⟨root, _, hw⟩ := bind_eq_ok.mp hw
  obtain ⟨bloom, _, hw⟩ := bind_eq_ok.mp hw
  cases hw
  exact ⟨hc, fun p hp => (nomatch hp), fun h e he => (nomatch he), fun x hx => (nomatch hx),
    fun x hx => (nomatch hx)⟩

theorem withCache (hi : SessionInv E r w written) {c : Cache} (hc : Faithful E r c) :
    SessionInv E r { w with objcache := c } written :=
  ⟨hc, hi.pending, hi.delta, hi.covered, hi.bloom⟩

/-! ## Flushing the pack buffer -/

/-- A slice of the flushed buffer is read back out of the pack file. -/
theorem backs_pack {packBuf : Bytes} {h : Hash} {o l : UInt32} {b : Bytes}
    (hend : o.toNat + l.toNat ≤ packBuf.length)
    (hslice : Bytes.slice o.toNat l.toNat packBuf = b) :
    Backs (r.writeFrom (E.sha256 (packMagic ++ packBuf)) (packMagic ++ packBuf))
      (.pack ⟨h, E.sha256 (packMagic ++ packBuf), o, l⟩) b := by
  intro r' hle hon
  have hobj : r'.objects (E.sha256 (packMagic ++ packBuf)) = some (packMagic ++ packBuf) :=
    hon.objects_of_le hle (Remote.log_writeFrom ..)
  have hroom : packBodyOffset + o.toNat + l.toNat ≤ (packMagic ++ packBuf).length := by
    rw [List.length_append, show packMagic.length = 2 from rfl, packBodyOffset]
    omega
  have hcut : Bytes.slice (packBodyOffset + o.toNat) l.toNat (packMagic ++ packBuf) = b := by
    rw [← hslice, Bytes.slice, Bytes.slice, ← List.drop_drop,
      List.drop_left' (show packMagic.length = packBodyOffset from rfl)]
  show packSlice r' _ o l = some b
  rw [packSlice, hobj]
  simp only [bind, Option.bind, hroom, if_true, hcut]

theorem flushPack (hi : SessionInv E r w written) :
    SessionInv E (PackWriter.flushPack E r w).1 (PackWriter.flushPack E r w).2 written ∧
      (PackWriter.flushPack E r w).2.pending = [] := by
  unfold PackWriter.flushPack
  split_ifs with hp
  · exact ⟨hi, List.isEmpty_iff.mp hp⟩
  · refine ⟨⟨hi.cache.mono (Remote.le_writeFrom ..), fun p hp => (nomatch hp), ?_, ?_, hi.bloom⟩,
      rfl⟩
    · intro h e he
      rcases IndexFile.mem_of_find_pushAll he with hmem | hold
      · obtain ⟨p, hp, rfl⟩ := List.mem_map.mp hmem
        obtain ⟨b, hb, hend, hslice⟩ := hi.pending p hp
        have hh : p.1 = h := IndexFile.hash_of_find he
        subst hh
        exact ⟨b, hb, backs_pack hend hslice⟩
      · obtain ⟨b, hb, hback⟩ := hi.delta h e hold
        exact ⟨b, hb, hback.mono (Remote.le_writeFrom ..)⟩
    · intro x hx
      left
      rw [IndexFile.find_pushAll_isSome]
      rcases hi.covered x hx with hd | ⟨p, hp, hpx⟩
      · exact Or.inr hd
      · exact Or.inl ⟨_, List.mem_map_of_mem hp, hpx⟩

theorem flushPack_packBuf (hlt : w.packBuf.length < packTarget ∨ w.pending ≠ []) :
    (PackWriter.flushPack E r w).2.packBuf.length < packTarget := by
  unfold PackWriter.flushPack
  split_ifs with hp
  · exact hlt.resolve_right (not_not.mpr (List.isEmpty_iff.mp hp))
  · show ([] : Bytes).length < packTarget
    decide

/-! ## Routing -/

theorem push (hi : SessionInv E r w written) {r' : Remote} (hle : r.Le r') {e : IndexEntry}
    {b : Bytes} (hback : Backs r' e b) :
    SessionInv E r' { w with delta := w.delta.push e, bloom := w.bloom.insert e.hash }
      ((e.hash, b) :: written) where
  cache := hi.cache.mono hle
  pending := fun p hp => by
    obtain ⟨b', hb', hrest⟩ := hi.pending p hp
    exact ⟨b', List.mem_cons_of_mem _ hb', hrest⟩
  delta := fun h e' he => by
    rw [IndexFile.find_push] at he
    split_ifs at he with hh
    · cases he
      exact ⟨b, hh ▸ List.mem_cons_self .., hback⟩
    · obtain ⟨b', hb', hback'⟩ := hi.delta h e' he
      exact ⟨b', List.mem_cons_of_mem _ hb', hback'.mono hle⟩
  covered := fun x hx => by
    rcases List.mem_cons.mp hx with rfl | hx
    · left
      rw [IndexFile.find_push, if_pos rfl]
      rfl
    · refine (hi.covered x hx).imp_left fun hd => ?_
      rw [IndexFile.find_push]
      split_ifs
      · rfl
      · exact hd
  bloom := fun x hx => by
    rcases List.mem_cons.mp hx with rfl | hx
    · exact BloomFilter.mayContain_insert_self _ _
    · exact BloomFilter.mayContain_insert_of_mayContain (hi.bloom x hx)

theorem append (hi : SessionInv E r w written) {h : Hash} {b : Bytes}
    (hbuf : w.packBuf.length < packTarget) (hb : b.length < packThreshold) :
    SessionInv E r
      { w with
        packBuf := w.packBuf ++ b
        pending := w.pending ++ [(h, UInt32.ofNat w.packBuf.length, UInt32.ofNat b.length)]
        bloom := w.bloom.insert h }
      ((h, b) :: written) where
  cache := hi.cache
  pending := fun p hp => by
    rcases List.mem_append.mp hp with hp | hp
    · obtain ⟨b', hb', hend, hslice⟩ := hi.pending p hp
      refine ⟨b', List.mem_cons_of_mem _ hb', ?_, ?_⟩
      · rw [List.length_append]
        omega
      · rw [← hslice]
        exact Bytes.slice_append_left hend b
    · obtain rfl := List.mem_singleton.mp hp
      have htarget : packTarget = 4194304 := rfl
      have hthreshold : packThreshold = 1048576 := rfl
      have ho : (UInt32.ofNat w.packBuf.length).toNat = w.packBuf.length := by
        rw [UInt32.toNat_ofNat']
        omega
      have hl : (UInt32.ofNat b.length).toNat = b.length := by
        rw [UInt32.toNat_ofNat']
        omega
      refine ⟨b, List.mem_cons_self .., ?_, ?_⟩
      · rw [ho, hl, List.length_append]
      · rw [ho, hl]
        exact Bytes.slice_append_right w.packBuf b
  delta := fun h' e he => by
    obtain ⟨b', hb', hback⟩ := hi.delta h' e he
    exact ⟨b', List.mem_cons_of_mem _ hb', hback⟩
  covered := fun x hx => by
    rcases List.mem_cons.mp hx with rfl | hx
    · exact Or.inr ⟨_, List.mem_append_right _ (List.mem_singleton_self _), rfl⟩
    · rcases hi.covered x hx with hd | ⟨p, hp, hpx⟩
      · exact Or.inl hd
      · exact Or.inr ⟨p, List.mem_append_left _ hp, hpx⟩
  bloom := fun x hx => by
    rcases List.mem_cons.mp hx with rfl | hx
    · exact BloomFilter.mayContain_insert_self _ _
    · exact BloomFilter.mayContain_insert_of_mayContain (hi.bloom x hx)

/-- **`route`** — routing an object, whatever its size, keeps what the writer owes and adds the
object; the pack buffer stays below its target. -/
theorem route (hi : SessionInv E r w written) (hbuf : w.packBuf.length < packTarget) (h : Hash)
    (b : Bytes) :
    SessionInv E (PackWriter.route E r w h b).1 (PackWriter.route E r w h b).2
      ((h, b) :: written) ∧
      (PackWriter.route E r w h b).2.packBuf.length < packTarget := by
  unfold PackWriter.route
  split_ifs with hinline hpack
  · exact ⟨hi.push (Remote.Le.refl r) (e := .inline ⟨h, b, hinline⟩) fun _ _ _ => rfl, hbuf⟩
  · have happ := hi.append (h := h) hbuf hpack
    simp only
    split_ifs with hfull
    · exact ⟨(happ.flushPack).1, flushPack_packBuf (Or.inr (by simp))⟩
    · exact ⟨happ, by simpa using fun hge => hfull (Or.inl hge)⟩
  · refine ⟨hi.push (Remote.le_writeFrom ..) (e := .standalone ⟨h⟩) fun r' hle hon => ?_, hbuf⟩
    have hobj : r'.objects h = some (PackWriter.escapeStandalone b) :=
      hon.objects_of_le hle (Remote.log_writeFrom ..)
    show (r'.objects h).map unescapeStandalone = some b
    rw [hobj, Option.map_some, PackWriter.unescape_escape]

/-! ## Asking -/

/-- A positive answer of `exists` was written in the session or is indexed by the snapshot. -/
theorem existsObj_sound (hi : SessionInv E r w written) {h : Hash} {w' : PackWriter}
    (hx : PackWriter.existsObj E r w h = .ok (true, w')) :
    (∃ b, (h, b) ∈ written) ∨
      w.bloom.mayContain h ∧
        ∃ ir e, w.snapshotRoot = some ir ∧ lookup E r ir h = .ok (some e) := by
  unfold PackWriter.existsObj at hx
  split_ifs at hx with hdelta hpend hmay
  · obtain ⟨e, he⟩ := Option.isSome_iff_exists.mp hdelta
    obtain ⟨b, hb, _⟩ := hi.delta h e he
    exact Or.inl ⟨b, hb⟩
  · obtain ⟨p, hp, hph⟩ := List.any_eq_true.mp hpend
    obtain ⟨b, hb, _⟩ := hi.pending p hp
    have hph : p.1 = h := by simpa using hph
    exact Or.inl ⟨b, hph ▸ hb⟩
  · cases hx
  · refine Or.inr ⟨by simpa using hmay, ?_⟩
    unfold PackWriter.indexContains at hx
    split at hx
    · cases hx
    · next ir hir =>
        obtain ⟨⟨found, c⟩, hs, hx⟩ := bind_eq_ok.mp hx
        cases found with
        | none => cases hx
        | some e => exact ⟨ir, e, hir, (Reader.searchFiles_sound hi.cache hs).1⟩

/-- `exists` keeps what the writer owes. -/
theorem existsObj (hi : SessionInv E r w written) {h : Hash} {b : Bool} {w' : PackWriter}
    (hx : PackWriter.existsObj E r w h = .ok (b, w')) : SessionInv E r w' written := by
  unfold PackWriter.existsObj at hx
  split_ifs at hx
  · cases hx
    exact hi
  · cases hx
    exact hi
  · cases hx
    exact hi
  · unfold PackWriter.indexContains at hx
    split at hx
    · cases hx
      exact hi
    · obtain ⟨⟨found, c⟩, hs, hx⟩ := bind_eq_ok.mp hx
      cases hx
      exact hi.withCache (Reader.searchFiles_sound hi.cache hs).2

end SessionInv

/-! ## The published root -/

/-- `ir` is built on `base`: the same hot index and cold table, the filter `bloom`, and the delta
file in front of the delta list unless it is empty. -/
structure BuiltOn (E : Env) (rs : Remote) (delta : IndexFile) (bloom : BloomFilter)
    (base ir : IndexRoot) : Prop where
  hot : ir.hotHash = base.hotHash
  bits : ir.coldPrefixBits = base.coldPrefixBits
  shards : ir.coldShards = base.coldShards
  filter : ∀ r', rs.Le r' → r'.Honest →
    ir.bloomHash ≠ zeroHash ∧ readBloomFilter E r' ir.bloomHash = .ok bloom
  deltas : (delta.isEmpty ∧ ir.deltaHashes = base.deltaHashes) ∨
    delta.isEmpty = false ∧ ∃ k, ir.deltaHashes = k :: base.deltaHashes ∧
      ∀ r', rs.Le r' → r'.Honest → readIndexFile E r' k = .ok delta

/-- **`staged_root`** — what `finish` stages is built on the captured root. -/
theorem staged_root {E : Env} {r rs : Remote} {w : PackWriter} {nonce raw : Bytes} {root : Hash}
    {ir : IndexRoot} (hs : PackWriter.Staged E r w nonce root ir raw rs) :
    ∃ base, PackWriter.baseRoot E (PackWriter.flushPack E r w).2 = .ok base ∧
      ir.remoteRoot = root ∧ encryptIndexRootBytes E nonce ir = .ok raw ∧
      BuiltOn E rs (PackWriter.flushPack E r w).2.delta w.bloom base ir := by
  obtain @⟨base, irDelta, rDelta, raw, hbase, hdelta, henc⟩ := hs
  refine ⟨base, hbase, rfl, henc, ?_⟩
  have hfilter : ∀ r', (writeObject E rDelta w.bloom.serialise).2.Le r' → r'.Honest →
      (writeObject E rDelta w.bloom.serialise).1 ≠ zeroHash ∧
        readBloomFilter E r' (writeObject E rDelta w.bloom.serialise).1 = .ok w.bloom :=
    fun r' hle hon => ⟨ne_zero_writeObject hon hle, readBloomFilter_writeObject hon hle⟩
  rcases PackWriter.writeDelta_cases hdelta with ⟨he, rfl, rfl⟩ | ⟨bytes, he, hser, rfl, rfl⟩
  · exact ⟨rfl, rfl, rfl, hfilter, Or.inl ⟨he, rfl⟩⟩
  · refine ⟨rfl, rfl, rfl, hfilter, Or.inr ⟨he, _, rfl, fun r' hle hon => ?_⟩⟩
    have hplain := plaintext_writeObject hon ((le_writeObject E _ _).trans hle)
    exact bind_eq_ok.mpr ⟨bytes, hplain, IndexFile.deserialise_serialise hser⟩

theorem staged_le {E : Env} {r rs : Remote} {w : PackWriter} {nonce raw : Bytes} {root : Hash}
    {ir : IndexRoot} (hs : PackWriter.Staged E r w nonce root ir raw rs) :
    (PackWriter.flushPack E r w).1.Le rs := by
  obtain ⟨-, hdelta, -⟩ := hs
  exact (PackWriter.writeDelta_writes hdelta).le.trans (le_writeObject _ _ _)

namespace BuiltOn

variable {E : Env} {rs r' : Remote} {delta : IndexFile} {bloom : BloomFilter}
  {base ir : IndexRoot}

theorem slotOf (hb : BuiltOn E rs delta bloom base ir) (h : Hash) :
    IndexRoot.coldShardHashFor h ir = IndexRoot.coldShardHashFor h base := by
  rw [IndexRoot.coldShardHashFor_eq, IndexRoot.coldShardHashFor_eq, IndexRoot.slotOf,
    IndexRoot.slotOf, IndexRoot.coldShardHash, IndexRoot.coldShardHash, hb.bits, hb.shards]

/-- The tiers of the root it is built on stay, in order, at the end of the new ones. -/
theorem tierHashes (hb : BuiltOn E rs delta bloom base ir) (h : Hash) :
    (delta.isEmpty ∧ Pack.tierHashes ir h = Pack.tierHashes base h) ∨
      ∃ k, Pack.tierHashes ir h = k :: Pack.tierHashes base h ∧
        ∀ r', rs.Le r' → r'.Honest → readIndexFile E r' k = .ok delta := by
  have hhot : ir.hotHashOpt = base.hotHashOpt := congrArg hashOpt hb.hot
  rcases hb.deltas with ⟨he, hd⟩ | ⟨_, k, hd, hk⟩
  · exact Or.inl ⟨he, by rw [Pack.tierHashes, Pack.tierHashes, hd, hhot, hb.slotOf]⟩
  · exact Or.inr ⟨k, by rw [Pack.tierHashes, Pack.tierHashes, hd, hhot, hb.slotOf]; rfl, hk⟩

theorem lookup_of_find (hb : BuiltOn E rs delta bloom base ir) (hle : rs.Le r')
    (hon : r'.Honest) {h : Hash} {e : IndexEntry} (he : delta.find h = some e) :
    lookup E r' ir h = .ok (some e) := by
  rcases hb.tierHashes h with ⟨hempty, _⟩ | ⟨k, hk, hread⟩
  · have hnil : delta.entries = [] := List.isEmpty_iff.mp hempty
    rw [IndexFile.find, hnil] at he
    cases he
  · rw [lookup, hk]
    exact bind_eq_ok.mpr ⟨delta, hread r' hle hon, by rw [he]; rfl⟩

theorem lookup_of_find_none (hb : BuiltOn E rs delta bloom base ir) (hle : rs.Le r')
    (hon : r'.Honest) {h : Hash} (he : delta.find h = none) :
    lookup E r' ir h = lookup E r' base h := by
  rcases hb.tierHashes h with ⟨_, ht⟩ | ⟨k, hk, hread⟩
  · rw [lookup, lookup, ht]
  · rw [lookup, lookup, hk, searchRemote, hread r' hle hon]
    simp only [bind, Except.bind, he]

/-- Nothing the replaced root indexed is lost. -/
theorem indexed (hb : BuiltOn E rs delta bloom base ir) {r : Remote} (hle : r.Le r') {h : Hash}
    (hx : Indexed E r base h) : Indexed E r' ir h := by
  obtain ⟨k, hk, f, e, hf, he⟩ := hx
  refine ⟨k, ?_, f, e, readIndexFile_mono hle hf, he⟩
  rcases hb.tierHashes h with ⟨_, ht⟩ | ⟨k', hk', _⟩
  · rw [ht]
    exact hk
  · rw [hk']
    exact List.mem_cons_of_mem k' hk

theorem indexed_of_find (hb : BuiltOn E rs delta bloom base ir) (hle : rs.Le r')
    (hon : r'.Honest) {h : Hash} {e : IndexEntry} (he : delta.find h = some e) :
    Indexed E r' ir h :=
  Indexed.of_lookup (hb.lookup_of_find hle hon he)

theorem admits (hb : BuiltOn E rs delta bloom base ir) (hle : rs.Le r') (hon : r'.Honest)
    {h : Hash} (hmay : bloom.mayContain h) : Reader.FilterAdmits E r' ir h := by
  intro bh hbh
  obtain ⟨_, rfl⟩ := hashOpt_eq_some.mp hbh
  exact ⟨bloom, (hb.filter r' hle hon).2, Or.inr hmay⟩

end BuiltOn

/-- The root a writer builds on is the one it captured, with at most 32 prefix bits. -/
theorem baseRoot_eq_ok {E : Env} {w : PackWriter} {base : IndexRoot}
    (hb : PackWriter.baseRoot E w = .ok base) :
    base.coldPrefixBits.toNat ≤ 32 ∧
      ∃ root, PackWriter.decodeSnapshot E w.startSnapshot = .ok root ∧
        base = root.getD IndexRoot.newEmpty := by
  obtain ⟨root, hroot, hb⟩ := bind_eq_ok.mp hb
  cases hb
  refine ⟨?_, root, hroot, rfl⟩
  cases root with
  | none =>
      show (0 : UInt8).toNat ≤ 32
      decide
  | some ir =>
      unfold PackWriter.decodeSnapshot at hroot
      split at hroot
      · cases hroot
      · obtain ⟨plain, _, hroot⟩ := bind_eq_ok.mp hroot
        obtain ⟨ir', hir, hroot⟩ := bind_eq_ok.mp hroot
        cases hroot
        exact (IndexRoot.deserialise_wellFormed hir).1

/-- A published root is the one the remote reads back. -/
theorem readIndexRoot_staged {E : Env} {r rs r' : Remote} {w : PackWriter} {nonce raw : Bytes}
    {root : Hash} {ir : IndexRoot} (hs : PackWriter.Staged E r w nonce root ir raw rs)
    (hnonce : nonce.length = 12) (hroot : r'.root = some raw) :
    readIndexRoot E r' = .ok (some ir) := by
  obtain ⟨base, hbase, _, henc, hb⟩ := staged_root hs
  have hbits : ir.coldPrefixBits.toNat ≤ 32 := by
    rw [hb.bits]
    exact (baseRoot_eq_ok hbase).1
  exact readIndexRoot_published hnonce hbits henc hroot

end Omemfs.Pack
