/-
# Omemfs.Pack.Compact — `omemfs pack`: compaction of the three index tiers.

A run merges the delta files into the hot index, sends the entries this clone does not reach to the
cold tier, repacks small pack files, splits one oversized cold shard, rebuilds the Bloom filter and
compare-and-swaps the root.  `Choices` holds what the run takes from elsewhere: the reachable
hashes, the iteration orders of its hash maps and which of several equally populous prefixes a
split singles out.  A hash map keyed by object hash is an `IndexFile` here, whose `push` is the
insertion, and its values come out in whatever order `Choices` gives.

Every function has one lemma that says what it did.  All of them only add objects
(`Remote.Writes`), so what could be read before can be read after.
-/
import Omemfs.Pack.Session

namespace Omemfs.Pack

open Lib

namespace Compact

/-! ## What a run takes from elsewhere -/

/-- Entries of an index file whose hash starts with byte `p`. -/
def prefixCount (f : IndexFile) (p : UInt8) : Nat :=
  f.entries.countP fun e => e.hash.firstByte == p

structure Choices where
  /-- reachable from this clone -/
  isHot : Hash → Bool
  mergedOrder : List IndexEntry → List IndexEntry
  mergedOrder_perm : ∀ es, (mergedOrder es).Perm es
  updatedOrder : List IndexEntry → List IndexEntry
  updatedOrder_perm : ∀ es, (updatedOrder es).Perm es
  bestPrefix : IndexFile → Option UInt8
  bestPrefix_isNone : ∀ f, bestPrefix f = none → f.entries = []
  bestPrefix_most : ∀ f p, bestPrefix f = some p →
    0 < prefixCount f p ∧ ∀ q, prefixCount f q ≤ prefixCount f p

/-! ## The code -/

/-- Insert the entries of the listed files one file after the other; later files override. -/
def mergeFiles (E : Env) (r : Remote) :
    List Hash → Cache → IndexFile → Except Error (IndexFile × Cache)
  | [], c, merged => .ok (merged, c)
  | k :: ks, c, merged => do
      let (idx, c) ← loadIndexFile E r c k
      mergeFiles E r ks c (merged.pushAll idx.entries)

/-- The hot index first, then the deltas from the oldest to the newest. -/
def mergeDeltasIntoHot (E : Env) (ch : Choices) (r : Remote) (c : Cache) (ir : IndexRoot) :
    Except Error (List IndexEntry × Cache) := do
  let (merged, c) ← mergeFiles E r (ir.hotHashOpt.toList ++ ir.deltaHashes.reverse) c IndexFile.new
  pure (ch.mergedOrder merged.entries, c)

/-- Whether `split_hot_cold` sends an entry to the cold tier: never a standalone one. -/
def Choices.goesCold (ch : Choices) : IndexEntry → Bool
  | .standalone _ => false
  | .inline e => !ch.isHot e.hash
  | .pack e => !ch.isHot e.hash

def splitHotCold (ch : Choices) (entries : List IndexEntry) : List IndexEntry × List IndexEntry :=
  (entries.filter fun e => !ch.goesCold e, entries.filter ch.goesCold)

def consolidationThreshold : Nat := 2 * 1024 * 1024

/-- The size of every pack file the entries name, each asked for once. -/
def packSizes (r : Remote) : List IndexEntry → List (Hash × Nat) → Except Error (List (Hash × Nat))
  | [], sizes => .ok sizes
  | .pack e :: es, sizes =>
      if (sizes.lookup e.packHash).isSome then packSizes r es sizes
      else do
        let n ← r.size e.packHash
        packSizes r es (sizes ++ [(e.packHash, n)])
  | _ :: es, sizes => packSizes r es sizes

/-- Read every candidate pack whole. -/
def readPacks (r : Remote) : List Hash → Except Error (List (Hash × Bytes))
  | [] => .ok []
  | ph :: phs => do
      let buf ← r.openRead ph
      let bufs ← readPacks r phs
      pure ((ph, buf) :: bufs)

/-- The state of the repacking loop. -/
structure Repack where
  newBuf : Bytes
  newPackEntries : List Pending
  completedPacks : List (Bytes × List Pending)
  updated : IndexFile

/-- One entry of the repacking loop: a slice of a candidate pack is moved to the new buffer, every
other entry is kept. -/
def repackEntry (bufs : List (Hash × Bytes)) (s : Repack) (entry : IndexEntry) :
    Except Error Repack :=
  match entry with
  | .pack e =>
      match bufs.lookup e.packHash with
      | none => .ok { s with updated := s.updated.push entry }
      | some buf =>
          let start := packBodyOffset + e.offset.toNat
          let stop := start + e.length.toNat
          if stop > buf.length then
            .error (.invalidObject ("pack " ++ e.packHash.asStr ++ " entry " ++ e.hash.asStr ++
              " out of range: " ++ toString start ++ ".." ++ toString stop ++ " exceeds " ++
              toString buf.length ++ " bytes"))
          else
            let encrypted := Bytes.slice start e.length.toNat buf
            let newBuf := s.newBuf ++ encrypted
            let newPackEntries := s.newPackEntries ++
              [(e.hash, UInt32.ofNat s.newBuf.length, UInt32.ofNat encrypted.length)]
            if newBuf.length ≥ packTarget ∨ newBuf.length ≥ packMax then
              .ok { s with
                newBuf := []
                newPackEntries := []
                completedPacks := s.completedPacks ++ [(newBuf, newPackEntries)] }
            else .ok { s with newBuf, newPackEntries }
  | _ => .ok { s with updated := s.updated.push entry }

def repack (bufs : List (Hash × Bytes)) : List IndexEntry → Repack → Except Error Repack
  | [], s => .ok s
  | e :: es, s => do
      let s ← repackEntry bufs s e
      repack bufs es s

/-- Write the new packs and insert their entries. -/
def writePacks (E : Env) : List (Bytes × List Pending) → Remote → IndexFile → Remote × IndexFile
  | [], r, updated => (r, updated)
  | (buf, ps) :: packs, r, updated =>
      let packBytes := packMagic ++ buf
      let packHash := E.sha256 packBytes
      writePacks E packs (r.writeFrom packHash packBytes)
        (updated.pushAll (ps.map fun p => .pack ⟨p.1, packHash, p.2.1, p.2.2⟩))

/-- Repack the pack files below the threshold. -/
def consolidatePackFiles (E : Env) (ch : Choices) (r : Remote) (entries : List IndexEntry) :
    Except Error (List IndexEntry × Remote) := do
  let sizes ← packSizes r entries []
  let candidates := (sizes.filter fun s => s.2 < consolidationThreshold).map Prod.fst
  if candidates.isEmpty then pure (entries, r)
  else do
    let bufs ← readPacks r candidates
    let s ← repack bufs entries ⟨[], [], [], IndexFile.new⟩
    let completed := if s.newPackEntries.isEmpty then s.completedPacks
      else s.completedPacks ++ [(s.newBuf, s.newPackEntries)]
    let (r, updated) := writePacks E completed r s.updated
    pure (ch.updatedOrder updated.entries, r)

def writeIndexFile (E : Env) (r : Remote) (entries : List IndexEntry) :
    Except Error (Hash × Remote) := do
  let bytes ← (IndexFile.new.pushAll entries).serialise
  pure (writeObject E r bytes)

/-- The entries of the shared shard, none when slot 0 is empty. -/
def loadSharedShard (E : Env) (r : Remote) (c : Cache) (oldShared : Hash) :
    Except Error (List IndexEntry × Cache) :=
  if oldShared = zeroHash then pure ([], c)
  else do
    let (idx, c) ← loadIndexFile E r c oldShared
    pure (idx.entries, c)

/-- Append the new cold entries to the shard of slot 0 and repoint the slots that held it. -/
def applyColdEntries (E : Env) (r : Remote) (c : Cache) (coldEntries : List IndexEntry)
    (ir : IndexRoot) : Except Error (IndexRoot × Remote × Cache) :=
  if coldEntries.isEmpty then
    pure ({ ir with
      coldShards := if ir.coldShards.isEmpty then [zeroHash] else ir.coldShards }, r, c)
  else do
    let oldShared := ir.coldShards.headD zeroHash
    let (shardEntries, c) ← loadSharedShard E r c oldShared
    let (newShard, r) ← writeIndexFile E r (shardEntries ++ coldEntries)
    pure ({ ir with
      coldShards := ir.coldShards.map fun slot => if slot = oldShared then newShard else slot },
      r, c)

def coldShardSplitThreshold : Nat := 4 * 1024 * 1024

/-- The largest shard above the threshold, the first one of that size; a shard whose size cannot be
had counts as empty. -/
def largestShard (r : Remote) : List Hash → List Hash → Option Hash → Nat → Option Hash
  | [], _, largest, _ => largest
  | s :: ss, seen, largest, largestSize =>
      if s = zeroHash ∨ s ∈ seen then largestShard r ss seen largest largestSize
      else
        let size := (r.size s).toOption.getD 0
        if size > coldShardSplitThreshold ∧ size > largestSize then
          largestShard r ss (s :: seen) (some s) size
        else largestShard r ss (s :: seen) largest largestSize

/-- Eight prefix bits at least, every old slot repeated for the new slots below it. -/
def widen (ir : IndexRoot) : IndexRoot :=
  if ir.coldPrefixBits.toNat < 8 then
    let scale := 2 ^ 8 / ir.coldShardCount
    { ir with
      coldPrefixBits := 8
      coldShards := (List.range (2 ^ 8)).map fun k => ir.coldShards.getD (k / scale) zeroHash }
  else ir

/-- Split the largest oversized shard into the entries of its most populous first byte and the
rest. -/
def splitColdShards (E : Env) (ch : Choices) (r : Remote) (c : Cache) (ir : IndexRoot) :
    Except Error (IndexRoot × Remote × Cache) :=
  match largestShard r ir.coldShards [] none 0 with
  | none => pure (ir, r, c)
  | some old => do
      let (idx, c) ← loadIndexFile E r c old
      match ch.bestPrefix idx with
      | none => pure (ir, r, c)
      | some best =>
          let dedicated := idx.entries.filter fun e => e.hash.firstByte == best
          let shared := idx.entries.filter fun e => !(e.hash.firstByte == best)
          let (dedicatedHash, r) ← writeIndexFile E r dedicated
          let (sharedHash, r) ← writeIndexFile E r shared
          let ir := widen ir
          -- the slot is compared with the byte, whatever the number of prefix bits
          pure ({ ir with
            coldShards := ir.coldShards.mapIdx fun i slot =>
              if slot = old then if i = best.toNat then dedicatedHash else sharedHash else slot },
            r, c)

/-- Every distinct recorded shard, loaded once. -/
def loadColdShardFiles (E : Env) (r : Remote) :
    List Hash → List Hash → Cache → Except Error (List IndexFile × Cache)
  | [], _, c => .ok ([], c)
  | s :: ss, seen, c =>
      if s = zeroHash ∨ s ∈ seen then loadColdShardFiles E r ss seen c
      else do
        let (idx, c) ← loadIndexFile E r c s
        let (files, c) ← loadColdShardFiles E r ss (s :: seen) c
        pure (idx :: files, c)

/-- A filter sized for the hot entries and the cold files, with all of them inserted.  The order of
insertion makes no difference to a filter. -/
def regenerateBloom (E : Env) (hotEntries : List IndexEntry) (coldFiles : List IndexFile) :
    BloomFilter :=
  let coldEntries := coldFiles.flatMap IndexFile.entries
  (sizedFor E.optimalNumBits (hotEntries.length + coldEntries.length)).insertAll
    ((hotEntries ++ coldEntries).map IndexEntry.hash)

/-- What a run publishes: the new root, its stored bytes, and the remote with every object the run
has written. -/
def stage (E : Env) (ch : Choices) (r : Remote) (c : Cache) (nonce : Bytes) (ir : IndexRoot) :
    Except Error (IndexRoot × Bytes × Remote × Cache) := do
  let (merged, c) ← mergeDeltasIntoHot E ch r c ir
  let (hot, cold) := splitHotCold ch merged
  let (hot, r) ← consolidatePackFiles E ch r hot
  let (hotHash, r) ← writeIndexFile E r hot
  let ir := { ir with hotHash, deltaHashes := [] }
  let (ir, r, c) ← applyColdEntries E r c cold ir
  let (ir, r, c) ← splitColdShards E ch r c ir
  let (coldFiles, c) ← loadColdShardFiles E r ir.coldShards [] c
  let (bloomHash, r) := writeObject E r (regenerateBloom E hot coldFiles).serialise
  let ir := { ir with bloomHash }
  let raw ← encryptIndexRootBytes E nonce ir
  pure (ir, raw, r, c)

/-- A failed compare-and-swap, in the words of `pack`. -/
def remapCasFailure : Error → Error
  | .casFailed => .other "remote has been updated since last sync\nRe-run 'omemfs pack'."
  | e => e

/-- `omemfs pack`.  Without a root there is nothing to do. -/
def run (E : Env) (ch : Choices) (r : Remote) (c : Cache) (nonce : Bytes) :
    Except Error (Remote × Cache) := do
  let (_, oldToken) := r.rootRead
  match ← readIndexRoot E r with
  | none => pure (r, c)
  | some ir =>
      let (_, raw, r, c) ← stage E ch r c nonce ir
      match r.casWrite oldToken raw with
      | .ok r => pure (r, c)
      | .error e => throw (remapCasFailure e)

/-! ## Merging -/

section Merge

variable {E : Env} {ch : Choices} {r : Remote} {c c' : Cache}

/-- **`mergeFiles_spec`** — the merged map answers what a search through the files, last one first,
answers. -/
theorem mergeFiles_spec (hc : Faithful E r c) {ks : List Hash} {m m' : IndexFile}
    (hm : mergeFiles E r ks c m = .ok (m', c')) :
    Faithful E r c' ∧
      ∀ h, ∃ o, searchRemote E r h ks.reverse = .ok o ∧ m'.find h = o.or (m.find h) := by
  induction ks generalizing c m with
  | nil =>
      cases hm
      exact ⟨hc, fun h => ⟨none, rfl, rfl⟩⟩
  | cons k ks ih =>
      rcases bind_eq_ok.mp hm with ⟨⟨f, c₁⟩, hf, hm⟩
      rcases loadIndexFile_sound hc hf with ⟨hread, hc₁⟩
      rcases ih hc₁ hm with ⟨hc', hfind⟩
      refine ⟨hc', ?_⟩
      intro h
      rcases hfind h with ⟨o, ho, hval⟩
      rw [IndexFile.find_pushAll_entries] at hval
      rw [List.reverse_cons]
      cases o with
      | some e => exact ⟨some e, searchRemote_append.mpr (Or.inl ho), hval⟩
      | none =>
          refine ⟨f.find h, ?_, hval⟩
          rw [searchRemote_append_of_none ho]
          exact searchRemote_singleton hread

/-- **`mergeDeltasIntoHot_spec`** — one entry for every hash the deltas and the hot index answer,
namely the answer. -/
theorem mergeDeltasIntoHot_spec (hc : Faithful E r c) {ir : IndexRoot} {es : List IndexEntry}
    (hm : mergeDeltasIntoHot E ch r c ir = .ok (es, c')) :
    Faithful E r c' ∧ (es.map IndexEntry.hash).Nodup ∧
      ∀ h, ∃ o, searchRemote E r h (ir.deltaHashes ++ ir.hotHashOpt.toList) = .ok o ∧
        ∀ e, o = some e ↔ e ∈ es ∧ e.hash = h := by
  rcases bind_eq_ok.mp hm with ⟨⟨m, c₁⟩, hmerge, hm⟩
  cases hm
  rcases mergeFiles_spec hc hmerge with ⟨hc', hfind⟩
  have hperm := ch.mergedOrder_perm m.entries
  refine ⟨hc', (hperm.map IndexEntry.hash).nodup_iff.mpr m.entries_nodup, ?_⟩
  intro h
  rcases hfind h with ⟨o, ho, hval⟩
  have hrev : (ir.hotHashOpt.toList ++ ir.deltaHashes.reverse).reverse =
      ir.deltaHashes ++ ir.hotHashOpt.toList := by
    rw [List.reverse_append, List.reverse_reverse]
    cases ir.hotHashOpt <;> rfl
  rw [hrev] at ho
  refine ⟨o, ho, ?_⟩
  intro e
  rw [IndexFile.find_new, Option.or_none] at hval
  rw [← hval, IndexFile.find_eq_some_iff, hperm.mem_iff]

theorem mem_splitHotCold {es : List IndexEntry} {e : IndexEntry} :
    (e ∈ (splitHotCold ch es).1 ↔ e ∈ es ∧ ch.goesCold e = false) ∧
      (e ∈ (splitHotCold ch es).2 ↔ e ∈ es ∧ ch.goesCold e = true) := by
  simp [splitHotCold]

end Merge

/-! ## Consolidation -/

/-- Pending slice `p` of buffer `buf` holds the bytes behind `e`. -/
def Holds (r : Remote) (buf : Bytes) (p : Pending) (e : IndexEntry) : Prop :=
  p.1 = e.hash ∧ p.2.1.toNat + p.2.2.toNat ≤ buf.length ∧
    ∀ b, payload r e.hash e = some b → Bytes.slice p.2.1.toNat p.2.2.toNat buf = b

theorem Holds.append {r : Remote} {buf : Bytes} {p : Pending} {e : IndexEntry}
    (h : Holds r buf p e) (more : Bytes) : Holds r (buf ++ more) p e := by
  rcases h with ⟨hash, hend, hslice⟩
  refine ⟨hash, ?_, ?_⟩
  · rw [List.length_append]
    omega
  · intro b hb
    rw [← hslice b hb]
    exact Bytes.slice_append_left hend more

/-- The packs of a repacking state, the open one last. -/
def Repack.packs (s : Repack) : List (Bytes × List Pending) :=
  s.completedPacks ++ [(s.newBuf, s.newPackEntries)]

/-- The invariant of the repacking loop after the entries `done`: each of them is either kept or
has a slice that holds its bytes. -/
structure RepackInv (r : Remote) (done : List IndexEntry) (s : Repack) : Prop where
  buf : s.newBuf.length < packTarget
  covered : ∀ e ∈ done, (s.updated.find e.hash).isSome ∨
    ∃ pk ∈ s.packs, ∃ p ∈ pk.2, p.1 = e.hash
  updated : ∀ h e, s.updated.find h = some e → e ∈ done
  packed : ∀ pk ∈ s.packs, ∀ p ∈ pk.2, ∃ e ∈ done, Holds r pk.1 p e

theorem RepackInv.keep {r : Remote} {done : List IndexEntry} {s : Repack}
    (hi : RepackInv r done s) (e : IndexEntry) :
    RepackInv r (e :: done) { s with updated := s.updated.push e } where
  buf := hi.buf
  covered := by
    intro e' he'
    show ((s.updated.push e).find e'.hash).isSome ∨ _
    rw [IndexFile.find_push]
    split_ifs with heq
    · exact Or.inl rfl
    · rcases List.mem_cons.mp he' with rfl | he'
      · exact absurd rfl heq
      · exact hi.covered e' he'
  updated := by
    intro h e' he'
    rw [IndexFile.find_push] at he'
    split_ifs at he' with heq
    · cases he'
      exact List.mem_cons_self ..
    · exact List.mem_cons_of_mem e (hi.updated h e' he')
  packed := by
    intro pk hpk p hp
    rcases hi.packed pk hpk p hp with ⟨e', he', hh⟩
    exact ⟨e', List.mem_cons_of_mem e he', hh⟩

/-- The open pack grows by one slice that holds the bytes behind `e`. -/
theorem RepackInv.moved {r : Remote} {done : List IndexEntry} {s s' : Repack}
    (hi : RepackInv r done s) {e : IndexEntry} {more : Bytes} {p : Pending}
    (hp : Holds r (s.newBuf ++ more) p e) (hbuf : s'.newBuf.length < packTarget)
    (hupdated : s'.updated = s.updated)
    (hpacks : ∀ pk, pk ∈ s'.packs → pk ∈ s.completedPacks ∨ pk.2 = [] ∨
      pk = (s.newBuf ++ more, s.newPackEntries ++ [p]))
    (hcompleted : ∀ pk ∈ s.completedPacks, pk ∈ s'.packs)
    (hopen : (s.newBuf ++ more, s.newPackEntries ++ [p]) ∈ s'.packs) :
    RepackInv r (e :: done) s' where
  buf := hbuf
  covered := by
    intro e' he'
    rcases List.mem_cons.mp he' with rfl | he'
    · exact Or.inr ⟨_, hopen, p, List.mem_append_right _ (List.mem_singleton_self p), hp.1⟩
    · rcases hi.covered e' he' with hu | ⟨pk, hpk, q, hq, hqe⟩
      · left
        rw [hupdated]
        exact hu
      · right
        rcases List.mem_append.mp hpk with hpk | hpk
        · exact ⟨pk, hcompleted pk hpk, q, hq, hqe⟩
        · rcases List.mem_singleton.mp hpk
          exact ⟨_, hopen, q, List.mem_append_left _ hq, hqe⟩
  updated := by
    intro h e' he'
    rw [hupdated] at he'
    exact List.mem_cons_of_mem e (hi.updated h e' he')
  packed := by
    intro pk hpk q hq
    rcases hpacks pk hpk with hold | hnil | rfl
    · rcases hi.packed pk (List.mem_append_left _ hold) q hq with ⟨e', he', hh⟩
      exact ⟨e', List.mem_cons_of_mem e he', hh⟩
    · rw [hnil] at hq
      cases hq
    · rcases List.mem_append.mp hq with hq | hq
      · rcases hi.packed _ (List.mem_append_right _ (List.mem_singleton_self _)) q hq with
          ⟨e', he', hh⟩
        exact ⟨e', List.mem_cons_of_mem e he', hh.append more⟩
      · rcases List.mem_singleton.mp hq
        exact ⟨e, List.mem_cons_self .., hp⟩

/-- **`RepackInv.step`** — one entry of the loop. -/
theorem RepackInv.step {r : Remote} {done : List IndexEntry} {s s' : Repack}
    {bufs : List (Hash × Bytes)} {e : IndexEntry} (hi : RepackInv r done s)
    (hbufs : ∀ ph buf, bufs.lookup ph = some buf →
      r.objects ph = some buf ∧ buf.length < consolidationThreshold)
    (hs : repackEntry bufs s e = .ok s') : RepackInv r (e :: done) s' := by
  unfold repackEntry at hs
  split at hs
  · next pe =>
      cases hbuf : bufs.lookup pe.packHash with
      | none =>
          simp only [hbuf] at hs
          cases hs
          exact hi.keep _
      | some buf =>
          rcases hbufs pe.packHash buf hbuf with ⟨hobj, hsmall⟩
          simp only [hbuf] at hs
          split at hs
          · cases hs
          next hend =>
          have hend' : packBodyOffset + pe.offset.toNat + pe.length.toNat ≤ buf.length := by omega
          have hlen := Bytes.length_slice hend'
          have hopen := hi.buf
          have htarget : packTarget = 4194304 := rfl
          have hthreshold : consolidationThreshold = 2097152 := rfl
          have ho : (UInt32.ofNat s.newBuf.length).toNat = s.newBuf.length := by
            rw [UInt32.toNat_ofNat']
            omega
          have hl : (UInt32.ofNat pe.length.toNat).toNat = pe.length.toNat := by
            rw [UInt32.toNat_ofNat']
            omega
          -- the slice just appended is what the pack entry names
          have hp : Holds r (s.newBuf ++
              Bytes.slice (packBodyOffset + pe.offset.toNat) pe.length.toNat buf)
              (pe.hash, UInt32.ofNat s.newBuf.length,
                UInt32.ofNat (Bytes.slice (packBodyOffset + pe.offset.toNat) pe.length.toNat
                  buf).length) (.pack pe) := by
            refine ⟨rfl, ?_, ?_⟩
            · rw [hlen, ho, hl, List.length_append, hlen]
            · intro b hb
              have hb' : packSlice r pe.packHash pe.offset pe.length = some b := hb
              rw [packSlice, hobj] at hb'
              simp only [bind, Option.bind, hend', if_true, Option.some.injEq] at hb'
              have hcut := Bytes.slice_append_right s.newBuf
                (Bytes.slice (packBodyOffset + pe.offset.toNat) pe.length.toNat buf)
              rw [hlen] at hcut
              rw [← hb', hlen, ho, hl]
              exact hcut
          split at hs
          · cases hs
            refine hi.moved hp (by show 0 < packTarget; decide) rfl ?_ ?_ ?_
            · intro pk hpk
              rcases List.mem_append.mp hpk with hpk | hpk
              · rcases List.mem_append.mp hpk with hpk | hpk
                · exact Or.inl hpk
                · exact Or.inr (Or.inr (List.mem_singleton.mp hpk))
              · rcases List.mem_singleton.mp hpk
                exact Or.inr (Or.inl rfl)
            · intro pk hpk
              exact List.mem_append_left _ (List.mem_append_left _ hpk)
            · exact List.mem_append_left _ (List.mem_append_right _ (List.mem_singleton_self _))
          · next hflush =>
              cases hs
              refine hi.moved hp ?_ rfl ?_ ?_ ?_
              · show (s.newBuf ++ _).length < packTarget
                omega
              · intro pk hpk
                rcases List.mem_append.mp hpk with hpk | hpk
                · exact Or.inl hpk
                · exact Or.inr (Or.inr (List.mem_singleton.mp hpk))
              · intro pk hpk
                exact List.mem_append_left _ hpk
              · exact List.mem_append_right _ (List.mem_singleton_self _)
  · cases hs
    exact hi.keep _

theorem RepackInv.run {r : Remote} {bufs : List (Hash × Bytes)}
    (hbufs : ∀ ph buf, bufs.lookup ph = some buf →
      r.objects ph = some buf ∧ buf.length < consolidationThreshold) {es done : List IndexEntry}
    {s s' : Repack} (hi : RepackInv r done s) (hs : repack bufs es s = .ok s') :
    RepackInv r (es.reverse ++ done) s' := by
  induction es generalizing s done with
  | nil =>
      cases hs
      exact hi
  | cons e es ih =>
      rcases bind_eq_ok.mp hs with ⟨s₁, hstep, hs⟩
      rw [List.reverse_cons, List.append_assoc]
      exact ih (hi.step hbufs hstep) hs

theorem RepackInv.start (r : Remote) : RepackInv r [] ⟨[], [], [], IndexFile.new⟩ where
  buf := by decide
  covered := fun e he => nomatch he
  updated := fun h e he => nomatch he
  packed := by
    intro pk hpk p hp
    rcases List.mem_singleton.mp hpk
    cases hp

theorem readPacks_spec {r : Remote} {phs : List Hash} {bufs : List (Hash × Bytes)}
    (hr : readPacks r phs = .ok bufs) {ph : Hash} {buf : Bytes} (hl : bufs.lookup ph = some buf) :
    ph ∈ phs ∧ r.objects ph = some buf := by
  induction phs generalizing bufs with
  | nil =>
      cases hr
      cases hl
  | cons k phs ih =>
      rcases bind_eq_ok.mp hr with ⟨b, hb, hr⟩
      rcases bind_eq_ok.mp hr with ⟨rest, hrest, hr⟩
      cases hr
      rw [List.lookup_cons] at hl
      by_cases hk : ph = k
      · subst hk
        rw [beq_self_eq_true] at hl
        cases hl
        exact ⟨List.mem_cons_self .., Remote.openRead_eq_ok.mp hb⟩
      · rw [beq_false_of_ne hk] at hl
        rcases ih hrest hl with ⟨hmem, hobj⟩
        exact ⟨List.mem_cons_of_mem k hmem, hobj⟩

/-- Every size recorded is the length of the pack. -/
theorem packSizes_spec {r : Remote} {es : List IndexEntry} {sizes sizes' : List (Hash × Nat)}
    (hinv : ∀ s ∈ sizes, ∃ b, r.objects s.1 = some b ∧ b.length = s.2)
    (hs : packSizes r es sizes = .ok sizes') :
    ∀ s ∈ sizes', ∃ b, r.objects s.1 = some b ∧ b.length = s.2 := by
  induction es generalizing sizes with
  | nil =>
      cases hs
      exact hinv
  | cons e es ih =>
      cases e with
      | inline e => exact ih hinv hs
      | standalone e => exact ih hinv hs
      | pack e =>
          unfold packSizes at hs
          split_ifs at hs
          · exact ih hinv hs
          · rcases bind_eq_ok.mp hs with ⟨n, hn, hs⟩
            rcases bind_eq_ok.mp hn with ⟨b, hb, hn⟩
            cases hn
            refine ih ?_ hs
            intro s hmem
            rcases List.mem_append.mp hmem with hmem | hmem
            · exact hinv s hmem
            · rcases List.mem_singleton.mp hmem
              exact ⟨b, Remote.openRead_eq_ok.mp hb, rfl⟩

/-- **`writePacks_spec`** — the packs are written, and every pending slice becomes an entry of the
pack it was written to. -/
theorem writePacks_spec (E : Env) {packs : List (Bytes × List Pending)} {r : Remote}
    {u : IndexFile} :
    r.Writes (writePacks E packs r u).1 ∧
      (∀ h e, (writePacks E packs r u).2.find h = some e → u.find h = some e ∨
        ∃ pk ∈ packs, ∃ p ∈ pk.2, p.1 = h ∧
          e = .pack ⟨h, E.sha256 (packMagic ++ pk.1), p.2.1, p.2.2⟩ ∧
          ∃ r₁ : Remote, (r₁.writeFrom (E.sha256 (packMagic ++ pk.1)) (packMagic ++ pk.1)).Le
            (writePacks E packs r u).1) ∧
      (∀ h, (u.find h).isSome ∨ (∃ pk ∈ packs, ∃ p ∈ pk.2, p.1 = h) →
        ((writePacks E packs r u).2.find h).isSome) := by
  induction packs generalizing r u with
  | nil =>
      refine ⟨.refl r, fun h e he => Or.inl he, ?_⟩
      rintro h (hu | ⟨pk, hpk, -⟩)
      · exact hu
      · cases hpk
  | cons pk packs ih =>
      rcases pk with ⟨buf, ps⟩
      rcases @ih (r.writeFrom (E.sha256 (packMagic ++ buf)) (packMagic ++ buf))
        (u.pushAll (ps.map fun p => .pack ⟨p.1, E.sha256 (packMagic ++ buf), p.2.1, p.2.2⟩))
        with ⟨hw, hfind, hsome⟩
      refine ⟨(Remote.Writes.one r _ _).trans hw, ?_, ?_⟩
      · intro h e he
        rcases hfind h e he with hu | ⟨pk, hpk, hrest⟩
        · rcases IndexFile.mem_of_find_pushAll hu with hmem | hold
          · rcases List.mem_map.mp hmem with ⟨p, hp, rfl⟩
            have hh : p.1 = h := IndexFile.hash_of_find hu
            subst hh
            exact Or.inr ⟨_, List.mem_cons_self .., p, hp, rfl, rfl, r, hw.le⟩
          · exact Or.inl hold
        · exact Or.inr ⟨pk, List.mem_cons_of_mem _ hpk, hrest⟩
      · rintro h (hu | ⟨pk, hpk, p, hp, hh⟩)
        · exact hsome h (Or.inl (IndexFile.find_pushAll_isSome.mpr (Or.inr hu)))
        · rcases List.mem_cons.mp hpk with rfl | hpk
          · refine hsome h (Or.inl (IndexFile.find_pushAll_isSome.mpr (Or.inl ?_)))
            exact ⟨_, List.mem_map.mpr ⟨p, hp, rfl⟩, hh⟩
          · exact hsome h (Or.inr ⟨pk, hpk, p, hp, hh⟩)

/-- Every pack that was read is one of the remote's below the threshold. -/
theorem readPacks_small {r : Remote} {es : List IndexEntry} {sizes : List (Hash × Nat)}
    {bufs : List (Hash × Bytes)} (hsizes : packSizes r es [] = .ok sizes)
    (hbufs : readPacks r ((sizes.filter fun s => s.2 < consolidationThreshold).map Prod.fst) = .ok bufs)
    (ph : Hash) (pack : Bytes) (hl : bufs.lookup ph = some pack) :
    r.objects ph = some pack ∧ pack.length < consolidationThreshold := by
  obtain ⟨hmem, hobj⟩ := readPacks_spec hbufs hl
  obtain ⟨sz, hsz, rfl⟩ := List.mem_map.mp hmem
  obtain ⟨hin, hlt⟩ := List.mem_filter.mp hsz
  obtain ⟨b, hb, hlen⟩ := packSizes_spec (List.forall_mem_nil _) hsizes sz hin
  rw [hobj] at hb
  obtain rfl := Option.some.inj hb
  refine ⟨hobj, ?_⟩
  rw [hlen]
  exact of_decide_eq_true hlt

/-- An open pack without entries is not written, and has no slices to lose. -/
theorem Repack.mem_completed (s : Repack) {pk : Bytes × List Pending} {p : Pending} (hp : p ∈ pk.2) :
    pk ∈ (if s.newPackEntries.isEmpty then s.completedPacks
      else s.completedPacks ++ [(s.newBuf, s.newPackEntries)]) ↔ pk ∈ s.packs := by
  split_ifs with hempty
  · rw [Repack.packs, List.mem_append, List.mem_singleton]
    constructor
    · exact Or.inl
    · rintro (h | rfl)
      · exact h
      · rw [List.isEmpty_iff.mp hempty] at hp
        cases hp
  · rfl

/-- `out` on `r'` indexes the hashes `entries` does on `r`, each with the same bytes behind it. -/
structure Carries (r : Remote) (entries : List IndexEntry) (r' : Remote)
    (out : List IndexEntry) : Prop where
  writes : r.Writes r'
  nodup : (out.map IndexEntry.hash).Nodup
  covers : ∀ e ∈ entries, ∃ e' ∈ out, e'.hash = e.hash
  from_entries : ∀ e' ∈ out, ∃ e ∈ entries, e.hash = e'.hash ∧
    ∀ b, payload r e.hash e = some b → Backs r' e' b

theorem Carries.refl {r : Remote} {es : List IndexEntry} (hnd : (es.map IndexEntry.hash).Nodup) :
    Carries r es r es where
  writes := .refl r
  nodup := hnd
  covers := fun e he => ⟨e, he, rfl⟩
  from_entries := fun e he => ⟨e, he, rfl, fun _ hb _ hle _ => payload_mono hle hb⟩

/-- **`consolidatePackFiles_spec`** — repacking keeps every entry's bytes. -/
theorem consolidatePackFiles_spec {E : Env} {ch : Choices} {r r' : Remote}
    {es out : List IndexEntry} (hnd : (es.map IndexEntry.hash).Nodup)
    (hs : consolidatePackFiles E ch r es = .ok (out, r')) : Carries r es r' out := by
  rcases bind_eq_ok.mp hs with ⟨sizes, hsizes, hs⟩
  simp only at hs
  split_ifs at hs with hnone
  · cases hs
    exact .refl hnd
  rcases bind_eq_ok.mp hs with ⟨bufs, hbufs, hs⟩
  rcases bind_eq_ok.mp hs with ⟨s, hrepack, hs⟩
  cases hs
  have hinv : RepackInv r (es.reverse ++ []) s :=
    RepackInv.run (readPacks_small hsizes hbufs) (RepackInv.start r) hrepack
  rw [List.append_nil] at hinv
  have hpacks : ∀ pk, (∃ p, p ∈ pk.2) →
      (pk ∈ (if s.newPackEntries.isEmpty then s.completedPacks
        else s.completedPacks ++ [(s.newBuf, s.newPackEntries)]) ↔ pk ∈ s.packs) :=
    fun pk ⟨p, hp⟩ => s.mem_completed hp
  generalize (if s.newPackEntries.isEmpty then s.completedPacks
    else s.completedPacks ++ [(s.newBuf, s.newPackEntries)]) = completed at hpacks ⊢
  rcases @writePacks_spec E completed r s.updated with ⟨hw, hfind, hsome⟩
  have hperm := ch.updatedOrder_perm (writePacks E completed r s.updated).2.entries
  refine ⟨hw, (hperm.map IndexEntry.hash).nodup_iff.mpr (IndexFile.entries_nodup _), ?_, ?_⟩
  · intro e he
    have hcov : ((writePacks E completed r s.updated).2.find e.hash).isSome := by
      apply hsome
      rcases hinv.covered e (List.mem_reverse.mpr he) with hu | ⟨pk, hpk, p, hp, hpe⟩
      · exact Or.inl hu
      · exact Or.inr ⟨pk, (hpacks pk ⟨p, hp⟩).mpr hpk, p, hp, hpe⟩
    rcases IndexFile.find_isSome_iff.mp hcov with ⟨e', he', hh⟩
    exact ⟨e', hperm.mem_iff.mpr he', hh⟩
  · intro e' he'
    have hf : (writePacks E completed r s.updated).2.find e'.hash = some e' :=
      IndexFile.find_eq_some_iff.mpr ⟨hperm.mem_iff.mp he', rfl⟩
    rcases hfind _ _ hf with hu | ⟨pk, hpk, p, hp, hph, he, r₁, hle⟩
    · have hmem := List.mem_reverse.mp (hinv.updated _ _ hu)
      exact ⟨e', hmem, rfl, fun _ hb _ hle _ => payload_mono (hw.le.trans hle) hb⟩
    · rcases hinv.packed pk ((hpacks pk ⟨p, hp⟩).mp hpk) p hp with ⟨e, hmem, hhash, hend, hslice⟩
      refine ⟨e, List.mem_reverse.mp hmem, hhash.symm.trans hph, ?_⟩
      intro b hb
      rw [he]
      exact (SessionInv.backs_pack hend (hslice b hb)).mono hle

end Compact

end Omemfs.Pack
