/-
# Omemfs.Pack.Answers — the filter and the cache never change what `locate` answers.

`Answers` is the claim of the read path: whatever the local cache holds, `locate` gives an entry for
a hash exactly when some tier of the published root has one.  It follows from two facts about the
remote, that the index files load and that the filter admits what only the cold tier has
(`Loads`, `Covers`), and both are carried through pushes and `pack` runs.

A push breaks the second one when it starts from a fresh empty filter over a cold tier that holds
entries of its own: `FilterUsable` excludes it, and `push_hides_cold_entry` is such a push.
-/
import Omemfs.Pack.ReadBack
import Omemfs.Pack.Preserve

namespace Omemfs.Pack

open Lib Omemfs.Pack.Compact

/-- `locate` answers with an entry exactly for the indexed hashes. -/
def Answers (E : Env) (r : Remote) : Prop :=
  ∀ c, Faithful E r c → ∀ h, (∃ e c', Reader.locate E r c h = .ok (.entry e, c')) ↔
    ∃ ir, readIndexRoot E r = .ok (some ir) ∧ Indexed E r ir h

/-- Every index file the root names is there and decodes. -/
def Loads (E : Env) (r : Remote) : Prop :=
  ∀ ir, readIndexRoot E r = .ok (some ir) → ∀ h, ∀ k ∈ tierHashes ir h,
    ∃ f, readIndexFile E r k = .ok f

/-- `h` has an entry in its cold shard and in no other tier. -/
def ColdOnly (E : Env) (r : Remote) (ir : IndexRoot) (h : Hash) : Prop :=
  (∃ e, AddressedTo E r ir h e) ∧ searchRemote E r h (recent ir) = .ok none

theorem mem_tierHashes_of_slot {ir : IndexRoot} {h s : Hash}
    (hslot : ir.coldShards[ir.slotOf h]? = some s) (hne : s ≠ zeroHash) : s ∈ tierHashes ir h := by
  rw [tierHashes_eq, List.mem_append, Option.mem_toList, IndexRoot.coldShardHashFor_eq]
  exact Or.inr (Option.bind_eq_some_iff.mpr ⟨s, hslot, hashOpt_eq_some.mpr ⟨hne, rfl⟩⟩)

/-- When the tiers load, a larger remote says nothing new about them. -/
theorem ColdOnly.of_le {E : Env} {r r' : Remote} {ir : IndexRoot} {h : Hash}
    (hload : ∀ k ∈ tierHashes ir h, ∃ f, readIndexFile E r k = .ok f) (hle : r.Le r')
    (hx : ColdOnly E r' ir h) : ColdOnly E r ir h := by
  rcases hx with ⟨⟨e, s, f, hslot, hne, hf, hfind⟩, hnone⟩
  constructor
  · rcases hload s (mem_tierHashes_of_slot hslot hne) with ⟨g, hg⟩
    rw [readIndexFile_mono hle hg] at hf
    cases hf
    exact ⟨e, s, _, hslot, hne, hg, hfind⟩
  · have hrecent : ∀ k ∈ recent ir, ∃ f, readIndexFile E r k = .ok f := by
      intro k hk
      apply hload k
      rw [tierHashes_eq]
      exact List.mem_append_left _ hk
    rcases searchRemote_total hrecent h with ⟨o, ho⟩
    rw [searchRemote_mono hle ho] at hnone
    rw [ho]
    exact hnone

/-- The filter admits what only the cold tier has. -/
def Covers (E : Env) (r : Remote) : Prop :=
  ∀ ir, readIndexRoot E r = .ok (some ir) → ∀ h, ColdOnly E r ir h → Reader.FilterAdmits E r ir h

/-- **`answers_of_covers`** — the two facts about the remote give the exact answer. -/
theorem answers_of_covers {E : Env} {r : Remote} (hl : Loads E r) (hcov : Covers E r) :
    Answers E r := by
  intro c hc h
  constructor
  · rintro ⟨e, c', hloc⟩
    rcases Reader.locate_sound hc hloc with ⟨ir, hroot, hlook, -⟩
    exact ⟨ir, hroot, Indexed.of_lookup hlook⟩
  · rintro ⟨ir, hroot, k, hk, f, e, hf, he⟩
    rcases searchRemote_of_mem (hl ir hroot h) hk hf he with ⟨e', he'⟩
    have hadm : searchRemote E r h (recent ir) = .ok none → Reader.FilterAdmits E r ir h := by
      intro hnone
      refine hcov ir hroot h ⟨⟨e', ?_⟩, hnone⟩
      rw [tierHashes_eq, searchRemote_append_of_none hnone] at he'
      exact addressedTo_iff.mpr he'
    rcases Reader.locate_complete hc hroot he' hadm with ⟨c', hloc, -⟩
    exact ⟨e', c', hloc⟩

/-! ## Pushes -/

/-- A push from `r` starts from the recorded filter, or from a root whose cold tier holds nothing of
its own. -/
def FilterUsable (E : Env) (r : Remote) : Prop :=
  ∀ ir, readIndexRoot E r = .ok (some ir) →
    (∃ bh bf, ir.bloomHashOpt = some bh ∧ readBloomFilter E r bh = .ok bf ∧
      bf.structuralDefect = none) ∨ ∀ h, ¬ ColdOnly E r ir h

/-- A usable recorded filter is the one a push starts from. -/
theorem loadRemoteBloom_usable {E : Env} {r : Remote} {ir : IndexRoot} {bh : Hash}
    {bf : BloomFilter} (hbh : ir.bloomHashOpt = some bh) (hbf : readBloomFilter E r bh = .ok bf)
    (hok : bf.structuralDefect = none) :
    PackWriter.loadRemoteBloom E r (some ir) = .ok bf := by
  rcases bind_eq_ok.mp hbf with ⟨plain, hplain, hdes⟩
  rcases bind_eq_ok.mp hplain with ⟨stored, hstored, hdec⟩
  simp only [PackWriter.loadRemoteBloom, hbh, hstored]
  exact bind_eq_ok.mpr ⟨plain, hdec, bind_eq_ok.mpr ⟨bf, hdes, by rw [hok]; rfl⟩⟩

section Push

variable {E : Env} {r r' r₁ rs : Remote} {c : Cache} {ops : List Op}
  {answers : List (Hash × Bool)} {w w₁ : PackWriter} {base ir : IndexRoot}

/-- The tiers of a root that records nothing. -/
theorem tierHashes_newEmpty (h : Hash) : tierHashes IndexRoot.newEmpty h = [] := by
  have hcold : IndexRoot.coldShardHashFor h IndexRoot.newEmpty = none := rfl
  rw [tierHashes, hcold]
  rfl

/-- The files of the replaced root load. -/
theorem SessionRun.base_loads (hs : SessionRun E r c ops r' answers w r₁ w₁ rs base ir)
    (hl : Loads E r) (h : Hash) : ∀ k ∈ tierHashes base h, ∃ f, readIndexFile E r k = .ok f := by
  rcases hs.base_eq with ⟨old, hold, -, hbase⟩
  cases old with
  | none =>
      intro k hk
      rw [show base = IndexRoot.newEmpty from hbase, tierHashes_newEmpty] at hk
      cases hk
  | some ir₀ =>
      rw [show base = ir₀ from hbase]
      exact hl ir₀ hold h

/-- **`SessionRun.loads`** — after a push every index file loads. -/
theorem SessionRun.loads (hs : SessionRun E r c ops r' answers w r₁ w₁ rs base ir)
    (hle : r.Le r') (hon : r'.Honest) (hl : Loads E r) : Loads E r' := by
  intro ir' hroot h k hk
  rw [hs.root] at hroot
  cases hroot
  have hold : ∀ k ∈ tierHashes base h, ∃ f, readIndexFile E r' k = .ok f := by
    intro k hk
    rcases hs.base_loads hl h k hk with ⟨f, hf⟩
    exact ⟨f, readIndexFile_mono hle hf⟩
  rcases hs.built.tierHashes h with ⟨-, ht⟩ | ⟨k₀, ht, hread⟩
  · rw [ht] at hk
    exact hold k hk
  · rw [ht] at hk
    rcases List.mem_cons.mp hk with rfl | hk
    · exact ⟨_, hread r' hs.published hon⟩
    · exact hold k hk

/-- A hash only the cold tier has was so before the push. -/
theorem SessionRun.coldOnly (hs : SessionRun E r c ops r' answers w r₁ w₁ rs base ir)
    (hle : r.Le r') (hl : Loads E r) {h : Hash} (hx : ColdOnly E r' ir h) :
    ColdOnly E r base h := by
  refine ColdOnly.of_le (hs.base_loads hl h) hle ?_
  rcases hx with ⟨⟨e, he⟩, hnone⟩
  refine ⟨⟨e, he.congr hs.built.bits.symm hs.built.shards.symm⟩, ?_⟩
  -- the new delta, if there is one, stands in front of the old tiers
  have hhot : ir.hotHashOpt = base.hotHashOpt := congrArg hashOpt hs.built.hot
  rw [recent, hhot] at hnone
  rcases hs.built.deltas with ⟨-, hd⟩ | ⟨-, k, hd, -⟩
  · rw [hd] at hnone
    exact hnone
  · rw [hd] at hnone
    exact searchRemote_tail hnone

/-- **`SessionRun.covers`** — a push that starts from a usable filter keeps the cold tier covered. -/
theorem SessionRun.covers (hs : SessionRun E r c ops r' answers w r₁ w₁ rs base ir)
    (hle : r.Le r') (hon : r'.Honest) (hl : Loads E r) (hcov : Covers E r)
    (husable : FilterUsable E r) : Covers E r' := by
  intro ir' hroot h hx
  rw [hs.root] at hroot
  cases hroot
  have hx₀ := hs.coldOnly hle hl hx
  rcases hs.base_eq with ⟨old, hold, hsnap, hbase⟩
  cases old with
  | none =>
      -- nothing is addressed through an empty table
      rw [show base = IndexRoot.newEmpty from hbase] at hx₀
      rcases hx₀.1 with ⟨e, he⟩
      have hcold := addressedTo_iff.mp he
      cases hcold
  | some ir₀ =>
      rw [show base = ir₀ from hbase] at hx₀
      rcases husable ir₀ hold with ⟨bh, bf, hbh, hbf, hok⟩ | hnone
      · have hmay : bf.mayContain h := by
          rcases hcov ir₀ hold h hx₀ bh hbh with ⟨bf', hbf', hadm⟩
          rw [hbf] at hbf'
          cases hbf'
          rcases hadm with hd | hm
          · rw [hok] at hd
            cases hd
          · exact hm
        have hbloom : w.bloom = bf := by
          have hload := (new_snapshot hs.opened).2.2.2.2.2
          rw [hsnap, loadRemoteBloom_usable hbh hbf hok] at hload
          exact (Except.ok.inj hload).symm
        exact hs.built.admits hs.published hon (hs.after.bloom h (hbloom ▸ hmay))
      · exact absurd hx₀ (hnone h)

end Push

/-! ## Pack runs -/

/-- **`CompactStep.covers`** — after a `pack` run every index file loads and the new filter covers
all of them, whatever the state before. -/
theorem Compact.CompactStep.covers {E : Env} {ch : Choices} {r r' : Remote} (hstep : CompactStep E r ch r') :
    Loads E r' ∧ Covers E r' := by
  rcases hstep with ⟨⟨ir, hroot⟩, ⟨c, c', nonce, hc, hnonce, hrun⟩, hon⟩
  rcases run_spec hc hnonce hroot hrun hon with ⟨-, ir', hroot', hcomp⟩
  constructor
  · intro ir₁ h₁
    rw [hroot'] at h₁
    cases h₁
    exact hcomp.loads
  · rintro ir₁ h₁ h ⟨⟨e, s, f, hslot, hne, hf, hfind⟩, -⟩
    rw [hroot'] at h₁
    cases h₁
    exact hcomp.filter h ⟨s, mem_tierHashes_of_slot hslot hne, f, e, hf, hfind⟩

/-! ## Any sequence of pushes and pack runs -/

inductive StoreEvent where
  | pushed
  | packed
  | added

/-- What happens to a remote: a push, a `pack` run, or objects added under an unchanged root, as a
push or a run that failed leaves them. -/
inductive StoreStep (E : Env) (r : Remote) : StoreEvent → Remote → Prop
  | pushed {c : Cache} {ops : List Op} {nonce : Bytes} {newRoot : Hash} {r' : Remote}
      {answers : List (Hash × Bool)} (hc : Faithful E r c) (hnonce : nonce.length = 12)
      (hrun : pushSession E r c ops nonce newRoot = .ok (r', answers)) (hon : r'.Honest) :
      StoreStep E r .pushed r'
  | packed {ch : Choices} {r' : Remote} (hstep : CompactStep E r ch r') : StoreStep E r .packed r'
  | added {r' : Remote} (hle : r.Le r') (hroot : r'.root = r.root) : StoreStep E r .added r'

section Run

variable {E : Env} {r r' : Remote}

theorem Loads.added (hl : Loads E r) (hle : r.Le r') (hroot : r'.root = r.root) : Loads E r' := by
  intro ir hir h k hk
  rw [readIndexRoot_congr hroot] at hir
  rcases hl ir hir h k hk with ⟨f, hf⟩
  exact ⟨f, readIndexFile_mono hle hf⟩

theorem FilterAdmits.mono {ir : IndexRoot} {h : Hash} (ha : Reader.FilterAdmits E r ir h)
    (hle : r.Le r') : Reader.FilterAdmits E r' ir h := by
  intro bh hbh
  rcases ha bh hbh with ⟨bf, hbf, hok⟩
  exact ⟨bf, readBloomFilter_mono hle hbf, hok⟩

theorem Covers.added (hcov : Covers E r) (hl : Loads E r) (hle : r.Le r')
    (hroot : r'.root = r.root) : Covers E r' := by
  intro ir hir h hx
  rw [readIndexRoot_congr hroot] at hir
  exact FilterAdmits.mono (hcov ir hir h (hx.of_le (hl ir hir h) hle)) hle

/-- **`locate_exact`** — after any sequence of pushes and `pack` runs from a remote whose index files
load and whose filter covers its cold tier, `locate` finds exactly the indexed hashes through any
cache, provided every push finds a usable filter or a cold tier with nothing of its own. -/
theorem locate_exact {es : List StoreEvent} (hl : Loads E r) (hcov : Covers E r)
    (hrun : Run (fun a e b => StoreStep E a e b ∧ (e = .pushed → FilterUsable E a)) r es r') :
    Answers E r' := by
  have hinv : Loads E r' ∧ Covers E r' := by
    refine hrun.invariant (P := fun x => Loads E x ∧ Covers E x) ⟨hl, hcov⟩ ?_
    rintro a e b - ⟨hstep, husable⟩ ⟨hla, hca⟩
    cases hstep with
    | pushed hc hnonce hpush hon =>
        rcases pushSession_run hc hnonce hpush with
          ⟨⟨rs₀, raw, hw, hb⟩, w, r₁, w₁, rs, base, ir, hs⟩
        have hle : a.Le b := by
          rw [hb]
          exact ⟨hw.le.objects, hw.le.log⟩
        exact ⟨hs.loads hle hon hla, hs.covers hle hon hla hca (husable rfl)⟩
    | packed hstep => exact hstep.covers
    | added hle hroot => exact ⟨hla.added hle hroot, hca.added hla hle hroot⟩
  exact answers_of_covers hinv.1 hinv.2

/-- With a filter that excludes the hash, a reader that has nothing cached does not look at the cold
shard. -/
theorem locate_hidden {ir : IndexRoot} {bh h : Hash} {bf : BloomFilter}
    (hroot : readIndexRoot E r = .ok (some ir)) (hd : ir.deltaHashes = [])
    (hhot : ir.hotHashOpt = none) (hbh : ir.bloomHashOpt = some bh)
    (hbf : readBloomFilter E r bh = .ok bf) (hok : bf.structuralDefect = none)
    (hno : bf.mayContain h = false) :
    ∃ c', Reader.locate E r (fun _ => none) h = .ok (.notFound, c') := by
  rcases loadBloomFilter_complete (faithful_empty E r) hbf with ⟨c', hl, -⟩
  have habsent : Reader.definitelyAbsent E r (fun _ => none) ir h = .ok (true, c') := by
    rw [Reader.definitelyAbsent, hbh]
    exact bind_eq_ok.mpr ⟨_, hl, by simp only [hok, hno]; rfl⟩
  refine ⟨c', bind_eq_ok.mpr ⟨some ir, hroot, ?_⟩⟩
  simp only [hd, hhot, Option.toList_none, Reader.searchFiles, bind, Except.bind]
  have hcached : ((IndexRoot.coldShardHashFor h ir).toList.any fun _ => false) = false := by
    rw [List.any_eq_false]
    simp
  rw [Reader.locateCold]
  simp only [Option.isSome_none, hcached, habsent, bind, Except.bind]
  rfl

end Run

/-- The sample remote has one delta file, whose only entry is `7`, and a usable filter. -/
theorem sampleRemote_root : ∃ ir, readIndexRoot sampleEnv sampleRemote = .ok (some ir) ∧
    (∀ h, tierHashes ir h = ir.deltaHashes) ∧
    (∀ h, IndexRoot.coldShardHashFor h ir = none) ∧
    (∀ k ∈ ir.deltaHashes, ∃ f, readIndexFile sampleEnv sampleRemote k = .ok f ∧
      ∀ e ∈ f.entries, e.hash = 7) ∧
    (∃ bh bf, ir.bloomHashOpt = some bh ∧ readBloomFilter sampleEnv sampleRemote bh = .ok bf ∧
      bf.structuralDefect = none) ∧
    ∃ e, lookup sampleEnv sampleRemote ir 7 = .ok (some e) ∧
      payload sampleRemote 7 e = some [42] := by
  have hroot₀ : okAnd (readIndexRoot sampleEnv sampleRemote) (fun o => o.any fun ir =>
      decide (ir.hotHash = zeroHash) && (decide (ir.coldPrefixBits = 0) &&
      (decide (ir.coldShards = [zeroHash]) &&
      (ir.deltaHashes.all (fun k => okAnd (readIndexFile sampleEnv sampleRemote k)
        fun f => f.entries.all fun e => decide (e.hash = 7)) &&
      (decide (ir.bloomHash ≠ zeroHash) &&
      (okAnd (readBloomFilter sampleEnv sampleRemote ir.bloomHash)
        (fun bf => bf.structuralDefect.isNone) &&
      okAnd (lookup sampleEnv sampleRemote ir 7) fun o =>
        o.any fun e => decide (payload sampleRemote 7 e = some [42]))))))) = true := by
    decide +kernel
  rcases okAnd_eq_true.mp hroot₀ with ⟨o, hroot, hany⟩
  rcases (Option.any_eq_true ..).mp hany with ⟨ir, rfl, hok⟩
  simp only [Bool.and_eq_true, decide_eq_true_eq, List.all_eq_true] at hok
  rcases hok with ⟨hhot, hbits, hshards, hdeltas, hne, hfilter, hseven⟩
  have hcold : ∀ h, IndexRoot.coldShardHashFor h ir = none := by
    intro h
    simp [IndexRoot.coldShardHashFor, IndexRoot.coldShardHash, hbits, hshards]
  refine ⟨ir, hroot, ?_, hcold, ?_, ?_, ?_⟩
  · intro h
    simp [tierHashes, hcold, show ir.hotHashOpt = none from hashOpt_eq_none.mpr hhot]
  · intro k hk
    rcases okAnd_eq_true.mp (hdeltas k hk) with ⟨f, hf, hall⟩
    exact ⟨f, hf, fun e he => of_decide_eq_true (List.all_eq_true.mp hall e he)⟩
  · rcases okAnd_eq_true.mp hfilter with ⟨bf, hbf, hsound⟩
    exact ⟨_, bf, hashOpt_eq_some.mpr ⟨hne, rfl⟩, hbf, Option.isNone_iff_eq_none.mp hsound⟩
  · rcases okAnd_eq_true.mp hseven with ⟨o, hl, ho⟩
    rcases (Option.any_eq_true ..).mp ho with ⟨e, rfl, hpay⟩
    exact ⟨e, hl, of_decide_eq_true hpay⟩

/-- A push of one object next to a usable filter. -/
theorem locate_exact_sample :
    ∃ r', Run (StoreStep sampleEnv) sampleRemote [.pushed] r' ∧
      Answers sampleEnv r' := by
  have hrun : okAnd (pushSession sampleEnv sampleRemote
      (fun _ => none) [.write 3 [1, 2, 3]] (List.replicate 12 0) 5)
      (fun out => decide out.1.Honest) = true := by
    decide +kernel
  rcases sampleRemote_root with ⟨ir, hroot, htiers, hcold, hdeltas, hfilter, -⟩
  rcases okAnd_eq_true.mp hrun with ⟨⟨r', answers⟩, hpush, hon⟩
  have hstep : StoreStep sampleEnv sampleRemote .pushed r' :=
    .pushed (faithful_empty _ _) List.length_replicate hpush (of_decide_eq_true hon)
  refine ⟨r', .cons hstep (.nil _), locate_exact ?_ ?_ (.cons ⟨hstep, fun _ => ?_⟩ (.nil _))⟩
  · intro ir₁ h₁ h k hk
    rw [hroot] at h₁
    cases h₁
    rw [htiers] at hk
    rcases hdeltas k hk with ⟨f, hf, -⟩
    exact ⟨f, hf⟩
  · rintro ir₁ h₁ h ⟨⟨e, he⟩, -⟩
    rw [hroot] at h₁
    cases h₁
    have hs := addressedTo_iff.mp he
    rw [hcold] at hs
    cases hs
  · intro ir₁ h₁
    rw [hroot] at h₁
    cases h₁
    exact Or.inl hfilter

/-! ## A push that hides an entry -/

/-- A defective recorded filter is replaced by an empty one. -/
theorem loadRemoteBloom_defective {E : Env} {r : Remote} {ir : IndexRoot} {bh : Hash}
    {bf : BloomFilter} (hbh : ir.bloomHashOpt = some bh) (hbf : readBloomFilter E r bh = .ok bf)
    (hbad : bf.structuralDefect.isSome) :
    PackWriter.loadRemoteBloom E r (some ir) =
      .ok (sizedFor E.optimalNumBits bf.elementCount.toNat) := by
  rcases bind_eq_ok.mp hbf with ⟨plain, hplain, hdes⟩
  rcases bind_eq_ok.mp hplain with ⟨stored, hstored, hdec⟩
  rcases Option.isSome_iff_exists.mp hbad with ⟨s, hs⟩
  simp only [PackWriter.loadRemoteBloom, hbh, hstored]
  exact bind_eq_ok.mpr ⟨plain, hdec, bind_eq_ok.mpr ⟨bf, hdes, by rw [hs]; rfl⟩⟩

def sampleShard : Bytes :=
  ((IndexFile.new.push (.inline ⟨7, [42], sampleData_fits⟩)).serialise).toOption.getD []

def defectiveFilter : Bytes := (BloomFilter.mk 7 0 1 [] rfl).serialise

/-- A root with one cold entry and a filter of zero bits. -/
def defectiveRoot : IndexRoot where
  remoteRoot := 1
  hotHash := zeroHash
  bloomHash := sampleEnv.sha256 defectiveFilter
  coldPrefixBits := 0
  deltaHashes := []
  coldShards := [sampleEnv.sha256 sampleShard]

def defectiveRemote : Remote :=
  Remote.ofObjects [(sampleEnv.sha256 sampleShard, sampleShard),
    (sampleEnv.sha256 defectiveFilter, defectiveFilter)] defectiveRoot.serialise.toOption

/-- **`push_hides_cold_entry`** — a push that writes nothing publishes an empty filter over the cold
entry; it is still indexed, and a reader without a cache is told that it is absent. -/
theorem push_hides_cold_entry :
    ∃ r' c', pushSession sampleEnv defectiveRemote (fun _ => none) [] (List.replicate 12 0) 5 =
        .ok (r', []) ∧ r'.Honest ∧
      (∃ ir, readIndexRoot sampleEnv r' = .ok (some ir) ∧ Indexed sampleEnv r' ir 7) ∧
      Reader.locate sampleEnv r' (fun _ => none) 7 = .ok (.notFound, c') := by
  have hroot₀ : okAnd (readIndexRoot sampleEnv defectiveRemote)
      (fun o => decide (o = some defectiveRoot)) = true := by
    decide +kernel
  have hbloom₀ : okAnd (readBloomFilter sampleEnv defectiveRemote defectiveRoot.bloomHash)
      (fun bf => bf.structuralDefect.isSome) = true := by
    decide +kernel
  have hshard₀ : okAnd (lookup sampleEnv defectiveRemote defectiveRoot 7) Option.isSome = true := by
    decide +kernel
  have hrun : okAnd (pushSession sampleEnv defectiveRemote (fun _ => none) []
      (List.replicate 12 0) 5) (fun out =>
        Remote.Writes.freshLog defectiveRemote out.1.log) = true := by
    decide +kernel
  rcases okAnd_eq_true.mp hroot₀ with ⟨o, hroot₀, ho⟩
  obtain rfl : o = some defectiveRoot := of_decide_eq_true ho
  rcases okAnd_eq_true.mp hbloom₀ with ⟨bf, hbf, hbad⟩
  rcases okAnd_eq_true.mp hshard₀ with ⟨o, hl, ho⟩
  rcases Option.isSome_iff_exists.mp ho with ⟨e, rfl⟩
  rcases okAnd_eq_true.mp hrun with ⟨⟨r', answers⟩, hok, hout⟩
  rcases pushSession_run (faithful_empty _ _) List.length_replicate hok with
    ⟨⟨rs₀, raw, hw, hr'⟩, w, r₁, w₁, rs, base, ir, hs⟩
  have hon : r'.Honest := by
    rw [hr'] at hout ⊢
    exact hw.honest rfl hout
  have hle : Remote.Le defectiveRemote r' := by
    rw [hr']
    exact ⟨hw.le.objects, hw.le.log⟩
  clear hr'
  rcases hs.base_eq with ⟨old, hold, hsnap, hbase⟩
  rw [hroot₀] at hold
  cases hold
  obtain rfl : base = defectiveRoot := hbase
  have hran := hs.ran
  cases hran
  have hdelta : (PackWriter.flushPack sampleEnv defectiveRemote w).2.delta.isEmpty := by
    cases hes : (PackWriter.flushPack sampleEnv defectiveRemote w).2.delta.entries with
    | nil => exact List.isEmpty_iff.mpr hes
    | cons e es =>
        have he := IndexFile.find_eq_some_iff.mpr ⟨hes ▸ List.mem_cons_self .., rfl⟩
        rcases hs.after.inv.flushPack.1.delta _ e he with ⟨b, hb, -⟩
        cases hb
  have hdeltas : ir.deltaHashes = [] := by
    rcases hs.built.deltas with ⟨-, hd⟩ | ⟨hne, -⟩
    · exact hd
    · rw [hdelta] at hne
      cases hne
  have hbloom : w.bloom = sizedFor sampleEnv.optimalNumBits bf.elementCount.toNat := by
    have hbh : defectiveRoot.bloomHashOpt = some defectiveRoot.bloomHash :=
      hashOpt_eq_some.mpr ⟨by decide +kernel, rfl⟩
    have hload := (new_snapshot hs.opened).2.2.2.2.2
    rw [hsnap, loadRemoteBloom_defective hbh hbf hbad] at hload
    exact (Except.ok.inj hload).symm
  rcases hs.built.filter r' hs.published hon with ⟨hne, hread⟩
  have hindexed : Indexed sampleEnv r' ir 7 := hs.built.indexed hle (Indexed.of_lookup hl)
  have hhot : ir.hotHashOpt = none := hashOpt_eq_none.mpr hs.built.hot
  rcases locate_hidden hs.root hdeltas hhot (hashOpt_eq_some.mpr ⟨hne, rfl⟩) hread
    (by rw [hbloom]; exact structuralDefect_sizedFor _ _)
    (by rw [hbloom]; exact mayContain_sizedFor _ _ 7) with ⟨c', hloc⟩
  exact ⟨r', c', hok, hon, ⟨ir, hs.root, hindexed⟩, hloc⟩

end Omemfs.Pack
