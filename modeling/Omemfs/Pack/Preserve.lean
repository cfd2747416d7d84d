/-
# Omemfs.Pack.Preserve — what `omemfs pack` publishes, and what it keeps readable.

`Compacted` is the contract of one run that reached its compare-and-swap, assembled from the lemma
of each step.  It says where the entries of the merged tiers went, that every index file of the new
root loads, and that the new filter admits everything indexed.

The cold tier is where objects get lost.  An entry is moved into the shard of slot 0, whatever its
own slot names, and a split compares slots with first bytes, whatever the number of prefix bits.
`KeepsAddressing` rules out exactly these two, and `pack_runs_preserve` is the theorem about runs
under it; `cold_entry_lost` is a run that loses an object without it.
-/
import Omemfs.Pack.ColdTier
import Omemfs.Lib.Runs
import Mathlib.Data.List.MinMax

namespace Omemfs.Pack.Compact

open Lib

/-- Without deltas a tier is the hot index or a recorded cold shard. -/
theorem mem_tierHashes {ir : IndexRoot} {h k : Hash} (hd : ir.deltaHashes = [])
    (hk : k ∈ tierHashes ir h) : k = ir.hotHash ∨ k ∈ ir.coldShards ∧ k ≠ zeroHash := by
  rw [tierHashes, hd, List.nil_append, List.mem_append, Option.mem_toList, Option.mem_toList] at hk
  rcases hk with hhot | hcold
  · exact Or.inl (hashOpt_eq_some.mp hhot).2.symm
  · rw [IndexRoot.coldShardHashFor_eq] at hcold
    rcases Option.bind_eq_some_iff.mp hcold with ⟨s, hs, hopt⟩
    rcases hashOpt_eq_some.mp hopt with ⟨hne, rfl⟩
    exact Or.inr ⟨List.mem_of_getElem? hs, hne⟩

/-- The merged entry of `h` is sent to the cold tier. -/
def Moves (E : Env) (ch : Choices) (r : Remote) (ir : IndexRoot) (h : Hash) (e : IndexEntry) :
    Prop :=
  searchRemote E r h (recent ir) = .ok (some e) ∧ ch.goesCold e = true

/-- `f` is the shard of slot 0 with the moved entries added. -/
def GrownShard (E : Env) (ch : Choices) (r : Remote) (ir : IndexRoot) (f : IndexFile) : Prop :=
  ∃ shared, SharedEntries E r ir shared ∧ ∀ h, (∃ e, Moves E ch r ir h e ∧ f.find h = some e) ∨
    (∀ e, ¬ Moves E ch r ir h e) ∧ f.find h = (IndexFile.new.pushAll shared).find h

/-- No shard is above the split threshold, nor will the one that grows be. -/
structure NoOversized (E : Env) (ch : Choices) (r : Remote) (ir : IndexRoot) : Prop where
  recorded : ∀ s ∈ ir.coldShards, s ≠ zeroHash →
    ∃ b, r.objects s = some b ∧ b.length ≤ coldShardSplitThreshold
  grown : ∀ f bytes, GrownShard E ch r ir f → f.serialise = .ok bytes →
    (storedBytes E bytes).length ≤ coldShardSplitThreshold

/-- The run keeps cold entries where lookups go: every moved entry has a slot that names the shard
of slot 0, and no shard is split while slots stand for more than a first byte. -/
structure KeepsAddressing (E : Env) (ch : Choices) (r : Remote) (ir : IndexRoot) : Prop where
  slots : ∀ h e, Moves E ch r ir h e → ir.coldShards[ir.slotOf h]? = ir.coldShards[0]?
  table : ir.coldPrefixBits.toNat ≤ 8 ∨ NoOversized E ch r ir

/-! ## The contract of one run -/

structure Compacted (E : Env) (ch : Choices) (r r' : Remote) (ir ir' : IndexRoot) : Prop where
  deltas : ir'.deltaHashes = []
  searched : ∀ h, ∃ o, searchRemote E r h (recent ir) = .ok o
  hot : ∃ f, ir'.hotHash ≠ zeroHash ∧ readIndexFile E r' ir'.hotHash = .ok f ∧
    (∀ h e', f.find h = some e' → ∃ e, searchRemote E r h (recent ir) = .ok (some e) ∧
      ch.goesCold e = false ∧ ∀ b, payload r h e = some b → payload r' h e' = some b) ∧
    ∀ h e, searchRemote E r h (recent ir) = .ok (some e) → ch.goesCold e = false →
      (f.find h).isSome
  cold : KeepsAddressing E ch r ir →
    (∀ h e, AddressedTo E r ir h e → searchRemote E r h (recent ir) = .ok none →
      AddressedTo E r' ir' h e) ∧ ∀ h e, Moves E ch r ir h e → AddressedTo E r' ir' h e
  loads : ∀ h, ∀ k ∈ tierHashes ir' h, ∃ f, readIndexFile E r' k = .ok f
  filter : ∀ h, Indexed E r' ir' h → Reader.FilterAdmits E r' ir' h

section Stage

variable {E : Env} {ch : Choices} {r rs : Remote} {c c' : Cache} {nonce raw : Bytes}
  {ir ir' : IndexRoot}

/-- Without an oversized shard there is no split. -/
theorem split_unchanged {cold : List IndexEntry} {r₁ r₂ r₃ r' : Remote} {ir₁ ir₂ : IndexRoot}
    (hsize : NoOversized E ch r ir) (hle : r.Le r₁) (ha : Applied E r₁ cold ir₁ ir₂ r₂)
    (hshards : ir₁.coldShards = ir.coldShards) (hs : Split E r₂ ir₂ ir' r₃) (hle' : r₃.Le r')
    (hon : r'.Honest)
    (hgrown : ∀ shared, SharedEntries E r₁ ir₁ shared →
      GrownShard E ch r ir (IndexFile.new.pushAll (shared ++ cold))) : ir' = ir₂ := by
  have hle₂ : r.Le r₂ := hle.trans ha.writes.le
  have hle₃ : r₂.Le r' := hs.writes.le.trans hle'
  cases hs with
  | unchanged => rfl
  | @split old stored f best dedicated shared r₁' r₃ hmem hzero hstored hbig hread hded hsh =>
      exfalso
      -- an old shard of the table has the size it had before the run
      have hrecorded : old ∉ ir.coldShards := by
        intro hold
        rcases hsize.recorded old hold hzero with ⟨b, hb, hlen⟩
        rw [hle₂.objects hb] at hstored
        cases hstored
        omega
      cases ha with
      | unchanged => exact hrecorded (hshards ▸ hmem)
      | @moved shared' newShard r₂ hshared hwrite =>
          rcases List.mem_map.mp hmem with ⟨slot, hslot, heq⟩
          split_ifs at heq with hold
          · subst heq
            rcases writeIndexFile_stored hwrite hle₃ hon with ⟨bytes, hser, hobj⟩
            rw [hle₃.objects hstored] at hobj
            cases hobj
            have hsmall := hsize.grown _ bytes (hgrown shared' hshared) hser
            omega
          · subst heq
            exact hrecorded (hshards ▸ hslot)

/-- **`stage_spec`** — a run of the steps publishes a compacted root. -/
theorem stage_spec (hc : Faithful E r c) (hwf : WellFormed ir)
    (hs : stage E ch r c nonce ir = .ok (ir', raw, rs, c')) :
    r.Writes rs ∧ Faithful E rs c' ∧ WellFormed ir' ∧
      encryptIndexRootBytes E nonce ir' = .ok raw ∧
      ∀ r', rs.Le r' → r'.Honest → Compacted E ch r r' ir ir' := by
  rcases bind_eq_ok.mp hs with ⟨⟨merged, c₁⟩, hmerge, hs⟩
  rcases bind_eq_ok.mp hs with ⟨⟨hot, r₁⟩, hcons, hs⟩
  rcases bind_eq_ok.mp hs with ⟨⟨hotHash, r₂⟩, hhot, hs⟩
  rcases bind_eq_ok.mp hs with ⟨⟨ir₃, r₃, c₃⟩, happly, hs⟩
  rcases bind_eq_ok.mp hs with ⟨⟨ir₄, r₄, c₄⟩, hsplit, hs⟩
  rcases bind_eq_ok.mp hs with ⟨⟨coldFiles, c₅⟩, hfiles, hs⟩
  rcases bind_eq_ok.mp hs with ⟨raw', henc, hs⟩
  cases hs
  rcases mergeDeltasIntoHot_spec hc hmerge with ⟨hc₁, hnd, hfind⟩
  have hndp : ∀ p : IndexEntry → Bool, ((merged.filter p).map IndexEntry.hash).Nodup := fun p =>
    hnd.sublist (List.filter_sublist.map _)
  have hcarry := consolidatePackFiles_spec (hndp _) hcons
  rcases writeIndexFile_spec hhot with ⟨hw₂, hread₂⟩
  have hle₂ : r.Le r₂ := hcarry.writes.le.trans hw₂.le
  have hwf₂ : WellFormed { ir with hotHash, deltaHashes := [] } := hwf
  rcases applyColdEntries_spec (hc₁.mono hle₂) hwf₂ happly with ⟨hc₃, happlied⟩
  have hwf₃ := happlied.wellFormed hwf₂
  rcases splitColdShards_spec hc₃ hsplit with ⟨hc₄, hsplit⟩
  rcases hsplit.same hwf₃ with ⟨hhot₄, hdelta₄, hwf₄⟩
  rcases loadColdShardFiles_spec hc₄ hfiles with ⟨hc', hloaded⟩
  have hw : r.Writes r₄ :=
    ((hcarry.writes.trans hw₂).trans happlied.writes).trans hsplit.writes
  have hlebloom := le_writeObject E r₄ (regenerateBloom E hot coldFiles).serialise
  refine ⟨hw.trans (.one _ _ _), hc'.mono hlebloom, hwf₄, henc, ?_⟩
  intro r' hle hon
  have hle₄ : r₄.Le r' := hlebloom.trans hle
  have hle₃ : r₃.Le r' := hsplit.writes.le.trans hle₄
  have hle₂' : r₂.Le r' := happlied.writes.le.trans hle₃
  rcases hread₂ r' hle₂' hon with ⟨hhotne, hhotread⟩
  have hhotHash : ir₄.hotHash = hotHash := hhot₄.trans happlied.same.1
  have hdeltas : ir₄.deltaHashes = [] := hdelta₄.trans happlied.same.2.1
  -- which entries were moved
  have hmoves : ∀ h e, Moves E ch r ir h e ↔ e ∈ merged.filter ch.goesCold ∧ e.hash = h := by
    intro h e
    rcases hfind h with ⟨o, ho, hval⟩
    have hiff : searchRemote E r h (recent ir) = .ok (some e) ↔ e ∈ merged ∧ e.hash = h := by
      rw [show searchRemote E r h (recent ir) = .ok o from ho, Except.ok.injEq]
      exact hval e
    rw [Moves, hiff, List.mem_filter]
    tauto
  have hhotfind : ∀ h e', (IndexFile.new.pushAll hot).find h = some e' ↔
      e' ∈ hot ∧ e'.hash = h := fun h e' => IndexFile.find_ofEntries hcarry.nodup
  refine ⟨hdeltas, fun h => (hfind h).imp fun o ho => ho.1, ?_, ?_, ?_, ?_⟩
  · refine ⟨IndexFile.new.pushAll hot, hhotHash ▸ hhotne, hhotHash ▸ hhotread, ?_, ?_⟩
    · intro h e' he'
      rcases (hhotfind h e').mp he' with ⟨hmem, rfl⟩
      rcases hcarry.from_entries e' hmem with ⟨e, he, hhash, hback⟩
      rcases List.mem_filter.mp he with ⟨hin, hwarm⟩
      rcases hfind e'.hash with ⟨o, ho, hval⟩
      refine ⟨e, ?_, by simpa using hwarm, ?_⟩
      · rw [show searchRemote E r e'.hash (recent ir) = .ok o from ho]
        exact congrArg _ ((hval e).mpr ⟨hin, hhash⟩)
      · intro b hb
        rw [← hhash] at hb ⊢
        have := hback b hb r' (hw₂.le.trans hle₂') hon
        rw [← hhash] at this
        exact this
    · intro h e hs hwarm
      rcases hfind h with ⟨o, ho, hval⟩
      rw [show searchRemote E r h (recent ir) = .ok o from ho] at hs
      cases hs
      rcases (hval e).mp rfl with ⟨hin, rfl⟩
      rcases hcarry.covers e (List.mem_filter.mpr ⟨hin, by rw [hwarm]; rfl⟩) with ⟨e', he', hh⟩
      exact Option.isSome_iff_exists.mpr ⟨e', (hhotfind _ _).mpr ⟨he', hh⟩⟩
  · intro hkeep
    have hbits : ir₃.coldPrefixBits.toNat ≤ 8 ∨ ir₄ = ir₃ := by
      rcases hkeep.table with h8 | hsize
      · left
        rw [happlied.same.2.2.1]
        exact h8
      · right
        refine split_unchanged hsize hle₂ happlied rfl hsplit hle₄ hon ?_
        intro shared hshared
        refine ⟨shared, ?_, ?_⟩
        · cases hshared with
          | none hz => exact .none hz
          | file hz hf =>
              have hmem : ir.coldShards.headD zeroHash ∈ ir.coldShards := by
                cases hsh : ir.coldShards with
                | nil => exact absurd hsh (coldShards_ne_nil hwf)
                | cons s ss => exact List.mem_cons_self ..
              rcases hsize.recorded _ hmem hz with ⟨b, hb, -⟩
              exact .file hz (readIndexFile_of_le hle₂ hb hf)
        · intro h
          by_cases hmv : ∃ e, Moves E ch r ir h e
          · rcases hmv with ⟨e, he⟩
            rcases (hmoves h e).mp he with ⟨hin, rfl⟩
            refine Or.inl ⟨e, he, ?_⟩
            rw [IndexFile.pushAll_append]
            exact IndexFile.find_pushAll_of_nodup (hndp _) hin
          · refine Or.inr ⟨fun e he => hmv ⟨e, he⟩, ?_⟩
            rw [IndexFile.pushAll_append]
            apply IndexFile.find_pushAll_of_notMem
            intro x hx hxh
            exact hmv ⟨x, (hmoves h x).mpr ⟨hx, hxh⟩⟩
    constructor
    · intro h e ha hnone
      have ha₂ : AddressedTo E r' { ir with hotHash, deltaHashes := [] } h e :=
        (ha.congr rfl rfl).mono (hle₂.trans hle₂')
      refine (hsplit.kept hwf₃ hbits hle₄ hon (happlied.kept hle₃ hon ha₂ ?_)).congr rfl rfl
      intro x hx hxh
      have hx' := ((hmoves h x).mpr ⟨hx, hxh⟩).1
      rw [hnone] at hx'
      cases hx'
    · intro h e hmv
      rcases (hmoves h e).mp hmv with ⟨hin, rfl⟩
      have hadded := happlied.added hwf₂ hle₃ hon (hndp _) hin (hkeep.slots _ e hmv)
      exact (hsplit.kept hwf₃ hbits hle₄ hon hadded).congr rfl rfl
  · intro h k hk
    rcases mem_tierHashes hdeltas hk with rfl | ⟨hmem, hne⟩
    · exact ⟨_, hhotHash ▸ hhotread⟩
    · rcases hloaded k hmem hne with hseen | ⟨f, -, hf⟩
      · cases hseen
      · exact ⟨f, readIndexFile_mono hle₄ hf⟩
  · rintro h ⟨k, hk, f, e, hf, hfind⟩ bh hbh
    rcases hashOpt_eq_some.mp hbh with ⟨-, rfl⟩
    refine ⟨_, readBloomFilter_writeObject hon hle, Or.inr ?_⟩
    rcases IndexFile.find_eq_some_iff.mp hfind with ⟨hin, rfl⟩
    apply mayContain_regenerateBloom
    rcases mem_tierHashes hdeltas hk with rfl | ⟨hmem, hne⟩
    · left
      rw [show readIndexFile E r' ir₄.hotHash = _ from hhotHash ▸ hhotread] at hf
      cases hf
      exact ((hhotfind _ _).mp hfind).1
    · right
      rcases hloaded k hmem hne with hseen | ⟨g, hg, hgread⟩
      · cases hseen
      · rw [readIndexFile_mono hle₄ hgread] at hf
        cases hf
        exact ⟨_, hg, hin⟩

/-! ## One run -/

/-- A run that succeeded staged a root and swapped it in. -/
theorem run_staged {r' : Remote} (hroot : readIndexRoot E r = .ok (some ir))
    (hr : run E ch r c nonce = .ok (r', c')) :
    ∃ ir' raw rs, stage E ch r c nonce ir = .ok (ir', raw, rs, c') ∧
      r' = { rs with root := some raw } := by
  rcases bind_eq_ok.mp hr with ⟨o, ho, hr⟩
  rw [hroot] at ho
  cases ho
  rcases bind_eq_ok.mp hr with ⟨⟨ir', raw, rs, c₁⟩, hstage, hr⟩
  cases hcas : rs.casWrite (tokenFor r.root) raw with
  | error e =>
      simp only [hcas] at hr
      cases hr
  | ok r₁ =>
      simp only [hcas] at hr
      cases hr
      exact ⟨ir', raw, rs, hstage, (Remote.casWrite_eq_ok.mp hcas).2⟩

/-- Nobody else moves the root here, so a staged root is published. -/
theorem run_of_stage (hroot : readIndexRoot E r = .ok (some ir))
    (hs : stage E ch r c nonce ir = .ok (ir', raw, rs, c')) (hw : r.Writes rs) :
    run E ch r c nonce = .ok ({ rs with root := some raw }, c') := by
  have hcas : rs.casWrite (tokenFor r.root) raw = .ok { rs with root := some raw } :=
    Remote.casWrite_eq_ok.mpr ⟨by rw [hw.root], rfl⟩
  refine bind_eq_ok.mpr ⟨some ir, hroot, bind_eq_ok.mpr ⟨_, hs, ?_⟩⟩
  simp only [hcas]
  rfl

/-- **`run_spec`** — a run that reached its compare-and-swap replaced the root it had read by a
compacted one. -/
theorem run_spec {r' : Remote} (hc : Faithful E r c) (hnonce : nonce.length = 12)
    (hroot : readIndexRoot E r = .ok (some ir)) (hr : run E ch r c nonce = .ok (r', c'))
    (hon : r'.Honest) :
    r.Le r' ∧ ∃ ir', readIndexRoot E r' = .ok (some ir') ∧ Compacted E ch r r' ir ir' := by
  rcases run_staged hroot hr with ⟨ir', raw, rs, hstage, hr'⟩
  rcases stage_spec hc (readIndexRoot_wellFormed hroot) hstage with ⟨hw, -, hwf', henc, hcompact⟩
  have hle : rs.Le r' := by
    rw [hr']
    exact ⟨id, List.Subset.refl _⟩
  refine ⟨hw.le.trans hle, ir', ?_, hcompact r' hle hon⟩
  exact readIndexRoot_published hnonce hwf'.1 henc (by rw [hr'])

/-- The merged tiers of a compacted root are its hot index. -/
theorem Compacted.recent_eq {r' : Remote} (hcomp : Compacted E ch r r' ir ir')
    (hne : ir'.hotHash ≠ zeroHash) : recent ir' = [ir'.hotHash] := by
  have hopt : ir'.hotHashOpt = some ir'.hotHash := hashOpt_eq_some.mpr ⟨hne, rfl⟩
  rw [recent, hcomp.deltas, hopt]
  rfl

/-- **`Compacted.lookup`** — what was indexed with some bytes behind it still is, with the same
bytes. -/
theorem Compacted.lookup {r' : Remote} (hcomp : Compacted E ch r r' ir ir')
    (hkeep : KeepsAddressing E ch r ir) (hle : r.Le r') {h : Hash} {e : IndexEntry} {b : Bytes}
    (hl : lookup E r ir h = .ok (some e)) (hb : payload r h e = some b) :
    ∃ e', Pack.lookup E r' ir' h = .ok (some e') ∧ payload r' h e' = some b := by
  rcases hcomp.hot with ⟨f, hne, hread, hfrom, hto⟩
  have hrecent : ∀ o, f.find h = o → searchRemote E r' h (recent ir') = .ok o := by
    intro o ho
    rw [hcomp.recent_eq hne, ← ho]
    exact searchRemote_singleton hread
  -- an entry only the cold tier has is not in the new hot index either
  have hcold : (∀ e₁, searchRemote E r h (recent ir) = .ok (some e₁) → ch.goesCold e₁ = true) →
      AddressedTo E r' ir' h e → Pack.lookup E r' ir' h = .ok (some e) := by
    intro hno ha
    have hnone : f.find h = none := by
      cases hf : f.find h with
      | none => rfl
      | some e' =>
          rcases hfrom h e' hf with ⟨e₁, he₁, hwarm, -⟩
          rw [hno e₁ he₁] at hwarm
          cases hwarm
    rw [Pack.lookup, tierHashes_eq, searchRemote_append_of_none (hrecent none hnone)]
    exact addressedTo_iff.mp ha
  rw [Pack.lookup, tierHashes_eq] at hl
  rcases searchRemote_append.mp hl with hs | ⟨hs, hc⟩
  · cases hgo : ch.goesCold e with
    | false =>
        rcases Option.isSome_iff_exists.mp (hto h e hs hgo) with ⟨e', he'⟩
        rcases hfrom h e' he' with ⟨e₁, he₁, -, hpay⟩
        rw [hs] at he₁
        cases he₁
        refine ⟨e', ?_, hpay b hb⟩
        rw [Pack.lookup, tierHashes_eq]
        exact searchRemote_append.mpr (Or.inl (hrecent _ he'))
    | true =>
        refine ⟨e, hcold ?_ ((hcomp.cold hkeep).2 h e ⟨hs, hgo⟩), payload_mono hle hb⟩
        intro e₁ he₁
        rw [hs] at he₁
        cases he₁
        exact hgo
  · refine ⟨e, hcold ?_ ((hcomp.cold hkeep).1 h e (addressedTo_iff.mpr hc) hs),
      payload_mono hle hb⟩
    intro e₁ he₁
    rw [hs] at he₁
    cases he₁

end Stage

/-! ## Runs of `pack` -/

/-- One `pack` run of some client, with whatever its cache holds, that reached its
compare-and-swap. -/
structure CompactStep (E : Env) (r : Remote) (ch : Choices) (r' : Remote) : Prop where
  recorded : ∃ ir, readIndexRoot E r = .ok (some ir)
  ran : ∃ c c' nonce, Faithful E r c ∧ nonce.length = 12 ∧ run E ch r c nonce = .ok (r', c')
  honest : r'.Honest

/-- The condition under which a run keeps everything readable. -/
def Safe (E : Env) (ch : Choices) (r : Remote) : Prop :=
  ∀ ir, readIndexRoot E r = .ok (some ir) → KeepsAddressing E ch r ir

/-- **`CompactStep.resolves`** — one run. -/
theorem CompactStep.resolves {E : Env} {ch : Choices} {r r' : Remote} (hstep : CompactStep E r ch r')
    (hsafe : Safe E ch r) {h : Hash} {b : Bytes} (hb : Reader.Readable E r h b) :
    Reader.Resolves E r' h b := by
  rcases hstep with ⟨⟨ir, hroot⟩, ⟨c, c', nonce, hc, hnonce, hrun⟩, hon⟩
  rcases run_spec hc hnonce hroot hrun hon with ⟨hle, ir', hroot', hcomp⟩
  rcases hb with ⟨c₀, pc, out, hc₀, hpc, hres⟩
  rcases Reader.resolve_sound hc₀ hpc hroot hres with ⟨e, hl, hpay⟩
  rcases hcomp.lookup (hsafe ir hroot) hle hl hpay with ⟨e', hl', hpay'⟩
  exact Reader.resolves_of_lookup hroot' hl' (hcomp.filter h (Indexed.of_lookup hl')) hpay'

/-- **`pack_runs_preserve`** — after any number of runs that keep cold entries where lookups go,
every object that could be read before reads back to the same bytes, whatever a reader's caches
hold. -/
theorem pack_runs_preserve {E : Env} {r r' : Remote} {ch : Choices} {chs : List Choices}
    (hrun : Run (fun a ch b => CompactStep E a ch b ∧ Safe E ch a) r (ch :: chs) r') {h : Hash}
    {b : Bytes} (hb : Reader.Readable E r h b) : Reader.Resolves E r' h b := by
  cases hrun with
  | cons hfirst hrest =>
      refine hrest.invariant (P := fun x => Reader.Resolves E x h b)
        (hfirst.1.resolves hfirst.2 hb) ?_
      intro x ch' y _ hstep hx
      exact hstep.1.resolves hstep.2 hx.readable

/-! ## A run that loses an object -/

/-- Hash maps in the order of their hashes, and the first of the most populous prefixes. -/
def sampleChoices (isHot : Hash → Bool) : Choices where
  isHot := isHot
  mergedOrder := id
  mergedOrder_perm := fun _ => .refl _
  updatedOrder := id
  updatedOrder_perm := fun _ => .refl _
  bestPrefix f :=
    if f.entries.isEmpty then none
    else ((List.range 256).map UInt8.ofNat).argmax (prefixCount f)
  bestPrefix_isNone := by
    intro f hf
    split_ifs at hf with hempty
    · exact List.isEmpty_iff.mp hempty
    · rw [List.argmax_eq_none] at hf
      cases hf
  bestPrefix_most := by
    intro f p hp
    split_ifs at hp with hempty
    have hmax : ∀ q, prefixCount f q ≤ prefixCount f p := by
      intro q
      refine List.le_of_mem_argmax (List.mem_map.mpr ⟨q.toNat, ?_, UInt8.ofNat_toNat⟩) hp
      exact List.mem_range.mpr q.toNat_lt
    refine ⟨?_, hmax⟩
    cases hl : f.entries with
    | nil =>
        rw [hl] at hempty
        exact absurd rfl hempty
    | cons e es =>
        refine lt_of_lt_of_le ?_ (hmax e.hash.firstByte)
        rw [prefixCount, hl]
        exact List.countP_pos_iff.mpr ⟨e, List.mem_cons_self .., beq_self_eq_true _⟩

/-- Everything a first writer writes under fresh keys is kept, so the run is honest. -/
theorem run_of_fresh_keys {E : Env} {ch : Choices} {r rs : Remote} {c c' : Cache}
    {nonce raw : Bytes} {ir ir' : IndexRoot} (hc : Faithful E r c) (hlog : r.log = [])
    (hroot : readIndexRoot E r = .ok (some ir))
    (hs : stage E ch r c nonce ir = .ok (ir', raw, rs, c'))
    (hkeys : Remote.Writes.freshLog r rs.log = true) :
    run E ch r c nonce = .ok ({ rs with root := some raw }, c') ∧
      Remote.Honest { rs with root := some raw } := by
  have hw := (stage_spec hc (readIndexRoot_wellFormed hroot) hs).1
  exact ⟨run_of_stage hroot hs hw, hw.honest hlog hkeys⟩

/-- A hash with first byte `80`. -/
def lostHash : Hash := BitVec.ofNat 256 (0x80 * 2 ^ 248 + 7)

/-- A remote after a split: slot `80` names a dedicated shard, the other 255 slots the shared one,
and one entry with prefix `80` is in the hot index. -/
def splitRemote : Remote :=
  let file (h : Hash) : Bytes :=
    ((IndexFile.new.push (.inline ⟨h, [42], sampleData_fits⟩)).serialise).toOption.getD []
  let hot := file lostHash
  let shared := file 3
  let dedicated := file (lostHash + 1)
  let root : IndexRoot :=
    { remoteRoot := 1, hotHash := sampleEnv.sha256 hot, bloomHash := zeroHash
      coldPrefixBits := 8, deltaHashes := []
      coldShards := List.replicate 128 (sampleEnv.sha256 shared) ++
        sampleEnv.sha256 dedicated :: List.replicate 127 (sampleEnv.sha256 shared) }
  Remote.ofObjects [(sampleEnv.sha256 hot, hot), (sampleEnv.sha256 shared, shared),
    (sampleEnv.sha256 dedicated, dedicated)] root.serialise.toOption



theorem splitRemote_readable : Reader.Readable sampleEnv splitRemote lostHash [42] := by
  have hres : okAnd (Reader.resolve sampleEnv splitRemote (fun _ => none) (fun _ => none)
      lostHash) (fun out => out.1 == [42]) = true := by
    decide +kernel
  rcases okAnd_eq_true.mp hres with ⟨⟨b, out⟩, hres, hb⟩
  obtain rfl : b = [42] := by simpa using hb
  have hpc : PackFaithful splitRemote fun _ => none := fun _ _ h => nomatch h
  exact ⟨_, _, out, faithful_empty _ _, hpc, hres⟩

/-- A run that finds everything reachable keeps the object. -/
theorem pack_runs_preserve_sample :
    ∃ r', CompactStep sampleEnv splitRemote (sampleChoices fun _ => true) r' ∧
      Reader.Resolves sampleEnv r' lostHash [42] := by
  have hstage : okAnd (readIndexRoot sampleEnv splitRemote) (fun o => o.any fun ir =>
      ir.coldPrefixBits == 8 && okAnd (stage sampleEnv (sampleChoices fun _ => true) splitRemote
        (fun _ => none) (List.replicate 12 0) ir) fun out =>
          Remote.Writes.freshLog splitRemote out.2.2.1.log) = true := by
    decide +kernel
  rcases okAnd_eq_true.mp hstage with ⟨o, hroot, hany⟩
  rcases (Option.any_eq_true ..).mp hany with ⟨ir, rfl, hok⟩
  rcases (Bool.and_eq_true ..).mp hok with ⟨hbits, hok⟩
  rcases okAnd_eq_true.mp hok with ⟨⟨ir', raw, rs, c'⟩, hs, hkeys⟩
  rcases run_of_fresh_keys (faithful_empty _ _) rfl hroot hs hkeys with ⟨hrun, hon⟩
  have hstep : CompactStep sampleEnv splitRemote (sampleChoices fun _ => true)
      { rs with root := some raw } :=
    ⟨⟨ir, hroot⟩, ⟨_, c', _, faithful_empty _ _, List.length_replicate, hrun⟩, hon⟩
  have hsafe : Safe sampleEnv (sampleChoices fun _ => true) splitRemote := by
    intro ir₁ h₁
    rw [hroot] at h₁
    cases h₁
    constructor
    · rintro h e ⟨-, hgo⟩
      cases e <;> cases hgo
    · left
      rw [beq_iff_eq.mp hbits]
      decide
  exact ⟨_, hstep, pack_runs_preserve (.cons ⟨hstep, hsafe⟩ (.nil _)) splitRemote_readable⟩

/-- **`cold_entry_lost`** — the entry moves into the shared shard, its slot keeps naming the
dedicated one, and no reader finds it any more. -/
theorem cold_entry_lost :
    ∃ r' c', run sampleEnv (sampleChoices fun _ => false) splitRemote (fun _ => none)
        (List.replicate 12 0) = .ok (r', c') ∧ r'.Honest ∧
      Reader.Readable sampleEnv splitRemote lostHash [42] ∧
      ∀ b, ¬ Reader.Readable sampleEnv r' lostHash b := by
  have hstage : okAnd (readIndexRoot sampleEnv splitRemote) (fun o => o.any fun ir =>
      okAnd (stage sampleEnv (sampleChoices fun _ => false) splitRemote (fun _ => none)
        (List.replicate 12 0) ir) fun out =>
          okAnd (lookup sampleEnv out.2.2.1 out.1 lostHash) Option.isNone &&
          Remote.Writes.freshLog splitRemote out.2.2.1.log) = true := by
    decide +kernel
  rcases okAnd_eq_true.mp hstage with ⟨o, hroot, hany⟩
  rcases (Option.any_eq_true ..).mp hany with ⟨ir, rfl, hok⟩
  rcases okAnd_eq_true.mp hok with ⟨⟨ir', raw, rs, c'⟩, hs, hout⟩
  rcases (Bool.and_eq_true ..).mp hout with ⟨hnone, hkeys⟩
  rcases okAnd_eq_true.mp hnone with ⟨o', hl, ho'⟩
  obtain rfl : o' = none := by simpa using ho'
  rcases run_of_fresh_keys (faithful_empty _ _) rfl hroot hs hkeys with ⟨hrun, hon⟩
  refine ⟨_, c', hrun, hon, splitRemote_readable, ?_⟩
  rintro b ⟨c₀, pc, out₀, hc₀, hpc₀, hres₀⟩
  rcases stage_spec (faithful_empty _ _) (readIndexRoot_wellFormed hroot) hs with
    ⟨-, -, hwf', henc, -⟩
  have hroot' : readIndexRoot sampleEnv { rs with root := some raw } = .ok (some ir') :=
    readIndexRoot_published List.length_replicate hwf'.1 henc rfl
  rcases Reader.resolve_sound hc₀ hpc₀ hroot' hres₀ with ⟨e, he, -⟩
  have hle : rs.Le { rs with root := some raw } := ⟨id, List.Subset.refl _⟩
  rw [show Pack.lookup sampleEnv { rs with root := some raw } ir' lostHash = .ok none from
    searchRemote_mono hle hl] at he
  cases he

end Omemfs.Pack.Compact
