/-
# Omemfs.Pack.ReadBack — one push session, end to end.

`pushSession` opens a writer on a remote, runs a list of `exists` and `write_from` calls and
finishes.  `pushSession_reads_back` is its contract: after a successful session every object
written reads back as its bytes through any reader of the published root, and a hash for which
`exists` answered true was written in the session or keeps the entry the snapshot had for it.  An
`exists` answer says nothing about the bytes behind a snapshot entry: `dangling_exists` is a
snapshot whose pack file is gone, for which `exists` answers true and no reader resolves the hash.
-/
import Omemfs.Pack.Session

namespace Omemfs.Pack

open Lib

/-- A call a push makes on its writer. -/
inductive Op where
  | exists (h : Hash)
  | write (h : Hash) (b : Bytes)

/-- Run the calls in order, collecting the answers of `exists`. -/
def runOps (E : Env) : Remote → PackWriter → List Op →
    Except Error (Remote × PackWriter × List (Hash × Bool))
  | r, w, [] => .ok (r, w, [])
  | r, w, .exists h :: ops => do
      let (b, w) ← PackWriter.existsObj E r w h
      let (r, w, answers) ← runOps E r w ops
      pure (r, w, (h, b) :: answers)
  | r, w, .write h b :: ops =>
      let (r, w) := PackWriter.route E r w h b
      runOps E r w ops

/-- More calls after the first ones. -/
theorem runOps_append {E : Env} {ops more : List Op} {r r₁ r₂ : Remote} {w w₁ w₂ : PackWriter}
    {answers rest : List (Hash × Bool)} (h₁ : runOps E r w ops = .ok (r₁, w₁, answers))
    (h₂ : runOps E r₁ w₁ more = .ok (r₂, w₂, rest)) :
    runOps E r w (ops ++ more) = .ok (r₂, w₂, answers ++ rest) := by
  induction ops generalizing r w answers with
  | nil =>
      cases h₁
      exact h₂
  | cons op ops ih =>
      cases op with
      | «exists» h =>
          rcases bind_eq_ok.mp h₁ with ⟨⟨b, w'⟩, hx, h₁⟩
          rcases bind_eq_ok.mp h₁ with ⟨⟨r', w'', ans⟩, hrest, hout⟩
          cases hout
          exact bind_eq_ok.mpr ⟨_, hx, bind_eq_ok.mpr ⟨_, ih hrest, rfl⟩⟩
      | write h b => exact ih h₁

/-- Open, run, finish. -/
def pushSession (E : Env) (r : Remote) (objcache : Cache) (ops : List Op) (nonce : Bytes)
    (newRoot : Hash) : Except Error (Remote × List (Hash × Bool)) := do
  let w ← PackWriter.new E r objcache
  let (r, w, answers) ← runOps E r w ops
  match PackWriter.finish E r w nonce newRoot with
  | (.ok _, r, _) => pure (r, answers)
  | (.error e, _, _) => throw e

/-- The objects a list of calls writes, latest first. -/
def writtenBy : List Op → Written → Written
  | [], acc => acc
  | .exists _ :: ops, acc => writtenBy ops acc
  | .write h b :: ops, acc => writtenBy ops ((h, b) :: acc)

theorem mem_writtenBy {ops : List Op} {acc : Written} {h : Hash} {b : Bytes} :
    (h, b) ∈ writtenBy ops acc ↔ Op.write h b ∈ ops ∨ (h, b) ∈ acc := by
  induction ops generalizing acc with
  | nil => simp [writtenBy]
  | cons op ops ih =>
      cases op with
      | «exists» k => simp [writtenBy, ih]
      | write k x =>
          simp only [writtenBy, ih, List.mem_cons, Op.write.injEq, Prod.mk.injEq]
          tauto

/-- Each hash is written with one content. -/
def Consistent (ops : List Op) : Prop :=
  ∀ h b b', Op.write h b ∈ ops → Op.write h b' ∈ ops → b = b'

/-- What a list of calls leaves: a writer that still owes everything written, on a remote that has
only grown, with its snapshot and its root untouched. -/
structure AfterOps (E : Env) (r : Remote) (w : PackWriter) (acc : Written) (ops : List Op)
    (r' : Remote) (w' : PackWriter) (answers : List (Hash × Bool)) : Prop where
  inv : SessionInv E r' w' (writtenBy ops acc)
  buf : w'.packBuf.length < packTarget
  writes : r.Writes r'
  same : PackWriter.SameSnapshot w w'
  bloom : ∀ h, w.bloom.mayContain h → w'.bloom.mayContain h
  answers : ∀ h, (h, true) ∈ answers → (∃ b, (h, b) ∈ writtenBy ops acc) ∨
    w'.bloom.mayContain h ∧ ∃ ir e, w.snapshotRoot = some ir ∧ lookup E r' ir h = .ok (some e)

theorem existsObj_bloom {E : Env} {r : Remote} {w w' : PackWriter} {h : Hash} {b : Bool}
    (hx : PackWriter.existsObj E r w h = .ok (b, w')) :
    w'.bloom = w.bloom ∧ w'.packBuf = w.packBuf ∧ PackWriter.SameSnapshot w w' := by
  obtain ⟨c, rfl⟩ := PackWriter.existsObj_frame hx
  exact ⟨rfl, rfl, ⟨rfl, rfl, rfl⟩⟩

theorem runOps_after {E : Env} {ops : List Op} {r r' : Remote} {w w' : PackWriter} {acc : Written}
    {answers : List (Hash × Bool)} (hi : SessionInv E r w acc)
    (hbuf : w.packBuf.length < packTarget) (hops : runOps E r w ops = .ok (r', w', answers)) :
    AfterOps E r w acc ops r' w' answers := by
  induction ops generalizing r w acc answers with
  | nil =>
      cases hops
      exact ⟨hi, hbuf, .refl _, .refl _, fun _ h => h, fun h hh => (nomatch hh)⟩
  | cons op ops ih =>
      cases op with
      | «exists» h =>
          obtain ⟨⟨b, w₁⟩, hx, hops⟩ := bind_eq_ok.mp hops
          obtain ⟨⟨r₂, w₂, rest⟩, hrest, hout⟩ := bind_eq_ok.mp hops
          cases hout
          obtain ⟨hbloom, hpb, hsame⟩ := existsObj_bloom hx
          have hbuf₁ : w₁.packBuf.length < packTarget := by
            rw [hpb]
            exact hbuf
          have ha := ih (hi.existsObj hx) hbuf₁ hrest
          have hmono : ∀ k, w.bloom.mayContain k → w'.bloom.mayContain k := by
            intro k hk
            apply ha.bloom k
            rw [hbloom]
            exact hk
          refine ⟨ha.inv, ha.buf, ha.writes, hsame.trans ha.same, hmono, fun k hk => ?_⟩
          rcases List.mem_cons.mp hk with heq | hk
          · obtain ⟨rfl, rfl⟩ := Prod.mk.inj heq
            rcases hi.existsObj_sound hx with ⟨b, hb⟩ | ⟨hmay, ir, e, hir, hl⟩
            · exact Or.inl ⟨b, mem_writtenBy.mpr (Or.inr hb)⟩
            · exact Or.inr ⟨hmono k hmay, ir, e, hir, searchRemote_mono ha.writes.le hl⟩
          · have hk := ha.answers k hk
            rw [hsame.root] at hk
            exact hk
      | write h b =>
          obtain ⟨hi₁, hbuf₁⟩ := hi.route hbuf h b
          have ha := ih hi₁ hbuf₁ hops
          have hsame : PackWriter.SameSnapshot w (PackWriter.route E r w h b).2 :=
            PackWriter.route_same
          refine ⟨ha.inv, ha.buf, PackWriter.route_writes.trans ha.writes, hsame.trans ha.same,
            fun k hk => ?_, fun k hk => ?_⟩
          · refine ha.bloom k ?_
            rw [PackWriter.route_bloom]
            exact BloomFilter.mayContain_insert_of_mayContain hk
          · have hk := ha.answers k hk
            rw [hsame.root] at hk
            exact hk

theorem packTarget_pos : ([] : Bytes).length < packTarget := by decide

/-- What a successful `new` captured. -/
theorem new_snapshot {E : Env} {r : Remote} {c : Cache} {w : PackWriter}
    (hw : PackWriter.new E r c = .ok w) :
    w.startSnapshot = r.root ∧ w.startToken = tokenFor r.root ∧
      PackWriter.decodeSnapshot E r.root = .ok w.snapshotRoot ∧ w.packBuf = [] ∧
      w.delta = IndexFile.new ∧
      PackWriter.loadRemoteBloom E r w.snapshotRoot = .ok w.bloom := by
  obtain ⟨root, hroot, hw⟩ := bind_eq_ok.mp hw
  obtain ⟨bloom, hbloom, hw⟩ := bind_eq_ok.mp hw
  cases hw
  exact ⟨rfl, rfl, hroot, rfl, rfl, hbloom⟩

/-- What a successful session went through: a writer opened on the root of `r` with the filter
`w.bloom`, the calls, and a published root built on the captured one. -/
structure SessionRun (E : Env) (r : Remote) (c : Cache) (ops : List Op) (r' : Remote)
    (answers : List (Hash × Bool)) (w : PackWriter) (r₁ : Remote) (w₁ : PackWriter) (rs : Remote)
    (base ir : IndexRoot) : Prop where
  opened : PackWriter.new E r c = .ok w
  ran : runOps E r w ops = .ok (r₁, w₁, answers)
  after : AfterOps E r w [] ops r₁ w₁ answers
  staged : (PackWriter.flushPack E r₁ w₁).1.Le rs
  published : rs.Le r'
  built : BuiltOn E rs (PackWriter.flushPack E r₁ w₁).2.delta w₁.bloom base ir
  base_eq : ∃ old, readIndexRoot E r = .ok old ∧ w.snapshotRoot = old ∧
    base = old.getD IndexRoot.newEmpty
  root : readIndexRoot E r' = .ok (some ir)

/-- **`pushSession_run`** — a successful session is such a run; it only writes objects before it
swaps the root. -/
theorem pushSession_run {E : Env} {r r' : Remote} {c : Cache} {ops : List Op} {nonce : Bytes}
    {newRoot : Hash} {answers : List (Hash × Bool)} (hc : Faithful E r c)
    (hnonce : nonce.length = 12)
    (hrun : pushSession E r c ops nonce newRoot = .ok (r', answers)) :
    (∃ rs raw, r.Writes rs ∧ r' = { rs with root := some raw }) ∧
      ∃ w r₁ w₁ rs base ir, SessionRun E r c ops r' answers w r₁ w₁ rs base ir := by
  rcases bind_eq_ok.mp hrun with ⟨w, hw, hrun⟩
  rcases bind_eq_ok.mp hrun with ⟨⟨r₁, w₁, ans⟩, hops, hrun⟩
  rcases new_snapshot hw with ⟨hsnap, htoken, hdec, hpb, -, -⟩
  have hbuf : w.packBuf.length < packTarget := by
    rw [hpb]
    exact packTarget_pos
  have ha := runOps_after (SessionInv.new hc hw) hbuf hops
  rcases hfin : PackWriter.finish E r₁ w₁ nonce newRoot with ⟨out, rf, wf⟩
  rcases PackWriter.finish_cases E r₁ w₁ nonce newRoot hfin with ⟨-, -, hcase⟩
  simp only [hfin] at hrun
  rcases hcase with ⟨e, rfl, -, -⟩ | ⟨ir, raw, rs, hwrites, hstaged, rfl, -, hrf⟩
  · cases hrun
  cases hrun
  refine ⟨⟨rs, raw, ha.writes.trans hwrites, hrf⟩, ?_⟩
  rcases staged_root hstaged with ⟨base, hbase, -, -, hbuilt⟩
  rcases baseRoot_eq_ok hbase with ⟨-, old, hold, hbase⟩
  have hs : (PackWriter.flushPack E r₁ w₁).2.startSnapshot = r.root :=
    PackWriter.flushPack_same.snapshot.trans (ha.same.snapshot.trans hsnap)
  rw [hs] at hold
  refine ⟨w, r₁, w₁, rs, base, ir, hw, hops, ha, staged_le hstaged, ?_, hbuilt, ?_, ?_⟩
  · rw [hrf]
    exact ⟨id, List.Subset.refl _⟩
  · refine ⟨old, hold, ?_, hbase⟩
    rw [hdec] at hold
    exact Except.ok.inj hold
  · exact readIndexRoot_staged hstaged hnonce (by rw [hrf])

/-- **`pushSession_reads_back`** — after a successful session every object written reads back as
its bytes; a hash `exists` answered true for was written, or keeps the entry of the snapshot's index
and reads back as the bytes behind it; and at every point of the session a true answer means that
the hash was written before or that the snapshot indexes it, never that bytes lie on the remote. -/
theorem pushSession_reads_back {E : Env} {r r' : Remote} {c : Cache} {ops : List Op}
    {nonce : Bytes} {newRoot : Hash} {answers : List (Hash × Bool)}
    (hc : Faithful E r c) (hcons : Consistent ops) (hnonce : nonce.length = 12)
    (hrun : pushSession E r c ops nonce newRoot = .ok (r', answers)) (hon : r'.Honest) :
    (∀ h b, Op.write h b ∈ ops → Reader.Resolves E r' h b) ∧
    (∀ h, (h, true) ∈ answers → (∃ b, Op.write h b ∈ ops) ∨
      ∃ base ir e, PackWriter.decodeSnapshot E r.root = .ok (some base) ∧
        readIndexRoot E r' = .ok (some ir) ∧
        lookup E r' base h = .ok (some e) ∧ lookup E r' ir h = .ok (some e) ∧
        ∀ b, payload r' h e = some b → Reader.Resolves E r' h b) ∧
    (∀ w pre r₁ w₁ w₂ ans h, PackWriter.new E r c = .ok w → runOps E r w pre = .ok (r₁, w₁, ans) →
      PackWriter.existsObj E r₁ w₁ h = .ok (true, w₂) → (∃ b, Op.write h b ∈ pre) ∨
        ∃ base, PackWriter.decodeSnapshot E r.root = .ok (some base) ∧ Indexed E r₁ base h) := by
  rcases pushSession_run hc hnonce hrun with ⟨-, w, r₁, w₁, rs, base, ir, hses⟩
  have ha := hses.after
  have hbuilt := hses.built
  have hle := hses.published
  rcases hses.base_eq with ⟨old, hdec, hsnap, hbase⟩
  obtain ⟨hflush, hpending⟩ := ha.inv.flushPack
  -- a hash in the flushed delta was written, and its entry reads back as the bytes written
  have hwritten : ∀ h e, (PackWriter.flushPack E r₁ w₁).2.delta.find h = some e →
      ∃ b, Op.write h b ∈ ops ∧ payload r' h e = some b := by
    intro h e he
    obtain ⟨b, hb, hback⟩ := hflush.delta h e he
    have hop : Op.write h b ∈ ops := by simpa using mem_writtenBy.mp hb
    have hpay := hback _ (hses.staged.trans hle) hon
    rw [IndexFile.hash_of_find he] at hpay
    exact ⟨b, hop, hpay⟩
  refine ⟨?_, ?_, ?_⟩
  · intro h b hop
    have hmem : (h, b) ∈ writtenBy ops [] := mem_writtenBy.mpr (Or.inl hop)
    have hfind : ((PackWriter.flushPack E r₁ w₁).2.delta.find h).isSome := by
      rcases hflush.covered _ hmem with hd | ⟨p, hp, -⟩
      · exact hd
      · rw [hpending] at hp
        cases hp
    obtain ⟨e, he⟩ := Option.isSome_iff_exists.mp hfind
    obtain ⟨b', hop', hpay⟩ := hwritten h e he
    rw [hcons h b b' hop hop']
    exact Reader.resolves_of_lookup hses.root (hbuilt.lookup_of_find hle hon he)
      (hbuilt.admits hle hon (ha.inv.bloom (h, b) hmem)) hpay
  · intro h hans
    rcases ha.answers h hans with ⟨b, hb⟩ | ⟨hmay, ir₀, e, hir₀, hl⟩
    · exact Or.inl ⟨b, by simpa using mem_writtenBy.mp hb⟩
    · cases hd : (PackWriter.flushPack E r₁ w₁).2.delta.find h with
      | some e' =>
          obtain ⟨b, hop, -⟩ := hwritten h e' hd
          exact Or.inl ⟨b, hop⟩
      | none =>
          rw [hsnap] at hir₀
          subst hir₀
          obtain rfl : base = ir₀ := hbase
          have hlbase : lookup E r' base h = .ok (some e) :=
            searchRemote_mono (PackWriter.flushPack_writes.le.trans (hses.staged.trans hle)) hl
          have hlir : lookup E r' ir h = .ok (some e) :=
            (hbuilt.lookup_of_find_none hle hon hd).trans hlbase
          refine Or.inr ⟨base, ir, e, hdec, hses.root, hlbase, hlir, ?_⟩
          intro b hb
          exact Reader.resolves_of_lookup hses.root hlir (hbuilt.admits hle hon hmay) hb
  · intro w' pre r₂ w₂ w₃ ans' h hw' hpre hx
    obtain ⟨hcapt, -, hdec', hpb, -, -⟩ := new_snapshot hw'
    have hbuf : w'.packBuf.length < packTarget := by
      rw [hpb]
      exact packTarget_pos
    have ha₂ := runOps_after (SessionInv.new hc hw') hbuf hpre
    rcases ha₂.inv.existsObj_sound hx with ⟨b, hb⟩ | ⟨-, ir₀, e, hir₀, hl⟩
    · exact Or.inl ⟨b, by simpa using mem_writtenBy.mp hb⟩
    · rw [ha₂.same.root] at hir₀
      exact Or.inr ⟨ir₀, hir₀ ▸ hdec', Indexed.of_lookup hl⟩

/-- A remote whose index is one delta file with one entry, next to a small filter that admits every
hash. -/
def oneEntryRemote (e : IndexEntry) : Remote :=
  let delta := (((IndexFile.new).push e).serialise).toOption.getD []
  let filter := (BloomFilter.mk 1 8 1 [0xFF] rfl).serialise
  let root : IndexRoot :=
    { remoteRoot := 1, hotHash := zeroHash, bloomHash := sampleEnv.sha256 filter
      coldPrefixBits := 0, deltaHashes := [sampleEnv.sha256 delta], coldShards := [zeroHash] }
  Remote.ofObjects [(sampleEnv.sha256 delta, delta), (sampleEnv.sha256 filter, filter)]
    root.serialise.toOption

def sampleRemote : Remote := oneEntryRemote (.inline ⟨7, [42], sampleData_fits⟩)

theorem pushSession_reads_back_sample :
    ∃ r' answers, pushSession sampleEnv sampleRemote
        (fun _ => none) [.exists 7, .write 3 [1, 2, 3], .exists 3] (List.replicate 12 0) 5 =
          .ok (r', answers) ∧
      answers = [(7, true), (3, true)] ∧ Reader.Resolves sampleEnv r' 3 [1, 2, 3] := by
  have hrun : okAnd (pushSession sampleEnv sampleRemote
      (fun _ => none) [.exists 7, .write 3 [1, 2, 3], .exists 3] (List.replicate 12 0) 5)
      (fun out => decide (out.2 = [(7, true), (3, true)]) && decide out.1.Honest) = true := by
    decide +kernel
  obtain ⟨⟨r', answers⟩, hok, hout⟩ := okAnd_eq_true.mp hrun
  rw [Bool.and_eq_true, decide_eq_true_eq, decide_eq_true_eq] at hout
  have hcons : Consistent [.exists 7, .write 3 [1, 2, 3], .exists 3] := by
    intro h b b' hb hb'
    simp only [List.mem_cons, reduceCtorEq, Op.write.injEq, List.not_mem_nil, or_false,
      false_or] at hb hb'
    rw [hb.2, hb'.2]
  exact ⟨r', answers, hok, hout.1, (pushSession_reads_back (faithful_empty _ _) hcons (by simp) hok
    hout.2).1 3 [1, 2, 3] (by simp)⟩

/-- **`dangling_exists`** — `exists` trusts the index: with a pack entry whose pack file is missing
it answers true, the session publishes, and no fresh reader resolves the hash. -/
theorem dangling_exists :
    ∃ r', pushSession sampleEnv (oneEntryRemote (.pack ⟨7, 9, 0, 1⟩)) (fun _ => none)
        [.exists 7] (List.replicate 12 0) 5 = .ok (r', [(7, true)]) ∧
      r'.Honest ∧
      ∀ b out, Reader.resolve sampleEnv r' (fun _ => none) (fun _ => none) 7 ≠ .ok (b, out) := by
  have hrun : okAnd (pushSession sampleEnv (oneEntryRemote (.pack ⟨7, 9, 0, 1⟩)) (fun _ => none)
      [.exists 7] (List.replicate 12 0) 5)
      (fun out => decide (out.2 = [(7, true)]) && decide out.1.Honest &&
        !okAnd (Reader.resolve sampleEnv out.1 (fun _ => none) (fun _ => none) 7)
          fun _ => true) = true := by
    decide +kernel
  obtain ⟨⟨r', answers⟩, hok, hout⟩ := okAnd_eq_true.mp hrun
  simp only [Bool.and_eq_true, decide_eq_true_eq, Bool.not_eq_true'] at hout
  obtain ⟨⟨rfl, hon⟩, hno⟩ := hout
  refine ⟨r', hok, hon, fun b out hres => ?_⟩
  rw [hres] at hno
  cases hno

end Omemfs.Pack
