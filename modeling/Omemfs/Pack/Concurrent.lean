/-
# Omemfs.Pack.Concurrent — any number of writers on one remote.

`System` is a remote with the writers open on it, `PushStep` one step of one of them: opening,
asking, writing, finishing, in any order.  The storage layer keeps its word in every state
(`Remote.Honest`), and nothing else is assumed about the interleaving.  `SystemInv` carries each
writer's `SessionInv` across the steps of the others.

`concurrent_pushes` collects what no interleaving can break.  The root pointer of the local backend
compares bytes, so two writers that wrote nothing can both publish on one token (`both_publish`);
once a writer that wrote something has published, the delta list is longer than the one behind the
token, it never gets shorter by pushing, and no other writer with that token publishes again.
-/
import Omemfs.Pack.ReadBack
import Omemfs.Lib.Runs

namespace Omemfs.Pack

open Lib

/-- A writer with the objects it has been given. -/
structure PushClient where
  writer : PackWriter
  written : Written

structure System where
  remote : Remote
  clients : Nat → Option PushClient

namespace System

def setClient (s : System) (i : Nat) (c : Option PushClient) : Nat → Option PushClient :=
  Function.update s.clients i c

end System

inductive PushEvent where
  | opened (i : Nat)
  | asked (i : Nat) (h : Hash) (answer : Bool)
  | wrote (i : Nat) (h : Hash) (b : Bytes)
  | finished (i : Nat) (c : PushClient) (out : Except Error Nat)

/-- One step of one writer. -/
inductive PushStep (E : Env) : System → PushEvent → System → Prop
  | opened {s : System} {i : Nat} {cache : Cache} {w : PackWriter}
      (hfree : s.clients i = none) (hcache : Faithful E s.remote cache)
      (hw : PackWriter.new E s.remote cache = .ok w) :
      PushStep E s (.opened i) ⟨s.remote, s.setClient i (some ⟨w, []⟩)⟩
  | asked {s : System} {i : Nat} {c : PushClient} {h : Hash} {b : Bool} {w : PackWriter}
      (hi : s.clients i = some c)
      (hx : PackWriter.existsObj E s.remote c.writer h = .ok (b, w)) :
      PushStep E s (.asked i h b) ⟨s.remote, s.setClient i (some ⟨w, c.written⟩)⟩
  | wrote {s : System} {i : Nat} {c : PushClient} {h : Hash} {b : Bytes}
      (hi : s.clients i = some c)
      (hon : (PackWriter.route E s.remote c.writer h b).1.Honest) :
      PushStep E s (.wrote i h b)
        ⟨(PackWriter.route E s.remote c.writer h b).1,
          s.setClient i (some ⟨(PackWriter.route E s.remote c.writer h b).2,
            (h, b) :: c.written⟩)⟩
  | finished {s : System} {i : Nat} {c : PushClient} {nonce : Bytes} {root : Hash}
      {out : Except Error Nat} {r : Remote} {w : PackWriter}
      (hi : s.clients i = some c) (hnonce : nonce.length = 12)
      (hf : PackWriter.finish E s.remote c.writer nonce root = (out, r, w)) (hon : r.Honest) :
      PushStep E s (.finished i c out) ⟨r, s.setClient i none⟩

/-! ## The invariant -/

/-- What holds of every open writer: it owes what it has been given, and its three observations of
the root are one observation. -/
structure ClientInv (E : Env) (r : Remote) (c : PushClient) : Prop where
  session : SessionInv E r c.writer c.written
  buf : c.writer.packBuf.length < packTarget
  token : c.writer.startToken = tokenFor c.writer.startSnapshot
  decoded : PackWriter.decodeSnapshot E c.writer.startSnapshot = .ok c.writer.snapshotRoot

def SystemInv (E : Env) (s : System) : Prop :=
  ∀ i c, s.clients i = some c → ClientInv E s.remote c

theorem ClientInv.mono {E : Env} {r r' : Remote} {c : PushClient} (hle : r.Le r')
    (hc : ClientInv E r c) : ClientInv E r' c :=
  ⟨hc.session.mono hle, hc.buf, hc.token, hc.decoded⟩

theorem tokenFor_injective {a b : Option Bytes} (h : tokenFor a = tokenFor b) : a = b := by
  cases a with
  | none =>
      cases b with
      | none => rfl
      | some y => cases h
  | some x =>
      cases b with
      | none => cases h
      | some y =>
          cases h
          rfl

theorem readIndexRoot_eq (E : Env) (r : Remote) :
    readIndexRoot E r = PackWriter.decodeSnapshot E r.root := rfl

section Step

variable {E : Env} {s s' : System} {e : PushEvent}

/-- A step only adds objects. -/
theorem PushStep.le (h : PushStep E s e s') : s.remote.Le s'.remote := by
  cases h with
  | opened => exact Remote.Le.refl _
  | asked => exact Remote.Le.refl _
  | wrote => exact PackWriter.route_writes.le
  | finished hi hnonce hf hon => exact (PackWriter.finish_cases E _ _ _ _ hf).1

/-- Updating one client keeps the invariant when the update has it on the grown remote. -/
theorem SystemInv.set (hi : SystemInv E s) {r : Remote} (hle : s.remote.Le r) {i : Nat}
    {c : Option PushClient} (hc : ∀ x, c = some x → ClientInv E r x) :
    SystemInv E ⟨r, s.setClient i c⟩ := by
  intro j d hd
  by_cases hj : j = i
  · subst hj
    simp only [System.setClient, Function.update_self] at hd
    exact hc d hd
  · simp only [System.setClient, Function.update_of_ne hj] at hd
    exact (hi j d hd).mono hle

/-- **`SystemInv.step`** — every step keeps the invariant. -/
theorem SystemInv.step (hi : SystemInv E s) (h : PushStep E s e s') : SystemInv E s' := by
  cases h with
  | @opened i cache w hfree hcache hw =>
      refine hi.set (Remote.Le.refl _) fun x hx => ?_
      cases hx
      obtain ⟨hsnap, htoken, hdec, hpb, -, -⟩ := new_snapshot hw
      refine ⟨SessionInv.new hcache hw, ?_, ?_, ?_⟩
      · rw [hpb]
        exact packTarget_pos
      · rw [htoken, hsnap]
      · rw [hsnap]
        exact hdec
  | @asked i c h b w hc hx =>
      refine hi.set (Remote.Le.refl _) fun x hx' => ?_
      cases hx'
      have hinv := hi i c hc
      obtain ⟨-, hpb, hsame⟩ := existsObj_bloom hx
      refine ⟨hinv.session.existsObj hx, ?_, ?_, ?_⟩
      · rw [hpb]
        exact hinv.buf
      · rw [hsame.token, hsame.snapshot]
        exact hinv.token
      · rw [hsame.snapshot, hsame.root]
        exact hinv.decoded
  | @wrote i c h b hc hon =>
      refine hi.set PackWriter.route_writes.le fun x hx => ?_
      cases hx
      have hinv := hi i c hc
      obtain ⟨hsession, hbuf⟩ := hinv.session.route hinv.buf h b
      have hsame : PackWriter.SameSnapshot c.writer
          (PackWriter.route E s.remote c.writer h b).2 := PackWriter.route_same
      refine ⟨hsession, hbuf, ?_, ?_⟩
      · rw [hsame.token, hsame.snapshot]
        exact hinv.token
      · rw [hsame.snapshot, hsame.root]
        exact hinv.decoded
  | finished hc hnonce hf hon =>
      exact hi.set (PackWriter.finish_cases E _ _ _ _ hf).1 fun x hx => nomatch hx

theorem SystemInv.run {es : List PushEvent} (hi : SystemInv E s)
    (hrun : Run (PushStep E) s es s') : SystemInv E s' :=
  hrun.invariant hi fun _ _ _ _ hstep hinv => hinv.step hstep

end Step

/-! ## One finish -/

/-- What a successful `finish` by `c` does to the index: the root `a` records carried the token of
`c`, and the root `b` records has the same hot index and cold table, the delta list with at most
one delta in front, every entry the old tiers had and one for every object written. -/
structure Publishes (E : Env) (a b : Remote) (c : PushClient) (base ir : IndexRoot) : Prop where
  token : tokenFor a.root = c.writer.startToken
  base_eq : ∃ old, readIndexRoot E a = .ok old ∧ base = old.getD IndexRoot.newEmpty
  new : readIndexRoot E b = .ok (some ir)
  hot : ir.hotHash = base.hotHash
  bits : ir.coldPrefixBits = base.coldPrefixBits
  shards : ir.coldShards = base.coldShards
  deltas : (c.written = [] ∧ ir.deltaHashes = base.deltaHashes) ∨
    c.written ≠ [] ∧ ∃ k, ir.deltaHashes = k :: base.deltaHashes
  kept : ∀ h, Indexed E a base h → Indexed E b ir h
  written : ∀ x ∈ c.written, Indexed E b ir x.1

section Finish

variable {E : Env} {r r' : Remote} {c : PushClient} {nonce : Bytes} {root : Hash}
  {w' : PackWriter}

/-- **`finish_publishes`** — the contract of one successful `finish`. -/
theorem finish_publishes (hinv : ClientInv E r c) (hnonce : nonce.length = 12)
    {n : Nat} (hf : PackWriter.finish E r c.writer nonce root = (.ok n, r', w'))
    (hon : r'.Honest) : ∃ base ir, Publishes E r r' c base ir := by
  obtain ⟨hle, -, hcase⟩ := PackWriter.finish_cases E r c.writer nonce root hf
  rcases hcase with ⟨e, hbad, -, -⟩ | ⟨ir, raw, rs, -, hstaged, -, htoken, hr'⟩
  · cases hbad
  have hlers : rs.Le r' := by
    rw [hr']
    exact ⟨id, List.Subset.refl _⟩
  have hroot : readIndexRoot E r' = .ok (some ir) :=
    readIndexRoot_staged hstaged hnonce (by rw [hr'])
  clear hr'
  obtain ⟨base, hbase, -, -, hbuilt⟩ := staged_root hstaged
  obtain ⟨hflush, hpending⟩ := hinv.session.flushPack
  have hold : r.root = c.writer.startSnapshot :=
    tokenFor_injective (htoken.trans hinv.token)
  -- the flushed delta has an entry for exactly the hashes written
  have hfind : ∀ x ∈ c.written,
      ∃ e, (PackWriter.flushPack E r c.writer).2.delta.find x.1 = some e := by
    intro x hx
    rcases hflush.covered x hx with hd | ⟨p, hp, -⟩
    · exact Option.isSome_iff_exists.mp hd
    · rw [hpending] at hp
      cases hp
  have hempty : (PackWriter.flushPack E r c.writer).2.delta.isEmpty ↔ c.written = [] := by
    constructor
    · intro he
      have hnil : (PackWriter.flushPack E r c.writer).2.delta.entries = [] :=
        List.isEmpty_iff.mp he
      cases hw : c.written with
      | nil => rfl
      | cons x xs =>
          obtain ⟨e, hx⟩ := hfind x (hw ▸ List.mem_cons_self ..)
          rw [IndexFile.find, hnil] at hx
          cases hx
    · intro hw
      cases hl : (PackWriter.flushPack E r c.writer).2.delta.entries with
      | nil => exact List.isEmpty_iff.mpr hl
      | cons e es =>
          have he : (PackWriter.flushPack E r c.writer).2.delta.find e.hash = some e :=
            IndexFile.find_eq_some_iff.mpr ⟨hl ▸ List.mem_cons_self .., rfl⟩
          obtain ⟨b, hb, -⟩ := hflush.delta _ e he
          rw [hw] at hb
          cases hb
  refine ⟨base, ir, htoken, ?_, hroot, hbuilt.hot, hbuilt.bits, hbuilt.shards, ?_, ?_, ?_⟩
  · obtain ⟨-, old, hdec, rfl⟩ := baseRoot_eq_ok hbase
    refine ⟨old, ?_, rfl⟩
    have hsnap : (PackWriter.flushPack E r c.writer).2.startSnapshot = r.root :=
      PackWriter.flushPack_same.snapshot.trans hold.symm
    rw [readIndexRoot_eq, ← hsnap]
    exact hdec
  · rcases hbuilt.deltas with ⟨he, hd⟩ | ⟨he, k, hd, -⟩
    · exact Or.inl ⟨hempty.mp he, hd⟩
    · refine Or.inr ⟨fun hw => ?_, k, hd⟩
      rw [hempty.mpr hw] at he
      cases he
  · exact fun h hx => hbuilt.indexed hle hx
  · intro x hx
    obtain ⟨e, he⟩ := hfind x hx
    exact hbuilt.indexed_of_find hlers hon he

/-- A `finish` on a token that has moved on fails with `CasFailed`, unless the new root outgrows its
wire format before that. -/
theorem finish_stale (hinv : ClientInv E r c) {out : Except Error Nat}
    (hf : PackWriter.finish E r c.writer nonce root = (out, r', w'))
    (hstale : tokenFor r.root ≠ c.writer.startToken) :
    r'.root = r.root ∧ (out = .error .casFailed ∨ ∃ msg, out = .error (.other msg)) := by
  obtain ⟨-, -, hcase⟩ := PackWriter.finish_cases E r c.writer nonce root hf
  rcases hcase with ⟨e, rfl, hroot, hstage | ⟨rfl, -⟩⟩ | ⟨ir, raw, rs, -, -, -, htoken, -⟩
  · refine ⟨hroot, Or.inr ?_⟩
    have hbase : PackWriter.baseRoot E (PackWriter.flushPack E r c.writer).2 =
        .ok (c.writer.snapshotRoot.getD IndexRoot.newEmpty) := by
      refine bind_eq_ok.mpr ⟨c.writer.snapshotRoot, ?_, rfl⟩
      rw [PackWriter.flushPack_same.snapshot]
      exact hinv.decoded
    obtain ⟨msg, hmsg⟩ := PackWriter.stage_error hbase hstage
    exact ⟨msg, by rw [hmsg]⟩
  · exact ⟨hroot, Or.inl rfl⟩
  · exact absurd htoken hstale

end Finish

/-! ## Any interleaving -/

/-- What pushing never takes away: a root stays a root, its deltas only get more, and every indexed
hash stays indexed. -/
structure RootKept (E : Env) (r r' : Remote) : Prop where
  exists_root : r.root ≠ none → r'.root ≠ none
  kept : ∀ ir, readIndexRoot E r = .ok (some ir) → ∃ ir', readIndexRoot E r' = .ok (some ir') ∧
    ir.deltaHashes.length ≤ ir'.deltaHashes.length ∧ ∀ h, Indexed E r ir h → Indexed E r' ir' h

namespace RootKept

variable {E : Env} {r r' r'' : Remote}

theorem refl (r : Remote) : RootKept E r r :=
  ⟨id, fun ir hir => ⟨ir, hir, le_refl _, fun _ => id⟩⟩

theorem trans (h₁ : RootKept E r r') (h₂ : RootKept E r' r'') : RootKept E r r'' := by
  refine ⟨h₂.exists_root ∘ h₁.exists_root, fun ir hir => ?_⟩
  obtain ⟨ir', hir', hlen, hkept⟩ := h₁.kept ir hir
  obtain ⟨ir'', hir'', hlen', hkept'⟩ := h₂.kept ir' hir'
  exact ⟨ir'', hir'', hlen.trans hlen', fun h hx => hkept' h (hkept h hx)⟩

/-- Adding objects under the same root pointer takes nothing away. -/
theorem of_root_eq (hle : r.Le r') (hroot : r'.root = r.root) : RootKept E r r' := by
  refine ⟨fun h => hroot.symm ▸ h, fun ir hir => ⟨ir, ?_, le_refl _, fun h hx => hx.mono hle⟩⟩
  rw [readIndexRoot_congr hroot]
  exact hir

end RootKept

/-- The delta list of a published root is at least as long as the one of the root it replaced. -/
theorem Publishes.le_deltas {E : Env} {a b : Remote} {c : PushClient} {base ir : IndexRoot}
    (hp : Publishes E a b c base ir) :
    base.deltaHashes.length ≤ ir.deltaHashes.length := by
  rcases hp.deltas with ⟨-, h⟩ | ⟨-, k, h⟩
  · rw [h]
  · rw [h]
    exact Nat.le_succ _

theorem Publishes.kept_root {E : Env} {a b : Remote} {c : PushClient} {base ir : IndexRoot}
    (hp : Publishes E a b c base ir) : RootKept E a b := by
  refine ⟨fun _ hnone => ?_, fun ir₀ hir₀ => ⟨ir, hp.new, ?_, ?_⟩⟩
  · have hnew := hp.new
    rw [readIndexRoot_eq, hnone] at hnew
    cases hnew
  all_goals
    obtain ⟨old, hold, hbase⟩ := hp.base_eq
    rw [hir₀] at hold
    cases hold
    obtain rfl : base = ir₀ := hbase
  · exact hp.le_deltas
  · exact hp.kept

section Run

variable {E : Env} {s s' : System} {e : PushEvent} {es : List PushEvent}

/-- A failed `finish` leaves the root as it was. -/
theorem PushStep.root_of_error {i : Nat} {c : PushClient} {err : Error}
    (h : PushStep E s (.finished i c (.error err)) s') : s'.remote.root = s.remote.root := by
  cases h with
  | finished hi hnonce hf hon =>
      obtain ⟨-, -, hcase⟩ := PackWriter.finish_cases E _ _ _ _ hf
      rcases hcase with ⟨e, -, hroot, -⟩ | ⟨ir, raw, rs, -, -, hout, -, -⟩
      · exact hroot
      · cases hout

theorem PushStep.publishes (hi : SystemInv E s) {i : Nat} {c : PushClient} {n : Nat}
    (h : PushStep E s (.finished i c (.ok n)) s') :
    ∃ base ir, Publishes E s.remote s'.remote c base ir := by
  cases h with
  | finished hc hnonce hf hon => exact finish_publishes (hi i c hc) hnonce hf hon

/-- **`PushStep.kept`** — one step of any writer. -/
theorem PushStep.kept (hi : SystemInv E s) (h : PushStep E s e s') :
    RootKept E s.remote s'.remote := by
  have hle := h.le
  cases h with
  | opened => exact RootKept.refl _
  | asked => exact RootKept.refl _
  | wrote hc hon => exact RootKept.of_root_eq hle PackWriter.route_writes.root
  | @finished i c nonce root out r w hc hnonce hf hon =>
      cases out with
      | error err =>
          exact RootKept.of_root_eq hle
            (PushStep.root_of_error (PushStep.finished hc hnonce hf hon))
      | ok n =>
          obtain ⟨base, ir, hp⟩ := finish_publishes (hi i c hc) hnonce hf hon
          exact hp.kept_root

theorem RootKept.run (hi : SystemInv E s) (hrun : Run (PushStep E) s es s') :
    RootKept E s.remote s'.remote := by
  have h : SystemInv E s' ∧ RootKept E s.remote s'.remote :=
    hrun.invariant (P := fun x => SystemInv E x ∧ RootKept E s.remote x.remote)
      ⟨hi, RootKept.refl _⟩ fun a e b _ hstep ⟨hinv, hk⟩ =>
        ⟨hinv.step hstep, hk.trans (hstep.kept hinv)⟩
  exact h.2

/-- Once a writer has published something new, the root never carries that writer's token again. -/
theorem Publishes.token_gone {a b r : Remote} {c : PushClient} {base ir : IndexRoot}
    (hp : Publishes E a b c base ir) (hk : RootKept E b r)
    (hnew : c.written ≠ [] ∨ c.writer.startToken = .absent) :
    tokenFor r.root ≠ c.writer.startToken := by
  intro htok
  have hroot : r.root = a.root := tokenFor_injective (htok.trans hp.token.symm)
  rcases hnew with hw | habsent
  · obtain ⟨old, hold, hbase⟩ := hp.base_eq
    obtain ⟨ir', hir', hlen, -⟩ := hk.kept ir hp.new
    have hdeltas : base.deltaHashes.length < ir.deltaHashes.length := by
      rcases hp.deltas with ⟨h, -⟩ | ⟨-, k, h⟩
      · exact absurd h hw
      · rw [h]
        exact Nat.lt_succ_self _
    rw [readIndexRoot_congr hroot, hold] at hir'
    cases hir'
    obtain rfl : base = ir' := hbase
    omega
  · refine hk.exists_root (fun hnone => ?_) ?_
    · have hnew := hp.new
      rw [readIndexRoot_eq, hnone] at hnew
      cases hnew
    · rw [habsent] at htok
      exact tokenFor_injective htok

/-- **`concurrent_pushes`** — what holds in every state any interleaving of any number of writers
can reach.  A successful finish replaces the root its writer was opened on by one that holds every
entry of it and one for every object written.  A failed finish leaves the root alone.  Once a
writer that wrote something, or that was opened before the first push, has published, every later
finish of a writer with the same token fails, with `CasFailed` unless the root it staged outgrew
its wire format.  No index entry is ever lost. -/
theorem concurrent_pushes {s₀ s : System} {pre : List PushEvent} (h₀ : ∀ i, s₀.clients i = none)
    (hpre : Run (PushStep E) s₀ pre s) :
    (∀ i c n s', PushStep E s (.finished i c (.ok n)) s' →
      ∃ base ir, Publishes E s.remote s'.remote c base ir) ∧
    (∀ i c err s', PushStep E s (.finished i c (.error err)) s' →
      s'.remote.root = s.remote.root) ∧
    (∀ i c n s₁ mid s₂ j d out s₃, PushStep E s (.finished i c (.ok n)) s₁ →
      c.written ≠ [] ∨ c.writer.startToken = .absent → Run (PushStep E) s₁ mid s₂ →
      PushStep E s₂ (.finished j d out) s₃ → d.writer.startToken = c.writer.startToken →
      s₃.remote.root = s₂.remote.root ∧
        (out = .error .casFailed ∨ ∃ msg, out = .error (.other msg))) ∧
    (∀ ir₀, readIndexRoot E s₀.remote = .ok (some ir₀) →
      ∃ ir, readIndexRoot E s.remote = .ok (some ir) ∧
        ∀ h, Indexed E s₀.remote ir₀ h → Indexed E s.remote ir h) := by
  have hinv₀ : SystemInv E s₀ := by
    intro i c hc
    rw [h₀ i] at hc
    cases hc
  have hinv : SystemInv E s := hinv₀.run hpre
  refine ⟨fun i c n s' h => h.publishes hinv, fun i c err s' h => h.root_of_error, ?_, ?_⟩
  · intro i c n s₁ mid s₂ j d out s₃ hpub hnew hmid hfin htok
    obtain ⟨base, ir, hp⟩ := hpub.publishes hinv
    have hinv₁ : SystemInv E s₁ := hinv.step hpub
    have hgone : tokenFor s₂.remote.root ≠ d.writer.startToken := by
      rw [htok]
      exact hp.token_gone (RootKept.run hinv₁ hmid) hnew
    cases hfin with
    | finished hd hnonce hf hon => exact finish_stale (hinv₁.run hmid j d hd) hf hgone
  · intro ir₀ hir₀
    obtain ⟨ir, hir, -, hkept⟩ := (RootKept.run hinv₀ hpre).kept ir₀ hir₀
    exact ⟨ir, hir, hkept⟩

end Run

/-! ## Two writers on one token -/

/-- A remote with one inline entry and nobody working on it. -/
def oneEntrySystem : System := ⟨sampleRemote, fun _ => none⟩

/-- Two writers opened on `oneEntrySystem`, the second after the first. -/
theorem run_both_opened {w : PackWriter}
    (hw : PackWriter.new sampleEnv oneEntrySystem.remote (fun _ => none) = .ok w) :
    ∃ s, Run (PushStep sampleEnv) oneEntrySystem [.opened 0, .opened 1] s ∧
      s.remote = oneEntrySystem.remote ∧ s.clients 0 = some ⟨w, []⟩ ∧
      s.clients 1 = some ⟨w, []⟩ :=
  ⟨_, .cons (PushStep.opened rfl (faithful_empty _ _) hw)
      (.cons (PushStep.opened rfl (faithful_empty _ _) hw) (.nil _)), rfl, rfl, rfl⟩

theorem concurrent_pushes_sample : ∃ c d s s₁ s₂ out,
    Run (PushStep sampleEnv) oneEntrySystem [.opened 0, .opened 1, .wrote 0 3 [1, 2, 3]] s ∧
      PushStep sampleEnv s (.finished 0 c (.ok 2)) s₁ ∧
      PushStep sampleEnv s₁ (.finished 1 d out) s₂ ∧ s₂.remote.root = s₁.remote.root ∧
      (out = .error .casFailed ∨ ∃ msg, out = .error (.other msg)) := by
  have hrun : okAnd (PackWriter.new sampleEnv oneEntrySystem.remote (fun _ => none)) (fun w =>
      let p := PackWriter.route sampleEnv oneEntrySystem.remote w 3 [1, 2, 3]
      let f := PackWriter.finish sampleEnv p.1 p.2 (List.replicate 12 0) 5
      let g := PackWriter.finish sampleEnv f.2.1 w (List.replicate 12 0) 6
      decide p.1.Honest && (decide (p.2.startToken = w.startToken) &&
        (okAnd f.1 (· == 2) && (decide f.2.1.Honest && decide g.2.1.Honest)))) = true := by
    decide +kernel
  obtain ⟨w, hw, hout⟩ := okAnd_eq_true.mp hrun
  obtain ⟨s, hs, hr, h0, h1⟩ := run_both_opened hw
  rw [← hr] at hout
  rcases hp : PackWriter.route sampleEnv s.remote w 3 [1, 2, 3] with ⟨r₁, w₁⟩
  rcases hf : PackWriter.finish sampleEnv r₁ w₁ (List.replicate 12 0) 5 with ⟨out₁, r₂, w₂⟩
  rcases hg : PackWriter.finish sampleEnv r₂ w (List.replicate 12 0) 6 with ⟨out₂, r₃, w₃⟩
  simp only [hp, hf, hg, Bool.and_eq_true, decide_eq_true_eq] at hout
  obtain ⟨hon, htoken, hok, hon₁, hon₂⟩ := hout
  obtain ⟨n, rfl, hn⟩ := okAnd_eq_true.mp hok
  obtain rfl : n = 2 := by simpa using hn
  have hwrote := PushStep.wrote (E := sampleEnv) (h := 3) (b := [1, 2, 3]) h0 (by rwa [hp])
  simp only [hp] at hwrote
  set s₁ : System := ⟨r₁, s.setClient 0 (some ⟨w₁, [(3, [1, 2, 3])]⟩)⟩
  have hrun' := run_append.mpr ⟨s, hs, .cons hwrote (.nil _)⟩
  have hpub : PushStep sampleEnv s₁ (.finished 0 ⟨w₁, [(3, [1, 2, 3])]⟩ (.ok 2))
      ⟨r₂, s₁.setClient 0 none⟩ :=
    .finished (by simp only [s₁, System.setClient, Function.update_self]) List.length_replicate hf hon₁
  have hfin : PushStep sampleEnv ⟨r₂, s₁.setClient 0 none⟩ (.finished 1 ⟨w, []⟩ out₂)
      ⟨r₃, System.setClient ⟨r₂, s₁.setClient 0 none⟩ 1 none⟩ :=
    .finished h1 List.length_replicate hg hon₂
  have hstale := (concurrent_pushes (fun _ => rfl) hrun').2.2.1 _ _ _ _ _ _ _ _ _ _ hpub
    (Or.inl (List.cons_ne_nil _ _)) (.nil _) hfin htoken.symm
  exact ⟨_, _, _, _, _, _, hrun', hpub, hfin, hstale⟩

/-- **`both_publish`** — two writers with one token that wrote nothing: the first publishes the bytes
it found, so the second finds its token and publishes as well. -/
theorem both_publish : ∃ c s,
    Run (PushStep sampleEnv) oneEntrySystem
      [.opened 0, .opened 1, .finished 0 c (.ok 1), .finished 1 c (.ok 1)] s := by
  have hrun : okAnd (PackWriter.new sampleEnv oneEntrySystem.remote (fun _ => none)) (fun w =>
      let f := PackWriter.finish sampleEnv oneEntrySystem.remote w (List.replicate 12 0) 1
      let g := PackWriter.finish sampleEnv f.2.1 w (List.replicate 12 0) 1
      okAnd f.1 (· == 1) && (okAnd g.1 (· == 1) && (decide f.2.1.Honest &&
        decide g.2.1.Honest))) = true := by
    decide +kernel
  obtain ⟨w, hw, hout⟩ := okAnd_eq_true.mp hrun
  obtain ⟨s, hs, hr, h0, h1⟩ := run_both_opened hw
  rw [← hr] at hout
  rcases hf : PackWriter.finish sampleEnv s.remote w (List.replicate 12 0) 1 with ⟨out₁, r₁, w₁⟩
  rcases hg : PackWriter.finish sampleEnv r₁ w (List.replicate 12 0) 1 with ⟨out₂, r₂, w₂⟩
  simp only [hf, hg, Bool.and_eq_true, decide_eq_true_eq] at hout
  obtain ⟨hok₁, hok₂, hon₁, hon₂⟩ := hout
  obtain ⟨n, rfl, hn⟩ := okAnd_eq_true.mp hok₁
  obtain ⟨m, rfl, hm⟩ := okAnd_eq_true.mp hok₂
  obtain rfl : n = 1 := by simpa using hn
  obtain rfl : m = 1 := by simpa using hm
  have hfirst : PushStep sampleEnv s (.finished 0 ⟨w, []⟩ (.ok 1)) ⟨r₁, s.setClient 0 none⟩ :=
    .finished h0 List.length_replicate hf hon₁
  have hsecond : PushStep sampleEnv ⟨r₁, s.setClient 0 none⟩ (.finished 1 ⟨w, []⟩ (.ok 1))
      ⟨r₂, System.setClient ⟨r₁, s.setClient 0 none⟩ 1 none⟩ :=
    .finished h1 List.length_replicate hg hon₂
  exact ⟨_, _, run_append.mpr ⟨s, hs, .cons hfirst (.cons hsecond (.nil _))⟩⟩

end Omemfs.Pack
