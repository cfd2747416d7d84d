/-
# Omemfs.Pack.ObjectGraph — a push publishes a closed object graph.

`ClosedGraph` is what a remote promises to those who read it: its index files load, the bytes of
every indexed object are there, and what an indexed object refers to is indexed too.  The upload
walk stops at every hash the index already has, so it relies on this promise, and `upload_closed`
says that it renews it: after a walk that ended without an error and a `finish` that succeeded, the
new index has the root and everything reachable from it, and the graph is closed again.  A reachable
object that is neither indexed nor in the local store makes every walk end in an error, with the
published root as it was.
-/
import Mathlib.Logic.Relation
import Omemfs.Pack.Upload

namespace Omemfs.Pack

open Lib

/-- The published index has an entry for `h`. -/
def IndexedIn (E : Env) (r : Remote) (h : Hash) : Prop :=
  ∃ ir, readIndexRoot E r = .ok (some ir) ∧ Indexed E r ir h

/-- `b` are the stored bytes behind the entry of `h`. -/
def StoredBytes (E : Env) (r : Remote) (h : Hash) (b : Bytes) : Prop :=
  ∃ ir e, readIndexRoot E r = .ok (some ir) ∧ lookup E r ir h = .ok (some e) ∧
    payload r h e = some b

structure ClosedGraph (C : Codec) (E : Env) (r : Remote) : Prop where
  loads : Loads E r
  closed : ∀ h, IndexedIn E r h → ∃ b, StoredBytes E r h b ∧
    ∀ data, C.decode E b h = .ok data → ∀ c ∈ C.childHashes data, IndexedIn E r c

/-- `h` refers to `c`: an indexed object is the one the remote stores, any other the one in the
local store. -/
def RefersTo (C : Codec) (E : Env) (L : LocalStore) (r : Remote) (h c : Hash) : Prop :=
  (∃ b data, StoredBytes E r h b ∧ C.decode E b h = .ok data ∧ c ∈ C.childHashes data) ∨
    ¬ IndexedIn E r h ∧ ∃ data, readLocal C L h = .ok data ∧ c ∈ C.childHashes data

/-- Reachable before the push. -/
def Reachable (C : Codec) (E : Env) (L : LocalStore) (r : Remote) : Hash → Hash → Prop :=
  Relation.ReflTransGen (RefersTo C E L r)

section Graph

variable {C : Codec} {E : Env} {L : LocalStore} {r r' : Remote}

theorem StoredBytes.unique {h : Hash} {b b' : Bytes} (hb : StoredBytes E r h b)
    (hb' : StoredBytes E r h b') : b = b' := by
  rcases hb with ⟨ir, e, hroot, hl, hp⟩
  rcases hb' with ⟨ir', e', hroot', hl', hp'⟩
  rw [hroot] at hroot'
  cases hroot'
  rw [hl] at hl'
  cases hl'
  rw [hp] at hp'
  exact Option.some.inj hp'

/-- What a closed graph says about the bytes it stores. -/
theorem ClosedGraph.child (hc : ClosedGraph C E r) {h c : Hash} {b data : Bytes}
    (hb : StoredBytes E r h b) (hd : C.decode E b h = .ok data) (hmem : c ∈ C.childHashes data) :
    IndexedIn E r c := by
  have hx : IndexedIn E r h := by
    rcases hb with ⟨ir, e, hroot, hl, -⟩
    exact ⟨ir, hroot, Indexed.of_lookup hl⟩
  rcases hc.closed h hx with ⟨b', hb', hall⟩
  rw [hb.unique hb'] at hd
  exact hall data hd c hmem

/-- A remote without a root is closed. -/
theorem ClosedGraph.empty (hroot : readIndexRoot E r = .ok none) : ClosedGraph C E r := by
  constructor
  · intro ir hir
    rw [hroot] at hir
    cases hir
  · rintro h ⟨ir, hir, -⟩
    rw [hroot] at hir
    cases hir

/-- When the tiers load, a larger remote with the same root indexes nothing new. -/
theorem Indexed.of_le {ir : IndexRoot} {h : Hash}
    (hload : ∀ k ∈ tierHashes ir h, ∃ f, readIndexFile E r k = .ok f) (hle : r.Le r')
    (hx : Indexed E r' ir h) : Indexed E r ir h := by
  rcases hx with ⟨k, hk, f, e, hf, he⟩
  rcases hload k hk with ⟨g, hg⟩
  rw [readIndexFile_mono hle hg] at hf
  cases hf
  exact ⟨k, hk, f, e, hg, he⟩

end Graph

/-! ## Before and after a session -/

section Session

variable {E : Env} {r r' r₁ rs : Remote} {c : Cache} {ops : List Op}
  {answers : List (Hash × Bool)} {w w₁ : PackWriter} {base ir : IndexRoot}

theorem SessionRun.indexed_old (hs : SessionRun E r c ops r' answers w r₁ w₁ rs base ir)
    (hle : r.Le r') {h : Hash} (hx : IndexedIn E r h) : IndexedIn E r' h := by
  rcases hx with ⟨ir₀, hroot, hx⟩
  rcases hs.base_eq with ⟨old, hold, -, hbase⟩
  rw [hroot] at hold
  cases hold
  obtain rfl : base = ir₀ := hbase
  exact ⟨ir, hs.root, hs.built.indexed hle hx⟩

/-- A hash written in the session is in the delta it publishes. -/
theorem SessionRun.written (hs : SessionRun E r c ops r' answers w r₁ w₁ rs base ir) {h : Hash}
    {b : Bytes} (hop : Op.write h b ∈ ops) :
    ∃ e, (PackWriter.flushPack E r₁ w₁).2.delta.find h = some e := by
  rcases hs.after.inv.flushPack with ⟨hflush, hpending⟩
  rcases hflush.covered (h, b) (mem_writtenBy.mpr (Or.inl hop)) with hd | ⟨p, hp, -⟩
  · exact Option.isSome_iff_exists.mp hd
  · rw [hpending] at hp
    cases hp

theorem SessionRun.indexed_written (hs : SessionRun E r c ops r' answers w r₁ w₁ rs base ir)
    (hon : r'.Honest) {h : Hash} {b : Bytes} (hop : Op.write h b ∈ ops) : IndexedIn E r' h := by
  rcases hs.written hop with ⟨e, he⟩
  exact ⟨ir, hs.root, hs.built.indexed_of_find hs.published hon he⟩

/-- **`SessionRun.origin`** — an indexed hash was written in the session and is stored with the
bytes written, or was indexed before and keeps its bytes. -/
theorem SessionRun.origin (hs : SessionRun E r c ops r' answers w r₁ w₁ rs base ir)
    (hle : r.Le r') (hon : r'.Honest) (hl : Loads E r) {h : Hash} (hx : IndexedIn E r' h) :
    (∃ b, Op.write h b ∈ ops ∧ StoredBytes E r' h b) ∨
      IndexedIn E r h ∧ ∀ b, StoredBytes E r h b → StoredBytes E r' h b := by
  cases hd : (PackWriter.flushPack E r₁ w₁).2.delta.find h with
  | some e =>
      rcases hs.after.inv.flushPack.1.delta h e hd with ⟨b, hb, hback⟩
      have hpay := hback _ (hs.staged.trans hs.published) hon
      rw [IndexFile.hash_of_find hd] at hpay
      have hop : Op.write h b ∈ ops := by simpa using mem_writtenBy.mp hb
      exact Or.inl ⟨b, hop, ir, e, hs.root, hs.built.lookup_of_find hs.published hon hd, hpay⟩
  | none =>
      have hsame := hs.built.lookup_of_find_none hs.published hon hd
      rcases hx with ⟨ir', hroot', k, hk, f, e, hf, he⟩
      rw [hs.root] at hroot'
      cases hroot'
      rcases searchRemote_of_mem (hs.loads hle hon hl ir hs.root h) hk hf he with ⟨e', he'⟩
      have hbase' : lookup E r' base h = .ok (some e') := hsame.symm.trans he'
      have hx₀ : Indexed E r base h :=
        Indexed.of_le (hs.base_loads hl h) hle (Indexed.of_lookup hbase')
      rcases hs.base_eq with ⟨old, hold, -, hbase⟩
      cases old with
      | none =>
          rw [show base = IndexRoot.newEmpty from hbase] at hx₀
          rcases hx₀ with ⟨k, hk, -⟩
          rw [tierHashes_newEmpty] at hk
          cases hk
      | some ir₀ =>
          obtain rfl : base = ir₀ := hbase
          refine Or.inr ⟨⟨base, hold, hx₀⟩, ?_⟩
          rintro b ⟨ir₁, e₁, hroot₁, hl₁, hp₁⟩
          rw [hold] at hroot₁
          cases hroot₁
          have hlook : lookup E r' base h = .ok (some e₁) := searchRemote_mono hle hl₁
          exact ⟨ir, e₁, hs.root, hsame.trans hlook, payload_mono hle hp₁⟩

end Session

/-! ## What a walk keeps -/

/-- The bytes a worker has read. -/
def Stage.data : Stage → Option Bytes
  | .claimed | .absent => none
  | .read d | .confirmed d | .stored d => some d

/-- The object has not been handed to the writer by this worker. -/
def Stage.Early : Stage → Prop
  | .stored _ => False
  | _ => True

/-- The invariant of a walk from `root`, with the calls it has made on its writer. -/
structure WalkInv (C : Codec) (E : Env) (L : LocalStore) (r : Remote) (w : PackWriter)
    (root : Hash) (s : Upload) (ops : List Op) (answers : List (Hash × Bool)) : Prop where
  ran : runOps E r w ops = .ok (s.remote, s.writer, answers)
  root : s.Known root
  claimed : ∀ p ∈ s.inFlight, p.1 ∈ s.visited
  apart : (s.inFlight.map Prod.fst).Nodup
  wrote : ∀ h b, Op.write h b ∈ ops →
    h ∈ s.visited ∧ ∃ d, readLocal C L h = .ok d ∧ b = C.encode E d h
  early : ∀ p ∈ s.inFlight, p.2.Early → ∀ b, Op.write p.1 b ∉ ops
  data : ∀ p ∈ s.inFlight, ∀ d, p.2.data = some d → readLocal C L p.1 = .ok d
  stored : ∀ p ∈ s.inFlight, ¬ p.2.Early → (∃ b, Op.write p.1 b ∈ ops) ∨ IndexedIn E r p.1
  settled : s.failed = none → ∀ h ∈ s.visited, h ∉ s.inFlight.map Prod.fst →
    (∃ b, Op.write h b ∈ ops) ∨ IndexedIn E r h
  children : s.failed = none → ∀ h b, Op.write h b ∈ ops → h ∉ s.inFlight.map Prod.fst →
    ∀ d, readLocal C L h = .ok d → ∀ c ∈ C.childHashes d, s.Known c

namespace WalkInv

variable {C : Codec} {E : Env} {L : LocalStore} {r r' : Remote} {w w' : PackWriter} {root h : Hash}
  {s : Upload} {ops ops' : List Op} {answers answers' : List (Hash × Bool)}
  {pre post : List (Hash × Stage)} {st st' : Stage}

theorem start (C : Codec) (E : Env) (L : LocalStore) (r : Remote) (w : PackWriter) (root : Hash) :
    WalkInv C E L r w root (.start r w root) [] [] where
  ran := rfl
  root := Or.inl (List.mem_singleton_self root)
  claimed := fun _ hp => nomatch hp
  apart := List.nodup_nil
  wrote := fun _ _ hop => nomatch hop
  early := fun _ hp => nomatch hp
  data := fun _ hp => nomatch hp
  stored := fun _ hp => nomatch hp
  settled := fun _ _ hv => nomatch hv
  children := fun _ _ _ hop => nomatch hop

/-- Taking a hash off the queue keeps what is known when it is or gets visited. -/
theorem known_of_pop {s : Upload} (s' : Upload) {pre post : List Hash} (hq : s.queue = pre ++ h :: post)
    (hq' : s'.queue = pre ++ post) (hv : h ∈ s'.visited) (hsub : s.visited ⊆ s'.visited) {k : Hash}
    (hk : s.Known k) : s'.Known k := by
  rcases hk with hk | hk
  · rw [hq, List.mem_append, List.mem_cons] at hk
    rcases hk with hk | rfl | hk
    · exact Or.inl (hq' ▸ List.mem_append_left _ hk)
    · exact Or.inr hv
    · exact Or.inl (hq' ▸ List.mem_append_right _ hk)
  · exact Or.inr (hsub hk)

theorem skip {pre post : List Hash} (hi : WalkInv C E L r w root s ops answers)
    (hq : s.queue = pre ++ h :: post) (hold : h ∈ s.visited) :
    WalkInv C E L r w root { s with queue := pre ++ post } ops answers := by
  have hknown : ∀ {k}, s.Known k → ({ s with queue := pre ++ post } : Upload).Known k := by
    intro k hk
    exact known_of_pop { s with queue := pre ++ post } hq rfl hold (List.Subset.refl _) hk
  exact ⟨hi.ran, hknown hi.root, hi.claimed, hi.apart, hi.wrote, hi.early, hi.data, hi.stored,
    hi.settled, fun hok k b hop hk d hd c hc => hknown (hi.children hok k b hop hk d hd c hc)⟩

theorem claim {pre post : List Hash} (hi : WalkInv C E L r w root s ops answers)
    (hq : s.queue = pre ++ h :: post) (hnew : h ∉ s.visited) :
    WalkInv C E L r w root
      { s with
        queue := pre ++ post
        visited := h :: s.visited
        inFlight := s.inFlight ++ [(h, .claimed)] } ops answers := by
  have hfresh : h ∉ s.inFlight.map Prod.fst := by
    intro hm
    rcases List.mem_map.mp hm with ⟨p, hp, rfl⟩
    exact hnew (hi.claimed p hp)
  have hmem : ∀ {p}, p ∈ s.inFlight ++ [(h, Stage.claimed)] → p ∈ s.inFlight ∨ p = (h, .claimed) := by
    intro p hp
    rcases List.mem_append.mp hp with hp | hp
    · exact Or.inl hp
    · exact Or.inr (List.mem_singleton.mp hp)
  have hknown : ∀ {k}, s.Known k → Upload.Known { s with
        queue := pre ++ post
        visited := h :: s.visited
        inFlight := s.inFlight ++ [(h, .claimed)] } k := by
    intro k hk
    exact known_of_pop _ hq rfl (List.mem_cons_self ..) (List.subset_cons_self ..) hk
  refine ⟨hi.ran, hknown hi.root, ?_, ?_, ?_, ?_, ?_, ?_, ?_, ?_⟩
  · intro p hp
    rcases hmem hp with hp | rfl
    · exact List.mem_cons_of_mem _ (hi.claimed p hp)
    · exact List.mem_cons_self ..
  · simp only [List.map_append, List.map_cons, List.map_nil]
    exact List.nodup_append.mpr ⟨hi.apart, List.nodup_singleton h, fun a ha b hb hab =>
      hfresh (by rw [List.mem_singleton] at hb; rwa [hab, hb] at ha)⟩
  · intro k b hop
    exact ⟨List.mem_cons_of_mem _ (hi.wrote k b hop).1, (hi.wrote k b hop).2⟩
  · intro p hp hearly b hop
    rcases hmem hp with hp | rfl
    · exact hi.early p hp hearly b hop
    · exact hnew (hi.wrote h b hop).1
  · intro p hp d hd
    rcases hmem hp with hp | rfl
    · exact hi.data p hp d hd
    · cases hd
  · intro p hp hlate
    rcases hmem hp with hp | rfl
    · exact hi.stored p hp hlate
    · exact absurd trivial hlate
  · intro hok k hk hout
    simp only [List.map_append, List.map_cons, List.map_nil, List.mem_append, List.mem_singleton,
      not_or] at hout
    rcases List.mem_cons.mp hk with rfl | hk
    · exact absurd rfl hout.2
    · exact hi.settled hok k hk hout.1
  · intro hok k b hop hout d hd c hc
    simp only [List.map_append, List.mem_append, not_or] at hout
    exact hknown (hi.children hok k b hop hout.1 d hd c hc)

/-! ### Calls of a busy worker -/

/-- The worker goes on to another stage, having written nothing but its own object. -/
theorem next (hi : WalkInv C E L r w root s ops answers) (hin : s.inFlight = pre ++ (h, st) :: post)
    (hran : runOps E r w ops' = .ok (r', w', answers'))
    (hkeep : ∀ k b, Op.write k b ∈ ops → Op.write k b ∈ ops')
    (hown : ∀ k b, Op.write k b ∈ ops' → Op.write k b ∈ ops ∨
      k = h ∧ ∃ d, readLocal C L h = .ok d ∧ b = C.encode E d h)
    (hearly : st'.Early → ∀ b, Op.write h b ∉ ops')
    (hdata : ∀ d, st'.data = some d → readLocal C L h = .ok d)
    (hstored : ¬ st'.Early → (∃ b, Op.write h b ∈ ops') ∨ IndexedIn E r h) :
    WalkInv C E L r w root (s.after pre post h (.next st', r', w')) ops' answers' := by
  have hvis : h ∈ s.visited := hi.claimed (h, st) (by rw [hin]; simp)
  have hkeys : (pre ++ (h, st') :: post).map Prod.fst = s.inFlight.map Prod.fst := by
    rw [hin, List.map_append, List.map_append, List.map_cons, List.map_cons]
  have hne : ∀ p ∈ pre ++ post, p.1 ≠ h := by
    intro p hp heq
    have hnd := hi.apart
    rw [hin, List.map_append, List.map_cons] at hnd
    apply (List.nodup_middle.mp hnd).notMem
    rw [← List.map_append]
    exact List.mem_map.mpr ⟨p, hp, heq⟩
  have hsplit : ∀ {p}, p ∈ pre ++ (h, st') :: post → p = (h, st') ∨ p ∈ s.inFlight ∧ p.1 ≠ h := by
    intro p hp
    rcases List.mem_append.mp hp with hp | hp
    · refine Or.inr ⟨by rw [hin]; exact List.mem_append_left _ hp, ?_⟩
      exact hne p (List.mem_append_left _ hp)
    · rcases List.mem_cons.mp hp with rfl | hp
      · exact Or.inl rfl
      · refine Or.inr ⟨by rw [hin]; exact List.mem_append_right _ (List.mem_cons_of_mem _ hp), ?_⟩
        exact hne p (List.mem_append_right _ hp)
  have hother : ∀ {k b}, k ≠ h → Op.write k b ∈ ops' → Op.write k b ∈ ops := by
    intro k b hk hop
    rcases hown k b hop with hop | ⟨rfl, -⟩
    · exact hop
    · exact absurd rfl hk
  refine ⟨hran, hi.root, ?_, ?_, ?_, ?_, ?_, ?_, ?_, ?_⟩
  · intro p hp
    rcases hsplit hp with rfl | ⟨hp, -⟩
    · exact hvis
    · exact hi.claimed p hp
  · show ((pre ++ (h, st') :: post).map Prod.fst).Nodup
    rw [hkeys]
    exact hi.apart
  · intro k b hop
    rcases hown k b hop with hop | ⟨rfl, hd⟩
    · exact hi.wrote k b hop
    · exact ⟨hvis, hd⟩
  · intro p hp he b hop
    rcases hsplit hp with rfl | ⟨hp, hk⟩
    · exact hearly he b hop
    · exact hi.early p hp he b (hother hk hop)
  · intro p hp d hd
    rcases hsplit hp with rfl | ⟨hp, -⟩
    · exact hdata d hd
    · exact hi.data p hp d hd
  · intro p hp hlate
    rcases hsplit hp with rfl | ⟨hp, -⟩
    · exact hstored hlate
    · exact (hi.stored p hp hlate).imp_left fun ⟨b, hop⟩ => ⟨b, hkeep _ b hop⟩
  · intro hok k hk hout
    refine (hi.settled hok k hk ?_).imp_left fun ⟨b, hop⟩ => ⟨b, hkeep _ b hop⟩
    rw [← hkeys]
    exact hout
  · intro hok k b hop hout
    have hout' : k ∉ s.inFlight.map Prod.fst := by
      rw [← hkeys]
      exact hout
    have hk : k ≠ h := by
      rintro rfl
      apply hout'
      rw [hin]
      simp
    exact hi.children hok k b (hother hk hop) hout'

/-- The worker is done with its hash and queues what it refers to, if nobody has failed. -/
theorem leave {s' : Upload} (hi : WalkInv C E L r w root s ops answers)
    (hin : s.inFlight = pre ++ (h, st) :: post)
    (hran : runOps E r w ops' = .ok (s'.remote, s'.writer, answers'))
    (hops : ∀ k b, Op.write k b ∈ ops' ↔ Op.write k b ∈ ops) (hv : s'.visited = s.visited)
    (hfl : s'.inFlight = pre ++ post) (hq : s.queue ⊆ s'.queue)
    (hok : s'.failed = none → s.failed = none ∧ ((∃ b, Op.write h b ∈ ops) ∨ IndexedIn E r h) ∧
      ∀ b, Op.write h b ∈ ops → ∀ d, readLocal C L h = .ok d → ∀ c ∈ C.childHashes d,
        c ∈ s'.queue) :
    WalkInv C E L r w root s' ops' answers' := by
  have hsub : ∀ {p}, p ∈ s'.inFlight → p ∈ s.inFlight := by
    intro p hp
    rw [hfl] at hp
    rw [hin]
    rcases List.mem_append.mp hp with hp | hp
    · exact List.mem_append_left _ hp
    · exact List.mem_append_right _ (List.mem_cons_of_mem _ hp)
  have hknown : ∀ {k}, s.Known k → s'.Known k := by
    intro k hk
    rcases hk with hk | hk
    · exact Or.inl (hq hk)
    · exact Or.inr (hv ▸ hk)
  have hout : ∀ {k}, k ≠ h → k ∉ s'.inFlight.map Prod.fst → k ∉ s.inFlight.map Prod.fst := by
    intro k hk hk' hm
    rw [hin, List.map_append, List.map_cons, List.mem_append, List.mem_cons] at hm
    apply hk'
    rw [hfl, List.map_append, List.mem_append]
    rcases hm with hm | rfl | hm
    · exact Or.inl hm
    · exact absurd rfl hk
    · exact Or.inr hm
  refine ⟨hran, hknown hi.root, ?_, ?_, ?_, ?_, ?_, ?_, ?_, ?_⟩
  · intro p hp
    rw [hv]
    exact hi.claimed p (hsub hp)
  · have hnd := hi.apart
    rw [hin, List.map_append, List.map_cons] at hnd
    rw [hfl, List.map_append]
    exact (List.nodup_middle.mp hnd).of_cons
  · intro k b hop
    rw [hv]
    exact hi.wrote k b ((hops k b).mp hop)
  · intro p hp he b hop
    exact hi.early p (hsub hp) he b ((hops _ b).mp hop)
  · intro p hp
    exact hi.data p (hsub hp)
  · intro p hp hlate
    exact (hi.stored p (hsub hp) hlate).imp_left fun ⟨b, hop⟩ => ⟨b, (hops _ b).mpr hop⟩
  · intro hf k hk hk'
    rcases hok hf with ⟨hf₀, hh, -⟩
    have hx : (∃ b, Op.write k b ∈ ops) ∨ IndexedIn E r k := by
      by_cases hkh : k = h
      · exact hkh ▸ hh
      · exact hi.settled hf₀ k (hv ▸ hk) (hout hkh hk')
    exact hx.imp_left fun ⟨b, hop⟩ => ⟨b, (hops _ b).mpr hop⟩
  · intro hf k b hop hk' d hd c hc
    rcases hok hf with ⟨hf₀, -, hch⟩
    by_cases hkh : k = h
    · subst hkh
      exact Or.inl (hch b ((hops _ b).mp hop) d hd c hc)
    · exact hknown (hi.children hf₀ k b ((hops _ b).mp hop) (hout hkh hk') d hd c hc)

section Calls

variable {c : Cache} (hw : PackWriter.new E r c = .ok w) (hc : Faithful E r c)
include hw hc

/-- What the calls of a walk leave. -/
theorem after (hi : WalkInv C E L r w root s ops answers) :
    AfterOps E r w [] ops s.remote s.writer answers := by
  have hbuf : w.packBuf.length < packTarget := by
    rw [(new_snapshot hw).2.2.2.1]
    exact packTarget_pos
  exact runOps_after (SessionInv.new hc hw) hbuf hi.ran

/-- The writer says yes to a hash not written by the walk: the snapshot indexes it. -/
theorem indexed_of_exists (hl : Loads E r) (hi : WalkInv C E L r w root s ops answers)
    (hno : ∀ b, Op.write h b ∉ ops)
    (hx : PackWriter.existsObj E s.remote s.writer h = .ok (true, w')) : IndexedIn E r h := by
  have ha := hi.after hw hc
  rcases ha.inv.existsObj_sound hx with ⟨b, hb⟩ | ⟨-, ir, e, hir, hlook⟩
  · exact absurd (by simpa using mem_writtenBy.mp hb) (hno b)
  · rw [ha.same.root] at hir
    have hroot : readIndexRoot E r = .ok (some ir) := by
      rw [← hir]
      exact (new_snapshot hw).2.2.1
    exact ⟨ir, hroot, Indexed.of_le (hl ir hroot h) ha.writes.le (Indexed.of_lookup hlook)⟩

/-- **`WalkInv.step`** — every step of a walk keeps the invariant. -/
theorem step {workers : Nat} {e : UploadEvent} {s' : Upload} (hl : Loads E r)
    (hstep : Step C E L workers s e s') (hi : WalkInv C E L r w root s ops answers) :
    ∃ ops' answers', WalkInv C E L r w root s' ops' answers' := by
  cases hstep with
  | claim pre post hq hnew hfree hok => exact ⟨ops, answers, hi.claim hq hnew⟩
  | skip pre post hq hold hfree hok => exact ⟨ops, answers, hi.skip hq hold⟩
  | @broke h st e pre post hin =>
      refine ⟨ops, answers, hi.leave hin hi.ran (fun _ _ => Iff.rfl) rfl rfl
        (List.Subset.refl _) ?_⟩
      intro hf
      cases hs : s.failed <;> simp [Upload.after, hs] at hf
  | @work h st pre post hin =>
      have hmem : (h, st) ∈ s.inFlight := by
        rw [hin]
        simp
      have hask : ∀ {b w'}, PackWriter.existsObj E s.remote s.writer h = .ok (b, w') →
          runOps E r w (ops ++ [.exists h]) = .ok (s.remote, w', answers ++ [(h, b)]) := by
        intro b w' hx
        exact runOps_append hi.ran (bind_eq_ok.mpr ⟨_, hx, rfl⟩)
      have hsame : ∀ k b, Op.write k b ∈ ops ++ [.exists h] ↔ Op.write k b ∈ ops := by
        intro k b
        simp
      rcases ha : act C E L s.remote s.writer h st with ⟨out, r', w'⟩
      have hcall := act_call ha
      cases hcall with
      | known hx =>
          have hno := hi.early _ hmem trivial
          refine ⟨_, _, hi.leave hin (hask hx) hsame rfl rfl (List.subset_append_left _ _) ?_⟩
          intro hf
          exact ⟨hf, Or.inr (indexed_of_exists hw hc hl hi hno hx),
            fun b hop => absurd hop (hno b)⟩
      | absent hx =>
          have hno := hi.early _ hmem trivial
          refine ⟨_, _, hi.next hin (hask hx) (fun k b => (hsame k b).mpr)
            (fun k b hop => Or.inl ((hsame k b).mp hop)) (fun _ b hop => hno b ((hsame h b).mp hop))
            ?_ fun hlate => absurd trivial hlate⟩
          intro d hd
          cases hd
      | read hread =>
          have hno := hi.early _ hmem trivial
          refine ⟨_, _, hi.next hin hi.ran (fun _ _ hop => hop) (fun _ _ hop => Or.inl hop)
            (fun _ => hno) ?_ fun hlate => absurd trivial hlate⟩
          intro d hd
          cases hd
          exact hread
      | present hx =>
          have hno := hi.early _ hmem trivial
          exact ⟨_, _, hi.next hin (hask hx) (fun k b => (hsame k b).mpr)
            (fun k b hop => Or.inl ((hsame k b).mp hop)) (fun h => h.elim) (hi.data _ hmem)
            fun _ => Or.inr (indexed_of_exists hw hc hl hi hno hx)⟩
      | confirmed hx =>
          have hno := hi.early _ hmem trivial
          exact ⟨_, _, hi.next hin (hask hx) (fun k b => (hsame k b).mpr)
            (fun k b hop => Or.inl ((hsame k b).mp hop))
            (fun _ b hop => hno b ((hsame h b).mp hop)) (hi.data _ hmem)
            fun hlate => absurd trivial hlate⟩
      | @wrote data _ _ hroute =>
          have hran : runOps E r w (ops ++ [.write h (C.encode E data h)]) =
              .ok (r', w', answers ++ []) := by
            apply runOps_append hi.ran
            rw [runOps, hroute]
            rfl
          refine ⟨_, _, hi.next hin hran (fun _ _ => List.mem_append_left _) ?_ (fun h => h.elim)
            (hi.data _ hmem) fun _ => Or.inl ⟨C.encode E data h, by simp⟩⟩
          intro k b hop
          rcases List.mem_append.mp hop with hop | hop
          · exact Or.inl hop
          · cases List.mem_singleton.mp hop
            exact Or.inr ⟨rfl, data, hi.data _ hmem data rfl, rfl⟩
      | @expanded data =>
          have hread := hi.data _ hmem data rfl
          refine ⟨ops, answers, hi.leave hin hi.ran (fun _ _ => Iff.rfl) rfl rfl
            (List.subset_append_left _ _) ?_⟩
          intro hf
          refine ⟨hf, hi.stored _ hmem fun h => h, ?_⟩
          intro b _ d hd c hc
          rw [hread] at hd
          cases hd
          exact List.mem_append_right _ hc
      | failed =>
          refine ⟨ops, answers, hi.leave hin hi.ran (fun _ _ => Iff.rfl) rfl rfl
            (List.Subset.refl _) ?_⟩
          intro hf
          cases hs : s.failed <;> simp [Upload.after, hs] at hf

/-- **`WalkInv.of_walk`** — the invariant of every walk. -/
theorem of_walk {workers : Nat} (hl : Loads E r)
    (hwalk : Walk C E L workers (.start r w root) s) :
    ∃ ops answers, WalkInv C E L r w root s ops answers := by
  rcases hwalk with ⟨es, hrun⟩
  refine hrun.invariant (P := fun s => ∃ ops answers, WalkInv C E L r w root s ops answers)
    ⟨[], [], start C E L r w root⟩ ?_
  rintro a e b - hstep ⟨ops, answers, hi⟩
  exact step hw hc hl hstep hi

end Calls

theorem notMem_of_finished (hfin : s.Finished) (k : Hash) : k ∉ s.inFlight.map Prod.fst := by
  rw [hfin.1]
  exact List.not_mem_nil

theorem visited_of_finished (hfin : s.Finished) (hok : s.failed = none) {k : Hash}
    (hk : s.Known k) : k ∈ s.visited := by
  rcases hk with hk | hk
  · rw [hfin.2.resolve_right (not_not.mpr hok)] at hk
    cases hk
  · exact hk

/-- **`WalkInv.reached`** — at the end of a walk without an error, everything reachable was indexed
before or is written. -/
theorem reached (hi : WalkInv C E L r w root s ops answers) (hclosed : ClosedGraph C E r)
    (hfin : s.Finished) (hok : s.failed = none) {h : Hash} (hr : Reachable C E L r root h) :
    (∃ b, Op.write h b ∈ ops) ∨ IndexedIn E r h := by
  have hdone : ∀ {k}, s.Known k → (∃ b, Op.write k b ∈ ops) ∨ IndexedIn E r k := by
    intro k hk
    exact hi.settled hok k (visited_of_finished hfin hok hk) (notMem_of_finished hfin k)
  induction hr with
  | refl => exact hdone hi.root
  | @tail k c _ href ih =>
      rcases href with ⟨b, d, hb, hd, hc⟩ | ⟨hno, d, hd, hc⟩
      · exact Or.inr (hclosed.child hb hd hc)
      · rcases ih with ⟨b, hop⟩ | hx
        · exact hdone (hi.children hok k b hop (notMem_of_finished hfin k) d hd c hc)
        · exact absurd hx hno

end WalkInv

/-! ## The push -/

section Push

variable {C : Codec} {E : Env} {L : LocalStore} {r r' : Remote} {c : Cache} {workers : Nat}
  {root : Hash} {nonce : Bytes} {w : PackWriter}

end Push

/-! ## A push of one manifest -/

/-- Frames that store their content as it is, and a parser that is never reached. -/
def sampleCodec : Codec where
  zstdEncode _ b := [0x28, 0xB5, 0x2F, 0xFD] ++ b
  zstdDecode _ b := (b.drop 4, none)
  zstdDecode_encode _ _ := rfl
  parseTree _ := none

/-- A manifest of a new chunk and a chunk the remote has. -/
def sampleLocal : LocalStore := fun h =>
  if h = 3 then some (Codec.serialiseManifest [4, 7])
  else if h = 4 then some [0xED, 0xF3, 1]
  else none

theorem sampleRemote_indexed {h : Hash} (hx : IndexedIn sampleEnv sampleRemote h) : h = 7 := by
  rcases sampleRemote_root with ⟨ir, hroot, htiers, -, hdeltas, -⟩
  rcases hx with ⟨ir₁, h₁, k, hk, f, e, hf, he⟩
  rw [hroot] at h₁
  cases h₁
  rw [htiers] at hk
  rcases hdeltas k hk with ⟨g, hg, hall⟩
  rw [hf] at hg
  cases hg
  exact (IndexFile.hash_of_find he).symm.trans (hall e (IndexFile.find_eq_some_iff.mp he).1)

theorem sampleRemote_closed : ClosedGraph sampleCodec sampleEnv sampleRemote := by
  rcases sampleRemote_root with ⟨ir, hroot, htiers, -, hdeltas, -, e, hl, hpay⟩
  constructor
  · intro ir₁ h₁ h k hk
    rw [hroot] at h₁
    cases h₁
    rw [htiers] at hk
    rcases hdeltas k hk with ⟨f, hf, -⟩
    exact ⟨f, hf⟩
  · intro h hx
    obtain rfl := sampleRemote_indexed hx
    refine ⟨[42], ⟨ir, e, hroot, hl, hpay⟩, ?_⟩
    intro data hdata c hc
    have hdec : sampleCodec.decode sampleEnv [42] 7 = .ok [42] := rfl
    rw [hdec] at hdata
    cases hdata
    cases hc

theorem sampleLocal_refers {L : LocalStore} (hL : L 3 = sampleLocal 3) {c : Hash}
    (hc : c ∈ [(4 : Hash), 7]) : RefersTo sampleCodec sampleEnv L sampleRemote 3 c := by
  refine Or.inr ⟨?_, Codec.serialiseManifest [4, 7], ?_, ?_⟩
  · intro hx
    have h37 : (3 : Hash) = 7 := sampleRemote_indexed hx
    revert h37
    decide
  · rw [readLocal, storeRead, hL]
    rfl
  · rw [Codec.childHashes_manifest]
    exact hc

end Omemfs.Pack
