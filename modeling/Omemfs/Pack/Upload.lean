/-
# Omemfs.Pack.Upload — the upload walk of a push.

A push walks the object graph from its new root: a hash the writer already knows is left alone with
everything below it, any other object is read from the local store, written, and its children are
queued.  One worker or many take hashes off the queue; `act` is one atomic call of one worker and
`Step` interleaves them in any order.  The serial loop of the program is one of these walks
(`uploadSerial_walk`), and no walk goes on forever (`step_wellFounded`).

The calls a walk makes on its writer are a session (`WalkInv.ran`), so what is known about sessions
applies to it.  What is added here is the object graph: `WalkInv` says that every visited hash is in
the hands of a worker, indexed by the snapshot, or written with all its children queued or visited.
-/
import Mathlib.Data.FinEnum
import Mathlib.Data.Fintype.Card
import Mathlib.Data.Prod.Lex
import Omemfs.Codec
import Omemfs.Lib.Runs
import Omemfs.Pack.Answers

namespace Omemfs.Pack

open Lib

/-! ## One object -/

/-- Stored bytes by hash; the local store is not encrypted. -/
abbrev LocalStore := Hash → Option Bytes

def storeRead (C : Codec) (L : LocalStore) (h : Hash) : Except Error Bytes :=
  match L h with
  | none => .error (.objectNotFound h.asStr)
  | some stored => C.decompress stored

/-- A read of the local store; an absent object is reported as locally missing. -/
def readLocal (C : Codec) (L : LocalStore) (h : Hash) : Except Error Bytes :=
  match storeRead C L h with
  | .error (.objectNotFound k) => .error (.localObjectMissing k)
  | out => out

/-- `store_write` through the writer, which is asked once more. -/
def storeWrite (C : Codec) (E : Env) (r : Remote) (w : PackWriter) (h : Hash) (data : Bytes) :
    Except Error Unit × Remote × PackWriter :=
  match PackWriter.existsObj E r w h with
  | .error e => (.error e, r, w)
  | .ok (true, w) => (.ok (), r, w)
  | .ok (false, w) =>
      let (r, w) := PackWriter.route E r w h (C.encode E data h)
      (.ok (), r, w)

/-- `process`: the bytes of an object that had to be uploaded, `none` for one already there. -/
def process (C : Codec) (E : Env) (L : LocalStore) (r : Remote) (w : PackWriter) (h : Hash) :
    Except Error (Option Bytes) × Remote × PackWriter :=
  match PackWriter.existsObj E r w h with
  | .error e => (.error e, r, w)
  | .ok (true, w) => (.ok none, r, w)
  | .ok (false, w) =>
      match readLocal C L h with
      | .error e => (.error e, r, w)
      | .ok data =>
          match storeWrite C E r w h data with
          | (.error e, r, w) => (.error e, r, w)
          | (.ok (), r, w) => (.ok (some data), r, w)

/-- The serial loop: first in, first out, a visited hash is skipped. -/
def uploadSerial (C : Codec) (E : Env) (L : LocalStore) :
    Nat → List Hash → List Hash → Remote → PackWriter →
      Option (Except Error Unit × Remote × PackWriter)
  | 0, _, _, _, _ => none
  | _ + 1, [], _, r, w => some (.ok (), r, w)
  | fuel + 1, h :: queue, visited, r, w =>
      if h ∈ visited then uploadSerial C E L fuel queue visited r w
      else
        match process C E L r w h with
        | (.error e, r, w) => some (.error e, r, w)
        | (.ok none, r, w) => uploadSerial C E L fuel queue (h :: visited) r w
        | (.ok (some data), r, w) =>
            uploadSerial C E L fuel (queue ++ C.childHashes data) (h :: visited) r w

/-! ## Workers -/

/-- How far a worker has come with its hash. -/
inductive Stage where
  | claimed
  | absent
  | read (data : Bytes)
  | confirmed (data : Bytes)
  | stored (data : Bytes)

inductive Outcome where
  | next (stage : Stage)
  | done (children : List Hash)
  | failed (e : Error)

/-- One call of a worker.  Calls on the writer exclude each other, so `process` is cut exactly
here. -/
def act (C : Codec) (E : Env) (L : LocalStore) (r : Remote) (w : PackWriter) (h : Hash) :
    Stage → Outcome × Remote × PackWriter
  | .claimed =>
      match PackWriter.existsObj E r w h with
      | .error e => (.failed e, r, w)
      | .ok (true, w) => (.done [], r, w)
      | .ok (false, w) => (.next .absent, r, w)
  | .absent =>
      match readLocal C L h with
      | .error e => (.failed e, r, w)
      | .ok data => (.next (.read data), r, w)
  | .read data =>
      match PackWriter.existsObj E r w h with
      | .error e => (.failed e, r, w)
      | .ok (true, w) => (.next (.stored data), r, w)
      | .ok (false, w) => (.next (.confirmed data), r, w)
  | .confirmed data =>
      let (r, w) := PackWriter.route E r w h (C.encode E data h)
      (.next (.stored data), r, w)
  | .stored data => (.done (C.childHashes data), r, w)

/-- What a call can come to. -/
inductive Call (C : Codec) (E : Env) (L : LocalStore) (r : Remote) (w : PackWriter) (h : Hash) :
    Stage → Outcome → Remote → PackWriter → Prop
  | known {w' : PackWriter} (hx : PackWriter.existsObj E r w h = .ok (true, w')) :
      Call C E L r w h .claimed (.done []) r w'
  | absent {w' : PackWriter} (hx : PackWriter.existsObj E r w h = .ok (false, w')) :
      Call C E L r w h .claimed (.next .absent) r w'
  | read {data : Bytes} (hl : readLocal C L h = .ok data) :
      Call C E L r w h .absent (.next (.read data)) r w
  | present {data : Bytes} {w' : PackWriter}
      (hx : PackWriter.existsObj E r w h = .ok (true, w')) :
      Call C E L r w h (.read data) (.next (.stored data)) r w'
  | confirmed {data : Bytes} {w' : PackWriter}
      (hx : PackWriter.existsObj E r w h = .ok (false, w')) :
      Call C E L r w h (.read data) (.next (.confirmed data)) r w'
  | wrote {data : Bytes} {r' : Remote} {w' : PackWriter}
      (hw : PackWriter.route E r w h (C.encode E data h) = (r', w')) :
      Call C E L r w h (.confirmed data) (.next (.stored data)) r' w'
  | expanded {data : Bytes} : Call C E L r w h (.stored data) (.done (C.childHashes data)) r w
  | failed {st : Stage} {e : Error} : Call C E L r w h st (.failed e) r w

/-- **`act_call`** — a call comes to one of these. -/
theorem act_call {C : Codec} {E : Env} {L : LocalStore} {r r' : Remote} {w w' : PackWriter}
    {h : Hash} {st : Stage} {out : Outcome} (ha : act C E L r w h st = (out, r', w')) :
    Call C E L r w h st out r' w' := by
  cases st with
  | claimed =>
      rw [act] at ha
      split at ha
      · cases ha
        exact .failed
      · next hx =>
          cases ha
          exact .known hx
      · next hx =>
          cases ha
          exact .absent hx
  | absent =>
      rw [act] at ha
      split at ha
      · cases ha
        exact .failed
      · next hl =>
          cases ha
          exact .read hl
  | read data =>
      rw [act] at ha
      split at ha
      · cases ha
        exact .failed
      · next hx =>
          cases ha
          exact .present hx
      · next hx =>
          cases ha
          exact .confirmed hx
  | confirmed data =>
      rcases hw : PackWriter.route E r w h (C.encode E data h) with ⟨r₁, w₁⟩
      rw [act, hw] at ha
      cases ha
      exact .wrote hw
  | stored data =>
      cases ha
      exact .expanded

/-- A walk in progress. -/
structure Upload where
  queue : List Hash
  visited : List Hash
  inFlight : List (Hash × Stage)
  failed : Option Error
  remote : Remote
  writer : PackWriter

namespace Upload

/-- A walk about to start from `root`. -/
def start (r : Remote) (w : PackWriter) (root : Hash) : Upload :=
  ⟨[root], [], [], none, r, w⟩

/-- What one call leaves: the worker goes on, queues the children, or records the first error. -/
def after (s : Upload) (pre post : List (Hash × Stage)) (h : Hash) :
    Outcome × Remote × PackWriter → Upload
  | (.next st, r, w) => { s with inFlight := pre ++ (h, st) :: post, remote := r, writer := w }
  | (.done cs, r, w) =>
      { s with queue := s.queue ++ cs, inFlight := pre ++ post, remote := r, writer := w }
  | (.failed e, r, w) =>
      { s with inFlight := pre ++ post, failed := s.failed.or (some e), remote := r, writer := w }

/-- No worker is busy, and nothing is left or an error stopped the others. -/
def Finished (s : Upload) : Prop := s.inFlight = [] ∧ (s.queue = [] ∨ s.failed ≠ none)

/-- Queued, or taken off the queue before. -/
def Known (s : Upload) (h : Hash) : Prop := h ∈ s.queue ∨ h ∈ s.visited

end Upload

inductive UploadEvent where
  | claim (h : Hash)
  | skip (h : Hash)
  | work (h : Hash)
  | broke (h : Hash)

/-- A free worker takes any hash off the queue, drops it when it was visited and claims it
otherwise; a busy worker makes its next call, or a call of it fails for a reason of its own. -/
inductive Step (C : Codec) (E : Env) (L : LocalStore) (workers : Nat) :
    Upload → UploadEvent → Upload → Prop
  | claim {s : Upload} {h : Hash} (pre post : List Hash) (hq : s.queue = pre ++ h :: post)
      (hnew : h ∉ s.visited) (hfree : s.inFlight.length < workers) (hok : s.failed = none) :
      Step C E L workers s (.claim h)
        { s with
          queue := pre ++ post
          visited := h :: s.visited
          inFlight := s.inFlight ++ [(h, .claimed)] }
  | skip {s : Upload} {h : Hash} (pre post : List Hash) (hq : s.queue = pre ++ h :: post)
      (hold : h ∈ s.visited) (hfree : s.inFlight.length < workers) (hok : s.failed = none) :
      Step C E L workers s (.skip h) { s with queue := pre ++ post }
  | work {s : Upload} {h : Hash} {st : Stage} (pre post : List (Hash × Stage))
      (hin : s.inFlight = pre ++ (h, st) :: post) :
      Step C E L workers s (.work h) (s.after pre post h (act C E L s.remote s.writer h st))
  | broke {s : Upload} {h : Hash} {st : Stage} {e : Error} (pre post : List (Hash × Stage))
      (hin : s.inFlight = pre ++ (h, st) :: post) :
      Step C E L workers s (.broke h) (s.after pre post h (.failed e, s.remote, s.writer))

/-- A walk with its events forgotten. -/
def Walk (C : Codec) (E : Env) (L : LocalStore) (workers : Nat) (s s' : Upload) : Prop :=
  ∃ es, Run (Step C E L workers) s es s'

section Walks

variable {C : Codec} {E : Env} {L : LocalStore} {workers : Nat}

theorem Walk.refl (s : Upload) : Walk C E L workers s s := ⟨[], .nil s⟩

theorem Walk.cons {s m s' : Upload} {e : UploadEvent} (hstep : Step C E L workers s e m)
    (h : Walk C E L workers m s') : Walk C E L workers s s' := by
  rcases h with ⟨es, hrun⟩
  exact ⟨e :: es, .cons hstep hrun⟩

/-! ## Every walk ends -/

/-- Calls a worker has left. -/
def Stage.rank : Stage → Nat
  | .claimed => 5
  | .absent => 4
  | .read _ => 3
  | .confirmed _ => 2
  | .stored _ => 1

theorem Call.rank {r r' : Remote} {w w' : PackWriter} {h : Hash} {st st' : Stage}
    (hc : Call C E L r w h st (.next st') r' w') : st'.rank < st.rank := by
  cases hc with
  | absent hx =>
      show 4 < 5
      omega
  | read hl =>
      show 3 < 4
      omega
  | confirmed hx =>
      show 2 < 3
      omega
  | present hx =>
      show 1 < 3
      omega
  | wrote =>
      show 1 < 2
      omega

/-- Hashes not visited yet. -/
def Upload.unvisited (s : Upload) : Nat :=
  (Finset.univ.filter fun h : Hash => h ∉ s.visited).card

/-- Calls the busy workers have left. -/
def Upload.callsLeft (s : Upload) : Nat := (s.inFlight.map fun p => p.2.rank).sum

/-- Fewer hashes left to visit, or as many and fewer calls left, or a shorter queue. -/
def Upload.Smaller (s' s : Upload) : Prop :=
  Prod.Lex (· < ·) (Prod.Lex (· < ·) (· < ·)) (s'.unvisited, s'.callsLeft, s'.queue.length)
    (s.unvisited, s.callsLeft, s.queue.length)

theorem Upload.smaller_wellFounded : WellFounded Upload.Smaller := by
  have hlt : WellFounded fun a b : Nat => a < b := Nat.lt_wfRel.wf
  exact InvImage.wf (fun s : Upload => (s.unvisited, s.callsLeft, s.queue.length))
    (WellFounded.prod_lex hlt (WellFounded.prod_lex hlt hlt))

theorem Upload.callsLeft_append {s : Upload} {pre post : List (Hash × Stage)}
    (hin : s.inFlight = pre ++ post) :
    s.callsLeft = (pre.map fun p => p.2.rank).sum + (post.map fun p => p.2.rank).sum := by
  rw [callsLeft, hin, List.map_append, List.sum_append]

theorem Upload.unvisited_after {s : Upload} {pre post : List (Hash × Stage)} {h : Hash}
    {out : Outcome × Remote × PackWriter} : (s.after pre post h out).unvisited = s.unvisited := by
  have hv : (s.after pre post h out).visited = s.visited := by
    rcases out with ⟨out, r, w⟩
    cases out <;> rfl
  rw [unvisited, unvisited, hv]

/-- A call is one call less. -/
theorem Upload.after_smaller {s : Upload} {pre post : List (Hash × Stage)} {h : Hash} {st : Stage}
    {out : Outcome × Remote × PackWriter} (hin : s.inFlight = pre ++ (h, st) :: post)
    (hout : ∀ st', out.1 = .next st' → st'.rank < st.rank) :
    (s.after pre post h out).Smaller s := by
  have hs := callsLeft_append hin
  simp only [List.map_cons, List.sum_cons] at hs
  have hpos : 0 < st.rank := by
    cases st <;> exact Nat.succ_pos _
  have hlt : (s.after pre post h out).callsLeft < s.callsLeft := by
    rcases out with ⟨out, r, w⟩
    cases out with
    | next st' =>
        have hlt := hout st' rfl
        have hs' := callsLeft_append (s := s.after pre post h (.next st', r, w)) rfl
        simp only [List.map_cons, List.sum_cons] at hs'
        omega
    | done cs =>
        have hs' := callsLeft_append (s := s.after pre post h (.done cs, r, w)) rfl
        omega
    | failed e =>
        have hs' := callsLeft_append (s := s.after pre post h (.failed e, r, w)) rfl
        omega
  rw [Smaller, unvisited_after]
  exact Prod.Lex.right _ (Prod.Lex.left _ _ hlt)

/-- Claiming a hash leaves one less to visit. -/
theorem Upload.smaller_of_visited {s s' : Upload} {h : Hash} (hnew : h ∉ s.visited)
    (hv : s'.visited = h :: s.visited) : s'.Smaller s := by
  apply Prod.Lex.left
  apply Finset.card_lt_card
  constructor
  · intro k hk
    simp only [hv, Finset.mem_filter, Finset.mem_univ, true_and, List.mem_cons, not_or] at hk ⊢
    exact hk.2
  · intro hsub
    have hh := hsub (Finset.mem_filter.mpr ⟨Finset.mem_univ h, hnew⟩)
    rw [Finset.mem_filter, hv] at hh
    exact hh.2 (List.mem_cons_self ..)

theorem step_smaller {s s' : Upload} {e : UploadEvent} (hstep : Step C E L workers s e s') :
    s'.Smaller s := by
  cases hstep with
  | claim pre post hq hnew hfree hok => exact Upload.smaller_of_visited hnew rfl
  | skip pre post hq hold hfree hok =>
      apply Prod.Lex.right
      apply Prod.Lex.right
      rw [hq, List.length_append, List.length_append, List.length_cons]
      omega
  | work pre post hin =>
      apply Upload.after_smaller hin
      intro st' hout
      exact (act_call (Prod.ext hout rfl)).rank
  | broke pre post hin => exact Upload.after_smaller hin fun st' hout => by cases hout

/-- **`step_wellFounded`** — no walk goes on forever. -/
theorem step_wellFounded : WellFounded fun s' s => ∃ e, Step C E L workers s e s' :=
  Subrelation.wf (fun ⟨_, hstep⟩ => step_smaller hstep) Upload.smaller_wellFounded

/-- **`step_or_finished`** — with a worker at hand, a walk that cannot go on is finished. -/
theorem step_or_finished (hworkers : 0 < workers) (s : Upload) :
    s.Finished ∨ ∃ e s', Step C E L workers s e s' := by
  cases hin : s.inFlight with
  | cons p rest => exact Or.inr ⟨_, _, .work (h := p.1) [] rest hin⟩
  | nil =>
      have hfree : s.inFlight.length < workers := by
        rw [hin]
        exact hworkers
      by_cases hok : s.failed = none
      · cases hq : s.queue with
        | nil => exact Or.inl ⟨hin, Or.inl hq⟩
        | cons h rest =>
            by_cases hv : h ∈ s.visited
            · exact Or.inr ⟨_, _, .skip [] rest hq hv hfree hok⟩
            · exact Or.inr ⟨_, _, .claim [] rest hq hv hfree hok⟩
      · exact Or.inl ⟨hin, Or.inr hok⟩

/-! ## The serial loop is one of the walks -/

/-- A state with no worker busy. -/
def Upload.idle (queue visited : List Hash) (failed : Option Error) (r : Remote) (w : PackWriter) :
    Upload :=
  ⟨queue, visited, [], failed, r, w⟩

/-- The idle state after `process`. -/
def Upload.resume (C : Codec) (queue visited : List Hash) (r : Remote) (w : PackWriter) :
    Except Error (Option Bytes) → Upload
  | .error e => .idle queue visited (some e) r w
  | .ok none => .idle queue visited none r w
  | .ok (some data) => .idle (queue ++ C.childHashes data) visited none r w

/-- One worker, left alone, does what `process` does. -/
theorem process_walk {queue visited : List Hash} {r r' : Remote} {w w' : PackWriter} {h : Hash}
    {out : Except Error (Option Bytes)} (hp : process C E L r w h = (out, r', w')) :
    Walk C E L workers ⟨queue, visited, [(h, .claimed)], none, r, w⟩
      (.resume C queue visited r' w' out) := by
  -- one call of the only worker
  have call : ∀ {st : Stage} {r : Remote} {w : PackWriter} {o : Outcome × Remote × PackWriter}
      {s' : Upload},
      act C E L r w h st = o →
      Walk C E L workers (Upload.after ⟨queue, visited, [(h, st)], none, r, w⟩ [] [] h o) s' →
      Walk C E L workers ⟨queue, visited, [(h, st)], none, r, w⟩ s' := by
    rintro st r w o s' rfl hrest
    exact .cons (.work [] [] rfl) hrest
  unfold process at hp
  cases hx : PackWriter.existsObj E r w h with
  | error e =>
      rw [hx] at hp
      cases hp
      refine call (o := (.failed e, r, w)) (by rw [act, hx]) ?_
      exact .refl _
  | ok a =>
      rcases a with ⟨there, w₁⟩
      rw [hx] at hp
      cases there with
      | true =>
          cases hp
          refine call (o := (.done [], r, w')) (by rw [act, hx]) ?_
          show Walk C E L workers ⟨queue ++ [], visited, [], none, r, w'⟩ _
          rw [List.append_nil]
          exact .refl _
      | false =>
          refine call (o := (.next .absent, r, w₁)) (by rw [act, hx]) ?_
          cases hl : readLocal C L h with
          | error e =>
              simp only [hl] at hp
              cases hp
              refine call (o := (.failed e, r, w')) (by rw [act, hl]) ?_
              exact .refl _
          | ok data =>
              simp only [hl] at hp
              refine call (o := (.next (.read data), r, w₁)) (by rw [act, hl]) ?_
              rw [storeWrite] at hp
              cases hx₁ : PackWriter.existsObj E r w₁ h with
              | error e =>
                  simp only [hx₁] at hp
                  cases hp
                  refine call (o := (.failed e, r, w')) (by rw [act, hx₁]) ?_
                  exact .refl _
              | ok a =>
                  rcases a with ⟨there, w₂⟩
                  cases there with
                  | true =>
                      simp only [hx₁] at hp
                      cases hp
                      refine call (o := (.next (.stored data), r, w')) (by rw [act, hx₁]) ?_
                      exact call rfl (.refl _)
                  | false =>
                      simp only [hx₁] at hp
                      cases hp
                      refine call (o := (.next (.confirmed data), r, w₂)) (by rw [act, hx₁]) ?_
                      exact call rfl (call rfl (.refl _))

/-- **`uploadSerial_walk`** — the serial loop, when it returns, has gone through a finished walk with
the same outcome. -/
theorem uploadSerial_walk (hworkers : 0 < workers) {fuel : Nat} {queue visited : List Hash}
    {r r' : Remote} {w w' : PackWriter} {out : Except Error Unit}
    (hrun : uploadSerial C E L fuel queue visited r w = some (out, r', w')) :
    ∃ s, Walk C E L workers (.idle queue visited none r w) s ∧ s.Finished ∧ s.remote = r' ∧
      s.writer = w' ∧ (s.failed = none ↔ out = .ok ()) := by
  induction fuel generalizing queue visited r w with
  | zero => cases hrun
  | succ fuel ih =>
      cases queue with
      | nil =>
          cases hrun
          exact ⟨_, .refl _, ⟨rfl, Or.inl rfl⟩, rfl, rfl, fun _ => rfl, fun _ => rfl⟩
      | cons h queue =>
          rw [uploadSerial] at hrun
          split_ifs at hrun with hv
          · rcases ih hrun with ⟨s, hwalk, hs⟩
            exact ⟨s, .cons (.skip [] queue rfl hv hworkers rfl) hwalk, hs⟩
          · rcases hp : process C E L r w h with ⟨o, r₁, w₁⟩
            rw [hp] at hrun
            have hclaim : Step C E L workers (.idle (h :: queue) visited none r w) (.claim h)
                ⟨queue, h :: visited, [(h, .claimed)], none, r, w⟩ :=
              .claim [] queue rfl hv hworkers rfl
            have go : ∀ {s : Upload}, Walk C E L workers (.resume C queue (h :: visited) r₁ w₁ o) s →
                Walk C E L workers (.idle (h :: queue) visited none r w) s := by
              rintro s ⟨fs, hfs⟩
              rcases process_walk hp with ⟨es, hes⟩
              exact .cons hclaim ⟨es ++ fs, run_append.mpr ⟨_, hes, hfs⟩⟩
            rcases o with e | _ | data
            · cases hrun
              refine ⟨_, go (.refl _), ⟨rfl, Or.inr (Option.some_ne_none e)⟩, rfl, rfl, ?_⟩
              constructor
              · intro h
                cases h
              · intro h
                cases h
            · rcases ih hrun with ⟨s, hrest, hs⟩
              exact ⟨s, go hrest, hs⟩
            · rcases ih hrun with ⟨s, hrest, hs⟩
              exact ⟨s, go hrest, hs⟩

/-- **`uploadSerial_returns`** — the serial loop returns. -/
theorem uploadSerial_returns (C : Codec) (E : Env) (L : LocalStore) (queue visited : List Hash)
    (r : Remote) (w : PackWriter) :
    ∃ fuel out, uploadSerial C E L fuel queue visited r w = some out := by
  -- induction on the hashes left to visit, then on the queue
  have hwf := Upload.smaller_wellFounded
  obtain ⟨s, hs⟩ : ∃ s, s = Upload.idle queue visited none r w := ⟨_, rfl⟩
  induction s using hwf.induction generalizing queue visited r w with
  | _ s ih =>
      subst hs
      cases queue with
      | nil => exact ⟨1, _, rfl⟩
      | cons h queue =>
          by_cases hv : h ∈ visited
          · have hsm : (Upload.idle queue visited none r w).Smaller
                (.idle (h :: queue) visited none r w) :=
              @step_smaller C E L 1 _ _ _ (.skip [] queue rfl hv Nat.one_pos rfl)
            rcases ih _ hsm _ _ _ _ rfl with ⟨fuel, out, hrun⟩
            exact ⟨fuel + 1, out, by rw [uploadSerial, if_pos hv, hrun]⟩
          · have hsm : ∀ q r₁ w₁, (Upload.idle q (h :: visited) none r₁ w₁).Smaller
                (.idle (h :: queue) visited none r w) := by
              intro q r₁ w₁
              exact Upload.smaller_of_visited hv rfl
            rcases hp : process C E L r w h with ⟨o, r₁, w₁⟩
            rcases o with e | _ | data
            · exact ⟨1, _, by rw [uploadSerial, if_neg hv, hp]⟩
            · rcases ih _ (hsm queue r₁ w₁) _ _ _ _ rfl with ⟨fuel, out, hrun⟩
              refine ⟨fuel + 1, out, ?_⟩
              rw [uploadSerial, if_neg hv, hp]
              exact hrun
            · rcases ih _ (hsm (queue ++ C.childHashes data) r₁ w₁) _ _ _ _ rfl with
                ⟨fuel, out, hrun⟩
              refine ⟨fuel + 1, out, ?_⟩
              rw [uploadSerial, if_neg hv, hp]
              exact hrun

end Walks

end Omemfs.Pack
