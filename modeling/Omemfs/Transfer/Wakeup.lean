/-
# Omemfs.Transfer.Wakeup — when a walk can leave a worker parked for good.

A worker tests `failed`, the queue and `outstanding` under the queue lock and parks giving that lock
back; the workers that change `failed` and `outstanding` do so without the lock, and call
`notify_all` without it.  A notification that falls between the last test and the parking (`Unheard`)
reaches nobody, and where the notifying worker has nothing more to say, the parked one stays when
all the others have returned (`Stranded`).

Two notifications are the last ones about what they announce: the one of `record_error`, and in
`child_worker_loop` the one at the count's reaching zero.  `worker_loop` notifies again under the
lock when it finds the walk complete, so its own can be missed.  In a run where the two are heard
(`Heard`) no state strands a worker, and where no item is dropped uncounted (`CountedOff`) the
counter is exact; `walk_never_strands` puts them together with the single processing of each node.
The runs after it show both loops missing a wakeup.
-/
import Omemfs.Transfer.Once

namespace Omemfs.Transfer

open Lib

variable {n : Nat} {x : Exits} {f : Hash → Except Error (List Hash)} {roots : List Hash}

/-! ## The property and the conditions -/

/-- A parked worker with every other worker gone. -/
def Stranded (s : Pool n (Shared n) Pc) : Prop :=
  ∃ v, s.pcs v = .parked ∧ ∀ u, u ≠ v → Returned (s.pcs u)

/-- The worker has the lock and is past its test of `failed`, on the way to parking. -/
def Unheard (d : Shared n) (pc : Pc) : Prop :=
  pc = .wait ∨ pc = .loadOutstanding ∨ pc = .popFront ∧ d.queue = []

/-- The action of `w` is not a notification that a worker on its way to parking misses. -/
def Heard (x : Exits) (s : Pool n (Shared n) Pc) (w : Fin n) : Prop :=
  (s.pcs w = .notifyFailed → ∀ v, ¬ Unheard s.data (s.pcs v)) ∧
    (x.notifies = false → ∀ last, s.pcs w = .notifyZero last → ∀ v, s.pcs v ≠ .wait)

/-- The action of `w` is not a return with an item that is still counted. -/
def CountedOff (x : Exits) (s : Pool n (Shared n) Pc) (w : Fin n) : Prop :=
  x.countsOff = false → s.pcs w ≠ .unlockError

/-! ## What one action does -/

section Turn

variable {w : Fin n} {d : Shared n} {p : Pc} {t : Turn (Shared n) Pc}

/-- How a worker gets past its test of `failed` towards parking, and how it parks. -/
theorem turn_unheard (h : turn x f w d p = some t) :
    (t.pc = .parked → p = .wait) ∧
      (Unheard t.data t.pc → d.failed = false ∨ Unheard d p) ∧
      (t.pc = .wait → d.outstanding ≠ 0) := by
  cases p
  all_goals simp only [turn, goto, notifyAll] at h
  all_goals grind [Unheard, afterItem]

/-- How a failure comes to be announced. -/
theorem turn_announce (h : turn x f w d p = some t) :
    (t.data.failed = true → d.failed = true ∨ t.pc = .notifyFailed) ∧
      (p = .notifyFailed → t.wakes = true ∧ t.data = d ∧ t.pc = .unlockError) := by
  cases p
  all_goals simp only [turn, goto, notifyAll] at h
  all_goals grind [afterItem]

/-- How the count comes to be zero, and how that is announced. -/
theorem turn_zero (h : turn x f w d p = some t) (hp : p.inFlight ≤ d.outstanding) :
    (t.data.outstanding = 0 → d.outstanding = 0 ∨ ∃ last, t.pc = .notifyZero last) ∧
      (∀ last, p = .notifyZero last → t.wakes = true ∧ t.data = d ∧ t.pc = afterItem last) := by
  cases p
  all_goals simp only [turn, goto, notifyAll] at h
  all_goals grind [afterItem, Pc.inFlight]

/-- A worker leaves by the loop's exit only after notifying under the lock, or after a failure. -/
theorem turn_exit (h : turn x f w d p = some t) (hx : x.notifies = true)
    (ht : t.pc = .leave ∨ Returned t.pc) :
    d.failed = true ∨ p = .leave ∨ p.hasFailed ∨ p = .notifyDone ∧ t.wakes = true ∧ t.pc = .leave := by
  cases p
  all_goals simp only [turn, goto, notifyAll] at h
  all_goals grind [afterItem, Returned, Pc.hasFailed]

end Turn

/-! ## Nobody parks unheard -/

/-- No worker is parked or about to park. -/
def Quiet (s : Pool n (Shared n) Pc) : Prop := ∀ v, s.pcs v ≠ .parked ∧ s.pcs v ≠ .wait

/-- A failure is about to be announced, or has been heard by everybody. -/
def FailureHeard (s : Pool n (Shared n) Pc) : Prop :=
  s.data.failed = true → (∃ v, s.pcs v = .notifyFailed) ∨
    ∀ v, s.pcs v ≠ .parked ∧ ¬ Unheard s.data (s.pcs v)

/-- Without notices at the exit: the count's reaching zero is about to be announced, or has been
heard by everybody. -/
def ZeroHeard (s : Pool n (Shared n) Pc) : Prop :=
  s.data.outstanding = 0 → s.data.failed = true ∨ (∃ v last, s.pcs v = .notifyZero last) ∨ Quiet s

/-- With notices at the exit: nobody leaves a worker parked behind. -/
def ExitHeard (s : Pool n (Shared n) Pc) : Prop :=
  s.data.failed = false → (∃ v, s.pcs v = .leave ∨ Returned (s.pcs v)) → Quiet s

theorem Pc.wake_ne_parked (pc : Pc) : pc.wake ≠ .parked := by
  unfold Pc.wake
  split_ifs with h
  · exact nofun
  · exact h

section Step

variable {w : Fin n} {s s' : Pool n (Shared n) Pc} {t : Turn (Shared n) Pc}

/-- Another worker parks no more than it did, and not at all if it was woken. -/
theorem parked_other (hm : Pool.Moved Pc.wake s w t s') {v : Fin n} (hv : v ≠ w)
    (h : s'.pcs v = .parked) : s.pcs v = .parked ∧ t.wakes = false := by
  rw [hm.others v hv] at h
  split_ifs at h with hw
  · exact absurd h (Pc.wake_ne_parked _)
  · exact ⟨h, Bool.eq_false_iff.mpr hw⟩

theorem at_other (hm : Pool.Moved Pc.wake s w t s') {v : Fin n} (hv : v ≠ w) {q : Pc}
    (hp : q ≠ .parked) (hw : q ≠ .woken) : s'.pcs v = q ↔ s.pcs v = q := by
  rcases hm.other hv with he | he
  · rw [he]
  · rw [he, Pc.wake_eq_iff hp hw]

/-- Another worker is on its way to parking only if it was: the queue is emptied under the lock. -/
theorem unheard_other (hi : Inv f roots s) (ht : turn x f w s.data (s.pcs w) = some t)
    (hm : Pool.Moved Pc.wake s w t s') {v : Fin n} (hv : v ≠ w)
    (h : Unheard s'.data (s'.pcs v)) : Unheard s.data (s.pcs v) := by
  rw [hm.data] at h
  rcases h with h | h | ⟨h, hq⟩
  · exact Or.inl ((at_other hm hv (by simp) (by simp)).mp h)
  · exact Or.inr (Or.inl ((at_other hm hv (by simp) (by simp)).mp h))
  · have hat : s.pcs v = .popFront := (at_other hm hv (by simp) (by simp)).mp h
    refine Or.inr (Or.inr ⟨hat, ?_⟩)
    have hfree : (s.pcs w).holdsQueue = false := by
      by_contra hheld
      have hown : s.data.queueLock = some w := hi.queueLock w (by simpa using hheld)
      have hother : s.data.queueLock = some v := hi.queueLock v (by rw [hat]; rfl)
      rw [hown] at hother
      exact hv (Option.some.inj hother).symm
    rwa [turn_queue ht hfree] at hq

theorem FailureHeard.step (hi : Inv f roots s) (hs : FailureHeard s)
    (h : Pool.Steps (turn x f) Pc.wake s w s') (hheard : Heard x s w) : FailureHeard s' := by
  obtain ⟨t, ht, hm⟩ := Pool.step_cases h
  obtain ⟨hpark, hway, _⟩ := turn_unheard ht
  obtain ⟨hcause, hannounce⟩ := turn_announce ht
  intro hf
  rw [hm.data] at hf
  rcases hcause hf with hold | hnew
  · rcases hs hold with ⟨v, hv⟩ | hnone
    · by_cases hvw : v = w
      · -- the announcement itself: nobody is on the way to parking, and it wakes the parked
        subst hvw
        obtain ⟨hwakes, hdata, hpc⟩ := hannounce hv
        refine Or.inr fun u => ?_
        by_cases hu : u = v
        · rw [hu, hm.self, hpc]
          refine ⟨nofun, ?_⟩
          rintro (hat | hat | ⟨hat, _⟩) <;> cases hat
        · refine ⟨?_, fun hun => hheard.1 hv u (unheard_other hi ht hm hu hun)⟩
          intro hparked
          have hquiet := (parked_other hm hu hparked).2
          rw [hwakes] at hquiet
          cases hquiet
      · exact Or.inl ⟨v, (at_other hm hvw (by simp) (by simp)).mpr hv⟩
    · refine Or.inr fun u => ?_
      by_cases hu : u = w
      · rw [hu, hm.self, hm.data]
        refine ⟨?_, ?_⟩
        · intro hparked
          exact (hnone w).2 (Or.inl (hpark hparked))
        · intro hun
          rcases hway hun with hclear | hun'
          · rw [hold] at hclear
            cases hclear
          · exact (hnone w).2 hun'
      · exact ⟨fun hparked => (hnone u).1 (parked_other hm hu hparked).1,
          fun hun => (hnone u).2 (unheard_other hi ht hm hu hun)⟩
  · exact Or.inl ⟨w, by rw [hm.self, hnew]⟩

/-- Where nobody is parked or about to park and nothing is outstanding, nobody gets there. -/
theorem Quiet.step (hs : Quiet s) (ht : turn x f w s.data (s.pcs w) = some t)
    (hm : Pool.Moved Pc.wake s w t s') (h0 : s.data.outstanding = 0) : Quiet s' := by
  obtain ⟨hpark, _, hwait⟩ := turn_unheard ht
  intro u
  by_cases hu : u = w
  · rw [hu, hm.self]
    exact ⟨fun h => (hs w).2 (hpark h), fun h => hwait h h0⟩
  · exact ⟨fun h => (hs u).1 (parked_other hm hu h).1,
      fun h => (hs u).2 ((at_other hm hu (by simp) (by simp)).mp h)⟩

/-- A notification that no worker is waiting through leaves nobody parked. -/
theorem quiet_of_wakes (hm : Pool.Moved Pc.wake s w t s') (hwakes : t.wakes = true)
    (hself : t.pc ≠ .parked ∧ t.pc ≠ .wait) (hwait : ∀ u, u ≠ w → s.pcs u ≠ .wait) : Quiet s' := by
  intro u
  by_cases hu : u = w
  · rw [hu, hm.self]
    exact hself
  · refine ⟨?_, fun h => hwait u hu ((at_other hm hu (by simp) (by simp)).mp h)⟩
    intro hparked
    have hquiet := (parked_other hm hu hparked).2
    rw [hwakes] at hquiet
    cases hquiet

theorem afterItem_ne (last : Bool) : afterItem last ≠ .parked ∧ afterItem last ≠ .wait := by
  cases last <;> exact ⟨nofun, nofun⟩

theorem ZeroHeard.step (hi : Inv f roots s) (hs : ZeroHeard s)
    (h : Pool.Steps (turn x f) Pc.wake s w s') (hx : x.notifies = false) (hheard : Heard x s w) :
    ZeroHeard s' := by
  obtain ⟨t, ht, hm⟩ := Pool.step_cases h
  obtain ⟨hcause, hannounce⟩ := turn_zero ht (hi.count_le w)
  intro h0
  rw [hm.data] at h0
  rcases hcause h0 with hold | ⟨last, hnew⟩
  · rcases hs hold with hf | ⟨v, last, hv⟩ | hquiet
    · exact Or.inl (by rw [hm.data]; exact (turn_failed ht).1 hf)
    · by_cases hvw : v = w
      · subst hvw
        obtain ⟨hwakes, _, hpc⟩ := hannounce last hv
        refine Or.inr (Or.inr (quiet_of_wakes hm hwakes ?_ fun u _ => hheard.2 hx last hv u))
        rw [hpc]
        exact afterItem_ne last
      · exact Or.inr (Or.inl ⟨v, last, (at_other hm hvw (by simp) (by simp)).mpr hv⟩)
    · exact Or.inr (Or.inr (hquiet.step ht hm hold))
  · exact Or.inr (Or.inl ⟨w, last, by rw [hm.self, hnew]⟩)

theorem ExitHeard.step (hi : Inv f roots s) (hs : ExitHeard s)
    (h : Pool.Steps (turn x f) Pc.wake s w s') (hx : x.notifies = true) : ExitHeard s' := by
  obtain ⟨t, ht, hm⟩ := Pool.step_cases h
  intro hf hgone
  have hclear : s.data.failed = false := by
    by_contra hset
    have hstays := (turn_failed ht).1 (by simpa using hset)
    rw [hm.data, hstays] at hf
    cases hf
  -- somebody had left already, or the acting worker has just notified under the lock
  have hcases : (∃ v, s.pcs v = .leave ∨ Returned (s.pcs v)) ∨
      s.pcs w = .notifyDone ∧ t.wakes = true ∧ t.pc = .leave := by
    obtain ⟨v, hv⟩ := hgone
    by_cases hvw : v = w
    · rw [hvw, hm.self] at hv
      rcases turn_exit ht hx hv with hset | hleave | hfailed | hdone
      · rw [hclear] at hset
        cases hset
      · exact Or.inl ⟨w, Or.inl hleave⟩
      · have hset := hi.hasFailed w hfailed
        rw [hclear] at hset
        cases hset
      · exact Or.inr hdone
    · refine Or.inl ⟨v, ?_⟩
      rcases hv with hv | ⟨counted, hv⟩
      · exact Or.inl ((at_other hm hvw (by simp) (by simp)).mp hv)
      · exact Or.inr ⟨counted, (at_other hm hvw (by simp) (by simp)).mp hv⟩
  rcases hcases with hold | ⟨hat, hwakes, hpc⟩
  · obtain ⟨v, hv⟩ := hold
    have hleaving : (s.pcs v).leaving := Or.inr hv
    have h0 : s.data.outstanding = 0 := by
      apply (hi.leaving v hleaving).resolve_left
      rw [hclear]
      exact Bool.false_ne_true
    exact (hs hclear ⟨v, hv⟩).step ht hm h0
  · refine quiet_of_wakes hm hwakes (by rw [hpc]; exact ⟨nofun, nofun⟩) ?_
    intro u hu hwaits
    have hown : s.data.queueLock = some w := hi.queueLock w (by rw [hat]; rfl)
    have hother : s.data.queueLock = some u := hi.queueLock u (by rw [hwaits]; rfl)
    rw [hown] at hother
    exact hu (Option.some.inj hother).symm

/-- All of it together. -/
structure HeardInv (x : Exits) (f : Hash → Except Error (List Hash)) (roots : List Hash)
    (s : Pool n (Shared n) Pc) : Prop where
  inv : Inv f roots s
  failure : FailureHeard s
  zero : x.notifies = false → ZeroHeard s
  exit : x.notifies = true → ExitHeard s

theorem HeardInv.start (x : Exits) (f : Hash → Except Error (List Hash)) (roots : List Hash) :
    HeardInv x f roots (Transfer.start n roots) where
  inv := Inv.start f roots
  failure h := by cases h
  zero _ _ := by
    refine Or.inr (Or.inr fun v => ?_)
    constructor <;> intro h <;> cases h
  exit _ _ h := by
    obtain ⟨v, h | ⟨_, h⟩⟩ := h <;> cases h

theorem HeardInv.step (hs : HeardInv x f roots s) (h : Pool.Steps (turn x f) Pc.wake s w s')
    (hheard : Heard x s w) : HeardInv x f roots s' where
  inv := hs.inv.step h
  failure := hs.failure.step hs.inv h hheard
  zero hx := (hs.zero hx).step hs.inv h hx hheard
  exit hx := (hs.exit hx).step hs.inv h hx

/-- An item is dropped only where a failed call's is not counted off. -/
theorem lost_step (h : Pool.Steps (turn x f) Pc.wake s w s') (hcounted : CountedOff x s w)
    (hs : Pool.total Pc.lost s = 0) : Pool.total Pc.lost s' = 0 := by
  obtain ⟨t, ht, hm⟩ := Pool.step_cases h
  have hmoved := Pool.total_step Pc.lost_wake hm
  have hnone : t.pc.lost = 0 := by
    unfold CountedOff at hcounted
    generalize s.pcs w = p at ht hcounted
    cases p
    all_goals simp only [turn, goto, notifyAll] at ht
    all_goals grind [Pc.lost, afterItem]
  omega

end Step

/-! ## Runs -/

/-- An action that meets a condition on the state before it. -/
def Loop.StepIf (loop : Loop) (cond : Pool n (Shared n) Pc → Fin n → Prop)
    (s : Pool n (Shared n) Pc) (w : Fin n) (s' : Pool n (Shared n) Pc) : Prop :=
  loop.Step s w s' ∧ cond s w

section Runs

variable {loop : Loop} {s : Pool n (Shared n) Pc} {es : List (Fin n)}

theorem Inv.of_stepIf {cond : Pool n (Shared n) Pc → Fin n → Prop}
    (hrun : Run (loop.StepIf cond) (Transfer.start n roots) es s) : Inv loop.nodeFn roots s :=
  Inv.of_run (hrun.mono fun _ _ _ hab => hab.1)

/-- Where the notifications are heard, a worker parked alone would have been woken. -/
theorem not_stranded (hn : 2 ≤ n)
    (hrun : Run (loop.StepIf (Heard loop.exits)) (start n roots) es s) : ¬ Stranded s := by
  obtain ⟨hi, hfail, hzero, hexit⟩ : HeardInv loop.exits loop.nodeFn roots s :=
    hrun.invariant (HeardInv.start _ _ _) fun _ _ _ _ hab hs => hs.step hab.1 hab.2
  rintro ⟨v, hparked, hgone⟩
  obtain ⟨u, hu⟩ : ∃ u : Fin n, u ≠ v := by
    have htwo : Nontrivial (Fin n) := Fin.nontrivial_iff_two_le.mpr hn
    exact exists_ne v
  -- whoever is not the parked worker has returned, so nobody is at a place of its own
  have hnowhere : ∀ q, q ≠ .parked → (∀ counted, q ≠ .returned counted) → ∀ v', s.pcs v' ≠ q := by
    intro q hq hr v' hat
    by_cases hv : v' = v
    · subst hv
      exact hq (hat.symm.trans hparked)
    · obtain ⟨counted, hret⟩ := hgone v' hv
      exact hr counted (hat.symm.trans hret)
  have hleft : (s.pcs u).leaving := Or.inr (Or.inr (hgone u hu))
  by_cases hf : s.data.failed = true
  · rcases hfail hf with ⟨v', hat⟩ | hnone
    · exact hnowhere _ (by simp) (by simp) v' hat
    · exact (hnone v).1 hparked
  · have hclear : s.data.failed = false := by simpa using hf
    cases hx : loop.exits.notifies with
    | true => exact (hexit hx hclear ⟨u, Or.inr (hgone u hu)⟩ v).1 hparked
    | false =>
        rcases hzero hx ((hi.leaving u hleft).resolve_left hf) with h | ⟨v', last, hat⟩ | hquiet
        · exact hf h
        · exact hnowhere _ (by simp) (by simp) v' hat
        · exact (hquiet v).1 hparked

/-- Where every item is counted off, the counter is exact. -/
theorem outstanding_eq
    (hrun : Run (loop.StepIf (CountedOff loop.exits)) (start n roots) es s) :
    s.data.outstanding = s.data.queue.length + Pool.total Pc.inFlight s := by
  have hlost : Pool.total Pc.lost s = 0 := by
    refine hrun.invariant (P := fun s => Pool.total Pc.lost s = 0) ?_ ?_
    · exact Pool.total_eq_zero.mpr fun _ => rfl
    · rintro a w b _ ⟨hab, hcounted⟩ hs
      exact lost_step hab hcounted hs
  have hcount := (Inv.of_stepIf hrun).count
  omega

end Runs

/-- **`walk_never_strands`** — over any roots, any graph and any interleaving of at least two
workers of either loop: no state of a run whose notifications are heard strands a worker; the
counter is exact in every state of a run whose items are counted off; and when all workers have
returned with no error recorded, every node reachable from the roots was processed exactly once. -/
theorem walk_never_strands (loop : Loop) (roots : List Hash) (n : Nat) (hn : 2 ≤ n)
    (es : List (Fin n)) (s : Pool n (Shared n) Pc) :
    (Run (loop.StepIf (Heard loop.exits)) (start n roots) es s → ¬ Stranded s) ∧
      (Run (loop.StepIf (CountedOff loop.exits)) (start n roots) es s →
        s.data.outstanding = s.data.queue.length + Pool.total Pc.inFlight s) ∧
      (Run loop.Step (start n roots) es s → Done s → s.data.error = none →
        ∀ hash, Reachable loop.nodeFn roots hash → s.data.calls.count hash = 1) := by
  refine ⟨not_stranded hn, outstanding_eq, ?_⟩
  intro hrun hdone hok hash hr
  exact (Inv.of_run hrun).once hdone (by omega) hok hr

/-! ## Runs of two workers -/

instance : DecidablePred Returned := fun pc =>
  inferInstanceAs (Decidable (∃ counted, pc = .returned counted))

instance : DecidablePred (Stranded (n := 2)) := fun s =>
  inferInstanceAs (Decidable (∃ v : Fin 2, s.pcs v = .parked ∧ ∀ u, u ≠ v → Returned (s.pcs u)))

instance : DecidablePred (Done (n := 2)) := fun s =>
  inferInstanceAs (Decidable (∀ v : Fin 2, Returned (s.pcs v)))

/-- Where a schedule leads from two workers over `roots`. -/
def Loop.after (loop : Loop) (roots : List Hash) (schedule : List (Fin 2)) :
    Option (Pool 2 (Shared 2) Pc) :=
  schedule.foldlM (Pool.step (turn loop.exits loop.nodeFn) Pc.wake) (start 2 roots)

theorem Loop.run_of_after {loop : Loop} {roots : List Hash} {schedule : List (Fin 2)}
    {P : Pool 2 (Shared 2) Pc → Prop} [DecidablePred P]
    (h : (loop.after roots schedule).any (fun s => decide (P s)) = true) :
    ∃ s, Run loop.Step (start 2 roots) schedule s ∧ P s :=
  exists_run_of_any h

instance (d : Shared n) : DecidablePred (Unheard d) := fun pc =>
  inferInstanceAs (Decidable (pc = .wait ∨ pc = .loadOutstanding ∨ pc = .popFront ∧ d.queue = []))

/-- The conditions of both parts. -/
def Careful (x : Exits) (s : Pool 2 (Shared 2) Pc) (w : Fin 2) : Prop :=
  Heard x s w ∧ CountedOff x s w

instance (x : Exits) (s : Pool 2 (Shared 2) Pc) (w : Fin 2) : Decidable (Careful x s w) :=
  inferInstanceAs (Decidable
    (((s.pcs w = .notifyFailed → ∀ v : Fin 2, ¬ Unheard s.data (s.pcs v)) ∧
      (x.notifies = false → ∀ last : Bool, s.pcs w = .notifyZero last →
        ∀ v : Fin 2, s.pcs v ≠ .wait)) ∧ (x.countsOff = false → s.pcs w ≠ .unlockError)))

/-- Two nodes, the second a child of the first. -/
def twoNodes : Loop :=
  .worker (fun bytes => bytes.map fun b => BitVec.ofNat 256 b.toNat)
    (fun hash => .ok (if hash = 1 then some [2] else none))

/-- Worker 0 works both nodes and leaves; worker 1 finds nothing to do. -/
def oneAfterTheOther : List (Fin 2) := List.replicate 30 0 ++ List.replicate 6 1

theorem two_nodes_once :
    ∃ s, Run twoNodes.Step (start 2 [1]) oneAfterTheOther s ∧ Done s ∧ ¬ Stranded s ∧
      s.data.outstanding = s.data.queue.length + Pool.total Pc.inFlight s ∧
      s.data.calls.count 2 = 1 := by
  have hchecked : ((oneAfterTheOther.foldlM (fun s w =>
      if Careful twoNodes.exits s w then
        Pool.step (turn twoNodes.exits twoNodes.nodeFn) Pc.wake s w
      else none) (start 2 [1])).any fun s => decide (Done s ∧ s.data.error = none)) = true := by
    decide
  obtain ⟨s, hguarded, hdone, hok⟩ := exists_run_of_any hchecked
  have hrun : Run (twoNodes.StepIf (Careful twoNodes.exits)) (start 2 [1]) oneAfterTheOther s := by
    refine hguarded.mono fun a w b hab => ?_
    split_ifs at hab with hc
    exact ⟨hab, hc⟩
  obtain ⟨hheard, hcounted, honce⟩ :=
    walk_never_strands twoNodes [1] 2 le_rfl oneAfterTheOther s
  have hstep : Run twoNodes.Step (start 2 [1]) oneAfterTheOther s :=
    hrun.mono fun _ _ _ hab => hab.1
  refine ⟨s, hstep, hdone, hheard (hrun.mono fun _ _ _ hab => ⟨hab.1, hab.2.1⟩),
    hcounted (hrun.mono fun _ _ _ hab => ⟨hab.1, hab.2.2⟩), honce hstep hdone hok 2 ?_⟩
  exact ⟨1, List.mem_singleton_self 1, .single ⟨[2], rfl, List.mem_singleton_self 2⟩⟩

/-- Every call fails. -/
def failingWorkers : Loop := .worker (fun _ => []) (fun _ => .error .conflict)

/-- Every call succeeds, on a graph without children. -/
def childless : Loop := .child (fun _ => .ok [])

/-- Worker 0 takes the only root; worker 1 finds the queue empty, one item outstanding, and is about
to park. -/
def aboutToPark : List (Fin 2) := List.replicate 8 0 ++ List.replicate 4 1

/-- Both loops miss a wakeup.  In the first run the failing worker announces its failure, counts its
item off and returns before the other parks; in the second, where nothing fails, the worker that
takes the count to zero announces it before the other parks, and leaves.  In the third the failed
call of the second loop leaves its item counted. -/
theorem wakeup_missed :
    (∃ s, Run failingWorkers.Step (start 2 [1]) (aboutToPark ++ List.replicate 7 0 ++ [1]) s ∧
        Stranded s) ∧
      (∃ s, Run childless.Step (start 2 [1]) (aboutToPark ++ [0, 0, 1] ++ List.replicate 5 0) s ∧
        s.data.error = none ∧ Stranded s) ∧
      ∃ s, Run (Loop.child fun _ => .error .conflict).Step (start 2 [1]) (List.replicate 13 0) s ∧
        s.data.outstanding ≠ s.data.queue.length + Pool.total Pc.inFlight s := by
  refine ⟨Loop.run_of_after (by decide), Loop.run_of_after (by decide), Loop.run_of_after (by decide)⟩

end Omemfs.Transfer
