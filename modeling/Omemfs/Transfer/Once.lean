/-
# Omemfs.Transfer.Once — what a parallel walk has in hand, and that it works each node once.

`Inv` is kept by every action of every worker, whatever `node_fn` does (`inv_run`).  Its two counts
say where things are: `outstanding` is the length of the queue and what the workers have in hand,
together with the item of each worker that returned from a failed call without counting it off
(`count`), and a visited hash has been processed or is the claim of one worker (`claims`).  Its
other parts say that nothing is forgotten: a root, or a child some call gave, is queued, in a
worker's hands or visited (`roots`, `answered`).

When every worker has returned and no error was recorded, the counter is zero, so nothing is queued
or in hand, and the visited hashes are those reachable from the roots, each processed once
(`Inv.once`).
-/
import Mathlib.Logic.Relation
import Omemfs.Transfer.Loop

namespace Omemfs.Transfer

open Lib

variable {n : Nat} {x : Exits} {f : Hash → Except Error (List Hash)} {roots : List Hash}

/-! ## More of what a place holds -/

namespace Pc

/-- Hashes that are on their way to the visited set or to the queue. -/
def items : Pc → List Hash
  | unlockPopped hash | lockVisited hash | insert hash => [hash]
  | fetchAdd children | lockQueue children | extend children => children
  | top | loadFailed | popFront | loadOutstanding | notifyDone | leave | wait | parked | woken => []
  | unlockVisited _ _ | process _ | unlockQueue | notifyWork | fetchSub _ | notifyZero _ => []
  | lockError _ | setError _ | storeFailed | notifyFailed | unlockError | returned _ => []

/-- The worker has put `hash` in the visited set and not yet called `node_fn` on it. -/
def claims (hash : Hash) (pc : Pc) : Nat :=
  if pc = .unlockVisited hash true ∨ pc = .process hash then 1 else 0

/-- The worker has an error that the slot may not have yet. -/
def erring (pc : Pc) : Prop := ∃ e, pc = .lockError e ∨ pc = .setError e

/-- The worker has set `failed` itself. -/
def hasFailed (pc : Pc) : Prop :=
  pc = .notifyFailed ∨ pc = .unlockError ∨ pc = .fetchSub true ∨ pc = .notifyZero true ∨
    pc = .returned false

/-- The worker is on its way out, or out. -/
def leaving (pc : Pc) : Prop := pc = .notifyDone ∨ pc = .leave ∨ Returned pc

@[simp]
theorem items_wake (pc : Pc) : pc.wake.items = pc.items := by
  cases pc <;> rfl

@[simp]
theorem claims_wake (hash : Hash) (pc : Pc) : pc.wake.claims hash = pc.claims hash := by
  unfold wake
  split_ifs with h
  · subst h
    rfl
  · rfl

theorem not_hasFailed_woken : ¬ Pc.woken.hasFailed := by
  rintro (h | h | h | h | h) <;> cases h

theorem not_leaving_woken : ¬ Pc.woken.leaving := by
  rintro (h | h | ⟨_, h⟩) <;> cases h

/-- Waking leads only to the place where the queue lock is taken again. -/
theorem of_wake {P : Pc → Prop} (hP : ¬ P .woken) {pc : Pc} (h : P pc.wake) : P pc := by
  unfold wake at h
  split_ifs at h
  · exact absurd h hP
  · exact h

theorem wake_of {P : Pc → Prop} (hP : ¬ P .parked) {pc : Pc} (h : P pc) : P pc.wake := by
  unfold wake
  split_ifs with hp
  · subst hp
    exact absurd h hP
  · exact h

end Pc

/-- A worker that goes on or returns after an item has nothing in hand. -/
theorem afterItem_holds (last : Bool) :
    (afterItem last).inFlight = 0 ∧ (afterItem last).lost = 0 ∧ (afterItem last).items = [] := by
  cases last <;> exact ⟨rfl, rfl, rfl⟩

theorem claims_afterItem (last : Bool) (hash : Hash) : (afterItem last).claims hash = 0 := by
  cases last <;> rfl

/-! ## What one action does -/

section Turn

variable {w : Fin n} {d : Shared n} {p : Pc} {t : Turn (Shared n) Pc}

/-- The counter moves with the queue and the worker's hands. -/
theorem turn_count (h : turn x f w d p = some t) (hp : p.inFlight ≤ d.outstanding) :
    t.data.outstanding + d.queue.length + p.inFlight + p.lost =
      d.outstanding + t.data.queue.length + t.pc.inFlight + t.pc.lost := by
  have hafter := afterItem_holds
  cases p
  all_goals simp only [turn, goto, notifyAll] at h
  all_goals grind [Pc.inFlight, Pc.lost]

/-- What was queued, in hand or visited still is. -/
theorem turn_known (h : turn x f w d p = some t) {c : Hash}
    (hc : c ∈ d.queue ∨ c ∈ p.items ∨ c ∈ d.visited) :
    c ∈ t.data.queue ∨ c ∈ t.pc.items ∨ c ∈ t.data.visited := by
  have hafter := afterItem_holds
  cases p
  all_goals simp only [turn, goto, notifyAll] at h
  all_goals grind [Pc.items]

/-- A hash is visited by being claimed, and processed out of a claim. -/
theorem turn_claims (h : turn x f w d p = some t) (hash : Hash) :
    t.data.visited.count hash + d.calls.count hash + p.claims hash =
      d.visited.count hash + t.data.calls.count hash + t.pc.claims hash := by
  have hafter := claims_afterItem
  cases p
  all_goals simp only [turn, goto, notifyAll] at h
  all_goals grind [Pc.claims]

theorem turn_nodup (h : turn x f w d p = some t) (hd : d.visited.Nodup) : t.data.visited.Nodup := by
  cases p
  all_goals simp only [turn, goto, notifyAll] at h
  all_goals grind

/-- A call of `node_fn` leaves its children in the worker's hands, or its error. -/
theorem turn_calls (h : turn x f w d p = some t) {hash : Hash} (hc : hash ∈ t.data.calls) :
    hash ∈ d.calls ∨
      (∀ children, f hash = .ok children → ∀ c ∈ children, c ∈ t.pc.items) ∧
        ∀ e, f hash = .error e → t.pc.erring := by
  cases p
  all_goals simp only [turn, goto, notifyAll] at h
  all_goals grind [Pc.items, Pc.erring]

/-- The slot keeps an error once it has one, and has one before `failed` is set. -/
theorem turn_error (h : turn x f w d p = some t) :
    (d.error ≠ none → t.data.error ≠ none) ∧
      (p.erring → t.data.error ≠ none ∨ t.pc.erring) ∧
      (t.pc = .storeFailed → t.data.error ≠ none) ∧
      (t.data.failed = true → d.failed = true ∨ p = .storeFailed) := by
  cases p
  all_goals simp only [turn, goto, notifyAll] at h
  all_goals grind [Pc.erring, afterItem]

/-- `failed` is set before a worker leaves a failed call, and stays set. -/
theorem turn_failed (h : turn x f w d p = some t) :
    (d.failed = true → t.data.failed = true) ∧
      ((p.hasFailed → d.failed = true) → t.pc.hasFailed → t.data.failed = true) := by
  cases p
  all_goals simp only [turn, goto, notifyAll] at h
  all_goals grind [Pc.hasFailed, afterItem]

/-- A worker leaves when `failed` is set or when nothing is outstanding. -/
theorem turn_leaving (h : turn x f w d p = some t) (hp : p.leaving → d.failed = true ∨ d.outstanding = 0)
    (hf : p.hasFailed → d.failed = true) (ht : t.pc.leaving) :
    t.data.failed = true ∨ t.data.outstanding = 0 := by
  cases p
  all_goals simp only [turn, goto, notifyAll] at h
  all_goals grind [Pc.hasFailed, Pc.leaving, afterItem, Returned]

/-- The queue lock is the worker's before and after while it holds it, and moves only from it or to
it. -/
theorem turn_queueLock (h : turn x f w d p = some t) (hp : p.holdsQueue = true → d.queueLock = some w) :
    (t.pc.holdsQueue = true → t.data.queueLock = some w) ∧
      ∀ v, v ≠ w → d.queueLock = some v → t.data.queueLock = some v := by
  cases p
  all_goals simp only [turn, goto, notifyAll] at h
  all_goals grind [Pc.holdsQueue, afterItem]

/-- Only the holder of the queue lock changes the queue. -/
theorem turn_queue (h : turn x f w d p = some t) (hp : p.holdsQueue = false) :
    t.data.queue = d.queue := by
  cases p
  all_goals simp only [turn, goto, notifyAll] at h
  all_goals grind [Pc.holdsQueue]

end Turn

/-! ## What every reachable state satisfies -/

/-- `c` is queued, in a worker's hands, or visited. -/
def Known (s : Pool n (Shared n) Pc) (c : Hash) : Prop :=
  c ∈ s.data.queue ∨ (∃ v, c ∈ (s.pcs v).items) ∨ c ∈ s.data.visited

/-- What a call of `node_fn` gave is known, or its error is on its way to the slot. -/
def Answered (f : Hash → Except Error (List Hash)) (s : Pool n (Shared n) Pc) (hash : Hash) : Prop :=
  (∀ children, f hash = .ok children → ∀ c ∈ children, Known s c) ∧
    ∀ e, f hash = .error e → s.data.error ≠ none ∨ ∃ v, (s.pcs v).erring

structure Inv (f : Hash → Except Error (List Hash)) (roots : List Hash)
    (s : Pool n (Shared n) Pc) : Prop where
  queueLock : ∀ v, (s.pcs v).holdsQueue = true → s.data.queueLock = some v
  count : s.data.outstanding =
    s.data.queue.length + Pool.total Pc.inFlight s + Pool.total Pc.lost s
  claims : ∀ hash, s.data.visited.count hash =
    s.data.calls.count hash + Pool.total (Pc.claims hash) s
  nodup : s.data.visited.Nodup
  roots : ∀ root ∈ roots, Known s root
  answered : ∀ hash ∈ s.data.calls, Answered f s hash
  storing : ∀ v, s.pcs v = .storeFailed → s.data.error ≠ none
  errored : s.data.failed = true → s.data.error ≠ none
  hasFailed : ∀ v, (s.pcs v).hasFailed → s.data.failed = true
  leaving : ∀ v, (s.pcs v).leaving → s.data.failed = true ∨ s.data.outstanding = 0

namespace Inv

theorem start (f : Hash → Except Error (List Hash)) (roots : List Hash) :
    Inv f roots (start n roots) where
  queueLock v h := by cases h
  count := by
    have hzero : Pool.total Pc.inFlight (Transfer.start n roots) = 0 :=
      Pool.total_eq_zero.mpr fun _ => rfl
    have hlost : Pool.total Pc.lost (Transfer.start n roots) = 0 :=
      Pool.total_eq_zero.mpr fun _ => rfl
    rw [hzero, hlost]
    rfl
  claims hash := by
    have hzero : Pool.total (Pc.claims hash) (Transfer.start n roots) = 0 :=
      Pool.total_eq_zero.mpr fun _ => rfl
    rw [hzero]
    rfl
  nodup := List.nodup_nil
  roots _ h := Or.inl h
  answered _ h := by cases h
  storing v h := by cases h
  errored h := by cases h
  hasFailed v h := by rcases h with h | h | h | h | h <;> cases h
  leaving v h := by rcases h with h | h | ⟨_, h⟩ <;> cases h

section Step

variable {w : Fin n} {s s' : Pool n (Shared n) Pc} {t : Turn (Shared n) Pc}

/-- A place property that waking neither gives nor takes, at another worker than the one acting. -/
theorem of_other {P : Pc → Prop} (hP : ¬ P .woken) (hm : Pool.Moved Pc.wake s w t s') {v : Fin n}
    (hv : v ≠ w) (h : P (s'.pcs v)) : P (s.pcs v) := by
  rcases hm.other hv with he | he
  · rwa [he] at h
  · rw [he] at h
    exact Pc.of_wake hP h

theorem known (ht : turn x f w s.data (s.pcs w) = some t) (hm : Pool.Moved Pc.wake s w t s')
    {c : Hash} (hc : Known s c) : Known s' c := by
  have hown : c ∈ s.data.queue ∨ c ∈ (s.pcs w).items ∨ c ∈ s.data.visited → Known s' c := by
    intro h
    rw [Known, hm.data]
    rcases turn_known ht h with h | h | h
    · exact Or.inl h
    · exact Or.inr (Or.inl ⟨w, by rwa [hm.self]⟩)
    · exact Or.inr (Or.inr h)
  rcases hc with h | ⟨v, h⟩ | h
  · exact hown (Or.inl h)
  · by_cases hv : v = w
    · subst hv
      exact hown (Or.inr (Or.inl h))
    · refine Or.inr (Or.inl ⟨v, ?_⟩)
      rwa [hm.other_eq Pc.items_wake hv]
  · exact hown (Or.inr (Or.inr h))

theorem count_le (hi : Inv f roots s) (v : Fin n) : (s.pcs v).inFlight ≤ s.data.outstanding := by
  have hle := Pool.le_total Pc.inFlight s v
  have hcount := hi.count
  omega

/-- With nothing outstanding, nothing more is counted in. -/
theorem outstanding_zero (hi : Inv f roots s) (ht : turn x f w s.data (s.pcs w) = some t)
    (h0 : s.data.outstanding = 0) : t.data.outstanding = 0 := by
  have hnone : (s.pcs w).inFlight = 0 := by
    have hle := hi.count_le w
    omega
  generalize s.pcs w = p at ht hnone
  cases p
  all_goals simp only [turn, goto, notifyAll] at ht
  all_goals grind [Pc.inFlight]

theorem answered_step (hi : Inv f roots s) (ht : turn x f w s.data (s.pcs w) = some t)
    (hm : Pool.Moved Pc.wake s w t s') {hash : Hash} (hc : hash ∈ s'.data.calls) :
    Answered f s' hash := by
  obtain ⟨hkeeps, herring, _, _⟩ := turn_error ht
  rw [hm.data] at hc
  rcases turn_calls ht hc with hold | ⟨hchildren, herror⟩
  · obtain ⟨hok, herr⟩ := hi.answered hash hold
    refine ⟨fun children hf c hcc => known ht hm (hok children hf c hcc), ?_⟩
    intro e hf
    rw [hm.data]
    rcases herr e hf with hslot | ⟨v, hv⟩
    · exact Or.inl (hkeeps hslot)
    · by_cases hvw : v = w
      · subst hvw
        rcases herring hv with h | h
        · exact Or.inl h
        · exact Or.inr ⟨v, by rwa [hm.self]⟩
      · refine Or.inr ⟨v, ?_⟩
        have hparked : ¬ Pc.parked.erring := by
          rintro ⟨_, h | h⟩ <;> cases h
        rcases hm.other hvw with he | he
        · rwa [he]
        · rw [he]
          exact Pc.wake_of hparked hv
  · refine ⟨?_, ?_⟩
    · intro children hf c hcc
      exact Or.inr (Or.inl ⟨w, by rw [hm.self]; exact hchildren children hf c hcc⟩)
    · intro e hf
      exact Or.inr ⟨w, by rw [hm.self]; exact herror e hf⟩

/-- **`Inv.step`** — every action of every worker keeps the invariant. -/
theorem step (hi : Inv f roots s) (h : Pool.Steps (turn x f) Pc.wake s w s') : Inv f roots s' := by
  obtain ⟨t, ht, hm⟩ := Pool.step_cases h
  obtain ⟨hkeeps, _, hstoring, hfailed⟩ := turn_error ht
  obtain ⟨hstays, hhas⟩ := turn_failed ht
  obtain ⟨hlock, hlocks⟩ := turn_queueLock ht (hi.queueLock w)
  have hover : s.data.failed = true ∨ s.data.outstanding = 0 →
      t.data.failed = true ∨ t.data.outstanding = 0 :=
    Or.imp hstays (hi.outstanding_zero ht)
  constructor
  case queueLock =>
    refine Pool.step_all (P := fun v d pc => pc.holdsQueue = true → d.queueLock = some v) hm hlock ?_
    intro v hv hheld
    rw [hm.other_eq Pc.holdsQueue_wake hv] at hheld
    exact hlocks v hv (hi.queueLock v hheld)
  case count =>
    have hcount := turn_count ht (hi.count_le w)
    have hin := Pool.total_step Pc.inFlight_wake hm
    have hlost := Pool.total_step Pc.lost_wake hm
    have hold := hi.count
    rw [hm.data]
    omega
  case claims =>
    intro hash
    have hcount := turn_claims ht hash
    have hin := Pool.total_step (Pc.claims_wake hash) hm
    have hold := hi.claims hash
    rw [hm.data]
    omega
  case nodup =>
    rw [hm.data]
    exact turn_nodup ht hi.nodup
  case roots => exact fun root hr => known ht hm (hi.roots root hr)
  case answered => exact fun hash hc => hi.answered_step ht hm hc
  case storing =>
    refine Pool.step_all (P := fun _ d pc => pc = .storeFailed → d.error ≠ none) hm hstoring ?_
    intro v hv hat
    exact hkeeps (hi.storing v (of_other (P := fun pc => pc = .storeFailed) nofun hm hv hat))
  case errored =>
    rw [hm.data]
    intro hf
    rcases hfailed hf with h | h
    · exact hkeeps (hi.errored h)
    · exact hkeeps (hi.storing w h)
  case hasFailed =>
    refine Pool.step_all (P := fun _ d pc => pc.hasFailed → d.failed = true) hm
      (hhas (hi.hasFailed w)) ?_
    intro v hv hat
    exact hstays (hi.hasFailed v (of_other Pc.not_hasFailed_woken hm hv hat))
  case leaving =>
    refine Pool.step_all (P := fun _ d pc => pc.leaving → d.failed = true ∨ d.outstanding = 0) hm
      (turn_leaving ht (hi.leaving w) (hi.hasFailed w)) ?_
    intro v hv hat
    exact hover (hi.leaving v (of_other Pc.not_leaving_woken hm hv hat))

end Step

/-- **`Inv.of_run`** — every state a walk reaches satisfies the invariant. -/
theorem of_run {s : Pool n (Shared n) Pc} {es : List (Fin n)}
    (hrun : Run (Pool.Steps (turn x f) Pc.wake) (Transfer.start n roots) es s) : Inv f roots s :=
  hrun.invariant (start f roots) fun _ _ _ _ hab hi => hi.step hab

end Inv

/-! ## A walk that ended without an error -/

/-- Reachable from a root through the children that calls of `node_fn` give. -/
def Reachable (f : Hash → Except Error (List Hash)) (roots : List Hash) (hash : Hash) : Prop :=
  ∃ root ∈ roots, Relation.ReflTransGen
    (fun parent child => ∃ children, f parent = .ok children ∧ child ∈ children) root hash

/-- Every worker has left the loop. -/
def Done (s : Pool n (Shared n) Pc) : Prop := ∀ v, Returned (s.pcs v)

namespace Inv

variable {s : Pool n (Shared n) Pc}

/-- With nothing outstanding, the queue is empty and no worker has anything in hand. -/
theorem nothing_left (hi : Inv f roots s) (h0 : s.data.outstanding = 0) :
    s.data.queue = [] ∧ ∀ v, (s.pcs v).inFlight = 0 := by
  have hcount := hi.count
  refine ⟨List.length_eq_zero_iff.mp (by omega), Pool.total_eq_zero.mp (by omega)⟩

theorem outstanding_of_done (hi : Inv f roots s) (hdone : Done s) (hn : 0 < n)
    (hok : s.data.error = none) : s.data.outstanding = 0 := by
  have hleaving : (s.pcs ⟨0, hn⟩).leaving := Or.inr (Or.inr (hdone ⟨0, hn⟩))
  apply (hi.leaving _ hleaving).resolve_left
  intro hf
  exact hi.errored hf hok

/-- When all workers have returned, what is known has been visited. -/
theorem visited_of_known (hi : Inv f roots s) (hdone : Done s) (h0 : s.data.outstanding = 0)
    {c : Hash} (hc : Known s c) : c ∈ s.data.visited := by
  rcases hc with h | ⟨v, h⟩ | h
  · rw [(hi.nothing_left h0).1] at h
    cases h
  · obtain ⟨_, hv⟩ := hdone v
    rw [hv] at h
    cases h
  · exact h

/-- When all workers have returned, what was visited has been processed, once. -/
theorem count_calls (hi : Inv f roots s) (hdone : Done s) {c : Hash} (hc : c ∈ s.data.visited) :
    s.data.calls.count c = 1 := by
  have hzero : Pool.total (Pc.claims c) s = 0 := by
    apply Pool.total_eq_zero.mpr
    intro v
    obtain ⟨_, hv⟩ := hdone v
    rw [hv]
    rfl
  have hclaims := hi.claims c
  have hone : s.data.visited.count c = 1 := List.count_eq_one_of_mem hi.nodup hc
  omega

/-- **`Inv.once`** — when every worker has returned and no error was recorded, each node reachable
from the roots has been processed exactly once. -/
theorem once (hi : Inv f roots s) (hdone : Done s) (hn : 0 < n) (hok : s.data.error = none)
    {hash : Hash} (hr : Reachable f roots hash) : s.data.calls.count hash = 1 := by
  have h0 := hi.outstanding_of_done hdone hn hok
  obtain ⟨root, hroot, hpath⟩ := hr
  have hvisited : hash ∈ s.data.visited := by
    induction hpath with
    | refl => exact hi.visited_of_known hdone h0 (hi.roots root hroot)
    | @tail parent child _ hchild ih =>
        obtain ⟨children, hf, hc⟩ := hchild
        -- a visited parent was processed, and its call gave these children
        have hcall : parent ∈ s.data.calls := by
          apply List.count_pos_iff.mp
          rw [hi.count_calls hdone ih]
          exact Nat.one_pos
        exact hi.visited_of_known hdone h0 ((hi.answered _ hcall).1 children hf _ hc)
  exact hi.count_calls hdone hvisited

end Inv

end Omemfs.Transfer
