/-
# Omemfs.Transfer.Budget — the bytes that the workers of a transfer hold.

`ByteBudget` counts the bytes that are free behind a mutex with a condition variable.  A worker acquires
before it buffers an object, waits while too few are free, and gives its bytes back when the guard drops;
it never holds two guards.  `Place` lists where a worker is between two atomic actions: the lock is taken
only when it is free, and waiting gives it back and parks in one action.  A worker wakes when it is notified,
not by itself.

No run of any number of workers holds more than the budget (`Inv.count`), each ends, and none before every
worker has had what it asked for (`budget_never_stuck`).
-/
import Omemfs.Lib.Pool

namespace Omemfs.Transfer.Budget

open Lib

variable {n : Nat}

/-! ## The budget -/

structure ByteBudget (n : Nat) where
  available : Nat
  lock : Option (Fin n)

/-- Where a worker is, with the bytes that it wants or holds and the sizes of the objects to come. -/
inductive Place where
  | idle (todo : List Nat)
  | check (want : Nat) (todo : List Nat)
  | wait (want : Nat) (todo : List Nat)
  | parked (want : Nat) (todo : List Nat)
  | woken (want : Nat) (todo : List Nat)
  | unlockTaken (want : Nat) (todo : List Nat)
  | holding (want : Nat) (todo : List Nat)
  | give (want : Nat) (todo : List Nat)
  | notify (todo : List Nat)
  | unlockGiven (todo : List Nat)
  deriving DecidableEq

namespace Place

/-- `notify_all`: the parked workers have to take the lock again. -/
def wake : Place → Place
  | parked want todo => woken want todo
  | p => p

def holdsLock : Place → Bool
  | check _ _ | wait _ _ | unlockTaken _ _ | give _ _ | notify _ | unlockGiven _ => true
  | idle _ | parked _ _ | woken _ _ | holding _ _ => false

/-- The bytes of the worker's guard. -/
def held : Place → Nat
  | unlockTaken want _ | holding want _ | give want _ => want
  | idle _ | check _ _ | wait _ _ | parked _ _ | woken _ _ | notify _ | unlockGiven _ => 0

/-- The bytes that are asked for. -/
def wanted : Place → Nat
  | check want _ | wait want _ | parked want _ | woken want _ => want
  | idle _ | unlockTaken _ _ | holding _ _ | give _ _ | notify _ | unlockGiven _ => 0

/-- The objects that are still to be acquired for, or whose bytes are still to be announced. -/
def left : Place → Nat
  | idle todo | unlockGiven todo => todo.length
  | check _ todo | wait _ todo | parked _ todo | woken _ todo => todo.length + 1
  | unlockTaken _ todo | holding _ todo | give _ todo | notify todo => todo.length + 1

/-- The actions that an object takes from here on, if nobody else announces anything. -/
def rank : Place → Nat
  | unlockGiven _ => 9
  | idle _ => 8
  | woken _ _ => 7
  | check _ _ => 6
  | wait _ _ => 5
  | parked _ _ => 4
  | unlockTaken _ _ => 3
  | holding _ _ => 2
  | give _ _ => 1
  | notify _ => 0

/-- An announcement may set every one of `n` workers back by three actions. -/
def work (n : Nat) (p : Place) : Nat := (3 * n + 10) * p.left + p.rank

theorem work_wake (n : Nat) (p : Place) : p.wake.work n ≤ p.work n + 3 := by
  cases p <;> simp [wake, work, left, rank]

@[simp]
theorem holdsLock_wake (p : Place) : p.wake.holdsLock = p.holdsLock := by
  cases p <;> rfl

@[simp]
theorem held_wake (p : Place) : p.wake.held = p.held := by
  cases p <;> rfl

@[simp]
theorem wanted_wake (p : Place) : p.wake.wanted = p.wanted := by
  cases p <;> rfl

end Place

/-- The next action of worker `w` at a place, where it is not blocked. -/
def turn (capacity : Nat) (w : Fin n) (d : ByteBudget n) : Place → Option (Turn (ByteBudget n) Place)
  -- `acquire`; a request over the whole budget is cut to it
  | .idle [] => none
  | .idle (amount :: todo) =>
      if d.lock = none then some ⟨{ d with lock := some w }, .check (min amount capacity) todo, false⟩
      else none
  | .check want todo =>
      if d.available < want then some ⟨d, .wait want todo, false⟩
      else some ⟨{ d with available := d.available - want }, .unlockTaken want todo, false⟩
  | .wait want todo => some ⟨{ d with lock := none }, .parked want todo, false⟩
  | .parked _ _ => none
  | .woken want todo =>
      if d.lock = none then some ⟨{ d with lock := some w }, .check want todo, false⟩ else none
  | .unlockTaken want todo => some ⟨{ d with lock := none }, .holding want todo, false⟩
  -- `drop` of the guard
  | .holding want todo =>
      if d.lock = none then some ⟨{ d with lock := some w }, .give want todo, false⟩ else none
  | .give want todo => some ⟨{ d with available := d.available + want }, .notify todo, false⟩
  | .notify todo => some ⟨d, .unlockGiven todo, true⟩
  | .unlockGiven todo => some ⟨{ d with lock := none }, .idle todo, false⟩

/-- One action of a worker. -/
def Step (capacity : Nat) : Pool n (ByteBudget n) Place → Fin n → Pool n (ByteBudget n) Place → Prop :=
  Pool.Steps (turn capacity) Place.wake

/-- `ByteBudget::new` makes an empty budget one byte. -/
def newCapacity (capacity : Nat) : Nat := max capacity 1

/-- A new budget, and workers that have their objects still to come. -/
def start (capacity : Nat) (todo : Fin n → List Nat) : Pool n (ByteBudget n) Place :=
  ⟨⟨capacity, none⟩, fun v => .idle (todo v)⟩

/-! ## What one action does -/

section Turns

variable {capacity : Nat} {w : Fin n} {d : ByteBudget n} {p : Place} {t : Turn (ByteBudget n) Place}

/-- The lock is taken when it is free, kept, or given back. -/
theorem turn_lock (h : turn capacity w d p = some t) :
    (t.pc.holdsLock = p.holdsLock ∧ t.data.lock = d.lock) ∨
      (p.holdsLock = false ∧ d.lock = none ∧ t.pc.holdsLock = true ∧ t.data.lock = some w) ∨
      (p.holdsLock = true ∧ t.pc.holdsLock = false ∧ t.data.lock = none) := by
  cases p
  case idle todo => cases todo <;> grind [turn, Place.holdsLock]
  all_goals grind [turn, Place.holdsLock]

/-- No byte is made or lost. -/
theorem turn_count (h : turn capacity w d p = some t) :
    t.data.available + t.pc.held = d.available + p.held := by
  cases p
  case idle todo => cases todo <;> grind [turn, Place.held]
  all_goals grind [turn, Place.held]

/-- Only the lock's holder changes what is free. -/
theorem turn_available (h : turn capacity w d p = some t) (hp : p.holdsLock = false) :
    t.data.available = d.available := by
  cases p
  case idle todo => cases todo <;> grind [turn, Place.holdsLock]
  all_goals grind [turn, Place.holdsLock]

theorem turn_wanted (h : turn capacity w d p = some t) (hp : p.wanted ≤ capacity) :
    t.pc.wanted ≤ capacity := by
  cases p
  case idle todo => cases todo <;> grind [turn, Place.wanted]
  all_goals grind [turn, Place.wanted]

/-- A worker waits after it has found too few bytes free, and parks after that. -/
theorem turn_waits (h : turn capacity w d p = some t) {want : Nat} {todo : List Nat} :
    (t.pc = .wait want todo → t.data.available < want) ∧
      (t.pc = .parked want todo → p = .wait want todo ∧ t.data.available = d.available) := by
  cases p
  case idle todo => cases todo <;> grind [turn]
  all_goals grind [turn]

/-- Bytes that are given back are announced next. -/
theorem turn_heard (h : turn capacity w d p = some t) : t.wakes = true ∨
    (∀ todo, p ≠ .notify todo) ∧
      (t.data.available ≤ d.available ∨ ∃ todo, t.pc = .notify todo) := by
  cases p
  case idle todo => cases todo <;> grind [turn]
  all_goals grind [turn]

/-- Each action leaves less to do, an announcement so much less that it pays for those it wakes. -/
theorem turn_work (h : turn capacity w d p = some t) :
    t.pc.work n + (if t.wakes then 3 * n else 0) < p.work n := by
  cases p
  case idle todo => cases todo <;> grind [turn, Place.work, Place.left, Place.rank]
  case notify todo =>
    cases h
    simp only [Place.work, Place.left, Place.rank, if_true, Nat.mul_succ]
    omega
  all_goals grind [turn, Place.work, Place.left, Place.rank]

/-- Who cannot go on has nothing left to do, is parked, or waits for the lock. -/
theorem turn_eq_none (h : turn capacity w d p = none) :
    p = .idle [] ∨ (∃ want todo, p = .parked want todo) ∨ (d.lock ≠ none ∧ p.holdsLock = false) := by
  cases p
  case idle todo => cases todo <;> grind [turn, Place.holdsLock]
  all_goals grind [turn, Place.holdsLock]

end Turns

/-! ## What every reachable state satisfies -/

structure Inv (capacity : Nat) (s : Pool n (ByteBudget n) Place) : Prop where
  lock : ∀ v, (s.pcs v).holdsLock = true ↔ s.data.lock = some v
  /-- What the guards hold and what is free is the whole budget. -/
  count : s.data.available + Pool.total Place.held s = capacity
  fits : ∀ v, (s.pcs v).wanted ≤ capacity
  waits : ∀ v want todo, s.pcs v = .wait want todo → s.data.available < want
  /-- Nobody is parked who could go on, but for a notification that is about to come. -/
  heard : ∀ v want todo, s.pcs v = .parked want todo →
    s.data.available < want ∨ ∃ u todo', s.pcs u = .notify todo'

namespace Inv

variable {capacity : Nat} {w : Fin n} {s s' : Pool n (ByteBudget n) Place}

theorem start (capacity : Nat) (todo : Fin n → List Nat) : Inv capacity (Budget.start capacity todo) where
  lock v := by simp [Budget.start, Place.holdsLock]
  count := by
    have hzero : Pool.total Place.held (Budget.start capacity todo) = 0 :=
      Pool.total_eq_zero.mpr fun _ => rfl
    rw [hzero]
    rfl
  fits v := Nat.zero_le _
  waits v want todo' h := by cases h
  heard v want todo' h := by cases h

theorem step (hi : Inv capacity s) (h : Step capacity s w s') : Inv capacity s' := by
  obtain ⟨t, ht, hm⟩ := Pool.step_cases h
  have hfree : (s.pcs w).holdsLock = true ∨ t.data.available = s.data.available := by
    cases hw : (s.pcs w).holdsLock with
    | true => exact .inl rfl
    | false => exact .inr (turn_available ht hw)
  constructor
  case lock =>
    intro v
    rw [hm.data]
    by_cases hv : v = w
    · subst hv
      rw [hm.self]
      rcases turn_lock ht with ⟨hsame, hlock⟩ | ⟨-, -, hnew, hlock⟩ | ⟨-, hnew, hlock⟩
      · rw [hsame, hlock]
        exact hi.lock v
      · simp [hnew, hlock]
      · simp [hnew, hlock]
    · rw [hm.other_eq Place.holdsLock_wake hv, hi.lock v]
      rcases turn_lock ht with ⟨-, hlock⟩ | ⟨-, hnone, -, hlock⟩ | ⟨hold, -, hlock⟩
      · rw [hlock]
      · simp [hnone, hlock, Ne.symm hv]
      · simp [(hi.lock w).mp hold, hlock, Ne.symm hv]
  case count =>
    have hstep := Pool.total_step Place.held_wake hm
    have hturn := turn_count ht
    have hcount := hi.count
    rw [hm.data]
    omega
  case fits =>
    intro v
    by_cases hv : v = w
    · subst hv
      rw [hm.self]
      exact turn_wanted ht (hi.fits v)
    · rw [hm.other_eq Place.wanted_wake hv]
      exact hi.fits v
  case waits =>
    intro v want todo hat
    rw [hm.data]
    by_cases hv : v = w
    · subst hv
      exact (turn_waits ht).1 (hm.self.symm.trans hat)
    · -- the worker that waits has the lock, so the one that acts does not
      have hold : s.pcs v = .wait want todo := by
        rcases hm.other hv with he | he
        · exact he.symm.trans hat
        · rw [he] at hat
          cases hpv : s.pcs v <;> rw [hpv] at hat <;> cases hat
          rfl
      have hlock : s.data.lock = some v := (hi.lock v).mp (by simp [hold, Place.holdsLock])
      have hkeep : t.data.available = s.data.available := by
        refine hfree.resolve_left fun hw => hv ?_
        have hlock' := (hi.lock w).mp hw
        rw [hlock] at hlock'
        exact Option.some.inj hlock'
      rw [hkeep]
      exact hi.waits v want todo hold
  case heard =>
    intro v want todo hat
    rw [hm.data]
    by_cases hv : v = w
    · subst hv
      obtain ⟨hwait, hkeep⟩ := (turn_waits ht).2 (hm.self.symm.trans hat)
      rw [hkeep]
      exact .inl (hi.waits v want todo hwait)
    · -- had there been a notification, the worker would be parked no longer
      have hquiet : t.wakes = false ∧ s.pcs v = .parked want todo := by
        have hother := hm.others v hv
        rw [hat] at hother
        cases hw : t.wakes with
        | true =>
            rw [hw, if_pos rfl] at hother
            cases hpv : s.pcs v <;> rw [hpv] at hother <;> cases hother
        | false =>
            rw [hw, if_neg Bool.false_ne_true] at hother
            exact ⟨rfl, hother.symm⟩
      obtain ⟨hnowake, hparked⟩ := hquiet
      rcases turn_heard ht with hwakes | ⟨hnot, hless⟩
      · rw [hnowake] at hwakes
        cases hwakes
      · rcases hless with hle | ⟨todo', hnotify⟩
        · rcases hi.heard v want todo hparked with hfew | ⟨u, todo', hu⟩
          · exact .inl (hle.trans_lt hfew)
          · have huw : u ≠ w := by
              rintro rfl
              exact hnot todo' hu
            have hu' := hm.others u huw
            rw [hnowake, if_neg Bool.false_ne_true] at hu'
            exact .inr ⟨u, todo', hu'.trans hu⟩
        · exact .inr ⟨w, todo', hm.self.trans hnotify⟩

theorem of_run {es : List (Fin n)} {todo : Fin n → List Nat}
    (hrun : Run (Step capacity) (Budget.start capacity todo) es s) : Inv capacity s :=
  hrun.invariant (start capacity todo) fun _ _ _ _ hab hs => hs.step hab

end Inv

/-! ## Nobody waits for ever -/

section Stuck

variable {capacity : Nat} {s : Pool n (ByteBudget n) Place}

/-- Whoever has the lock can go on. -/
theorem unlocked_of_stuck (hi : Inv capacity s)
    (hstuck : ∀ v, turn capacity v s.data (s.pcs v) = none) : s.data.lock = none := by
  rcases hlock : s.data.lock with _ | v
  · rfl
  · have hold := (hi.lock v).mpr hlock
    rcases turn_eq_none (hstuck v) with h | ⟨want, todo, h⟩ | ⟨-, h⟩
    · rw [h] at hold
      cases hold
    · rw [h] at hold
      cases hold
    · rw [h] at hold
      cases hold

/-- **`done_of_stuck`** — where no worker can go on, all have done what they had to do, and the whole budget
is free. -/
theorem done_of_stuck (hi : Inv capacity s)
    (hstuck : ∀ v, turn capacity v s.data (s.pcs v) = none) :
    (∀ v, s.pcs v = .idle []) ∧ s.data.available = capacity := by
  have hlock := unlocked_of_stuck hi hstuck
  have hplace : ∀ v, s.pcs v = .idle [] ∨ ∃ want todo, s.pcs v = .parked want todo := by
    intro v
    rcases turn_eq_none (hstuck v) with h | h | ⟨h, -⟩
    · exact .inl h
    · exact .inr h
    · exact absurd hlock h
  -- nobody holds a guard
  have hheld : Pool.total Place.held s = 0 := by
    rw [Pool.total_eq_zero]
    intro v
    rcases hplace v with h | ⟨want, todo, h⟩ <;> rw [h] <;> rfl
  have hall : s.data.available = capacity := by
    have hcount := hi.count
    omega
  refine ⟨fun v => ?_, hall⟩
  rcases hplace v with h | ⟨want, todo, h⟩
  · exact h
  · -- it wants no more than the whole budget, and that is free
    have hfits : want ≤ capacity := by
      have hv := hi.fits v
      rwa [h] at hv
    rcases hi.heard v want todo h with hfew | ⟨u, todo', hu⟩
    · omega
    · rcases hplace u with hu' | ⟨_, _, hu'⟩ <;> rw [hu] at hu' <;> cases hu'

end Stuck

/-! ## No run goes on for ever -/

section Bounded

variable {capacity : Nat} {w : Fin n} {s s' : Pool n (ByteBudget n) Place} {es : List (Fin n)}

theorem work_step (h : Step capacity s w s') :
    Pool.total (Place.work n) s' < Pool.total (Place.work n) s := by
  obtain ⟨t, ht, hm⟩ := Pool.step_cases h
  have hturn := turn_work ht
  cases hwakes : t.wakes with
  | true =>
      have hstep := Pool.total_step_le (Place.work_wake n) hm
      rw [hwakes, if_pos rfl] at hturn
      omega
  | false =>
      have hstep := Pool.total_step_quiet (Place.work n) hm hwakes
      rw [hwakes, if_neg Bool.false_ne_true] at hturn
      omega

theorem length_le_work (hrun : Run (Step capacity) s es s') :
    es.length + Pool.total (Place.work n) s' ≤ Pool.total (Place.work n) s := by
  induction hrun with
  | nil s => simp
  | cons hab _ ih =>
      have hless := work_step hab
      rw [List.length_cons]
      omega

end Bounded

/-- **`budget_never_stuck`** — over any interleaving of any number of workers: the guards never hold more
than the budget; as long as a worker has something left to do, some worker can go on, and when none can, all
that was taken has been given back; and this comes after a bounded number of actions. -/
theorem budget_never_stuck (capacity : Nat) (todo : Fin n → List Nat) {es : List (Fin n)}
    {s : Pool n (ByteBudget n) Place}
    (hrun : Run (Step (newCapacity capacity)) (start (newCapacity capacity) todo) es s) :
    Pool.total Place.held s + s.data.available = newCapacity capacity ∧
      ((∃ w s', Step (newCapacity capacity) s w s') ∨
        (∀ v, s.pcs v = .idle []) ∧ s.data.available = newCapacity capacity) ∧
      es.length ≤ ∑ v, ((3 * n + 10) * (todo v).length + 8) := by
  have hi := Inv.of_run hrun
  refine ⟨by rw [Nat.add_comm]; exact hi.count, ?_, ?_⟩
  · by_cases hstuck : ∀ v, turn (newCapacity capacity) v s.data (s.pcs v) = none
    · exact .inr (done_of_stuck hi hstuck)
    · rw [not_forall] at hstuck
      obtain ⟨w, hw⟩ := hstuck
      obtain ⟨t, ht⟩ := Option.ne_none_iff_exists'.mp hw
      exact .inl ⟨w, _, by rw [Step, Pool.Steps, Pool.step, ht]; rfl⟩
  · have hlength := length_le_work hrun
    have hstart : Pool.total (Place.work n) (start (newCapacity capacity) todo) =
        ∑ v, ((3 * n + 10) * (todo v).length + 8) := rfl
    omega

/-- The first worker holds eight bytes of ten, and the second, whose object is larger than the budget, is
parked. -/
theorem budget_one_parked : ∃ s : Pool 2 (ByteBudget 2) Place,
    s.pcs 0 = .holding 8 [] ∧ s.pcs 1 = .parked 10 [] ∧ ∃ w s', Step (newCapacity 10) s w s' := by
  have hrun : ∃ s, Run (Step (newCapacity 10))
      (start (newCapacity 10) fun v : Fin 2 => if v = 0 then [8] else [25]) [0, 0, 0, 1, 1, 1] s ∧
        s.pcs 0 = .holding 8 [] ∧ s.pcs 1 = .parked 10 [] :=
    ⟨_, .cons rfl (.cons rfl (.cons rfl (.cons rfl (.cons rfl (.cons rfl (.nil _)))))), rfl, rfl⟩
  obtain ⟨s, hrun, hfirst, hsecond⟩ := hrun
  refine ⟨s, hfirst, hsecond, ?_⟩
  rcases (budget_never_stuck 10 _ hrun).2.1 with h | ⟨h, -⟩
  · exact h
  · rw [h 0] at hfirst
    cases hfirst

end Omemfs.Transfer.Budget
