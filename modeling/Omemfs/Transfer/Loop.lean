/-
# Omemfs.Transfer.Loop — the workers of a parallel object walk, action by action.

A walk has a queue of hashes behind a mutex with a condition variable, a set of visited hashes and an
error slot behind mutexes of their own, and two atomics: `outstanding`, the items queued or in a
worker's hands, and `failed`.  `Pc` lists the places of the loop between two atomic actions, each
with what the worker holds there, and `turn` is the action taken from each: a lock is taken only when
it is free, waiting gives the queue lock back and parks in one action, and `notify_all` wakes the
workers parked at that moment.

`worker_loop` and `child_worker_loop` are this one loop with two exits that differ (`Exits`): the
first notifies again, under the lock, when it finds the walk complete, and it counts the item of a
failed call off; the second does neither.  `calls` records the calls of `node_fn` and is read by
nothing.
-/
import Omemfs.Object
import Omemfs.Lib.Pool

namespace Omemfs.Transfer

open Lib

variable {n : Nat}

/-! ## Shared state -/

structure Shared (n : Nat) where
  queue : List Hash
  visited : List Hash
  outstanding : Nat
  failed : Bool
  error : Option Error
  queueLock : Option (Fin n)
  visitedLock : Option (Fin n)
  errorLock : Option (Fin n)
  calls : List Hash

/-- Where a worker is. -/
inductive Pc where
  | top
  | loadFailed
  | popFront
  | loadOutstanding
  | notifyDone
  | leave
  | wait
  | parked
  | woken
  | unlockPopped (hash : Hash)
  | lockVisited (hash : Hash)
  | insert (hash : Hash)
  | unlockVisited (hash : Hash) (newlyClaimed : Bool)
  | process (hash : Hash)
  | fetchAdd (children : List Hash)
  | lockQueue (children : List Hash)
  | extend (children : List Hash)
  | unlockQueue
  | notifyWork
  | fetchSub (last : Bool)
  | notifyZero (last : Bool)
  | lockError (e : Error)
  | setError (e : Error)
  | storeFailed
  | notifyFailed
  | unlockError
  | returned (counted : Bool)
  deriving DecidableEq

/-- `notify_all`: the parked workers have to take the queue lock again. -/
def Pc.wake (pc : Pc) : Pc := if pc = .parked then .woken else pc

/-! ## One action -/

/-- Where the two loops differ. -/
structure Exits where
  notifies : Bool
  countsOff : Bool

/-- On to the next place, waking nobody. -/
def goto (d : Shared n) (pc : Pc) : Option (Turn (Shared n) Pc) := some ⟨d, pc, false⟩

/-- `notify_all`, then on. -/
def notifyAll (d : Shared n) (pc : Pc) : Option (Turn (Shared n) Pc) := some ⟨d, pc, true⟩

/-- After an item is counted off: return, or take the next. -/
def afterItem (last : Bool) : Pc := if last then .returned true else .top

/-- The next action of worker `w` at a place, where it is not blocked. -/
def turn (x : Exits) (nodeFn : Hash → Except Error (List Hash)) (w : Fin n) (d : Shared n) :
    Pc → Option (Turn (Shared n) Pc)
  -- acquiring the next hash, under the queue lock
  | .top | .woken =>
      if d.queueLock = none then goto { d with queueLock := some w } .loadFailed else none
  | .loadFailed => if d.failed then goto d .leave else goto d .popFront
  | .popFront =>
      match d.queue with
      | hash :: rest => goto { d with queue := rest } (.unlockPopped hash)
      | [] => goto d .loadOutstanding
  | .loadOutstanding =>
      if d.outstanding = 0 then goto d (if x.notifies then .notifyDone else .leave)
      else goto d .wait
  | .notifyDone => notifyAll d .leave
  | .leave => goto { d with queueLock := none } (.returned true)
  | .wait => goto { d with queueLock := none } .parked
  | .parked => none
  | .unlockPopped hash => goto { d with queueLock := none } (.lockVisited hash)
  -- claiming it
  | .lockVisited hash =>
      if d.visitedLock = none then goto { d with visitedLock := some w } (.insert hash) else none
  | .insert hash =>
      if hash ∈ d.visited then goto d (.unlockVisited hash false)
      else goto { d with visited := hash :: d.visited } (.unlockVisited hash true)
  | .unlockVisited hash newlyClaimed =>
      goto { d with visitedLock := none } (if newlyClaimed then .process hash else .fetchSub false)
  -- processing it
  | .process hash =>
      match nodeFn hash with
      | .ok children =>
          goto { d with calls := hash :: d.calls }
            (if children = [] then .fetchSub false else .fetchAdd children)
      | .error e => goto { d with calls := hash :: d.calls } (.lockError e)
  | .fetchAdd children =>
      goto { d with outstanding := d.outstanding + children.length } (.lockQueue children)
  | .lockQueue children =>
      if d.queueLock = none then goto { d with queueLock := some w } (.extend children) else none
  | .extend children => goto { d with queue := d.queue ++ children } .unlockQueue
  | .unlockQueue => goto { d with queueLock := none } .notifyWork
  | .notifyWork => notifyAll d (.fetchSub false)
  | .fetchSub last =>
      goto { d with outstanding := d.outstanding - 1 }
        (if d.outstanding = 1 then .notifyZero last else afterItem last)
  | .notifyZero last => notifyAll d (afterItem last)
  -- `record_error`, which keeps the error lock to its end
  | .lockError e =>
      if d.errorLock = none then goto { d with errorLock := some w } (.setError e) else none
  | .setError e => goto { d with error := d.error <|> some e } .storeFailed
  | .storeFailed => goto { d with failed := true } .notifyFailed
  | .notifyFailed => notifyAll d .unlockError
  | .unlockError =>
      goto { d with errorLock := none } (if x.countsOff then .fetchSub true else .returned false)
  | .returned _ => none

/-! ## The two loops -/

/-- The children `worker_loop` finds in what `node_fn` gives it. -/
def parsedChildren (childHashes : Bytes → List Hash) (nodeFn : Hash → Except Error (Option Bytes))
    (hash : Hash) : Except Error (List Hash) :=
  (nodeFn hash).map fun childrenBytes =>
    match childrenBytes with
    | some bytes => childHashes bytes
    | none => []

/-- Which of the two loops the workers run, and on what. -/
inductive Loop where
  | worker (childHashes : Bytes → List Hash) (nodeFn : Hash → Except Error (Option Bytes))
  | child (nodeFn : Hash → Except Error (List Hash))

namespace Loop

def exits : Loop → Exits
  | worker _ _ => ⟨true, true⟩
  | child _ => ⟨false, false⟩

/-- The children of a node, or the error of its call. -/
def nodeFn : Loop → Hash → Except Error (List Hash)
  | worker childHashes f => parsedChildren childHashes f
  | child f => f

/-- One action of worker `w`. -/
def Step (loop : Loop) : Pool n (Shared n) Pc → Fin n → Pool n (Shared n) Pc → Prop :=
  Pool.Steps (turn loop.exits loop.nodeFn) Pc.wake

end Loop

/-- The workers of `parallel_bfs` and `parallel_walk` are spawned over the whole slice of roots. -/
def start (n : Nat) (roots : List Hash) : Pool n (Shared n) Pc :=
  ⟨⟨roots, [], roots.length, false, none, none, none, none, []⟩, fun _ => .top⟩

/-! ## Places by what they hold -/

namespace Pc

/-- At a place where the worker has the queue lock. -/
def holdsQueue : Pc → Bool
  | loadFailed | popFront | loadOutstanding | notifyDone | leave | wait => true
  | unlockPopped _ | extend _ | unlockQueue => true
  | top | parked | woken | lockVisited _ | insert _ | unlockVisited _ _ | process _ => false
  | fetchAdd _ | lockQueue _ | notifyWork | fetchSub _ | notifyZero _ => false
  | lockError _ | setError _ | storeFailed | notifyFailed | unlockError | returned _ => false

/-- The items in the worker's hands: the one it took, until it counts it off, and the children it
has counted in and not yet put in the queue. -/
def inFlight : Pc → Nat
  | unlockPopped _ | lockVisited _ | insert _ | unlockVisited _ _ | process _ | fetchAdd _ => 1
  | lockQueue children | extend children => 1 + children.length
  | unlockQueue | notifyWork | fetchSub _ => 1
  | lockError _ | setError _ | storeFailed | notifyFailed | unlockError => 1
  | top | loadFailed | popFront | loadOutstanding | notifyDone | leave | wait | parked | woken => 0
  | notifyZero _ | returned _ => 0

/-- An item that its worker has returned without counting off. -/
def lost (pc : Pc) : Nat := if pc = .returned false then 1 else 0

@[simp]
theorem inFlight_wake (pc : Pc) : pc.wake.inFlight = pc.inFlight := by
  cases pc <;> rfl

@[simp]
theorem lost_wake (pc : Pc) : pc.wake.lost = pc.lost := by
  unfold wake
  split_ifs with h
  · rw [h]
    rfl
  · rfl

@[simp]
theorem holdsQueue_wake (pc : Pc) : pc.wake.holdsQueue = pc.holdsQueue := by
  cases pc <;> rfl

theorem wake_eq_iff {pc q : Pc} (hp : q ≠ .parked) (hw : q ≠ .woken) : pc.wake = q ↔ pc = q := by
  unfold wake
  split_ifs with h
  · subst h
    exact iff_of_false (Ne.symm hw) (Ne.symm hp)
  · exact Iff.rfl

end Pc

/-- The worker has left the loop. -/
def Returned (pc : Pc) : Prop := ∃ counted, pc = .returned counted

end Omemfs.Transfer
