/-
# Omemfs.Store.ObjectsDir — the sharded object directory, call by call.

A directory of objects holds them flat until it has more than `threshold`; then a marker `.migrating`
is placed, every file is moved one directory down, `.depth` is written and the marker removed.  Each
directory decides for itself, so an object is at the end of a walk along the first bytes of its hash.

`Pc` lists the places of `find` and `write_stream` between two calls on the file system, with what a
thread carries there, and `next` is the call made from each.  The lock of a directory orders the
threads of one process only.  A call may fail and end its write, and a process may crash between any
two calls; what it leaves behind is the disk.

A name is two hex digits a byte, and a file is its path: only finished temporaries are renamed to one,
so a file of a hash's name holds the bytes of that hash.  `due` marks a search for a hash that was
already stored when the search began; `stored` and `answers` record and are read by nothing else.
-/
import Mathlib.Data.Finset.Card
import Mathlib.Data.Finset.Image
import Mathlib.Logic.Function.Basic
import Omemfs.Lib.Runs
import Omemfs.Object

namespace Omemfs.Store.ObjectsDir

open Lib

/-! ## The disk -/

/-- Hex digits, two to an element. -/
abbrev Hex := List UInt8

/-- A name in a directory, both as digits of a hash. -/
structure Spot where
  dir : Hex
  hex : Hex
  deriving DecidableEq

namespace Spot

/-- The hash of the object. -/
def bytes (p : Spot) : Hex := p.dir ++ p.hex

/-- One directory down. -/
def sub (p : Spot) : Spot := ⟨p.dir ++ p.hex.take 1, p.hex.drop 1⟩

def root (h : Hash) : Spot := ⟨[], h.toBytes⟩

end Spot

/-- The object files, the directories whose `.depth` says one, and those with the marker. -/
structure Disk where
  files : Finset Spot
  depth : Finset Hex
  migrating : Finset Hex

def threshold : Nat := 1000

namespace Disk

/-- The names of the object files of a directory. -/
def namesIn (k : Disk) (dir : Hex) : Finset Hex :=
  (k.files.filter fun q => q.dir = dir).image Spot.hex

def countObjects (k : Disk) (dir : Hex) : Nat := (k.namesIn dir).card

/-- `fs::rename` one directory down; nothing where the file is gone. -/
def rename (k : Disk) (q : Spot) : Disk :=
  if q ∈ k.files then { k with files := insert q.sub (k.files.erase q) } else k

end Disk

/-! ## Threads -/

/-- A migration of the spot's directory, and whether a write resumed it before its own work. -/
structure Job where
  spot : Spot
  resumed : Bool
  deriving DecidableEq

/-- Where a thread is. -/
inductive Pc where
  | idle
  -- `find_in`
  | findDepth (p : Spot) (due : Bool)
  | findMarker (p : Spot) (due : Bool) (deep : Bool)
  | findFlat (p : Spot) (due : Bool) (migrating : Bool)
  | findSub (p : Spot) (due : Bool)
  -- `write_stream_in`
  | testMarker (p : Spot)
  | lockResume (p : Spot)
  | retestMarker (p : Spot)
  | readDepth (p : Spot)
  | testFlat (p : Spot)
  | persist (p : Spot)
  | count (p : Spot)
  -- `start_migration`
  | lockStart (p : Spot)
  | testStart (p : Spot)
  | mark (p : Spot)
  -- `do_migration`
  | list (j : Job)
  | isFile (j : Job) (name : Hex) (rest : List Hex)
  | testNew (j : Job) (name : Hex) (rest : List Hex)
  | rename (j : Job) (name : Hex) (rest : List Hex)
  | remove (j : Job) (name : Hex) (rest : List Hex)
  | setDepth (j : Job)
  | clearMarker (j : Job)
  | unlock (j : Job)
  deriving DecidableEq

/-- On to the next entry of the listing. -/
def Pc.entry (j : Job) : List Hex → Pc
  | [] => .setDepth j
  | name :: rest => .isFile j name rest

/-- A write is under way. -/
def Pc.writes : Pc → Bool
  | .idle | .findDepth .. | .findMarker .. | .findFlat .. | .findSub .. => false
  | _ => true

/-- What a search returned. -/
structure Answer where
  hash : Hex
  due : Bool
  path : Option Spot

structure Shared where
  disk : Disk
  /-- The locks that are held, each by a thread of the process. -/
  locks : Finset (Nat × Hex)
  stored : Finset Hex
  answers : List Answer

namespace Shared

/-- `write_stream` returns `Ok`. -/
def wrote (s : Shared) (p : Spot) : Shared := { s with stored := insert p.bytes s.stored }

def answer (s : Shared) (p : Spot) (due : Bool) (path : Option Spot) : Shared :=
  { s with answers := ⟨p.bytes, due, path⟩ :: s.answers }

def lock (s : Shared) (proc : Nat) (dir : Hex) : Shared :=
  { s with locks := insert (proc, dir) s.locks }

def unlock (s : Shared) (proc : Nat) (dir : Hex) : Shared :=
  { s with locks := s.locks.erase (proc, dir) }

end Shared

/-! ## One call -/

/-- The next call of a thread of process `proc`, where it is not blocked; a listing gives the names of
its directory in some order. -/
def next (proc : Nat) (s : Shared) (listing : List Hex) : Pc → Option (Shared × Pc)
  | .idle => none
  | .findDepth p due => some (s, .findMarker p due (decide (p.dir ∈ s.disk.depth)))
  | .findMarker p due deep =>
      if deep then
        if p.hex = [] then some (s.answer p due none, .idle) else some (s, .findDepth p.sub due)
      else some (s, .findFlat p due (decide (p.dir ∈ s.disk.migrating)))
  | .findFlat p due migrating =>
      if p ∈ s.disk.files then some (s.answer p due (some p), .idle)
      else if migrating = true ∧ p.hex ≠ [] then some (s, .findSub p due)
      else some (s.answer p due none, .idle)
  | .findSub p due =>
      some (s.answer p due (if p.sub ∈ s.disk.files then some p.sub else none), .idle)
  | .testMarker p =>
      some (s, if p.dir ∈ s.disk.migrating then .lockResume p else .readDepth p)
  | .lockResume p =>
      if (proc, p.dir) ∈ s.locks then none else some (s.lock proc p.dir, .retestMarker p)
  | .retestMarker p =>
      some (s, if p.dir ∈ s.disk.migrating then .list ⟨p, true⟩ else .unlock ⟨p, true⟩)
  | .readDepth p =>
      if p.dir ∈ s.disk.depth then
        -- a hash too short for the shard depth is an error
        some (s, if p.hex = [] then .idle else .testMarker p.sub)
      else some (s, .testFlat p)
  | .testFlat p => if p ∈ s.disk.files then some (s.wrote p, .idle) else some (s, .persist p)
  | .persist p =>
      some ({ s with disk := { s.disk with files := insert p s.disk.files } }, .count p)
  | .count p =>
      if p.hex ≠ [] ∧ threshold < s.disk.countObjects p.dir then some (s, .lockStart p)
      else some (s.wrote p, .idle)
  | .lockStart p =>
      if (proc, p.dir) ∈ s.locks then none else some (s.lock proc p.dir, .testStart p)
  | .testStart p => some (s, if p.dir ∈ s.disk.migrating then .list ⟨p, false⟩ else .mark p)
  | .mark p =>
      some ({ s with disk := { s.disk with migrating := insert p.dir s.disk.migrating } },
        .list ⟨p, false⟩)
  | .list j =>
      if listing.toFinset = s.disk.namesIn j.spot.dir then some (s, .entry j listing) else none
  | .isFile j name rest =>
      some (s, if name ≠ [] ∧ ⟨j.spot.dir, name⟩ ∈ s.disk.files then .testNew j name rest
        else .entry j rest)
  | .testNew j name rest =>
      some (s, if Spot.sub ⟨j.spot.dir, name⟩ ∈ s.disk.files then .remove j name rest
        else .rename j name rest)
  | .rename j name rest =>
      some ({ s with disk := s.disk.rename ⟨j.spot.dir, name⟩ }, .entry j rest)
  | .remove j name rest =>
      some ({ s with disk := { s.disk with files := s.disk.files.erase ⟨j.spot.dir, name⟩ } },
        .entry j rest)
  | .setDepth j =>
      some ({ s with disk := { s.disk with depth := insert j.spot.dir s.disk.depth } },
        .clearMarker j)
  | .clearMarker j =>
      some ({ s with disk := { s.disk with migrating := s.disk.migrating.erase j.spot.dir } },
        .unlock j)
  | .unlock j =>
      if j.resumed then some (s.unlock proc j.spot.dir, .readDepth j.spot)
      else some ((s.unlock proc j.spot.dir).wrote j.spot, .idle)

/-- The locks a thread has left when its write fails here. -/
def abandon (proc : Nat) (s : Shared) : Pc → Shared
  | .retestMarker p | .testStart p | .mark p => s.unlock proc p.dir
  | .list j | .isFile j _ _ | .testNew j _ _ | .rename j _ _ | .remove j _ _ | .setDepth j
  | .clearMarker j | .unlock j => s.unlock proc j.spot.dir
  | _ => s

/-! ## Threads and processes -/

structure State where
  shared : Shared
  pcs : Nat → Pc

inductive Event where
  | write (t : Nat) (h : Hash)
  | find (t : Nat) (h : Hash)
  | go (t : Nat) (listing : List Hex)
  | fail (t : Nat)
  | crash (proc : Nat)

/-- What happens next, thread `t` being one of process `procOf t`. -/
def step (procOf : Nat → Nat) (s : State) : Event → Option State
  | .write t h =>
      if s.pcs t = .idle then
        some { s with pcs := Function.update s.pcs t (.testMarker (Spot.root h)) }
      else none
  | .find t h =>
      if s.pcs t = .idle then
        some { s with
          pcs := Function.update s.pcs t
            (.findDepth (Spot.root h) (decide (h.toBytes ∈ s.shared.stored))) }
      else none
  | .go t listing =>
      (next (procOf t) s.shared listing (s.pcs t)).map fun x =>
        ⟨x.1, Function.update s.pcs t x.2⟩
  | .fail t =>
      if (s.pcs t).writes then
        some ⟨abandon (procOf t) s.shared (s.pcs t), Function.update s.pcs t .idle⟩
      else none
  | .crash proc =>
      some ⟨{ s.shared with locks := s.shared.locks.filter fun l => l.1 ≠ proc },
        fun t => if procOf t = proc then .idle else s.pcs t⟩

/-- The graph of `step`, for runs. -/
def Steps (procOf : Nat → Nat) (s : State) (e : Event) (s' : State) : Prop :=
  step procOf s e = some s'

/-- An empty directory, and nobody in it. -/
def start : State := ⟨⟨⟨∅, ∅, ∅⟩, ∅, ∅, []⟩, fun _ => .idle⟩

end Omemfs.Store.ObjectsDir
