/-
# Omemfs.Sync.LivePull — a pull while the working tree is being edited.

From the end of its scan to the end of its writes a pull is a list of operations still to do.  The
user may change anything at all between two of them.  What the pull writes or removes after a last
check is one operation with the check; what it writes or removes without one is an operation of its
own (`PullOp.unguarded`).  The stub markers and what git says of them are not part of the tree: what
the pull finds of them is a parameter of the step that looks.

`pull_spares_edits` says that a file the scan has not observed stays where it is, whatever the user
does elsewhere, unless an unguarded operation comes upon one; `edit_removed` is a history in which one
does.
-/
import Omemfs.Lib.Runs
import Omemfs.Sync.Apply

namespace Omemfs.Sync

open Omemfs Lib Fsguard

/-! ## What the scan has observed -/

/-- A regular file: its content and what `lstat` says of it. -/
structure LiveFile where
  content : Hash
  mtime : Time
  size : Nat
  deriving DecidableEq

inductive Node where
  | file (f : LiveFile)
  | symlink (target : String)
  deriving DecidableEq

abbrev LiveTree := DirTree String Node

/-- The time and size of every regular file, and the paths that were something else.  A path in
neither was absent, or stood for a stub. -/
structure ScanObservation where
  files : KeyMap Path (Time × Nat)
  other : List Path

/-- Whether the path is not as the scan, or the pull's own removal, has left it. -/
def changedSinceScan (obs : ScanObservation) (removed : List Path) (fs : LiveTree) (p : Path) :
    Bool :=
  if p ∈ removed then (fs.get p).isSome
  else match obs.files.get p with
    | some stamp =>
        match fs.get p with
        | some (.leaf (.file f)) => decide ((f.mtime, f.size) ≠ stamp)
        | _ => true
    | none =>
        if p ∈ obs.other then
          match fs.get p with
          | some (.leaf (.file _)) => true
          | some _ => false
          | none => true
        else (fs.get p).isSome

/-- The scan has not seen this content at this path. -/
def Unobserved (obs : ScanObservation) (p : Path) (f : LiveFile) : Prop :=
  obs.files.get p ≠ some (f.mtime, f.size)

/-- **`observed_of_unchanged`** — a file that passes the check is one the scan has observed. -/
theorem observed_of_unchanged {obs : ScanObservation} {removed : List Path} {fs : LiveTree}
    {p : Path} {f : LiveFile} (h : changedSinceScan obs removed fs p = false)
    (hf : fs.get p = some (.leaf (.file f))) : ¬ Unobserved obs p f := by
  unfold changedSinceScan at h
  rw [hf] at h
  by_cases hr : p ∈ removed
  · rw [if_pos hr] at h
    cases h
  · rw [if_neg hr] at h
    cases hs : obs.files.get p with
    | none =>
        rw [hs] at h
        by_cases ho : p ∈ obs.other
        · simp [ho] at h
        · simp [ho] at h
    | some stamp =>
        have heq : (f.mtime, f.size) = stamp := by simpa [hs] using h
        exact fun hun => hun (heq ▸ hs)

/-! ## The operations -/

/-- What a step finds of the stubs, of git, behind a symlink, and of the clock. -/
structure Seen where
  /-- there is a stub marker for this very path -/
  fileStub : Bool
  /-- the path lies below a stub, or is a directory stub -/
  deferred : Bool
  /-- git would see a stub marker here -/
  visible : Bool
  linkResolves : Bool
  now : Time
  listDirs : List Path → List Path

inductive PullOp where
  | verifyAll (paths : List Path)
  | delete (p : Path)
  | prune
  | pruneDir (p : Path)
  | entry (p : Path) (change : DiffEntry)
  /-- the last check of `materialise_blob` and its write -/
  | write (p : Path) (f : LiveFile)
  /-- the last check of a symlink and its write -/
  | link (p : Path) (target : String)
  | createDir (p : Path)
  | remove (p : Path)
  | addTree (p : Path) (t : Tree)
  | materialise (p : Path) (t : Tree)
  | rawWrite (p : Path) (f : LiveFile)
  | rawLink (p : Path) (target : String)

/-- The path an operation writes or removes without a check of its own. -/
def PullOp.unguarded : PullOp → Option Path
  | .remove p => some p
  | .rawWrite p _ => some p
  | .rawLink p _ => some p
  | _ => none

/-- A blob as a file on disk. -/
def liveFile (now : Time) (b : Blob) : LiveFile := ⟨b.hash, b.mtime.getD now, b.size⟩

/-- `Path::exists`, which follows a symlink. -/
def pathExists (seen : Seen) (fs : LiveTree) (p : Path) : Bool :=
  match fs.get p with
  | none => false
  | some (.leaf (.symlink _)) => seen.linkResolves
  | some _ => true

/-- The branches of phase 2b. -/
def entryOps (stubThreshold : Nat) (seen : Seen) (fs : LiveTree) (p : Path) :
    DiffEntry → List PullOp
  | .added b =>
      if 0 < stubThreshold && stubThreshold ≤ b.size && !seen.visible then
        if pathExists seen fs p then [.remove p] else []
      else [.write p (liveFile seen.now b)]
  | .modified b =>
      if seen.fileStub && !pathExists seen fs p then [] else [.write p (liveFile seen.now b)]
  | .addedEmptyDir => [.createDir p]
  | .symlink l _ => [.link p l.target]
  | .deleted => []
  | .addedTree t _ =>
      match fs.get p with
      | some (.leaf _) => [.remove p, .addTree p t]
      | _ => [.addTree p t]

/-- The entries of a tree that is materialised below `dir`. -/
def treeOps (now : Time) (dir : Path) (t : Tree) : List PullOp :=
  t.entries.map fun x => match x.2 with
    | .blob b => .rawWrite (dir ++ [x.1]) (liveFile now b)
    | .tree s _ => .materialise (dir ++ [x.1]) s
    | .symlink l => .rawLink (dir ++ [x.1]) l.target

inductive PullStatus where
  | running
  /-- `Error::Conflict`, `clone_root` as it was -/
  | aborted
  /-- another error, `clone_root` as it was -/
  | failed
  /-- everything is written, and `clone_root` may be advanced -/
  | applied
  deriving DecidableEq

structure PullRun where
  fs : LiveTree
  removed : List Path
  deletedDirs : List Path
  todo : List PullOp
  status : PullStatus

namespace PullRun

def perform (s : PullRun) (m : Guarded Node PUnit) : PullRun :=
  match m s.fs with
  | .ok _ d => { s with fs := d }
  | .error _ d => { s with fs := d, status := .failed }

/-- One operation; what is left to do is in the state already. -/
def exec (obs : ScanObservation) (stubThreshold : Nat) (seen : Seen) (s : PullRun) :
    PullOp → PullRun
  | .verifyAll paths =>
      if paths.any (changedSinceScan obs s.removed s.fs) then { s with status := .aborted } else s
  | .delete p =>
      if seen.fileStub then s
      else if changedSinceScan obs s.removed s.fs p then { s with status := .aborted }
      else
        { s.perform (removeFileTolerant p) with
          removed := p :: s.removed
          deletedDirs := p.dropLast :: s.deletedDirs }
  | .prune =>
      { s with todo := (seen.listDirs (cleanupDirs s.deletedDirs)).map .pruneDir ++ s.todo }
  | .pruneDir p =>
      match s.fs.rmdir p with
      | .ok _ => { s.perform (tryRmdir p) with removed := p :: s.removed }
      | .error _ => s
  | .entry p change =>
      if seen.deferred then s
      else { s with todo := entryOps stubThreshold seen s.fs p change ++ s.todo }
  | .write p f =>
      if changedSinceScan obs s.removed s.fs p then { s with status := .aborted }
      else s.perform (atomicWrite p (.file f))
  | .link p target =>
      if changedSinceScan obs s.removed s.fs p then { s with status := .aborted }
      else s.perform (replaceSymlink p (.symlink target))
  | .createDir p => s.perform (createDirAll p)
  | .remove p => s.perform (removeFileTolerant p)
  | .addTree p t =>
      { s with todo := (if seen.visible then .materialise p t else .createDir p) :: s.todo }
  | .materialise p t =>
      { s.perform (createDirAll p) with todo := treeOps seen.now p t ++ s.todo }
  | .rawWrite p f => s.perform (atomicWrite p (.file f))
  | .rawLink p target => s.perform (replaceSymlink p (.symlink target))

/-- The paths the pass over the whole diff looks at before the first write. -/
def touchedPaths (order : List (Path × DiffEntry)) : List Path :=
  (order.filter fun x => match x.2 with
    | .addedEmptyDir => false
    | .addedTree _ _ => false
    | _ => true).map Prod.fst

/-- A pull whose scan is over: `order` lists the clean diff, `merges` the merged files. -/
def start (fs : LiveTree) (order : List (Path × DiffEntry)) (merges : List (Path × LiveFile)) :
    PullRun where
  fs := fs
  removed := []
  deletedDirs := []
  todo := .verifyAll (touchedPaths order) ::
    ((deletedPaths order).map .delete ++ .prune :: (order.map fun x => .entry x.1 x.2) ++
      merges.map fun x => .rawWrite x.1 x.2)
  status := .running

end PullRun

inductive PullEvent where
  | user (fs : LiveTree)
  /-- a fetch, or another system call, fails -/
  | ioError
  | next (seen : Seen)

def stepPull (obs : ScanObservation) (stubThreshold : Nat) (s : PullRun) :
    PullEvent → Option PullRun
  | .user fs => some { s with fs := fs }
  | .ioError =>
      match s.status with
      | .running => some { s with status := .failed }
      | _ => none
  | .next seen =>
      match s.status with
      | .running =>
          match s.todo with
          | [] => some { s with status := .applied }
          | op :: rest => some (PullRun.exec obs stubThreshold seen { s with todo := rest } op)
      | _ => none

/-- What has to be asked of the history: an unguarded operation comes upon no file the scan has not
observed. -/
def NothingUnobserved (obs : ScanObservation) (s : PullRun) : PullEvent → Prop
  | .next _ => ∀ op rest, s.todo = op :: rest → ∀ p, op.unguarded = some p →
      ∀ f, s.fs.get p = some (.leaf (.file f)) → ¬ Unobserved obs p f
  | _ => True

/-! ## One operation -/

namespace PullRun

/-- The regular file is in the tree. -/
def Holds (s : PullRun) (q : Path) (f : LiveFile) : Prop := s.fs.get q = some (.leaf (.file f))

@[simp]
theorem perform_fs (s : PullRun) (m : Guarded Node PUnit) : (s.perform m).fs = after m s.fs := by
  unfold perform after
  cases m s.fs <;> rfl

/-- What spares every leaf but one path keeps a file at another. -/
theorem Holds.perform {s : PullRun} {q p : Path} {f : LiveFile} {m : Guarded Node PUnit}
    (h : s.Holds q f) (hm : SparesLeaves (· = p) m) (hne : q ≠ p) : (s.perform m).Holds q f := by
  show (s.perform m).fs.get q = _
  rw [perform_fs]
  exact hm s.fs q _ hne h

/-- A file at a path whose check has passed is an observed one. -/
theorem Holds.ne_of_unchanged {obs : ScanObservation} {s : PullRun} {q p : Path} {f : LiveFile}
    (h : s.Holds q f) (hun : Unobserved obs q f)
    (hcheck : ¬ changedSinceScan obs s.removed s.fs p = true) : q ≠ p := by
  rintro rfl
  exact observed_of_unchanged (by simpa using hcheck) h hun

/-- **`exec_holds`** — one operation of the pull: a file the scan has not observed stays, unless the
operation is an unguarded one on that very path. -/
theorem exec_holds {obs : ScanObservation} {th : Nat} {seen : Seen} {s : PullRun} {op : PullOp}
    {q : Path} {f : LiveFile} (h : s.Holds q f) (hun : Unobserved obs q f)
    (hop : op.unguarded ≠ some q) : (exec obs th seen s op).Holds q f := by
  cases op with
  | verifyAll paths =>
      simp only [exec]
      split_ifs
      · exact h
      · exact h
  | delete p =>
      simp only [exec]
      split_ifs with hstub hcheck
      · exact h
      · exact h
      · exact h.perform (spares_removeFileTolerant p) (h.ne_of_unchanged hun hcheck)
  | prune => exact h
  | pruneDir p =>
      simp only [exec]
      split
      · -- a directory that is removed is empty
        show (s.perform (tryRmdir p)).fs.get q = _
        rw [perform_fs]
        exact spares_tryRmdir p s.fs q _ id h
      · exact h
  | entry p change =>
      simp only [exec]
      split_ifs
      · exact h
      · exact h
  | write p g =>
      simp only [exec]
      split_ifs with hcheck
      · exact h
      · exact h.perform (spares_atomicWrite p _) (h.ne_of_unchanged hun hcheck)
  | link p target =>
      simp only [exec]
      split_ifs with hcheck
      · exact h
      · exact h.perform (spares_replaceSymlink p _) (h.ne_of_unchanged hun hcheck)
  | createDir p =>
      show (s.perform (createDirAll p)).fs.get q = _
      rw [perform_fs]
      exact spares_createDirAll p s.fs q _ id h
  | remove p => exact h.perform (spares_removeFileTolerant p) fun he => hop (congrArg some he.symm)
  | addTree p t => exact h
  | materialise p t =>
      show (s.perform (createDirAll p)).fs.get q = _
      rw [perform_fs]
      exact spares_createDirAll p s.fs q _ id h
  | rawWrite p g => exact h.perform (spares_atomicWrite p _) fun he => hop (congrArg some he.symm)
  | rawLink p target =>
      exact h.perform (spares_replaceSymlink p _) fun he => hop (congrArg some he.symm)

end PullRun

/-! ## Whole runs -/

/-- Every step is one that can happen; the pull's own meet the condition. -/
def CarefulStep (obs : ScanObservation) (stubThreshold : Nat) (a : PullRun) (e : PullEvent)
    (b : PullRun) : Prop :=
  stepPull obs stubThreshold a e = some b ∧ NothingUnobserved obs a e

theorem CarefulStep.holds {obs : ScanObservation} {th : Nat} {a b : PullRun} {e : PullEvent}
    (hstep : CarefulStep obs th a e b) {q : Path} {f : LiveFile} (hun : Unobserved obs q f)
    (huser : ∀ t, e = .user t → t.get q = some (.leaf (.file f))) (h : a.Holds q f) :
    b.Holds q f := by
  obtain ⟨hstep, hcond⟩ := hstep
  cases e with
  | user t =>
      cases hstep
      exact huser t rfl
  | ioError =>
      simp only [stepPull] at hstep
      split at hstep
      · cases hstep
        exact h
      · cases hstep
  | next seen =>
      simp only [stepPull] at hstep
      split at hstep
      · split at hstep
        · cases hstep
          exact h
        · rename_i op rest htodo
          cases hstep
          have hrest : ({ a with todo := rest } : PullRun).Holds q f := h
          apply PullRun.exec_holds hrest hun
          intro hop
          exact hcond op rest htodo q hop f h hun
      · cases hstep

theorem CarefulStep.functional {obs : ScanObservation} {th : Nat} (s : PullRun) (e : PullEvent)
    (a b : PullRun) (ha : CarefulStep obs th s e a) (hb : CarefulStep obs th s e b) : a = b :=
  Option.some.inj (ha.1.symm.trans hb.1)

/-- A pull that has ended writes nothing more. -/
theorem CarefulStep.ended {obs : ScanObservation} {th : Nat} {a b : PullRun} {e : PullEvent}
    (hstep : CarefulStep obs th a e b) (h : a.status = .aborted) : b.status = .aborted := by
  obtain ⟨hstep, -⟩ := hstep
  cases e with
  | user t =>
      cases hstep
      exact h
  | ioError =>
      simp only [stepPull, h] at hstep
      cases hstep
  | next seen =>
      simp only [stepPull, h] at hstep
      cases hstep

/-- **`pull_spares_edits`** — at any moment of a pull whose unguarded operations come upon no
unobserved file, a file the scan has not observed stays where it is until the user himself takes it
away, and a pull that has aborted stays aborted. -/
theorem pull_spares_edits {obs : ScanObservation} {th : Nat} {fs : LiveTree}
    {order : List (Path × DiffEntry)} {merges : List (Path × LiveFile)} {es es' : List PullEvent}
    {b : PullRun}
    (hrun : Run (CarefulStep obs th) (PullRun.start fs order merges) (es ++ es') b) :
    ∃ a, Run (CarefulStep obs th) (PullRun.start fs order merges) es a ∧
      Run (CarefulStep obs th) a es' b ∧
      (∀ q f, a.Holds q f → Unobserved obs q f →
        (∀ t, .user t ∈ es' → t.get q = some (.leaf (.file f))) → b.Holds q f) ∧
      (a.status = .aborted → b.status = .aborted) := by
  obtain ⟨a, hes, hes'⟩ := run_append.mp hrun
  refine ⟨a, hes, hes', fun q f hq hun huser => ?_, fun h => ?_⟩
  · apply hes'.invariant (P := fun s => s.Holds q f) hq
    intro s e s' he hstep hs
    apply hstep.holds hun _ hs
    rintro t rfl
    exact huser t he
  · apply hes'.invariant (P := fun s => s.status = .aborted) h
    intro s e s' _ hstep hs
    exact hstep.ended hs

/-- What the two histories below find: no stub, and git sees no marker. -/
def seenPlain : Seen where
  fileStub := false
  deferred := false
  visible := false
  linkResolves := false
  now := 0
  listDirs := id

def nothingScanned : ScanObservation := ⟨∅, []⟩

/-- A file the user writes during the pull. -/
def draft : LiveFile := ⟨2, 5, 7⟩

def draftAt (n : String) : LiveTree := .leaf n (.file draft) .nil

/-- A file `f` is new on the remote; the user creates one of that name just before it is written. -/
theorem pull_spares_edits_created : ∃ a b,
    Run (CarefulStep nothingScanned 0)
        (PullRun.start .nil [(["f"], .added ⟨1, none, 3, none⟩)] [])
        [.next seenPlain, .next seenPlain, .next seenPlain, .user (draftAt "f")] a ∧
      Run (CarefulStep nothingScanned 0) a [.next seenPlain] b ∧
      a.Holds ["f"] draft ∧ b.Holds ["f"] draft := by
  have hchecked : ∀ s op, s.todo.head? = some op → op.unguarded = none →
      NothingUnobserved nothingScanned s (.next seenPlain) := by
    intro s op hhead hop op' rest htodo p hp
    rw [htodo] at hhead
    cases hhead
    rw [hop] at hp
    cases hp
  have hrun : ∃ a, Run (CarefulStep nothingScanned 0)
      (PullRun.start .nil [(["f"], .added ⟨1, none, 3, none⟩)] [])
      [.next seenPlain, .next seenPlain, .next seenPlain, .user (draftAt "f")] a ∧
      a.Holds ["f"] draft ∧ ∃ b, CarefulStep nothingScanned 0 a (.next seenPlain) b :=
    ⟨_, .cons ⟨rfl, hchecked _ _ rfl rfl⟩ <| .cons ⟨rfl, hchecked _ _ rfl rfl⟩ <|
      .cons ⟨rfl, hchecked _ _ rfl rfl⟩ <| .cons ⟨rfl, trivial⟩ <| .nil _,
      rfl, _, rfl, hchecked _ _ rfl rfl⟩
  obtain ⟨a, hes, ha, b, hab⟩ := hrun
  obtain ⟨a', hes₁, hes', hkept, -⟩ :=
    pull_spares_edits (run_append.mpr ⟨a, hes, .cons hab (.nil b)⟩)
  obtain rfl : a = a' := hes.unique CarefulStep.functional hes₁
  exact ⟨a, b, hes, hes', ha, hkept ["f"] draft ha nofun fun t ht => by simp at ht⟩

/-- **`edit_removed`** — a directory `d` is new on the remote; the user creates a file `d` after the
pass over the diff, and the pull removes it for the directory. -/
theorem edit_removed : ∃ a b,
    Run (fun a e b => stepPull nothingScanned 1 a e = some b)
        (PullRun.start .nil [(["d"], .addedTree (.blob "x" ⟨1, none, 3, none⟩ .nil) ⟨none, 3, 1⟩)] [])
        [.next seenPlain, .next seenPlain, .user (draftAt "d"), .next seenPlain] a ∧
      stepPull nothingScanned 1 a (.next seenPlain) = some b ∧
      Unobserved nothingScanned ["d"] draft ∧ a.Holds ["d"] draft ∧ ¬ b.Holds ["d"] draft ∧
      b.status = .running := by
  refine ⟨_, _, run_of_foldlM rfl, rfl, nofun, rfl, fun h => ?_, rfl⟩
  cases h

end Omemfs.Sync
