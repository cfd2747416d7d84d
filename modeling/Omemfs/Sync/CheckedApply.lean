/-
# Omemfs.Sync.CheckedApply — `apply_diff` with its checks against the scan.

Before a pull writes it compares every path of the diff with what its scan saw there, all of them once
and each one again right before its own write.  A check looks at the path as `symlink_metadata` does,
which follows the symlinks above it; what lies behind a symlink is up to `Resolution`.  What the pull
has removed itself is kept beside the working tree.

The stub branches are all here: a stub is a file of the working tree.  Reading a filter file, git and the
network are asked through `PullEnv`.
-/
import Omemfs.Lib.Triple
import Omemfs.Scan.Seen
import Omemfs.Scan.WellFormed
import Omemfs.Sync.Conflict

namespace Omemfs.Sync.Checked

open Omemfs Lib Fsguard Scan

/-! ## Looking at a path -/

/-- The symlinks above a path are followed. -/
def NoLinkAbove (d : Disk) (p : Path) : Prop :=
  ∀ a, a <+: p → a ≠ p → ∀ target m, d.get a ≠ some (.leaf (.symlink target m))

/-- `symlink_metadata` and `metadata` of a path.  Entries that go away cannot make another path appear. -/
structure Resolution where
  lstat : Disk → Path → Option (Kind DiskLeaf)
  stat : Disk → Path → Option (Kind DiskLeaf)
  lstat_eq : ∀ d p, NoLinkAbove d p → lstat d p = d.get p
  lstat_mono : ∀ d d' p, (∀ q, d'.get q = d.get q ∨ d'.get q = none) → lstat d p = none →
    lstat d' p = none

/-- `<path>.omemfs-stub`. -/
def fileStubPath (p : Path) : Path := p.dropLast ++ [p.getLastD "" ++ stubSuffix]

def dirStubPath (p : Path) : Path := p ++ [dirStubName]

def isFile : Option (Kind DiskLeaf) → Bool
  | some (.leaf (.file _ _)) => true
  | _ => false

/-! ## What the scan saw -/

structure ScanObservation where
  files : List (Path × Time × Nat)
  other : List Path
  stubs : List Path

/-- `ScanObservation::with_stubs`. -/
def ScanObservation.withStubs (r : ScanResult) : ScanObservation where
  files := r.files.map fun x => (x.1, x.2.fsMtime, x.2.fsSize)
  other := r.side.seenOther
  stubs := r.side.seenStub

/-- `now` is what the path leads to. -/
def changedSinceScan (obs : ScanObservation) (removed : List Path) (rel : Path)
    (now : Option (Kind DiskLeaf)) : Bool :=
  if rel ∈ removed then now.isSome
  else
    match obs.files.lookup rel with
    | some (mtime, size) =>
        match now with
        | some (.leaf (.file _ stat)) => decide (stat.size ≠ size) || decide (stat.mtime ≠ some mtime)
        | _ => true
    | none =>
        if rel ∈ obs.other then
          match now with
          | some k => isFile (some k)
          | none => true
        -- a stub's file has to be absent still, and so has a path that was not seen at all
        else if rel ∈ obs.stubs then now.isSome
        else now.isSome

def touchesAFile : DiffEntry → Bool
  | .added _ => true
  | .modified _ => true
  | .deleted => true
  | .symlink _ _ => true
  | .addedEmptyDir => false
  | .addedTree _ _ => false

/-- The offenders, in the order of the diff. -/
def verifyUnchangedSinceScan (res : Resolution) (obs : ScanObservation) (d : Disk)
    (diff : List (Path × DiffEntry)) : List Path :=
  (diff.filter fun x =>
    touchesAFile x.2 && changedSinceScan obs [] x.1 (res.lstat d x.1)).map Prod.fst

/-! ## The working tree of a pull -/

structure PullState where
  disk : Disk
  /-- what the pull has removed itself -/
  removed : List Path

inductive PullError where
  /-- these paths changed while the pull was in progress -/
  | changed (offenders : List Path)
  | guard (e : GuardError)
  | malformedStub (p : Path)
  | io (p : Path)
  | fetch (hash : Hash)

abbrev Pull := EStateM PullError PullState

/-- What a pull asks outside the working tree, and what its own writes look like to `lstat`. -/
structure PullEnv where
  resolution : Resolution
  stubThreshold : Nat
  /-- git would see a stub at this path -/
  visibleToGit : Disk → Path → Bool
  /-- the blob is here or can be had -/
  fetched : Hash → Bool
  blobFile : Path → Blob → Scan.Content × FileStat
  stubFile : Path → StubRecord → Scan.Content × FileStat
  linkTime : Path → Symlink → Option Time

def onDisk (m : Guarded DiskLeaf PUnit) : Pull PUnit := fun s =>
  match m s.disk with
  | .ok _ d => .ok ⟨⟩ { s with disk := d }
  | .error e d => .error (.guard e) { s with disk := d }

def recordRemoved (p : Path) : Pull PUnit := fun s => .ok ⟨⟩ { s with removed := p :: s.removed }

def verifyOneBeforeWrite (env : PullEnv) (obs : ScanObservation) (p : Path) : Pull PUnit := fun s =>
  if p ≠ [] ∧ changedSinceScan obs s.removed p (env.resolution.lstat s.disk p) = true then
    .error (.changed [p]) s
  else .ok ⟨⟩ s

/-! ## Stubs -/

/-- `stub::exists`. -/
def stubExists (env : PullEnv) (d : Disk) (p : Path) : Bool :=
  isFile (env.resolution.stat d (fileStubPath p))

/-- `stub::dir_exists`. -/
def dirStubExists (env : PullEnv) (d : Disk) (p : Path) : Bool :=
  isFile (env.resolution.stat d (dirStubPath p))

/-- Whether there is a record to read at a path. -/
def readRecord (env : PullEnv) (d : Disk) (p : Path) : Except PullError Bool :=
  match env.resolution.stat d p with
  | none => .ok false
  | some (.leaf (.file c _)) => if c.record = none then .error (.malformedStub p) else .ok true
  | some _ => .error (.io p)

/-- The first of these paths with a stub of this kind. -/
def firstStub (env : PullEnv) (d : Disk) (at' : Path → Path) : List Path → Except PullError (Option Path)
  | [] => .ok none
  | p :: ps => readRecord env d (at' p) >>= fun found =>
      if found then .ok (some p) else firstStub env d at' ps

/-- What lies above a path, the deepest first. -/
def ancestors (p : Path) : List Path := (p.inits.filter fun a => a ≠ [] ∧ a ≠ p).reverse

/-- The path is left to the reconciliation of stubs: it lies below a stub, or is a directory stub. -/
def skipped (env : PullEnv) (d : Disk) (p : Path) : Except PullError Bool :=
  firstStub env d dirStubPath (ancestors p) >>= fun above =>
  if above.isSome || dirStubExists env d p then .ok true
  else
    firstStub env d fileStubPath (p :: ancestors p) >>= fun found =>
    .ok (found.any fun q => q ≠ p)

def Pull.lift {α : Type} (x : Except PullError α) : Pull α := fun s =>
  match x with
  | .ok a => .ok a s
  | .error e => .error e s

def stubRemove (p : Path) : Pull PUnit := onDisk (removeFileTolerant (fileStubPath p))

def stubLeaf (env : PullEnv) (p : Path) (r : StubRecord) : DiskLeaf :=
  .file (env.stubFile p r).1 (env.stubFile p r).2

def stubWrite (env : PullEnv) (p : Path) (r : StubRecord) : Pull PUnit :=
  onDisk (atomicWrite (fileStubPath p) (stubLeaf env (fileStubPath p) r))

def writeDirStub (env : PullEnv) (p : Path) (r : StubRecord) : Pull PUnit :=
  onDisk (atomicWrite (dirStubPath p) (stubLeaf env (dirStubPath p) r))

def blobRecord (b : Blob) : StubRecord := ⟨.blob b.hash, b.size, b.mtime, b.mode, 0⟩

def treeRecord (t : Tree) (m : TreeMeta) : StubRecord := ⟨.tree t, m.size, m.mtime, none, m.blobCount⟩

/-! ## Writing -/

def ensureBlobLocal (env : PullEnv) (hash : Hash) : Pull PUnit :=
  if env.fetched hash then pure ⟨⟩ else throw (.fetch hash)

def blobOnDisk (env : PullEnv) (p : Path) (b : Blob) : DiskLeaf :=
  .file (env.blobFile p b).1 (env.blobFile p b).2

def linkOnDisk (env : PullEnv) (p : Path) (l : Symlink) : DiskLeaf := .symlink l.target (env.linkTime p l)

def materialiseBlob (env : PullEnv) (obs : ScanObservation) (p : Path) (b : Blob) : Pull PUnit :=
  ensureBlobLocal env b.hash >>= fun _ =>
  verifyOneBeforeWrite env obs p >>= fun _ =>
  onDisk (atomicWrite p (blobOnDisk env p b)) >>= fun _ => stubRemove p

/-- The loop of `materialise_tree` over a directory that is there; nothing is checked. -/
def materialiseEntries (env : PullEnv) : Tree → Path → Pull PUnit
  | .nil, _ => pure ⟨⟩
  | .blob n b rest, dir =>
      ensureBlobLocal env b.hash >>= fun _ =>
      onDisk (atomicWrite (dir ++ [n]) (blobOnDisk env (dir ++ [n]) b)) >>= fun _ =>
      materialiseEntries env rest dir
  | .tree n t _ rest, dir =>
      onDisk (createDirAll (dir ++ [n])) >>= fun _ =>
      materialiseEntries env t (dir ++ [n]) >>= fun _ => materialiseEntries env rest dir
  | .symlink n l rest, dir =>
      onDisk (replaceSymlink (dir ++ [n]) (linkOnDisk env (dir ++ [n]) l)) >>= fun _ =>
      materialiseEntries env rest dir

def materialiseTree (env : PullEnv) (t : Tree) (dir : Path) : Pull PUnit :=
  onDisk (createDirAll dir) >>= fun _ => materialiseEntries env t dir

/-! ## The three phases -/

/-- One deletion, with its directory for the pruning. -/
def deleteFile (env : PullEnv) (obs : ScanObservation) (p : Path) : Pull (List Path) :=
  verifyOneBeforeWrite env obs p >>= fun _ =>
  onDisk (removeFileTolerant p) >>= fun _ =>
  recordRemoved p >>= fun _ => stubRemove p >>= fun _ => pure [p.dropLast]

/-- A path with a stub is left to the reconciliation. -/
def applyDeleted (env : PullEnv) (obs : ScanObservation) (p : Path) : Pull (List Path) := fun s =>
  if stubExists env s.disk p then .ok [] s else deleteFile env obs p s

/-- Phase 2a. -/
def applyDeletions (env : PullEnv) (obs : ScanObservation) :
    List (Path × DiffEntry) → Pull (List Path)
  | [] => pure []
  | (p, .deleted) :: rest =>
      applyDeleted env obs p >>= fun dirs =>
      applyDeletions env obs rest >>= fun more => pure (dirs ++ more)
  | _ :: rest => applyDeletions env obs rest

/-- A directory that is found empty is removed.  Nothing above it is a symlink: something below it was
deleted on the way there. -/
def pruneDir (p : Path) : Pull PUnit := fun s =>
  match s.disk.rmdir p with
  | .ok d => .ok ⟨⟩ { disk := d, removed := p :: s.removed }
  | .error _ => .ok ⟨⟩ s

/-- The deletions, and the directories they have left empty. -/
def clearAway (env : PullEnv) (obs : ScanObservation) (listDirs : List Path → List Path)
    (order : List (Path × DiffEntry)) : Pull PUnit :=
  applyDeletions env obs order >>= fun dirs => (listDirs (cleanupDirs dirs)).forM pruneDir

/-- A new file becomes a stub at once. -/
def shouldStub (env : PullEnv) (d : Disk) (p : Path) (b : Blob) : Bool :=
  decide (0 < env.stubThreshold) && decide (env.stubThreshold ≤ b.size) &&
    !env.visibleToGit d (fileStubPath p)

/-- The stub is brought up to date, and the file stays absent. -/
def updatesStub (env : PullEnv) (d : Disk) (p : Path) : Bool :=
  stubExists env d p && !(env.resolution.stat d p).isSome

/-- A new file as a stub; the file itself goes, if there is one. -/
def stubInstead (env : PullEnv) (p : Path) (b : Blob) : Pull PUnit :=
  stubWrite env p (blobRecord b) >>= fun _ => fun s =>
  if (env.resolution.stat s.disk p).isSome then onDisk (removeFileTolerant p) s else .ok ⟨⟩ s

/-- What is no directory makes way for one. -/
def clearLeaf (env : PullEnv) (p : Path) : Pull PUnit := fun s =>
  if (env.resolution.lstat s.disk p).any (fun k => k ≠ .dir) then onDisk (removeFileTolerant p) s
  else .ok ⟨⟩ s

/-- A new tree as a whole: a directory stub, or all its files where git would see the stub. -/
def placeTree (env : PullEnv) (p : Path) (t : Tree) (m : TreeMeta) : Pull PUnit := fun s =>
  if (env.resolution.stat s.disk (p ++ [".git"])).isSome ||
      env.visibleToGit s.disk (dirStubPath p) then
    materialiseTree env t p s
  else
    (onDisk (createDirAll p) >>= fun _ => writeDirStub env p (treeRecord t m)) s

/-- Phase 2b, for an entry that is not skipped. -/
def writeEntry (env : PullEnv) (obs : ScanObservation) (p : Path) : DiffEntry → Pull PUnit
  | .added b => fun s =>
      if shouldStub env s.disk p b then stubInstead env p b s else materialiseBlob env obs p b s
  | .modified b => fun s =>
      if updatesStub env s.disk p then stubWrite env p (blobRecord b) s
      else materialiseBlob env obs p b s
  | .addedEmptyDir => onDisk (createDirAll p)
  | .symlink l _ =>
      stubRemove p >>= fun _ =>
      verifyOneBeforeWrite env obs p >>= fun _ => onDisk (replaceSymlink p (linkOnDisk env p l))
  | .deleted => pure ⟨⟩
  | .addedTree t m => stubRemove p >>= fun _ => clearLeaf env p >>= fun _ => placeTree env p t m

def writeUnless (env : PullEnv) (obs : ScanObservation) (x : Path × DiffEntry) (skip : Bool) :
    Pull PUnit :=
  if skip then pure ⟨⟩ else writeEntry env obs x.1 x.2

/-- Phase 2b. -/
def applyWrite (env : PullEnv) (obs : ScanObservation) (x : Path × DiffEntry) : Pull PUnit := fun s =>
  (Pull.lift (skipped env s.disk x.1) >>= writeUnless env obs x) s

/-- `order` lists the diff, and `listDirs` the directories to prune. -/
def applyDiff (env : PullEnv) (obs : ScanObservation) (listDirs : List Path → List Path)
    (order : List (Path × DiffEntry)) : Pull PUnit := fun s =>
  match verifyUnchangedSinceScan env.resolution obs s.disk order with
  | [] => (clearAway env obs listDirs order >>= fun _ => order.forM (applyWrite env obs)) s
  | offenders => .error (.changed offenders) s

end Omemfs.Sync.Checked
