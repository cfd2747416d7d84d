/-
# Omemfs.Work.Stub — working-tree files given up for their records.

`omemfs stub` looks at every path it is given before it changes anything: a directory must scan to the
tree that `clone_root` has there, a file must have the blob's content.  Then it takes the targets one by
one: it writes the record, looks once more whether the target is as it was seen, and removes what the
record now stands for.  If the target has changed, the record is taken away again.

Nobody else changes the working tree, so what differs between the two looks is what the command itself
has done to an earlier target.
-/
import Omemfs.Sync.CheckedApply
import Omemfs.Work.RemoveAll
import Omemfs.Work.Write

namespace Omemfs.Work

open Lib Scan Fsguard
open Omemfs.Sync.Checked (fileStubPath dirStubPath isFile)

structure StubConfig where
  mach : Machine
  scan : ScanConfig
  /-- Git would see a stub at this path. -/
  visibleToGit : Disk → Path → Bool
  /-- the symlink at this path leads to a regular file -/
  linkToFile : Disk → Path → Bool
  /-- `StatCache::lookup_current` -/
  cached : Path → Option Time → Nat → Option Hash

inductive StubError where
  | reserved (rel : Path)
  | visibleToGit (rel : Path)
  | notInCloneRoot (rel : Path)
  | notADirectory (rel : Path)
  | notAFile (rel : Path)
  | differs (rel : Path)
  | missing (rel : Path)
  /-- it changed while being stubbed -/
  | changed (rel : Path)
  | object (e : Error)
  | scan (e : ScanError)
  | guard (e : GuardError)

/-! ## What was seen of a target -/

/-- `(mtime, size)` of a regular file. -/
structure Snapshot where
  mtime : Option Time
  size : Nat
  deriving DecidableEq

def Snapshot.of (stat : FileStat) : Snapshot := ⟨stat.mtime, stat.size⟩

/-- `Snapshot::check_file`. -/
def Snapshot.checkFile (seen : Snapshot) : Option (Kind DiskLeaf) → Bool
  | some (.leaf (.file _ stat)) => decide (Snapshot.of stat = seen)
  | _ => false

/-- The regular files below a directory, and what else there is but directories. -/
structure DirSnapshot where
  files : List (Path × Snapshot)
  others : List Path

namespace DirSnapshot

/-- The marker of the directory itself is left out. -/
def walk (pfx : Path) : Disk → DirSnapshot
  | .nil => ⟨[], []⟩
  | .leaf n a rest =>
      if pfx = [] ∧ n = dirStubName then walk pfx rest
      else
        match a with
        | .file _ stat => ⟨(pfx ++ [n], .of stat) :: (walk pfx rest).files, (walk pfx rest).others⟩
        | _ => ⟨(walk pfx rest).files, (pfx ++ [n]) :: (walk pfx rest).others⟩
  | .sub n s rest =>
      if pfx = [] ∧ n = dirStubName then walk pfx rest
      else ⟨(walk (pfx ++ [n]) s).files ++ (walk pfx rest).files,
        (walk (pfx ++ [n]) s).others ++ (walk pfx rest).others⟩

/-- `DirSnapshot::of`. -/
def of (d : Disk) : DirSnapshot := walk [] d

/-- `DirSnapshot::check`: every file is as it was, and nothing has come or gone. -/
def check (seen now : DirSnapshot) : Bool :=
  (seen.files.all fun x => decide (x ∈ now.files)) &&
  ((now.files.map Prod.fst ++ now.others).all fun p =>
    decide (p ∈ seen.files.map Prod.fst) || decide (p ∈ seen.others)) &&
  (seen.others.all fun p => decide (p ∈ now.others))

end DirSnapshot

/-! ## Looking at the targets -/

inductive StubTarget where
  | file (rel : Path) (b : Blob) (seen : Snapshot)
  | dir (rel : Path) (t : Tree) (m : TreeMeta) (seen : DirSnapshot)

def StubTarget.rel : StubTarget → Path
  | file rel _ _ => rel
  | dir rel _ _ _ => rel

/-- `normalize_addressable_path`, on the components of a path in the repository. -/
def addressable (rel : Path) : Bool :=
  rel.all fun n => decide (n ≠ metadataDirName) && (decide (n = filterName) || !isReservedName n)

/-- `fsguard::is_real_dir`. -/
def isRealDir (d : Disk) (p : Path) : Except GuardError Bool :=
  if p = [] then .ok true
  else
    match resolveDir false [] p.dropLast d with
    | .error (.io .enoent) _ => .ok false
    | .error e _ => .error e
    | .ok _ _ =>
        match d.get p with
        | some (.leaf (.symlink _ _)) => .error (.symlinkEscape p)
        | some .dir => .ok true
        | _ => .ok false

section Command

variable (cfg : StubConfig)

/-- `Path::is_file` of a stub file, for `stub::exists` and `stub::dir_exists`. -/
def stubFileExists (d : Disk) (p : Path) : Bool :=
  match d.get p with
  | some (.leaf (.symlink _ _)) => cfg.linkToFile d p
  | k => isFile k

def validateDir (cloneRoot : Tree) (d s : Disk) (rel : Path) : Except StubError StubTarget :=
  if cfg.visibleToGit d (dirStubPath rel) then .error (.visibleToGit rel)
  else
    match cloneRoot.navigateEntry rel with
    | .error e => .error (.object e)
    | .ok none => .error (.notInCloneRoot rel)
    | .ok (some (.tree t m)) =>
        match scanImpl cfg.scan rel (stillCalls s) (observe s) with
        | .error e => .error (.scan e)
        | .ok r =>
            if cfg.scan.treeHash r.root = cfg.scan.treeHash t then .ok (.dir rel t m (.of s))
            else .error (.differs rel)
    | .ok (some _) => .error (.notADirectory rel)

def validateFile (cloneRoot : Tree) (d : Disk) (c : Content) (stat : FileStat) (rel : Path) :
    Except StubError StubTarget :=
  if cfg.visibleToGit d (fileStubPath rel) then .error (.visibleToGit rel)
  else
    match cloneRoot.at rel with
    | none => .error (.notInCloneRoot rel)
    | some (.blob b) =>
        if (cfg.cached rel stat.mtime stat.size).getD c.hash = b.hash then
          .ok (.file rel b (.of stat))
        else .error (.differs rel)
    | some _ => .error (.notAFile rel)

/-- One of the given paths; nothing is to be done for one that is already stubbed. -/
def validate (cloneRoot : Tree) (d : Disk) (rel : Path) : Except StubError (Option StubTarget) :=
  if addressable rel = false then .error (.reserved rel)
  else
    match isRealDir d rel with
    | .error e => .error (.guard e)
    | .ok true =>
        if stubFileExists cfg d (dirStubPath rel) then .ok none
        else
          match d.at rel with
          | some (.sub s) => (validateDir cfg cloneRoot d s rel).map some
          | _ => .error (.missing rel)
    | .ok false =>
        match d.get rel with
        | some (.leaf (.file c stat)) =>
            if stubFileExists cfg d (fileStubPath rel) then .ok none
            else (validateFile cfg cloneRoot d c stat rel).map some
        | _ =>
            if stubFileExists cfg d (fileStubPath rel) || stubFileExists cfg d (dirStubPath rel) then
              .ok none
            else .error (.missing rel)

def validateAll (cloneRoot : Tree) (d : Disk) (paths : List Path) : Except StubError (List StubTarget) :=
  (paths.mapM (validate cfg cloneRoot d)).map fun xs => xs.filterMap id

/-! ## Stubbing them -/

abbrev Stubbing := EStateM StubError Disk

def guarded (m : Guarded DiskLeaf PUnit) : Stubbing PUnit := fun d =>
  match m d with
  | .ok _ d' => .ok ⟨⟩ d'
  | .error e d' => .error (.guard e) d'

def isLink : DiskLeaf → Bool
  | .symlink _ _ => true
  | _ => false

/-- Whether a target is as it was seen. -/
def stillAsSeen (d : Disk) : StubTarget → Bool
  | .file rel _ seen => seen.checkFile (d.get rel)
  | .dir rel _ _ seen =>
      match d.at rel with
      | some (.sub s) => seen.check (.of s)
      | _ => false

def StubTarget.stubPath : StubTarget → Path
  | .file rel _ _ => fileStubPath rel
  | .dir rel _ _ _ => dirStubPath rel

def StubTarget.record : StubTarget → StubRecord
  | .file _ b _ => blobRecord b
  | .dir _ t m _ => treeRecord t m

/-- What the record stands for now. -/
def StubTarget.remove : StubTarget → Guarded DiskLeaf PUnit
  | .file rel _ _ => syscall fun d => d.unlink rel
  | .dir rel _ _ _ => removeDirAll isLink [dirStubName] rel

def stubOne (x : StubTarget) : Stubbing PUnit :=
  guarded (atomicWrite x.stubPath (cfg.mach.stubFile x.record)) >>= fun _ d =>
    if stillAsSeen d x then guarded x.remove d
    else (guarded (removeFileTolerant x.stubPath) >>= fun _ => throw (.changed x.rel)) d

/-- The command. -/
def stub (cloneRoot : Tree) (paths : List Path) : Stubbing PUnit := fun d =>
  match validateAll cfg cloneRoot d paths with
  | .error e => .error e d
  | .ok targets => targets.forM (stubOne cfg) d

end Command

end Omemfs.Work
