/-
# Omemfs.Work.Restore — the working tree brought back to `clone_root`.

`omemfs restore` decides everything before it writes anything.  The plan is a list of actions: one walk
over `clone_root` plans what is to be written, a second one over the working tree what is to be removed.
Then the actions are tried one after another; one that fails does not keep the others from being tried,
but the command reports it at the end.

What a path behind a symlink leads to is asked outside the working tree (`statBeyond` and the like).  The
object cache is the one that the fetch leaves: a plan that needs an object that is not there is made again
after the fetch.
-/
import Omemfs.Sync.Artifacts
import Omemfs.Work.Stub

namespace Omemfs.Work

open Lib Scan Fsguard
open Omemfs.Sync (artifactPath)
open Omemfs.Sync.Checked (fileStubPath dirStubPath isFile)

structure RestoreConfig where
  mach : Machine
  treeHash : Tree → Hash
  /-- the object is in the local cache -/
  has : Hash → Bool
  /-- `blob_fully_cached` -/
  blobCached : Hash → Bool
  /-- the calls on a path with a symlink above it -/
  lstatBeyond : Disk → Path → Option (Kind DiskLeaf)
  /-- the calls that follow a symlink at the path as well -/
  statBeyond : Disk → Path → Option (Kind DiskLeaf)
  listBeyond : Disk → Path → Except Errno Disk
  /-- what becomes of the working tree when a directory is removed, or a mode set, through a symlink -/
  rmdirBeyond : Path → Disk → Disk
  chmodBeyond : Path → Option String → Disk → Disk

inductive RestoreError where
  | reserved (rel : Path)
  | object (e : Error)
  | malformedStub (p : Path)
  | io (e : Errno)
  | notRestored (unavailable failed : List Path)

/-! ## Plans -/

/-- `Action`. -/
inductive RestoreAction where
  | restoreBlobContent (rel : Path) (b : Blob)
  | restoreBlobModeOnly (rel : Path) (mode : Option String)
  | cleanupOnly (rel : Path)
  | restoreSymlink (rel : Path) (l : Symlink)
  | deleteAbsent (rel : Path) (deleteFile deleteDirStub : Bool)
  | deleteFile (rel : Path)
  | deleteAddedDir (rel : Path)
  | ensureDir (rel : Path)
  | deleteOrphanFileStub (logicalRel stub : Path)
  | deleteConflictArtifact (rel : Path)
  | reconcileFileStubToBlob (rel : Path) (b : Blob)
  | reconcileDirStubToTree (rel : Path) (t : Tree) (m : TreeMeta)
  | reconcileDirStubToBlob (rel : Path) (b : Blob)
  | reconcileFileStubToTree (rel : Path) (t : Tree) (m : TreeMeta)

/-- Which kind of action it is. -/
inductive ActionKind where
  | restoreBlobContent
  | restoreBlobModeOnly
  | cleanupOnly
  | restoreSymlink
  | deleteAbsent
  | deleteFile
  | deleteAddedDir
  | ensureDir
  | deleteOrphanFileStub
  | deleteConflictArtifact
  | reconcileFileStubToBlob
  | reconcileDirStubToTree
  | reconcileDirStubToBlob
  | reconcileFileStubToTree
  deriving DecidableEq

/-- `action_identity`; the logical path of a stub file is determined by the stub's. -/
def RestoreAction.identity : RestoreAction → ActionKind × Path
  | restoreBlobContent rel _ => (.restoreBlobContent, rel)
  | restoreBlobModeOnly rel _ => (.restoreBlobModeOnly, rel)
  | cleanupOnly rel => (.cleanupOnly, rel)
  | restoreSymlink rel _ => (.restoreSymlink, rel)
  | deleteAbsent rel _ _ => (.deleteAbsent, rel)
  | deleteFile rel => (.deleteFile, rel)
  | deleteAddedDir rel => (.deleteAddedDir, rel)
  | ensureDir rel => (.ensureDir, rel)
  | deleteOrphanFileStub _ stub => (.deleteOrphanFileStub, stub)
  | deleteConflictArtifact rel => (.deleteConflictArtifact, rel)
  | reconcileFileStubToBlob rel _ => (.reconcileFileStubToBlob, rel)
  | reconcileDirStubToTree rel _ _ => (.reconcileDirStubToTree, rel)
  | reconcileDirStubToBlob rel _ => (.reconcileDirStubToBlob, rel)
  | reconcileFileStubToTree rel _ _ => (.reconcileFileStubToTree, rel)

structure RestorePlan where
  actions : List RestoreAction
  /-- blobs to be written that are not in the cache -/
  pending : List Hash
  /-- objects of `clone_root` that could not be read, with the path they are needed for -/
  unresolvedTrees : List (Hash × Path)

abbrev Planning := EStateM RestoreError RestorePlan

namespace Planning

def push (a : RestoreAction) : Planning PUnit := fun plan =>
  .ok ⟨⟩ { plan with actions := plan.actions ++ [a] }

def pend (h : Hash) : Planning PUnit := fun plan =>
  .ok ⟨⟩ { plan with pending := plan.pending ++ [h] }

def defer (h : Hash) (rel : Path) : Planning PUnit := fun plan =>
  .ok ⟨⟩ { plan with unresolvedTrees := plan.unresolvedTrees ++ [(h, rel)] }

end Planning

/-! ## Looking at the working tree -/

namespace RestoreConfig

variable (cfg : RestoreConfig) (d : Disk)

def isLinkAt (p : Path) : Bool :=
  match d.get p with
  | some (.leaf (.symlink _ _)) => true
  | _ => false

/-- A symlink stands above the path. -/
def linkAbove (p : Path) : Bool := p.dropLast.inits.any (isLinkAt d)

/-- `symlink_metadata`. -/
def lstat (p : Path) : Option (Kind DiskLeaf) :=
  if linkAbove d p then cfg.lstatBeyond d p else d.get p

/-- `metadata`. -/
def stat (p : Path) : Option (Kind DiskLeaf) :=
  if linkAbove d p || isLinkAt d p then cfg.statBeyond d p else d.get p

def readDir (p : Path) : Except Errno Disk :=
  if linkAbove d p || isLinkAt d p then cfg.listBeyond d p
  else
    match d.at p with
    | some (.sub s) => .ok s
    | some (.leaf _) => .error .enotdir
    | none => .error .enoent

/-- `stub::exists`. -/
def stubExists (rel : Path) : Bool := isFile (cfg.stat d (fileStubPath rel))

/-- `stub::dir_exists`. -/
def dirStubExists (rel : Path) : Bool := isFile (cfg.stat d (dirStubPath rel))

/-- `stub::read_from_path`. -/
def readStub (p : Path) : Except RestoreError (Option StubRecord) :=
  match cfg.stat d p with
  | none => .ok none
  | some (.leaf (.file c _)) =>
      match c.record with
      | some r => .ok (some r)
      | none => .error (.malformedStub p)
  | some _ => .error (.io .eisdir)

/-- `!needs_restore_blob`. -/
def contentMatches (rel : Path) (h : Hash) : Bool :=
  !cfg.stubExists d rel &&
    match cfg.stat d rel with
    | some (.leaf (.file c _)) => decide (c.hash = h)
    | _ => false

/-- `mode_matches`, of a file. -/
def modeMatches (rel : Path) (mode : Option String) : Bool :=
  match cfg.stat d rel with
  | some (.leaf (.file _ stat)) => stat.mode.isSome == mode.isSome
  | _ => false

def symlinkMatches (rel : Path) (target : String) : Bool :=
  match cfg.lstat d rel with
  | some (.leaf (.symlink target' _)) => target' == target
  | _ => false

def conflictHelpersExist (rel : Path) : Bool :=
  conflictArtifactSuffixes.any fun suffix => (cfg.stat d (artifactPath rel suffix)).isSome

def treeCached (t : Tree) : Bool := cfg.has (cfg.treeHash t)

end RestoreConfig

/-! ## The plan of one entry -/

section Plan

variable (cfg : RestoreConfig) (d : Disk)

/-- `plan_restore_blob_action`. -/
def planRestoreBlobAction (rel : Path) (b : Blob) : Planning PUnit :=
  let contentMatches := cfg.contentMatches d rel b.hash
  let alreadyMatches := contentMatches && cfg.modeMatches d rel b.mode
  if alreadyMatches && !cfg.conflictHelpersExist d rel then pure ⟨⟩
  else if !contentMatches then
    (if cfg.blobCached b.hash then pure ⟨⟩ else .pend b.hash) >>= fun _ =>
      .push (.restoreBlobContent rel b)
  else if !alreadyMatches then .push (.restoreBlobModeOnly rel b.mode)
  else .push (.cleanupOnly rel)

def planReconcileFileStubToBlob (rel : Path) (b : Blob) : Planning PUnit :=
  match cfg.readStub d (fileStubPath rel) with
  | .error e => throw e
  | .ok current =>
      if current.all fun r => decide ((r.blob cfg.treeHash).hash ≠ b.hash ∨ r.size ≠ b.size ∨
        r.mtime ≠ b.mtime ∨ r.mode ≠ b.mode)
      then .push (.reconcileFileStubToBlob rel b)
      else pure ⟨⟩

def planReconcileDirStubToTree (rel : Path) (t : Tree) (m : TreeMeta) : Planning PUnit :=
  match cfg.readStub d (dirStubPath rel) with
  | .error e => throw e
  | .ok current =>
      if current.all fun r => decide ((r.blob cfg.treeHash).hash ≠ cfg.treeHash t ∨ r.size ≠ m.size ∨
        r.mtime ≠ m.mtime ∨ r.blobCount ≠ m.blobCount)
      then .push (.reconcileDirStubToTree rel t m)
      else pure ⟨⟩

/-- A stub is updated, not written out. -/
def planBlob (rel : Path) (b : Blob) : Planning PUnit :=
  if cfg.stubExists d rel then planReconcileFileStubToBlob cfg d rel b
  else if cfg.dirStubExists d rel then .push (.reconcileDirStubToBlob rel b)
  else planRestoreBlobAction cfg d rel b

/-- `descend` plans what lies in the directory. -/
def planSubtree (rel : Path) (t : Tree) (m : TreeMeta) (descend : Planning PUnit) : Planning PUnit :=
  if cfg.dirStubExists d rel then planReconcileDirStubToTree cfg d rel t m
  else if cfg.stubExists d rel then .push (.reconcileFileStubToTree rel t m)
  else descend

def planSymlink (rel : Path) (l : Symlink) : Planning PUnit :=
  if cfg.symlinkMatches d rel l.target then pure ⟨⟩ else .push (.restoreSymlink rel l)

/-! ## What is to be written -/

/-- `read_tree_entries`: a tree object that is not there is left for the fetch. -/
def readTreeEntries (t : Tree) (rel : Path) (entries : Planning PUnit) : Planning PUnit :=
  if cfg.treeCached t then entries else .defer (cfg.treeHash t) rel

def planEntries : Tree → Path → Planning PUnit
  | .nil, _ => pure ⟨⟩
  | .blob n b rest, dir => planBlob cfg d (dir ++ [n]) b >>= fun _ => planEntries rest dir
  | .tree n t m rest, dir =>
      planSubtree cfg d (dir ++ [n]) t m (readTreeEntries cfg t (dir ++ [n])
        (.push (.ensureDir (dir ++ [n])) >>= fun _ => planEntries t (dir ++ [n]))) >>= fun _ =>
      planEntries rest dir
  | .symlink n l rest, dir => planSymlink cfg d (dir ++ [n]) l >>= fun _ => planEntries rest dir

/-- `plan_tree`. -/
def planTree (t : Tree) (dir : Path) : Planning PUnit :=
  readTreeEntries cfg t dir (.push (.ensureDir dir) >>= fun _ => planEntries cfg d t dir)

/-! ## What is to be removed -/

/-- A listed name.  The command's own files are removed for what they are; `known` and `unknown` plan the
rest, by whether the tree has an entry of this name. -/
def planListed (t : Tree) (dir : Path) (n : String) (known unknown : Planning PUnit) :
    Planning PUnit :=
  if n = metadataDirName then pure ⟨⟩
  else if isStubFilename n then
    -- the marker of the directory itself is left to the directory's own entry
    match logicalName n with
    | some logical =>
        if n ≠ dirStubName ∧ logical ≠ "" ∧ logical ∉ t.names then
          .push (.deleteOrphanFileStub (dir ++ [logical]) (dir ++ [n]))
        else pure ⟨⟩
    | none => pure ⟨⟩
  else if isConflictArtifact n || isWorkingTreeTmp n then .push (.deleteConflictArtifact (dir ++ [n]))
  else if n ∈ t.names then known
  else unknown

/-- Files and symlinks are removed, and nothing else that is no directory. -/
def planUnknownLeaf (rel : Path) : DiskLeaf → Planning PUnit
  | .special => pure ⟨⟩
  | _ => .push (.deleteFile rel)

/-- `plan_remove_added_files`, once the directory is listed. -/
def planRemoveListed : Disk → Tree → Path → Planning PUnit
  | .nil, _, _ => pure ⟨⟩
  | .leaf n a rest, t, dir =>
      planListed t dir n (pure ⟨⟩) (planUnknownLeaf (dir ++ [n]) a) >>= fun _ =>
      planRemoveListed rest t dir
  | .sub n s rest, t, dir =>
      planListed t dir n
        (if cfg.dirStubExists d (dir ++ [n]) then pure ⟨⟩
          else
            match t.find? n with
            | some (.tree t' _) =>
                readTreeEntries cfg t' (dir ++ [n]) (planRemoveListed s t' (dir ++ [n]))
            | _ => pure ⟨⟩)
        (.push (.deleteAddedDir (dir ++ [n]))) >>= fun _ =>
      planRemoveListed rest t dir

/-- `plan_remove_added_files`. -/
def planRemoveAddedFiles (t : Tree) (dir : Path) : Planning PUnit :=
  readTreeEntries cfg t dir
    (match cfg.readDir d dir with
      | .ok s => planRemoveListed cfg d s t dir
      | .error .enoent => pure ⟨⟩
      | .error e => throw (.io e))

/-! ## The given paths -/

/-- `navigate_entry`, with the objects that are in the cache. -/
inductive Navigated where
  | found (e : Option TreeEntry)
  | missing (h : Hash)
  | failed (e : Error)

def navigateCached (t : Tree) : Path → Navigated
  | [] => .found none
  | n :: p =>
      if cfg.treeCached t then
        match p, t.find? n with
        | [], e => .found e
        | _ :: _, some (.tree s _) => navigateCached s p
        | _ :: _, some (.blob b) =>
            if cfg.has b.hash then .failed (.invalidObject "not a tree object") else .missing b.hash
        | _ :: _, _ => .found none
      else .missing (cfg.treeHash t)

/-- `plan_path`. -/
def planPath (cloneRoot : Tree) (rel : Path) : Planning PUnit :=
  match navigateCached cfg cloneRoot rel with
  | .missing h => .defer h rel
  | .failed e => throw (.object e)
  | .found none =>
      .push (.deleteAbsent rel (isFile (cfg.stat d rel) || cfg.stubExists d rel)
        (cfg.dirStubExists d rel))
  | .found (some (.blob b)) => planBlob cfg d rel b
  | .found (some (.tree t m)) =>
      planSubtree cfg d rel t m
        (planTree cfg d t rel >>= fun _ => planRemoveAddedFiles cfg d t rel)
  | .found (some (.symlink l)) => planSymlink cfg d rel l

/-- `is_ancestor_or_equal`. -/
def isAncestorOrEqual (ancestor other : Path) : Bool := decide (ancestor <+: other)

/-- A path that is covered is left out; it takes the place of those it covers. -/
def keepTop (kept : List Path) (rel : Path) : List Path :=
  if kept.any fun existing => isAncestorOrEqual existing rel then kept
  else (kept.filter fun existing => !isAncestorOrEqual rel existing) ++ [rel]

def collapseDedupPaths (rels : List Path) : List Path :=
  if [] ∈ rels then [[]] else rels.foldl keepTop []

/-- The first of each kind, in their order. -/
def firstOfEach {α β : Type} [DecidableEq β] (f : α → β) : List β → List α → List α
  | _, [] => []
  | seen, a :: l => if f a ∈ seen then firstOfEach f seen l else a :: firstOfEach f (f a :: seen) l

def dedupActions (actions : List RestoreAction) : List RestoreAction :=
  firstOfEach RestoreAction.identity [] actions

def planOne (cloneRoot : Tree) (rel : Path) : Planning PUnit :=
  if rel = [] then
    planTree cfg d cloneRoot [] >>= fun _ => planRemoveAddedFiles cfg d cloneRoot []
  else planPath cfg d cloneRoot rel

def planRestore (cloneRoot : Tree) (rels : List Path) : Except RestoreError RestorePlan :=
  match (collapseDedupPaths rels).forM (planOne cfg d cloneRoot) ⟨[], [], []⟩ with
  | .error e _ => .error e
  | .ok _ plan =>
      .ok ⟨dedupActions plan.actions, firstOfEach id [] plan.pending,
        firstOfEach Prod.snd [] plan.unresolvedTrees⟩

end Plan

/-! ## The actions -/

inductive ActionError where
  /-- an object that could not be had, or a file that has gone -/
  | unavailable (rel : Path)
  | failed (e : GuardError)

abbrev Acting := EStateM ActionError Disk

def acting (m : Guarded DiskLeaf PUnit) : Acting PUnit := fun d =>
  match m d with
  | .ok _ d' => .ok ⟨⟩ d'
  | .error e d' => .error (.failed e) d'

/-- A call whose failure is ignored. -/
def ignoring (m : Guarded DiskLeaf PUnit) : Guarded DiskLeaf PUnit := fun d =>
  match m d with
  | .ok _ d' => .ok ⟨⟩ d'
  | .error _ d' => .ok ⟨⟩ d'

/-- `remove_all_conflict_artifacts`. -/
def removeConflictHelpers (p : Path) : Guarded DiskLeaf PUnit :=
  conflictArtifactSuffixes.forM fun suffix => removeFileTolerant (artifactPath p suffix)

section Apply

variable (cfg : RestoreConfig)

/-- `GuardedDir::set_mode`, which follows a symlink at the name. -/
def setMode (p : Path) (mode : Option String) : Guarded DiskLeaf PUnit :=
  openLeaf false p >>= fun _ d =>
    match d.get p with
    | some (.leaf (.file c stat)) =>
        syscall (fun d => d.rename p (.file c { stat with mode := mode.map fun _ => "755" })) d
    | some (.leaf (.symlink _ _)) =>
        if (cfg.statBeyond d p).isSome then .ok ⟨⟩ (cfg.chmodBeyond p mode d)
        else .error (.io .enoent) d
    | some _ => .ok ⟨⟩ d
    | none => .error (.io .enoent) d

/-- `std::fs::remove_dir`, which follows the symlinks above; its failure is ignored. -/
def removeDirOk (p : Path) : Guarded DiskLeaf PUnit := fun d =>
  if RestoreConfig.linkAbove d p then .ok ⟨⟩ (cfg.rmdirBeyond p d) else tryRmdir p d

/-- `remove_added_dir`, once the directory is listed. -/
def removeListed : Disk → Path → Guarded DiskLeaf PUnit
  | .nil, _ => pure ⟨⟩
  | .leaf n a rest, dir =>
      (if isStubFilename n || isConflictArtifact n || isWorkingTreeTmp n then
          ignoring (removeFileTolerant (dir ++ [n]))
        else
          match a with
          | .special => pure ⟨⟩
          | _ => removeFileTolerant (dir ++ [n]) >>= fun _ =>
              removeFileTolerant (fileStubPath (dir ++ [n]))) >>= fun _ =>
      removeListed rest dir
  | .sub n s rest, dir =>
      (if isStubFilename n || isConflictArtifact n || isWorkingTreeTmp n then
          ignoring (removeFileTolerant (dir ++ [n]))
        else removeListed s (dir ++ [n]) >>= fun _ => removeDirOk cfg (dir ++ [n])) >>= fun _ =>
      removeListed rest dir

def removeAddedDir (dir : Path) : Guarded DiskLeaf PUnit := fun d =>
  match cfg.readDir d dir with
  | .ok s => removeListed cfg s dir d
  | .error .enoent => .ok ⟨⟩ d
  | .error e => .error (.io e) d

/-- `std::fs::remove_dir`. -/
def removeDir (p : Path) : Guarded DiskLeaf PUnit := syscall fun d => d.rmdir p

/-- `std::fs::remove_dir_all` of something that exists: a symlink is only unlinked. -/
def removeDirAllStd (p : Path) : Guarded DiskLeaf PUnit := fun d =>
  match d.at p with
  | some (.sub s) =>
      ((removals (fun _ => false) [] p s).forM Removal.run >>= fun _ => removeDir p) d
  | some (.leaf (.symlink _ _)) => syscall (fun d => d.unlink p) d
  | _ => .error (.io .enotdir) d

/-- The body of `DeleteAbsent`. -/
def deleteAbsent (rel : Path) (deleteFile deleteDirStub : Bool) : Guarded DiskLeaf PUnit := fun d =>
  ((if deleteFile || isFile (cfg.stat d rel) || cfg.stubExists d rel then
      match cfg.lstat d rel with
      | some .dir => removeFileTolerant (fileStubPath rel) >>= fun _ => removeDir rel
      | _ => removeFileTolerant rel >>= fun _ => removeFileTolerant (fileStubPath rel)
    else pure ⟨⟩) >>= fun _ =>
  (if deleteDirStub then
      removeFileTolerant (dirStubPath rel) >>= fun _ => removeDirOk cfg rel
    else pure ⟨⟩) >>= fun _ =>
  removeConflictHelpers rel) d

/-- `apply_action`; `stillUnavailable` are the blobs that could not be fetched. -/
def applyAction (stillUnavailable : List Hash) : RestoreAction → Acting PUnit
  | .restoreBlobContent rel b =>
      if b.hash ∈ stillUnavailable then throw (.unavailable rel)
      else
        acting (atomicWrite rel (cfg.mach.file b) >>= fun _ =>
          removeFileTolerant (fileStubPath rel) >>= fun _ => removeConflictHelpers rel)
  | .restoreBlobModeOnly rel mode => fun d =>
      if (cfg.stat d rel).isNone then .error (.unavailable rel) d
      else acting (setMode cfg rel mode >>= fun _ => removeConflictHelpers rel) d
  | .cleanupOnly rel => acting (removeConflictHelpers rel)
  | .restoreSymlink rel l =>
      acting (ignoring (removeFileTolerant (fileStubPath rel)) >>= fun _ =>
        ignoring (removeFileTolerant (dirStubPath rel)) >>= fun _ =>
        replaceSymlink rel (cfg.mach.link l) >>= fun _ => removeConflictHelpers rel)
  | .deleteAbsent rel deleteFile deleteDirStub =>
      acting (deleteAbsent cfg rel deleteFile deleteDirStub)
  | .deleteFile rel =>
      acting (removeFileTolerant rel >>= fun _ => removeFileTolerant (fileStubPath rel))
  | .deleteAddedDir rel => acting (removeAddedDir cfg rel >>= fun _ => removeDirOk cfg rel)
  | .ensureDir rel => acting (createDirAll rel)
  | .deleteOrphanFileStub _ stub => acting (removeFileTolerant stub)
  | .deleteConflictArtifact rel => acting (removeFileTolerant rel)
  | .reconcileFileStubToBlob rel b =>
      acting (atomicWrite (fileStubPath rel) (cfg.mach.stubFile (blobRecord b)))
  | .reconcileDirStubToTree rel t m =>
      acting (atomicWrite (dirStubPath rel) (cfg.mach.stubFile (treeRecord t m)))
  | .reconcileDirStubToBlob rel b =>
      acting (removeFileTolerant (dirStubPath rel) >>= fun _ =>
        (fun d => if (cfg.stat d rel).isSome then removeDirAllStd rel d else .ok ⟨⟩ d) >>= fun _ =>
        atomicWrite (fileStubPath rel) (cfg.mach.stubFile (blobRecord b)))
  | .reconcileFileStubToTree rel t m =>
      acting (removeFileTolerant (fileStubPath rel) >>= fun _ =>
        createDirAll rel >>= fun _ =>
        atomicWrite (dirStubPath rel) (cfg.mach.stubFile (treeRecord t m)))

end Apply

/-! ## The command -/

/-- What could not be had, and what has failed. -/
def unavailableOf : List (RestoreAction × ActionError) → List Path :=
  List.filterMap fun x =>
    match x.2 with
    | .unavailable rel => some rel
    | .failed _ => none

def failedOf : List (RestoreAction × ActionError) → List Path :=
  List.filterMap fun x =>
    match x.2 with
    | .unavailable _ => none
    | .failed _ => some x.1.identity.2

def restore (cfg : RestoreConfig) (cloneRoot : Tree) (rels : List Path) :
    EStateM RestoreError Disk PUnit := fun d =>
  match rels.find? fun rel => !addressable rel with
  | some rel => .error (.reserved rel) d
  | none =>
      match planRestore cfg d cloneRoot rels with
      | .error e => .error e d
      | .ok plan =>
          let done := tryAll (applyAction cfg plan.pending) plan.actions d
          let unavailable := unavailableOf done.1 ++ plan.unresolvedTrees.map Prod.snd
          if unavailable = [] ∧ failedOf done.1 = [] then .ok ⟨⟩ done.2
          else .error (.notRestored unavailable (failedOf done.1)) done.2

end Omemfs.Work
