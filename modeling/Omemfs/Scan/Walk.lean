/-
# Omemfs.Scan.Walk — one scan of a working tree.

A scan is a function of what its system calls return.  `DirObs` lists a directory as its listing does,
and holds for each name what the calls on that name would return, whether the scan makes them or not;
the working tree may change between any two of them, so nothing ties one answer to another.  What a
quiet working tree answers is a special case of it.

Directories below are scanned as the directory itself is (`listed`, `scanDir`).  A directory is left to
a parallel or to a serial scan, and names are visited in sorted order; both only decide which error is
reported when there are several.  Removing duplicates from a listing, sorting entries and storing the
tree are `Tree.buildAndStore`.
-/
import Omemfs.Scan.Names
import Omemfs.Scan.StatCache
import Omemfs.Sync.TreeOps

namespace Omemfs.Scan

/-! ## What the system calls return -/

/-- The kind of an entry, as a listing reports it. -/
inductive EntryKind where
  | dir
  | file
  | symlink
  | other
  | unknown
  deriving DecidableEq, Repr

/-- How a call fails. -/
inductive ScanError where
  | notFound
  | einval
  | sourceChanged
  | symlinkEscape
  | tooManyOpenFiles
  | malformedStub
  | objectNotFound
  | io
  deriving DecidableEq, Repr

/-- What `lstat` says; `object` is the device and the inode. -/
structure EntryStat where
  kind : EntryKind
  file : FileStat
  object : Nat
  deriving DecidableEq

/-- The object a stub stands for. -/
inductive StubTarget where
  | blob (hash : Hash)
  | tree (t : Tree)
  deriving DecidableEq

structure StubRecord where
  target : StubTarget
  size : Nat
  mtime : Option Time
  mode : Option String
  blobCount : Nat
  deriving DecidableEq

/-- The `[ignore]` section of a filter file, as a test of paths from its directory. -/
abbrev FilterFile := Path → Bool

/-- The calls on a listed name. -/
structure NameObs where
  /-- where the listing reports no kind -/
  kindStat : Except ScanError EntryStat
  lstat : Except ScanError EntryStat
  readLink : Except ScanError String
  readFile : Except ScanError FileRead
  /-- the file read as a stub record -/
  readStub : Except ScanError StubRecord
  /-- the file read as a filter file, if it can be -/
  readFilter : Option FilterFile

/-- The calls on a directory. -/
structure DirCalls where
  openDir : Except ScanError Unit
  /-- the listing, where it fails -/
  listing : Except ScanError Unit
  markerStat : Except ScanError EntryStat
  readMarker : Except ScanError StubRecord
  /-- the listing that looks for real children beside the marker -/
  relist : Except ScanError (List String)
  /-- a recorded name that was not listed, looked at again in the end -/
  lookAgain : String → Except ScanError EntryStat
  fstat : Except ScanError EntryStat
  /-- what the directory's own name leads to in the end -/
  recheck : Except ScanError EntryStat

/-- A listing, and what lies below each name if it can be opened as a directory. -/
inductive DirObs where
  | nil
  | entry (name : String) (kind : EntryKind) (o : NameObs) (calls : DirCalls) (sub : DirObs)
      (rest : DirObs)

/-- A listed name and what is below it. -/
structure Found where
  kind : EntryKind
  o : NameObs
  calls : DirCalls
  sub : DirObs

/-- What the listing says of a name. -/
def DirObs.find? : DirObs → String → Option Found
  | .nil, _ => none
  | .entry name kind o calls sub rest, n =>
      if name = n then some ⟨kind, o, calls, sub⟩ else rest.find? n

def DirObs.names : DirObs → List String
  | .nil => []
  | .entry name _ _ _ _ rest => name :: rest.names

/-- A listed name that is taken for a directory. -/
def isListedDir (kind : EntryKind) (o : NameObs) : Bool :=
  match kind with
  | .dir => true
  | .unknown => (o.kindStat.toOption.map fun st => st.kind == .dir).getD false
  | _ => false

/-! ## What a scan collects -/

structure SideData where
  conflictPaths : List Path
  stubs : List (Path × StubRecord)
  ignored : List (Path × Bool)
  unknownReserved : List Path
  unstablePaths : List Path
  seenOther : List Path
  seenStub : List Path
  unresolvedStubs : List Path

def SideData.empty : SideData := ⟨[], [], [], [], [], [], [], []⟩

def SideData.merge (a b : SideData) : SideData where
  conflictPaths := a.conflictPaths ++ b.conflictPaths
  stubs := a.stubs ++ b.stubs
  ignored := a.ignored ++ b.ignored
  unknownReserved := a.unknownReserved ++ b.unknownReserved
  unstablePaths := a.unstablePaths ++ b.unstablePaths
  seenOther := a.seenOther ++ b.seenOther
  seenStub := a.seenStub ++ b.seenStub
  unresolvedStubs := a.unresolvedStubs ++ b.unresolvedStubs

def SideData.unstable (p : Path) : SideData := { SideData.empty with unstablePaths := [p] }

/-- The settings of a scan, and what it has loaded. -/
structure ScanConfig where
  isIgnored : Path → Bool
  /-- the recorded entry of a path -/
  previous : Path → Option TreeEntry
  /-- the recorded entries directly in a directory -/
  childrenOf : Path → List (String × TreeEntry)
  fileJob : Path → FileJobConfig
  writeBlobs : Bool
  tolerateUnresolvedStubs : Bool
  /-- reading the tree object a stub records -/
  loadRecorded : Tree → Except ScanError Unit
  /-- the hash of a tree object -/
  treeHash : Tree → Hash

/-- One directory, scanned. -/
structure DirScan where
  tree : Tree
  files : List (Path × ScannedFile)
  side : SideData
  vanished : Bool

/-- A subdirectory's entry in its parent, and its scan. -/
structure SubScan where
  entry : Option TreeEntry
  files : List (Path × ScannedFile)
  side : SideData

/-- A listed name, with the scan of the directory it may be. -/
structure Listed where
  name : String
  kind : EntryKind
  o : NameObs
  child : Except ScanError SubScan

/-! ## Names of a level -/

/-- The names that are not left out. -/
def keptNames (l : List Listed) : List Listed := l.filter fun x => !isExcluded x.name

/-- What is noted of the names left out. -/
def excludedSide (pfx : Path) (l : List Listed) : SideData where
  conflictPaths := l.filterMap fun x =>
    if x.name ≠ metadataDirName then (conflictBaseName x.name).map fun b => pfx ++ [b] else none
  stubs := []
  ignored := []
  unknownReserved := l.filterMap fun x =>
    if isConflictArtifact x.name || isWorkingTreeTmp x.name || x.name == metadataDirName then none
    else if isUnknownReservedName x.name then some (pfx ++ [x.name]) else none
  unstablePaths := []
  seenOther := []
  seenStub := []
  unresolvedStubs := []

/-- The logical names of a level: a stub file contributes the name it stands for where no entry of
that name is listed.  `seen` are the names met before. -/
def logicalNames (raw : List String) : List Listed → List String → List (String × Option Listed)
  | [], _ => []
  | x :: l, seen =>
      if x.name = dirStubName then logicalNames raw l seen
      else match logicalName x.name with
        | some n =>
            if n ∉ raw ∧ n ∉ seen then (n, none) :: logicalNames raw l (n :: seen)
            else logicalNames raw l seen
        | none =>
            if x.name ∉ seen then (x.name, some x) :: logicalNames raw l (x.name :: seen)
            else logicalNames raw l seen

/-! ## One name -/

/-- What becomes of a name when it is classified. -/
inductive Outcome where
  | skip
  | entry (e : TreeEntry)
  /-- gone or replaced since it was listed: the recorded entry stands -/
  | unstable
  | subdir (child : Except ScanError SubScan)
  | file (stat : FileStat) (read : Except ScanError FileRead)

/-- The entry a file stub stands for. -/
def StubRecord.blob (treeHash : Tree → Hash) (r : StubRecord) : Blob where
  hash := match r.target with
    | .blob h => h
    | .tree t => treeHash t
  mtime := r.mtime
  size := r.size
  mode := r.mode

def StubRecord.meta' (r : StubRecord) : TreeMeta := ⟨r.mtime, r.size, r.blobCount⟩

/-- An entry of a listed kind. -/
def classifyKind (path : Path) (x : Listed) (kind : EntryKind) :
    Except ScanError (Outcome × SideData) :=
  match kind with
  | .symlink =>
      match x.o.lstat with
      | .error .notFound => .ok (.unstable, .unstable path)
      | .error e => .error e
      | .ok st =>
          match x.o.readLink with
          | .error .notFound => .ok (.unstable, .unstable path)
          | .error .einval => .ok (.unstable, .unstable path)
          | .error e => .error e
          | .ok target =>
              .ok (.entry (.symlink ⟨target, systemTimeToDatetime st.file.mtime⟩),
                { SideData.empty with seenOther := [path] })
  | .dir => .ok (.subdir x.child, { SideData.empty with seenOther := [path] })
  | .file =>
      match x.o.lstat with
      | .error .notFound => .ok (.unstable, .unstable path)
      | .error e => .error e
      | .ok st =>
          if st.kind = .file then .ok (.file st.file x.o.readFile, .empty)
          else .ok (.unstable, .unstable path)
  | .other => .ok (.skip, .empty)
  | .unknown => .ok (.skip, .empty)

/-- An entry that is there, whatever its stub file says. -/
def classifyReal (path : Path) (x : Listed) : Except ScanError (Outcome × SideData) :=
  match x.kind with
  | .unknown =>
      match x.o.kindStat with
      | .ok st => classifyKind path x st.kind
      | .error .notFound => .ok (.unstable, .unstable path)
      | .error e => .error e
  | k => classifyKind path x k

def isIgnoredDir (real : Option Listed) (look : Except ScanError EntryStat) : Bool :=
  match real.map Listed.kind with
  | some .dir => true
  | some .unknown => (look.toOption.map fun st => st.kind == .dir).getD false
  | none => (look.toOption.map fun st => st.kind == .dir).getD false
  | some _ => false

/-- One logical name.  An unreadable stub file is an error where nothing else is left of the name. -/
def classifyName (cfg : ScanConfig) (calls : DirCalls) (pfx : Path) (kept : List Listed)
    (name : String) (real : Option Listed) : Except ScanError (Outcome × SideData) :=
  let path := pfx ++ [name]
  if cfg.isIgnored path then
    let look := match real with
      | some x => x.o.lstat
      | none => calls.lookAgain name
    .ok (.skip, { SideData.empty with ignored := [(path, isIgnoredDir real look)] })
  else
    match kept.find? fun y => y.name = name ++ stubSuffix with
    | some y =>
        match y.o.readStub, real with
        | .ok r, none =>
            .ok (.entry (.blob (r.blob cfg.treeHash)),
              { SideData.empty with stubs := [(path, r)], seenStub := [path] })
        | .ok r, some x =>
            (classifyReal path x).map fun out =>
              (out.1, { SideData.empty with stubs := [(path, r)] }.merge out.2)
        | .error e, none => .error e
        | .error e, some x => if e = .tooManyOpenFiles then .error e else classifyReal path x
    | none =>
        match real with
        | some x => classifyReal path x
        | none => .ok (.skip, .empty)

/-! ## One directory -/

/-- The entry of a name, after the jobs it was deferred to. -/
structure NameScan where
  entry : Option TreeEntry
  files : List (Path × ScannedFile)
  side : SideData

/-- `process_file_job` with the file's own failures: one that is gone or changed while it is read is
unstable, but a scan that only hashes takes a missing file for an error. -/
def runFileJob (cfg : ScanConfig) (path : Path) (stat : FileStat)
    (read : Except ScanError FileRead) : Except ScanError FileJobResult :=
  let job := cfg.fileJob path
  match cacheHit job stat, fallbackHit job stat with
  | none, none =>
      match read with
      | .ok r => .ok (processFileJob job stat r)
      | .error .sourceChanged => .ok (processFileJob job stat .sourceChanged)
      | .error .notFound =>
          if cfg.writeBlobs then .ok (processFileJob job stat .sourceChanged) else .error .notFound
      | .error e => .error e
  | _, _ => .ok (processFileJob job stat .sourceChanged)

def runOutcome (cfg : ScanConfig) (path : Path) : Outcome → Except ScanError NameScan
  | .skip => .ok ⟨none, [], .empty⟩
  | .entry e => .ok ⟨some e, [], .empty⟩
  | .unstable => .ok ⟨cfg.previous path, [], .empty⟩
  | .subdir child => child.map fun s => ⟨s.entry, s.files, s.side⟩
  | .file stat read =>
      (runFileJob cfg path stat read).map fun res =>
        ⟨res.entry, (res.scanned.map fun f => (path, f)).toList,
          if res.unstable then .unstable path else .empty⟩

/-- Every logical name of a level, with what it contributes. -/
def scanNames (cfg : ScanConfig) (calls : DirCalls) (pfx : Path) (kept : List Listed) :
    List (String × Option Listed) → Except ScanError (List (String × NameScan))
  | [] => .ok []
  | (name, real) :: l =>
      classifyName cfg calls pfx kept name real >>= fun out =>
      runOutcome cfg (pfx ++ [name]) out.1 >>= fun res =>
      scanNames cfg calls pfx kept l >>= fun rest =>
      .ok ((name, { res with side := out.2.merge res.side }) :: rest)

/-- The entries of a level. -/
def levelEntries (scans : List (String × NameScan)) : List (String × TreeEntry) :=
  scans.filterMap fun x => x.2.entry.map fun e => (x.1, e)

/-- What a level collects; `back` are the recorded names that reappeared. -/
def levelSide (pfx : Path) (l : List Listed) (scans : List (String × NameScan))
    (back : List (String × TreeEntry)) : SideData :=
  SideData.merge { SideData.empty with unstablePaths := back.map fun x => pfx ++ [x.1] }
    ((scans.foldr (fun x s => x.2.side.merge s) SideData.empty).merge (excludedSide pfx l))

/-- Recorded names that were not listed and are there in the end. -/
def reappeared (calls : DirCalls) (raw present : List String) :
    List (String × TreeEntry) → Except ScanError (List (String × TreeEntry))
  | [] => .ok []
  | (name, old) :: l =>
      if name ∈ raw ∨ name ∈ present then reappeared calls raw present l
      else
        match calls.lookAgain name with
        | .ok _ => (reappeared calls raw present l).map fun rest => (name, old) :: rest
        | .error .notFound => reappeared calls raw present l
        | .error e => .error e

/-- The directory is still the one its name leads to. -/
def stillThere (calls : DirCalls) : Except ScanError Bool :=
  match calls.recheck with
  | .ok now =>
      if now.kind = .dir then calls.fstat.map fun st => now.object == st.object else .ok false
  | .error .notFound => .ok false
  | .error e => .error e

/-- `rechecked` is false for the repository root alone. -/
def scanDir (cfg : ScanConfig) (rechecked : Bool) (pfx : Path) (calls : DirCalls)
    (l : List Listed) : Except ScanError DirScan :=
  calls.listing >>= fun _ =>
  let kept := keptNames l
  let raw := kept.map Listed.name
  scanNames cfg calls pfx kept (logicalNames raw kept []) >>= fun scans =>
  let entries := levelEntries scans
  (if cfg.writeBlobs then
    reappeared calls raw (entries.map Prod.fst) (cfg.childrenOf pfx) else .ok []) >>= fun back =>
  let side := levelSide pfx l scans back
  (if rechecked then stillThere calls else .ok true) >>= fun there =>
  .ok (if there then
      ⟨Tree.buildAndStore (entries ++ back), scans.flatMap fun x => x.2.files, side, false⟩
    else
      ⟨.nil, [], (SideData.unstable pfx).merge side, true⟩)

/-! ## Stubbed directories -/

inductive DirStubKind where
  | none
  | full (t : Tree) (m : TreeMeta)
  | partialStub (t : Tree) (m : TreeMeta)

/-- Any error but running out of descriptors counts as a directory without real children. -/
def dirHasRealChildren (calls : DirCalls) : Except ScanError Bool :=
  match calls.relist with
  | .ok names => .ok (names.any fun n => n ≠ dirStubName)
  | .error .tooManyOpenFiles => .error .tooManyOpenFiles
  | .error _ => .ok false

def classifyDirStub (path : Path) (calls : DirCalls) :
    Except ScanError (DirStubKind × List (Path × StubRecord)) :=
  match calls.markerStat with
  | .error .notFound => .ok (.none, [])
  | .error e => .error e
  | .ok st =>
      if st.kind ≠ .file then .ok (.none, [])
      else calls.readMarker >>= fun r =>
        match r.target with
        | .blob _ => .ok (.none, [(path, r)])
        | .tree t => (dirHasRealChildren calls).map fun real =>
            (if real then .partialStub t r.meta' else .full t r.meta', [(path, r)])

/-- Recorded entries stand where the disk has none of the name. -/
def mergePartialExpansion (recorded disk : Tree) : Tree :=
  .buildAndStore (disk.entries ++ recorded.entries.filter fun x => x.1 ∉ disk.names)

/-- A subdirectory: opened, its marker classified, scanned and merged. -/
def scanSubdir (cfg : ScanConfig) (path : Path) (calls : DirCalls)
    (scan : Except ScanError DirScan) : Except ScanError SubScan :=
  match calls.openDir with
  | .error .symlinkEscape => .ok ⟨cfg.previous path, [], .unstable path⟩
  | .error .notFound => .ok ⟨cfg.previous path, [], .unstable path⟩
  | .error e => .error e
  | .ok _ =>
      classifyDirStub path calls >>= fun stub =>
      match stub.1 with
      | .full t m => .ok ⟨some (.tree t m), [], { SideData.empty with stubs := stub.2 }⟩
      | kind =>
          scan >>= fun s =>
          let side := s.side.merge { SideData.empty with stubs := stub.2 }
          if s.vanished then
            .ok ⟨cfg.previous path, s.files, (SideData.unstable path).merge side⟩
          else
            match kind with
            | .partialStub t m =>
                match cfg.loadRecorded t with
                | .ok _ =>
                    let merged := mergePartialExpansion t s.tree
                    .ok ⟨some (.tree merged (Tree.treeMeta merged)), s.files, side⟩
                | .error .objectNotFound =>
                    if cfg.tolerateUnresolvedStubs then
                      .ok ⟨some (.tree t m), s.files,
                        SideData.merge { SideData.empty with unresolvedStubs := [path] } side⟩
                    else .error .objectNotFound
                | .error e => .error e
            | _ => .ok ⟨some (.tree s.tree (Tree.treeMeta s.tree)), s.files, side⟩

/-- A listing with the scans of the directories in it. -/
def listed (cfg : ScanConfig) : Path → DirObs → List Listed
  | _, .nil => []
  | pfx, .entry name kind o calls sub rest =>
      ⟨name, kind, o, scanSubdir cfg (pfx ++ [name]) calls
        (scanDir cfg true (pfx ++ [name]) calls (listed cfg (pfx ++ [name]) sub))⟩
        :: listed cfg pfx rest

/-! ## The scan -/

structure ScanResult where
  root : Tree
  files : List (Path × ScannedFile)
  side : SideData

/-- A scan of the directory at `root`, `[]` for the whole working tree.  The marker of the scanned
directory itself is classified after it was scanned. -/
def scanImpl (cfg : ScanConfig) (root : Path) (calls : DirCalls) (obs : DirObs) :
    Except ScanError ScanResult :=
  (match calls.openDir with
    | .error .notFound => .error .sourceChanged
    | .error .symlinkEscape => .error .sourceChanged
    | r => r) >>= fun _ =>
  scanDir cfg (root ≠ []) root calls (listed cfg root obs) >>= fun s =>
  if s.vanished then .error .sourceChanged
  else
    classifyDirStub root calls >>= fun stub =>
    let side := s.side.merge { SideData.empty with stubs := stub.2 }
    match stub.1 with
    | .none => .ok ⟨s.tree, s.files, side⟩
    | .full t _ => .ok ⟨t, s.files, side⟩
    | .partialStub t _ =>
        match cfg.loadRecorded t with
        | .ok _ => .ok ⟨mergePartialExpansion t s.tree, s.files, side⟩
        | .error .objectNotFound =>
            if cfg.tolerateUnresolvedStubs then
              .ok ⟨t, s.files, SideData.merge { SideData.empty with unresolvedStubs := [root] } side⟩
            else .error .objectNotFound
        | .error e => .error e

end Omemfs.Scan
