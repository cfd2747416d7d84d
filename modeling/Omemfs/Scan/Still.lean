/-
# Omemfs.Scan.Still — a working tree that nobody changes, and what a scan makes of it.

A `Disk` is the directory tree below the working directory: files, symlinks and special files with what
`lstat` and reading tell of them.  `observe` lists it as the calls of a scan would find it.

What a scan records of it is said path by path (`view`).  A name stands for the entry listed under it,
else for the blob its stub file records, else for what the tree in the marker of its directory has there.
A fully stubbed directory is the case in which nothing is listed beside the marker.  A scan that succeeds
returns the tree of that view (`scan_view`), and it succeeds when every stub file can be read
(`scan_succeeds`).
-/
import Omemfs.Lib.DirTree
import Omemfs.Scan.Schedule

namespace Omemfs.Scan

open Lib

/-! ## What lies in a working tree -/

/-- The text of a file: its hash, and the stub record it is, if it is one. -/
structure Content where
  hash : Hash
  record : Option StubRecord
  deriving DecidableEq

inductive DiskLeaf where
  | file (c : Content) (stat : FileStat)
  | symlink (target : String) (mtime : Option Time)
  | special
  deriving DecidableEq

abbrev Disk := DirTree String DiskLeaf

def DiskLeaf.kind : DiskLeaf → EntryKind
  | .file .. => .file
  | .symlink .. => .symlink
  | .special => .other

def DiskLeaf.lstat : DiskLeaf → EntryStat
  | .file _ stat => ⟨.file, stat, 0⟩
  | .symlink _ mtime => ⟨.symlink, ⟨mtime, 0, none⟩, 0⟩
  | .special => ⟨.other, ⟨none, 0, none⟩, 0⟩

def dirStat : EntryStat := ⟨.dir, ⟨none, 0, none⟩, 0⟩

def statOf : Item String DiskLeaf → EntryStat
  | .leaf a => a.lstat
  | .sub _ => dirStat

/-- A stub record is read from a regular file. -/
def DiskLeaf.readStub : DiskLeaf → Except ScanError StubRecord
  | .file c _ =>
      match c.record with
      | some r => .ok r
      | none => .error .malformedStub
  | _ => .error .io

/-- Where a call on a name is answered. -/
def answer {α : Type} (x : Option (Item String DiskLeaf)) (call : Item String DiskLeaf → Except ScanError α) :
    Except ScanError α :=
  match x with
  | none => .error .notFound
  | some x => call x

def readStubOf : Item String DiskLeaf → Except ScanError StubRecord
  | .leaf a => a.readStub
  | .sub _ => .error .io

def nameObs (x : Item String DiskLeaf) : NameObs where
  kindStat := .ok (statOf x)
  lstat := .ok (statOf x)
  readLink := match x with
    | .leaf (.symlink target _) => .ok target
    | _ => .error .einval
  readFile := match x with
    | .leaf (.file c stat) => .ok (.ok c.hash stat)
    | _ => .error .io
  readStub := readStubOf x
  readFilter := none

/-- The calls on a directory that nobody changes. -/
def stillCalls (d : Disk) : DirCalls where
  openDir := .ok ()
  listing := .ok ()
  markerStat := answer (d.find? dirStubName) fun x => .ok (statOf x)
  readMarker := answer (d.find? dirStubName) readStubOf
  relist := .ok d.names
  lookAgain n := answer (d.find? n) fun x => .ok (statOf x)
  fstat := .ok dirStat
  recheck := .ok dirStat

def observe : Disk → DirObs
  | .nil => .nil
  | .leaf n a rest => .entry n a.kind (nameObs (.leaf a)) (stillCalls .nil) .nil (observe rest)
  | .sub n d rest => .entry n .dir (nameObs (.sub d)) (stillCalls d) (observe d) (observe rest)

/-- A scan that knows of no recorded entry and uses no cache. -/
def stillConfig (isIgnored : Path → Bool) (loadRecorded : Tree → Except ScanError Unit)
    (treeHash : Tree → Hash) : ScanConfig where
  isIgnored := isIgnored
  previous _ := none
  childrenOf _ := []
  fileJob _ := ⟨false, 0, none, false, none, fun _ => false⟩
  writeBlobs := false
  tolerateUnresolvedStubs := false
  loadRecorded := loadRecorded
  treeHash := treeHash

/-! ## What a scan records -/

/-- A path of a tree, or of the working tree as a scan records it. -/
inductive Node where
  | blob (hash : Hash) (mode : Option String)
  | symlink (target : String)
  | dir
  deriving DecidableEq

/-- `lstat` at every path of a working tree. -/
abbrev Lstat := Path → Option (Kind DiskLeaf)

def kindNode : Kind DiskLeaf → Option Node
  | .leaf (.file c stat) => some (.blob c.hash stat.mode)
  | .leaf (.symlink target _) => some (.symlink target)
  | .leaf .special => none
  | .dir => some .dir

def entryNode : TreeEntry → Node
  | .blob b => .blob b.hash b.mode
  | .tree _ _ => .dir
  | .symlink l => .symlink l.target

/-- The record in a file, if it is a regular file that holds one. -/
def recordIn : Option (Kind DiskLeaf) → Option StubRecord
  | some (.leaf (.file c _)) => c.record
  | _ => none

/-- The record of the stub file of a name. -/
def fileStub (g : Lstat) (pfx : Path) (n : String) : Option StubRecord :=
  if isExcluded (n ++ stubSuffix) ∨ n = "" then none else recordIn (g (pfx ++ [n ++ stubSuffix]))

/-- The tree in the marker of a directory. -/
def markerTree (g : Lstat) (pfx : Path) : Option Tree :=
  (recordIn (g (pfx ++ [dirStubName]))).bind fun r =>
    match r.target with
    | .tree t => some t
    | .blob _ => none

/-- What a directory has under a name besides the tree of its marker. -/
def ownNode (treeHash : Tree → Hash) (isIgnored : Path → Bool) (g : Lstat) (pfx : Path) (n : String) :
    Option Node :=
  if isIgnored (pfx ++ [n]) then none
  else
    match if isExcluded n then none else g (pfx ++ [n]) with
    | some k => if logicalName n = none then kindNode k else none
    | none => (fileStub g pfx n).map fun r => entryNode (.blob (r.blob treeHash))

/-- What is recorded at a path below a directory. -/
def view (treeHash : Tree → Hash) (isIgnored : Path → Bool) (g : Lstat) : Path → Path → Option Node
  | _, [] => some .dir
  | pfx, n :: p =>
      match ownNode treeHash isIgnored g pfx n with
      | some .dir => view treeHash isIgnored g (pfx ++ [n]) p
      | some x => if p = [] then some x else none
      | none => (markerTree g pfx).bind fun t => (t.at (n :: p)).map entryNode

/-! ## Facts of the view -/

theorem fileStub_of_none {g : Lstat} {pfx : Path} {n : String}
    (h : n = "" ∨ g (pfx ++ [n ++ stubSuffix]) = none) : fileStub g pfx n = none := by
  unfold fileStub
  rcases h with rfl | h
  · simp
  · rw [h]
    split_ifs <;> rfl

/-- Nothing under the name, or a stub file, and no stub file for it. -/
theorem ownNode_of_none (treeHash : Tree → Hash) (isIgnored : Path → Bool) {g : Lstat} {pfx : Path}
    {n : String} (h : g (pfx ++ [n]) = none ∨ logicalName n ≠ none)
    (hstub : n = "" ∨ g (pfx ++ [n ++ stubSuffix]) = none) : ownNode treeHash isIgnored g pfx n = none := by
  have hfile := fileStub_of_none hstub
  unfold ownNode
  cases isIgnored (pfx ++ [n]) with
  | true => rfl
  | false =>
      simp only [Bool.false_eq_true, if_false]
      cases hx : (if isExcluded n then none else g (pfx ++ [n])) with
      | none => simp only [hfile, Option.map_none]
      | some k =>
          have hl : logicalName n ≠ none := by
            refine h.resolve_left fun hnone => ?_
            rw [hnone, ite_self] at hx
            cases hx
          simp only [if_neg hl]

/-- What lies below two directories alike is recorded alike. -/
theorem view_shift (treeHash : Tree → Hash) {isIgnored isIgnored' : Path → Bool} {g g' : Lstat}
    {pfx pfx' : Path} (hi : ∀ q, isIgnored (pfx ++ q) = isIgnored' (pfx' ++ q))
    (hg : ∀ q, g (pfx ++ q) = g' (pfx' ++ q)) (p : Path) :
    view treeHash isIgnored g pfx p = view treeHash isIgnored' g' pfx' p := by
  induction p generalizing pfx pfx' with
  | nil => rfl
  | cons n p ih =>
      have hown : ownNode treeHash isIgnored g pfx n = ownNode treeHash isIgnored' g' pfx' n := by
        simp only [ownNode, fileStub, hi, hg]
      have hmarker : markerTree g pfx = markerTree g' pfx' := by
        simp only [markerTree, hg]
      have hbelow : view treeHash isIgnored g (pfx ++ [n]) p = view treeHash isIgnored' g' (pfx' ++ [n]) p := by
        apply ih
        · intro q
          rw [List.append_assoc, List.append_assoc, hi]
        · intro q
          rw [List.append_assoc, List.append_assoc, hg]
      rw [view, view, hown, hmarker, hbelow]

/-! ## The listing -/

theorem find?_observe (d : Disk) (n : String) :
    (observe d).find? n = (d.find? n).map fun x =>
      match x with
      | .leaf a => ⟨a.kind, nameObs (.leaf a), stillCalls .nil, .nil⟩
      | .sub s => ⟨.dir, nameObs (.sub s), stillCalls s, observe s⟩ := by
  induction d with
  | nil => rfl
  | leaf m a rest ih =>
      rw [observe, DirObs.find?, DirTree.find?]
      by_cases h : m = n
      · simp [h]
      · rw [if_neg h, if_neg (Ne.symm h), ih]
  | sub m s rest _ ih =>
      rw [observe, DirObs.find?, DirTree.find?]
      by_cases h : m = n
      · simp [h]
      · rw [if_neg h, if_neg (Ne.symm h), ih]

theorem names_observe (d : Disk) : (observe d).names = d.names := by
  induction d with
  | nil => rfl
  | leaf n a rest ih => rw [observe, DirObs.names, ih, DirTree.names]
  | sub n s rest _ ih => rw [observe, DirObs.names, ih, DirTree.names]

/-- An entry of the listing, with the scan of the directory it may be. -/
def listedItem (cfg : ScanConfig) (pfx : Path) (n : String) : Item String DiskLeaf → Listed
  | .leaf a => ⟨n, a.kind, nameObs (.leaf a), scanSubdir cfg (pfx ++ [n]) (stillCalls .nil)
      (scanDir cfg true (pfx ++ [n]) (stillCalls .nil) [])⟩
  | .sub s => ⟨n, .dir, nameObs (.sub s), scanSubdir cfg (pfx ++ [n]) (stillCalls s)
      (scanDir cfg true (pfx ++ [n]) (stillCalls s) (listed cfg (pfx ++ [n]) (observe s)))⟩

theorem find?_kept_observe (cfg : ScanConfig) (pfx : Path) (d : Disk) (n : String) :
    (keptNames (listed cfg pfx (observe d))).find? (fun y => y.name = n) =
      if isExcluded n then none else (d.find? n).map (listedItem cfg pfx n) := by
  rw [find?_keptNames, find?_listed, find?_observe]
  split_ifs
  · rfl
  · cases d.find? n with
    | none => rfl
    | some x => cases x <;> rfl

theorem mem_keptRaw (cfg : ScanConfig) {pfx : Path} {d : Disk} {n : String} :
    n ∈ (keptNames (listed cfg pfx (observe d))).map Listed.name ↔
      isExcluded n = false ∧ d.find? n ≠ none := by
  have hfind := find?_kept_observe cfg pfx d n
  constructor
  · intro hn
    obtain ⟨y, hy, rfl⟩ := List.mem_map.mp hn
    have hsome : (keptNames (listed cfg pfx (observe d))).find? (fun z => z.name = y.name) ≠ none :=
      fun h => by simpa using List.find?_eq_none.mp h y hy
    rw [hfind] at hsome
    split_ifs at hsome with hx
    · exact absurd rfl hsome
    · exact ⟨by simpa using hx, by simpa using hsome⟩
  · rintro ⟨hx, hd⟩
    obtain ⟨x, hx'⟩ := Option.ne_none_iff_exists'.mp hd
    rw [hx, hx'] at hfind
    have hy := List.mem_of_find?_eq_some hfind
    have hname : (listedItem cfg pfx n x).name = n := by cases x <;> rfl
    exact hname ▸ List.mem_map_of_mem hy

/-! ## One level -/

/-- What a scan is given is right: a cached or recorded hash that stands in for reading a file is the
file's own, a recorded name is none that a listing leaves out, and an object that is not there is an
error. -/
structure Informed (cfg : ScanConfig) (g : Lstat) : Prop where
  cached : ∀ p c stat m e, g p = some (.leaf (.file c stat)) →
    cacheHit (cfg.fileJob p) stat = some (m, e) → e.hash = c.hash
  fallback : ∀ p c stat b, g p = some (.leaf (.file c stat)) →
    fallbackHit (cfg.fileJob p) stat = some b → b.hash = c.hash
  children : ∀ p, ∀ x ∈ cfg.childrenOf p, isExcluded x.1 = false
  strict : cfg.tolerateUnresolvedStubs = false

/-- Who knows of nothing knows of nothing wrong. -/
theorem informed_still (isIgnored : Path → Bool) (load : Tree → Except ScanError Unit)
    (treeHash : Tree → Hash) (g : Lstat) : Informed (stillConfig isIgnored load treeHash) g where
  cached p c stat m e _ h := by
    unfold cacheHit at h
    cases hm : stat.mtime with
    | none => simp [hm] at h
    | some t => simp [hm, stillConfig, lookupCurrentEntry] at h
  fallback p c stat b _ h := by cases h
  children p x hx := by cases hx
  strict := rfl

section Level

variable {cfg : ScanConfig} {g : Lstat} {pfx : Path} {d : Disk}

/-- Read or not, a file is recorded with its hash and its mode. -/
theorem runFileJob_informed (hcfg : Informed cfg g) {path : Path} {c : Content} {stat : FileStat}
    (hfile : g path = some (.leaf (.file c stat))) :
    ∃ res, runFileJob cfg path stat (.ok (.ok c.hash stat)) = .ok res ∧
      res.entry.map entryNode = some (.blob c.hash stat.mode) := by
  cases hc : cacheHit (cfg.fileJob path) stat with
  | some hit =>
      obtain ⟨m, e⟩ := hit
      refine ⟨_, by simp only [runFileJob, hc]; rfl, ?_⟩
      simp only [processFileJob, hc, Option.map_some, entryNode, hcfg.cached _ _ _ _ _ hfile hc]
  | none =>
      cases hf : fallbackHit (cfg.fileJob path) stat with
      | some b =>
          refine ⟨_, by simp only [runFileJob, hc, hf]; rfl, ?_⟩
          simp only [processFileJob, hc, hf, Option.map_some, entryNode,
            hcfg.fallback _ _ _ _ hfile hf]
      | none =>
          refine ⟨_, by simp only [runFileJob, hc, hf]; rfl, ?_⟩
          simp only [processFileJob, hc, hf, Option.map_some, entryNode]
          split_ifs <;> rfl

/-- A leaf adds the node it is. -/
theorem yields_leaf (hcfg : Informed cfg g) {kept : List Listed} {n : String} {a : DiskLeaf}
    {z : NameScan} {child : Except ScanError SubScan} (hi : cfg.isIgnored (pfx ++ [n]) = false)
    (hleaf : g (pfx ++ [n]) = some (.leaf a))
    (h : Yields cfg (stillCalls d) pfx kept n (some ⟨n, a.kind, nameObs (.leaf a), child⟩) z) :
    z.entry.map entryNode = kindNode (.leaf a) := by
  obtain ⟨out, res, hout, hres, rfl⟩ := h
  obtain ⟨side, hreal⟩ := classifyName_real hi hout
  cases a with
  | file c stat =>
      have hfile : out.1 = .file stat (.ok (.ok c.hash stat)) :=
        congrArg Prod.fst (Except.ok.inj hreal).symm
      rw [hfile] at hres
      obtain ⟨job, hjob, hentry⟩ := runFileJob_informed hcfg hleaf
      simp only [runOutcome, hjob, Except.map, Except.ok.injEq] at hres
      rw [← hres]
      exact hentry
  | symlink target mtime =>
      have hlink : out.1 = .entry (.symlink ⟨target, systemTimeToDatetime mtime⟩) :=
        congrArg Prod.fst (Except.ok.inj hreal).symm
      rw [hlink] at hres
      cases hres
      rfl
  | special =>
      have hskip : out.1 = .skip := congrArg Prod.fst (Except.ok.inj hreal).symm
      rw [hskip] at hres
      cases hres
      rfl

theorem yields_ignored {calls : DirCalls} {kept : List Listed} {n : String}
    {real : Option Listed} {z : NameScan} (hi : cfg.isIgnored (pfx ++ [n]) = true)
    (h : Yields cfg calls pfx kept n real z) : z.entry = none := by
  obtain ⟨out, res, hout, hres, rfl⟩ := h
  simp only [classifyName, hi, if_true] at hout
  cases hout
  cases hres
  rfl

/-- A stub file alone adds the blob it records. -/
theorem yields_stub {kept : List Listed} {n : String} {y : Listed} {z : NameScan}
    (hi : cfg.isIgnored (pfx ++ [n]) = false)
    (hy : kept.find? (fun y => y.name = n ++ stubSuffix) = some y)
    (h : Yields cfg (stillCalls d) pfx kept n none z) :
    ∃ r, y.o.readStub = .ok r ∧ z.entry = some (.blob (r.blob cfg.treeHash)) := by
  obtain ⟨out, res, hout, hres, rfl⟩ := h
  simp only [classifyName, hi, Bool.false_eq_true, if_false, hy] at hout
  cases hs : y.o.readStub with
  | error e => simp [hs] at hout
  | ok r =>
      simp only [hs] at hout
      cases hout
      cases hres
      exact ⟨r, rfl, rfl⟩

/-- A stub record is read where there is one. -/
theorem record_of_readStub (x : Item String DiskLeaf) {r : StubRecord} (h : readStubOf x = .ok r) :
    recordIn (some x.kind) = some r := by
  cases x with
  | sub d => cases h
  | leaf a =>
      cases a with
      | file c stat =>
          show c.record = some r
          change DiskLeaf.readStub (.file c stat) = .ok r at h
          rw [DiskLeaf.readStub] at h
          cases hc : c.record with
          | none => simp [hc] at h
          | some r' => simpa [hc] using h
      | _ => cases h

/-- What the marker of a directory makes of it. -/
theorem classifyDirStub_still {path : Path} {k : DirStubKind} {stubs : List (Path × StubRecord)}
    (h : classifyDirStub path (stillCalls d) = .ok (k, stubs)) :
    (k = .none ∧ markerTree d.get [] = none) ∨ ∃ t m, markerTree d.get [] = some t ∧
      (k = .full t m ∧ (∀ n ∈ d.names, n = dirStubName) ∨ k = .partialStub t m) := by
  have hmarker : d.get [dirStubName] = (d.find? dirStubName).map Item.kind := by
    rw [DirTree.get, DirTree.at_singleton]
  have hstat : (stillCalls d).markerStat = answer (d.find? dirStubName) fun x => .ok (statOf x) := rfl
  have hread : (stillCalls d).readMarker = answer (d.find? dirStubName) readStubOf := rfl
  have hlist : (stillCalls d).relist = .ok d.names := rfl
  unfold markerTree
  rw [List.nil_append, hmarker]
  simp only [classifyDirStub, hstat, hread, dirHasRealChildren, hlist] at h
  cases hf : d.find? dirStubName with
  | none =>
      simp only [hf, answer] at h
      cases h
      exact .inl ⟨rfl, rfl⟩
  | some x =>
      simp only [hf, answer] at h
      cases x with
      | sub s =>
          cases h
          exact .inl ⟨rfl, rfl⟩
      | leaf a =>
          cases a with
          | symlink target mtime =>
              cases h
              exact .inl ⟨rfl, rfl⟩
          | special =>
              cases h
              exact .inl ⟨rfl, rfl⟩
          | file c stat =>
              simp only [Option.map_some, Item.kind, recordIn]
              simp only [statOf, DiskLeaf.lstat, readStubOf, DiskLeaf.readStub, ne_eq,
                not_true_eq_false, if_false] at h
              cases hc : c.record with
              | none =>
                  rw [hc] at h
                  cases h
              | some r =>
                  rw [hc] at h
                  obtain ⟨r', hr', h⟩ := bind_eq_ok.mp h
                  cases hr'
                  cases ht : r.target with
                  | blob hash =>
                      simp only [ht] at h
                      cases h
                      exact .inl ⟨rfl, by simp [ht]⟩
                  | tree t =>
                      simp only [ht] at h
                      refine .inr ⟨t, r.meta', by simp [ht], ?_⟩
                      cases hany : d.names.any (fun n => decide (n ≠ dirStubName)) with
                      | true =>
                          rw [hany] at h
                          cases h
                          exact .inr rfl
                      | false =>
                          rw [hany] at h
                          cases h
                          exact .inl ⟨rfl, by simpa using hany⟩

/-- A directory of the disk is recorded as this tree: its marker's where nothing else is listed, else
what its scan found, over the marker's. -/
def RecordedAs (cfg : ScanConfig) (path : Path) (d : Disk) (t : Tree) : Prop :=
  (markerTree d.get [] = some t ∧ ∀ n ∈ d.names, n = dirStubName) ∨
    ∃ s, scanDir cfg true path (stillCalls d) (listed cfg path (observe d)) = .ok s ∧
      match markerTree d.get [] with
      | none => t = s.tree
      | some t' => t = mergePartialExpansion t' s.tree

theorem stillThere_still : stillThere (stillCalls d) = .ok true := rfl

theorem vanished_still {rechecked : Bool} {path : Path} {l : List Listed} {s : DirScan}
    (h : scanDir cfg rechecked path (stillCalls d) l = .ok s) : s.vanished = false := by
  obtain ⟨-, -, -, -, hthere, -⟩ := scanDir_ok h
  rw [stillThere_still, ite_self] at hthere
  simpa using (Except.ok.inj hthere).symm

theorem subdir_still (hcfg : Informed cfg g) {path : Path} {c : SubScan}
    (h : scanSubdir cfg path (stillCalls d)
      (scanDir cfg true path (stillCalls d)
        (listed cfg path (observe d))) = .ok c) :
    ∃ t m, c.entry = some (.tree t m) ∧
      RecordedAs cfg path d t := by
  cases scanSubdir_cases h with
  | gone hopen => simp [stillCalls] at hopen
  | vanished hopen hstub hs hv =>
      rw [vanished_still hs] at hv
      cases hv
  | full hopen hstub =>
      rcases classifyDirStub_still hstub with ⟨hk, -⟩ | ⟨t, m, hmarker, ⟨hk, hnames⟩ | hk⟩
      · cases hk
      · cases hk
        exact ⟨_, _, rfl, .inl ⟨hmarker, hnames⟩⟩
      · cases hk
  | plain hopen hstub hs hv =>
      rcases classifyDirStub_still hstub with ⟨-, hmarker⟩ | ⟨t, m, hmarker, ⟨hk, hnames⟩ | hk⟩
      · refine ⟨_, _, rfl, .inr ⟨_, hs, ?_⟩⟩
        rw [hmarker]
      · cases hk
      · cases hk
  | merged hopen hstub hs hv hload =>
      rcases classifyDirStub_still hstub with ⟨hk, -⟩ | ⟨t, m, hmarker, ⟨hk, hnames⟩ | hk⟩
      · cases hk
      · cases hk
      · cases hk
        refine ⟨_, _, rfl, .inr ⟨_, hs, ?_⟩⟩
        rw [hmarker]
  | unresolved hopen hstub hs hv hload htol =>
      rw [hcfg.strict] at htol
      cases htol

/-- The kept names of a directory of the disk. -/
abbrev keptOf (cfg : ScanConfig) (pfx : Path) (d : Disk) : List Listed :=
  keptNames (listed cfg pfx (observe d))

abbrev namesOf (cfg : ScanConfig) (pfx : Path) (d : Disk) : List (String × Option Listed) :=
  logicalNames ((keptOf cfg pfx d).map Listed.name) (keptOf cfg pfx d) []

/-- The marker is the stub file of no name. -/
theorem marker_iff {n : String} : n ++ stubSuffix = dirStubName ↔ n = "" := by
  rw [← String.toList_inj, String.toList_append]
  simp [stubSuffix, dirStubName]

/-- The names of a level: those of its entries, and those that only a stub file stands for. -/
theorem mem_namesOf {n : String} {real : Option Listed} :
    (n, real) ∈ namesOf cfg pfx d ↔
      match real with
      | some x => isExcluded n = false ∧ logicalName n = none ∧
          ∃ y, d.find? n = some y ∧ x = listedItem cfg pfx n y
      | none => (isExcluded n = true ∨ d.find? n = none) ∧ n ≠ "" ∧
          isExcluded (n ++ stubSuffix) = false ∧ d.find? (n ++ stubSuffix) ≠ none := by
  have hraw : ∀ y ∈ keptOf cfg pfx d, y.name ∈ (keptOf cfg pfx d).map Listed.name := fun y hy =>
    List.mem_map_of_mem hy
  cases real with
  | some x =>
      rw [mem_logicalNames_some hraw, find?_kept_observe]
      cases isExcluded n <;> simp [and_comm, eq_comm]
  | none =>
      rw [mem_logicalNames_none hraw, mem_keptRaw]
      have hstub : ∀ m, logicalName m = some n ↔ m = n ++ stubSuffix := fun m => stripSuffix_eq_some
      have hlisted : (∃ y ∈ keptOf cfg pfx d,
          y.name ≠ dirStubName ∧ logicalName y.name = some n) ↔
          n ≠ "" ∧ isExcluded (n ++ stubSuffix) = false ∧ d.find? (n ++ stubSuffix) ≠ none := by
        rw [← mem_keptRaw cfg, List.mem_map]
        constructor
        · rintro ⟨y, hy, hne, hl⟩
          rw [hstub] at hl
          exact ⟨fun h => hne (hl ▸ marker_iff.mpr h), y, hy, hl⟩
        · rintro ⟨hne, y, hy, hl⟩
          exact ⟨y, hy, fun h => hne (marker_iff.mp (hl ▸ h)), (hstub _).mpr hl⟩
      rw [hlisted]
      cases isExcluded n <;> simp [and_comm]

theorem kindNode_leaf_ne_dir (a : DiskLeaf) : kindNode (.leaf a) ≠ some .dir := by
  cases a <;> exact nofun

/-- What a name of a level adds is what the disk has there. -/
theorem yields_still (hcfg : Informed cfg g) (hg : ∀ q, g (pfx ++ q) = d.get q) {n : String}
    {real : Option Listed} {z : NameScan}
    (hmem : (n, real) ∈ namesOf cfg pfx d)
    (h : Yields cfg (stillCalls d) pfx
      (keptOf cfg pfx d) n real z) :
    z.entry.map entryNode = ownNode cfg.treeHash cfg.isIgnored g pfx n ∧
      ∀ t m, z.entry = some (.tree t m) → ∃ d', d.find? n = some (.sub d') ∧
        RecordedAs cfg (pfx ++ [n]) d' t := by
  have hget : ∀ m, g (pfx ++ [m]) = (d.find? m).map Item.kind := fun m => by
    rw [hg, DirTree.get, DirTree.at_singleton]
  have hname := mem_namesOf.mp hmem
  unfold ownNode
  cases hi : cfg.isIgnored (pfx ++ [n]) with
  | true =>
      rw [if_pos rfl, yields_ignored hi h]
      exact ⟨rfl, by rintro _ _ ⟨⟩⟩
  | false =>
      rw [if_neg Bool.false_ne_true]
      cases real with
      | some x =>
          obtain ⟨hx, hl, y, hy, rfl⟩ := hname
          rw [hx, if_neg Bool.false_ne_true, hget, hy]
          simp only [Option.map_some, hl, if_true]
          cases y with
          | leaf a =>
              have hleaf := yields_leaf hcfg hi (by rw [hget, hy]; rfl) h
              refine ⟨hleaf, fun t m hz => ?_⟩
              rw [hz] at hleaf
              exact absurd hleaf.symm (kindNode_leaf_ne_dir a)
          | sub d' =>
              obtain ⟨out, c, -, hc, rfl⟩ := yields_dir h hi rfl
              obtain ⟨t, m, hentry, hrec⟩ := subdir_still hcfg hc
              have hz : c.entry.map entryNode = some .dir := by
                rw [hentry]
                rfl
              refine ⟨hz, fun t' m' hz => ⟨d', rfl, ?_⟩⟩
              cases hentry.symm.trans hz
              exact hrec
      | none =>
          obtain ⟨hlisted, hne, hsx, hs⟩ := hname
          have hgone : (if isExcluded n then none else g (pfx ++ [n])) = none := by
            rw [hget]
            split_ifs with hx
            · rfl
            · rw [(hlisted.resolve_left hx)]
              rfl
          rw [hgone]
          obtain ⟨y, hy⟩ := Option.ne_none_iff_exists'.mp hs
          have hfind := find?_kept_observe cfg pfx d
            (n ++ stubSuffix)
          rw [hsx, if_neg Bool.false_ne_true, hy] at hfind
          obtain ⟨r, hr, hentry⟩ := yields_stub hi hfind h
          have hstub : fileStub g pfx n = some r := by
            unfold fileStub
            rw [if_neg (by simp [hsx, hne]), hget, hy]
            exact record_of_readStub y (by cases y <;> exact hr)
          rw [hentry, hstub]
          exact ⟨rfl, by rintro _ _ ⟨⟩⟩

/-- No recorded name comes back that is not listed. -/
theorem reappeared_still {present : List String} {recorded : List (String × TreeEntry)}
    (h : ∀ x ∈ recorded, isExcluded x.1 = false) :
    reappeared (stillCalls d) ((keptOf cfg pfx d).map Listed.name) present recorded = .ok [] := by
  induction recorded with
  | nil => rfl
  | cons x recorded ih =>
      obtain ⟨hx, hrest⟩ := List.forall_mem_cons.mp h
      rw [reappeared]
      split_ifs with hn
      · exact ih hrest
      · have hgone : d.find? x.1 = none := not_not.mp fun hd =>
          hn (.inl ((mem_keptRaw cfg).mpr ⟨hx, hd⟩))
        have hlook : (stillCalls d).lookAgain x.1 = .error .notFound := by
          show answer (d.find? x.1) _ = _
          rw [hgone]
          rfl
        simp only [hlook]
        exact ih hrest

/-- A name that a level does not have is nothing to the disk. -/
theorem ownNode_of_not_mem (hg : ∀ q, g (pfx ++ q) = d.get q) {n : String}
    (h : ∀ real, (n, real) ∉ namesOf cfg pfx d) :
    ownNode cfg.treeHash cfg.isIgnored g pfx n = none := by
  have hget : ∀ m, g (pfx ++ [m]) = (d.find? m).map Item.kind := fun m => by
    rw [hg, DirTree.get, DirTree.at_singleton]
  have hstub : isExcluded n = true ∨ d.find? n = none → fileStub g pfx n = none := by
    intro hno
    have hnone := h none
    rw [mem_namesOf] at hnone
    unfold fileStub
    split_ifs with hs
    · rfl
    · rw [not_or] at hs
      have hf : d.find? (n ++ stubSuffix) = none :=
        not_not.mp fun hf => hnone ⟨hno, hs.2, by simpa using hs.1, hf⟩
      rw [hget, hf]
      rfl
  unfold ownNode
  by_cases hi : cfg.isIgnored (pfx ++ [n]) = true
  · rw [if_pos hi]
  · rw [if_neg hi]
    by_cases hx : isExcluded n = true
    · rw [if_pos hx, hstub (.inl hx)]
      rfl
    · rw [if_neg hx, hget]
      cases hf : d.find? n with
      | none =>
          rw [hstub (.inr hf)]
          rfl
      | some y =>
          have hreal := h (some (listedItem cfg pfx n y))
          rw [mem_namesOf] at hreal
          exact if_neg fun hl => hreal ⟨by simpa using hx, hl, y, hf, rfl⟩

/-- **`level_still`** — a scanned level has, under every name, what the disk has there. -/
theorem level_still (hcfg : Informed cfg g) (hg : ∀ q, g (pfx ++ q) = d.get q) {rechecked : Bool} {s : DirScan}
    (h : scanDir cfg rechecked pfx (stillCalls d)
      (listed cfg pfx (observe d)) = .ok s) :
    s.vanished = false ∧ ∀ n,
      (s.tree.find? n).map entryNode = ownNode cfg.treeHash cfg.isIgnored g pfx n ∧
      ∀ t m, s.tree.find? n = some (.tree t m) → ∃ d', d.find? n = some (.sub d') ∧
        RecordedAs cfg (pfx ++ [n]) d' t := by
  obtain ⟨scans, back, hscans, hback, -, htree⟩ := scanDir_ok h
  have hv : s.vanished = false := vanished_still h
  have hback : back = [] := by
    rcases hback with hback | hback
    · exact hback
    · rw [reappeared_still (fun x hx => hcfg.children pfx x hx)] at hback
      exact (Except.ok.inj hback).symm
  refine ⟨hv, fun n => ?_⟩
  obtain ⟨htree, -, -⟩ := htree hv
  have hfind : s.tree.find? n = (levelEntries scans).lookup n := by
    rw [htree, hback, List.append_nil, Tree.find?_buildAndStore]
  by_cases hmem : ∃ real, (n, real) ∈ namesOf cfg pfx d
  · obtain ⟨real, hmem⟩ := hmem
    obtain ⟨z, hz, hyields⟩ := exists_scan hscans hmem
    have hnd := map_fst_scans hscans ▸ nodup_logicalNames _ _ _
    rw [hfind, lookup_levelEntries hnd hz]
    exact yields_still hcfg hg hmem hyields
  · have hgone : s.tree.find? n = none := by
      rw [hfind]
      refine lookup_levelEntries_of_not_mem fun hn => hmem ?_
      rw [← map_fst_scans hscans] at hn
      obtain ⟨y, hy, rfl⟩ := List.mem_map.mp hn
      exact ⟨y.2, hy⟩
    rw [hgone, ownNode_of_not_mem hg (not_exists.mp hmem)]
    exact ⟨rfl, nofun⟩

/-- Under its name a recorded directory has what its scan found, else what its marker has. -/
theorem RecordedAs.find? (hcfg : Informed cfg g) {path : Path} (hg : ∀ q, g (path ++ q) = d.get q)
    {t : Tree} (h : RecordedAs cfg path d t) (n : String) :
    (ownNode cfg.treeHash cfg.isIgnored g path n = none ∧
        t.find? n = (markerTree d.get []).bind fun t' => t'.find? n) ∨
      ∃ e, t.find? n = some e ∧ ownNode cfg.treeHash cfg.isIgnored g path n = some (entryNode e) ∧
        ∀ t' m, e = .tree t' m → ∃ d', d.find? n = some (.sub d') ∧
          RecordedAs cfg (path ++ [n]) d' t' := by
  rcases h with ⟨hm, hnames⟩ | ⟨s, hs, ht⟩
  · -- a full stub: the listing has nothing but the marker
    have hlist : ∀ k, d.find? k ≠ none → k = dirStubName := fun k hk =>
      hnames k (by simpa using mt DirTree.find?_eq_none_iff.mpr hk)
    refine .inl ⟨?_, by rw [hm]; rfl⟩
    refine @ownNode_of_not_mem cfg _ _ _ hg _ ?_
    intro real hmem
    have hname := mem_namesOf.mp hmem
    cases real with
    | some x =>
        obtain ⟨-, hl, y, hy, -⟩ := hname
        rw [hlist n (by simp [hy])] at hl
        exact absurd hl (by decide)
    | none =>
        obtain ⟨-, hne, -, hy⟩ := hname
        exact hne (marker_iff.mp (hlist _ hy))
  · obtain ⟨hown, hsub⟩ := (level_still hcfg hg hs).2 n
    have hfind : t.find? n = (s.tree.find? n).or ((markerTree d.get []).bind fun t => t.find? n) := by
      cases hm : markerTree d.get [] with
      | none =>
          rw [hm] at ht
          simp [ht]
      | some t' =>
          rw [hm] at ht
          rw [ht, find?_mergePartialExpansion]
          rfl
    cases hs' : s.tree.find? n with
    | none =>
        rw [hs'] at hown hfind
        exact .inl ⟨hown.symm, by rw [hfind, Option.none_or]⟩
    | some e =>
        rw [hs'] at hown hfind hsub
        refine .inr ⟨e, hfind, hown.symm, ?_⟩
        rintro t' m rfl
        exact hsub t' m rfl

/-- **`recorded_view`** — a recorded directory has at every path below what the disk has there. -/
theorem recorded_view (hcfg : Informed cfg g) {path : Path} (hg : ∀ q, g (path ++ q) = d.get q) {t : Tree}
    (h : RecordedAs cfg path d t) (p : Path) :
    (t.at p).map entryNode = view cfg.treeHash cfg.isIgnored g path p := by
  induction p generalizing d path t with
  | nil => rfl
  | cons n p ih =>
      have hmarker : markerTree g path = markerTree d.get [] := by
        unfold markerTree
        rw [hg]
        rfl
      rw [view, hmarker, Tree.at_cons]
      rcases h.find? hcfg hg n with ⟨hown, hfind⟩ | ⟨e, hfind, hown, hsub⟩
      · rw [hown, hfind]
        cases markerTree d.get [] <;> rfl
      · rw [hown, hfind]
        cases e with
        | tree t' m' =>
            obtain ⟨d', hd', hrec⟩ := hsub t' m' rfl
            have hg' : ∀ q, g (path ++ [n] ++ q) = d'.get q := fun q => by
              rw [List.append_assoc, hg, List.singleton_append, DirTree.get, DirTree.at_cons, hd']
              rfl
            show _ = view cfg.treeHash cfg.isIgnored g (path ++ [n]) p
            rw [← ih hg' hrec]
            cases p <;> rfl
        | blob b => cases p <;> rfl
        | symlink l => cases p <;> rfl

/-- What a scan returns is what the scanned directory is recorded as. -/
theorem recordedAs_of_scan (hstrict : cfg.tolerateUnresolvedStubs = false) {root : Path}
    {r : ScanResult} (h : scanImpl cfg root (stillCalls d) (observe d) = .ok r) :
    RecordedAs cfg root d r.root := by
  obtain ⟨-, -, h⟩ := bind_eq_ok.mp h
  obtain ⟨s, hs, h⟩ := bind_eq_ok.mp h
  have hs : scanDir cfg true root (stillCalls d)
      (listed cfg root (observe d)) = .ok s := by
    by_cases hroot : root = []
    · subst hroot
      exact hs
    · rwa [decide_eq_true hroot] at hs
  have hfinish : finishScan cfg root (stillCalls d) s = .ok r := h
  rw [finishScan, vanished_still hs, if_neg Bool.false_ne_true] at hfinish
  obtain ⟨⟨k, stubs⟩, hk, hfinish⟩ := bind_eq_ok.mp hfinish
  rcases classifyDirStub_still hk with ⟨rfl, hmarker⟩ | ⟨t, m, hmarker, ⟨rfl, hnames⟩ | rfl⟩
  · cases hfinish
    refine .inr ⟨s, hs, ?_⟩
    rw [hmarker]
  · cases hfinish
    exact .inl ⟨hmarker, hnames⟩
  · refine .inr ⟨s, hs, ?_⟩
    rw [hmarker]
    simp only [hstrict, Bool.false_eq_true, if_false] at hfinish
    split at hfinish
    · cases hfinish
      rfl
    · cases hfinish
    · cases hfinish

/-- **`scan_view`** — a scan of the disk, or of a directory of it, returns the tree of its view. -/
theorem scan_view (hcfg : Informed cfg g) {root : Path} (hg : ∀ q, g (root ++ q) = d.get q) {r : ScanResult}
    (h : scanImpl cfg root (stillCalls d) (observe d) = .ok r)
    (p : Path) : (r.root.at p).map entryNode = view cfg.treeHash cfg.isIgnored g root p :=
  recorded_view hcfg hg (recordedAs_of_scan hcfg.strict h) p

end Level

/-! ## When a scan succeeds -/

section Succeeds

variable {treeHash : Tree → Hash} {isIgnored : Path → Bool} {load : Tree → Except ScanError Unit}
  {pfx : Path} {d : Disk}

/-- Every stub file and every marker is a file that holds a record. -/
def StubsReadable (g : Lstat) : Prop :=
  ∀ p n k, g (p ++ [n]) = some k → logicalName n ≠ none → recordIn (some k) ≠ none

theorem scanNames_succeeds {cfg : ScanConfig} {calls : DirCalls} {kept : List Listed}
    {names : List (String × Option Listed)} (h : ∀ y ∈ names, ∃ out res,
      classifyName cfg calls pfx kept y.1 y.2 = .ok out ∧
        runOutcome cfg (pfx ++ [y.1]) out.1 = .ok res) :
    ∃ scans, scanNames cfg calls pfx kept names = .ok scans := by
  induction names with
  | nil => exact ⟨[], rfl⟩
  | cons y names ih =>
      obtain ⟨⟨out, res, hout, hres⟩, hrest⟩ := List.forall_mem_cons.mp h
      obtain ⟨scans, hscans⟩ := ih hrest
      exact ⟨_, bind_eq_ok.mpr ⟨out, hout, bind_eq_ok.mpr ⟨res, hres,
        bind_eq_ok.mpr ⟨scans, hscans, rfl⟩⟩⟩⟩

theorem classifyName_of_ignored {cfg : ScanConfig} {n : String} (calls : DirCalls)
    (kept : List Listed) (real : Option Listed) (hi : cfg.isIgnored (pfx ++ [n]) = true) :
    ∃ side, classifyName cfg calls pfx kept n real = .ok (.skip, side) := by
  simp only [classifyName, hi, if_true]
  exact ⟨_, rfl⟩

theorem classifyName_of_stub {cfg : ScanConfig} {n : String} {y : Listed} {r : StubRecord}
    (calls : DirCalls) {kept : List Listed} (hi : cfg.isIgnored (pfx ++ [n]) = false)
    (hy : kept.find? (fun y => y.name = n ++ stubSuffix) = some y) (hr : y.o.readStub = .ok r) :
    ∃ side, classifyName cfg calls pfx kept n none =
      .ok (.entry (.blob (r.blob cfg.treeHash)), side) := by
  simp only [classifyName, hi, Bool.false_eq_true, if_false, hy, hr]
  exact ⟨_, rfl⟩

/-- Beside a stub file that can be read, an entry is what it is. -/
theorem classifyName_of_real {cfg : ScanConfig} {calls : DirCalls} {kept : List Listed} {n : String}
    {x : Listed} {out : Outcome × SideData} (hi : cfg.isIgnored (pfx ++ [n]) = false)
    (hstub : ∀ y, kept.find? (fun y => y.name = n ++ stubSuffix) = some y → ∃ r, y.o.readStub = .ok r)
    (h : classifyReal (pfx ++ [n]) x = .ok out) :
    ∃ side, classifyName cfg calls pfx kept n (some x) = .ok (out.1, side) := by
  simp only [classifyName, hi, Bool.false_eq_true, if_false]
  cases hf : kept.find? fun y => y.name = n ++ stubSuffix with
  | none => exact ⟨out.2, by simpa using h⟩
  | some y =>
      obtain ⟨r, hr⟩ := hstub y hf
      simp only [hr, h]
      exact ⟨_, rfl⟩

theorem readStub_of_record {x : Item String DiskLeaf} (h : recordIn (some x.kind) ≠ none) :
    ∃ r, readStubOf x = .ok r := by
  cases x with
  | sub d => exact absurd rfl h
  | leaf a =>
      cases a with
      | file c stat =>
          obtain ⟨r, hr⟩ := Option.ne_none_iff_exists'.mp h
          have hr : c.record = some r := hr
          exact ⟨r, by simp [readStubOf, DiskLeaf.readStub, hr]⟩
      | _ => exact absurd rfl h

theorem StubsReadable.readStub (h : StubsReadable d.get) {n : String} {x : Item String DiskLeaf}
    (hx : d.find? n = some x) (hn : logicalName n ≠ none) : ∃ r, readStubOf x = .ok r := by
  apply readStub_of_record
  refine h [] n _ ?_ hn
  rw [List.nil_append, DirTree.get, DirTree.at_singleton, hx]
  rfl

theorem StubsReadable.sub (h : StubsReadable d.get) {n : String} {d' : Disk}
    (hd : d.find? n = some (.sub d')) : StubsReadable d'.get := by
  intro p m k hk hm
  refine h (n :: p) m k ?_ hm
  rw [List.cons_append, DirTree.get, DirTree.at_cons, hd]
  exact hk

theorem StubsReadable.classify (h : StubsReadable d.get) (path : Path) :
    ∃ stub, classifyDirStub path (stillCalls d) = .ok stub := by
  have hstat : (stillCalls d).markerStat = answer (d.find? dirStubName) fun x => .ok (statOf x) := rfl
  have hread : (stillCalls d).readMarker = answer (d.find? dirStubName) readStubOf := rfl
  have hlist : (stillCalls d).relist = .ok d.names := rfl
  unfold classifyDirStub
  rw [hstat, hread]
  cases hf : d.find? dirStubName with
  | none => exact ⟨_, rfl⟩
  | some x =>
      obtain ⟨r, hr⟩ := h.readStub hf (by decide)
      simp only [answer, hr, dirHasRealChildren, hlist]
      split_ifs
      · exact ⟨_, rfl⟩
      · cases ht : r.target with
        | blob hash => exact ⟨(.none, [(path, r)]), bind_eq_ok.mpr ⟨r, rfl, by simp only [ht]⟩⟩
        | tree t => exact ⟨_, bind_eq_ok.mpr ⟨r, rfl, by simp only [ht]; rfl⟩⟩

theorem subdir_succeeds (hload : ∀ t, load t = .ok ()) (hstubs : StubsReadable d.get) (path : Path)
    {s : DirScan} (hv : s.vanished = false) :
    ∃ c, scanSubdir (stillConfig isIgnored load treeHash) path (stillCalls d) (.ok s) = .ok c := by
  have hopen : (stillCalls d).openDir = .ok () := rfl
  have hload : ∀ t, (stillConfig isIgnored load treeHash).loadRecorded t = .ok () := hload
  obtain ⟨⟨k, stubs⟩, hstub⟩ := hstubs.classify path
  rw [scanSubdir, hopen]
  simp only [hstub]
  cases k with
  | full t m => exact ⟨_, rfl⟩
  | none => exact ⟨_, by simp only [Bind.bind, Except.bind, hv]; rfl⟩
  | partialStub t m => exact ⟨_, by simp only [Bind.bind, Except.bind, hv, hload]; rfl⟩

/-- **`scanDir_succeeds`** — a directory whose stub files can be read is scanned. -/
theorem scanDir_succeeds (hload : ∀ t, load t = .ok ()) (hstubs : StubsReadable d.get)
    (rechecked : Bool) (pfx : Path) :
    ∃ s, scanDir (stillConfig isIgnored load treeHash) rechecked pfx (stillCalls d)
      (listed (stillConfig isIgnored load treeHash) pfx (observe d)) = .ok s := by
  induction d using DirTree.induction_find generalizing rechecked pfx with
  | step d ih =>
      have hsuffix : ∀ n, logicalName (n ++ stubSuffix) ≠ none := fun n h => by
        have hn : logicalName (n ++ stubSuffix) = some n := stripSuffix_eq_some.mpr rfl
        rw [h] at hn
        cases hn
      have hsidecar : ∀ n y, (keptOf (stillConfig isIgnored load treeHash) pfx d).find?
          (fun y => y.name = n ++ stubSuffix) = some y → ∃ r, y.o.readStub = .ok r := by
        intro n y hy
        rw [find?_kept_observe] at hy
        split_ifs at hy
        obtain ⟨x, hx, rfl⟩ := Option.map_eq_some_iff.mp hy
        obtain ⟨r, hr⟩ := hstubs.readStub hx (hsuffix n)
        exact ⟨r, by cases x <;> exact hr⟩
      have hnames : ∀ y ∈ namesOf (stillConfig isIgnored load treeHash) pfx d, ∃ out res,
          classifyName (stillConfig isIgnored load treeHash) (stillCalls d) pfx
            (keptOf (stillConfig isIgnored load treeHash) pfx d) y.1 y.2 = .ok out ∧
          runOutcome (stillConfig isIgnored load treeHash) (pfx ++ [y.1]) out.1 = .ok res := by
        rintro ⟨n, real⟩ hmem
        have hname := mem_namesOf.mp hmem
        cases hi : (stillConfig isIgnored load treeHash).isIgnored (pfx ++ [n]) with
        | true =>
            obtain ⟨side, hout⟩ := classifyName_of_ignored (stillCalls d)
              (keptOf (stillConfig isIgnored load treeHash) pfx d) real hi
            exact ⟨_, _, hout, rfl⟩
        | false =>
            cases real with
            | none =>
                obtain ⟨-, -, hsx, hs⟩ := hname
                obtain ⟨x, hx⟩ := Option.ne_none_iff_exists'.mp hs
                have hf := find?_kept_observe (stillConfig isIgnored load treeHash) pfx d
                  (n ++ stubSuffix)
                rw [hsx, if_neg Bool.false_ne_true, hx] at hf
                obtain ⟨r, hr⟩ := hsidecar n _ hf
                obtain ⟨side, hout⟩ := classifyName_of_stub (stillCalls d) hi hf hr
                exact ⟨_, _, hout, rfl⟩
            | some x =>
                obtain ⟨hx, hl, y, hy, rfl⟩ := hname
                obtain ⟨out, res, hreal, hres⟩ : ∃ out res, classifyReal (pfx ++ [n])
                    (listedItem (stillConfig isIgnored load treeHash) pfx n y) = .ok out ∧
                    runOutcome (stillConfig isIgnored load treeHash) (pfx ++ [n]) out.1 = .ok res := by
                  cases y with
                  | sub d' =>
                      obtain ⟨s, hs⟩ := ih n d' hy (hstubs.sub hy) true (pfx ++ [n])
                      obtain ⟨c, hc⟩ : ∃ c, scanSubdir (stillConfig isIgnored load treeHash)
                          (pfx ++ [n]) (stillCalls d') (.ok s) = .ok c :=
                        subdir_succeeds hload (hstubs.sub hy) (pfx ++ [n]) (vanished_still hs)
                      refine ⟨_, ⟨c.entry, c.files, c.side⟩, rfl, ?_⟩
                      simp only [listedItem, runOutcome, hs, hc]
                      rfl
                  | leaf a =>
                      cases a with
                      | file c stat =>
                          obtain ⟨job, hjob, -⟩ := @runFileJob_informed _ _ (informed_still isIgnored load
                            treeHash fun _ => some (.leaf (.file c stat))) (pfx ++ [n]) c stat rfl
                          exact ⟨_, _, rfl, congrArg (Except.map _) hjob⟩
                      | symlink target mtime => exact ⟨_, _, rfl, rfl⟩
                      | special => exact ⟨_, _, rfl, rfl⟩
                obtain ⟨side, hout⟩ := classifyName_of_real hi (hsidecar n) hreal
                exact ⟨_, res, hout, hres⟩
      obtain ⟨scans, hscans⟩ := scanNames_succeeds hnames
      have hthere : (if rechecked then stillThere (stillCalls d) else .ok true) = .ok true := ite_self _
      refine ⟨_, bind_eq_ok.mpr ⟨(), rfl, bind_eq_ok.mpr ⟨scans, hscans, bind_eq_ok.mpr ⟨[], rfl,
        bind_eq_ok.mpr ⟨true, hthere, rfl⟩⟩⟩⟩⟩

/-- **`scan_succeeds`** — a directory whose stub files can be read is scanned. -/
theorem scan_succeeds (hload : ∀ t, load t = .ok ()) (hstubs : StubsReadable d.get) (root : Path) :
    ∃ r, scanImpl (stillConfig isIgnored load treeHash) root (stillCalls d) (observe d) = .ok r := by
  have hload' : ∀ t, (stillConfig isIgnored load treeHash).loadRecorded t = .ok () := hload
  obtain ⟨s, hs⟩ : ∃ s, scanDir (stillConfig isIgnored load treeHash) (root ≠ []) root (stillCalls d)
      (listed (stillConfig isIgnored load treeHash) root (observe d)) = .ok s :=
    scanDir_succeeds hload hstubs _ root
  have hv : s.vanished = false := vanished_still hs
  obtain ⟨⟨k, stubs⟩, hstub⟩ := hstubs.classify root
  obtain ⟨r, hr⟩ : ∃ r, finishScan (stillConfig isIgnored load treeHash) root (stillCalls d) s =
      .ok r := by
    rw [finishScan, hv, if_neg Bool.false_ne_true, hstub]
    cases k with
    | none => exact ⟨_, rfl⟩
    | full t m => exact ⟨_, rfl⟩
    | partialStub t m => exact ⟨_, by simp only [Bind.bind, Except.bind, hload']; rfl⟩
  rw [scanImpl_eq]
  exact ⟨r, bind_eq_ok.mpr ⟨(), rfl, bind_eq_ok.mpr ⟨s, hs, hr⟩⟩⟩

end Succeeds

end Omemfs.Scan
