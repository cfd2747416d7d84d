/-
# Omemfs.Scan.ScopedScan — a scoped scan is the full scan, restricted.

A directory is scanned by `scanSubdir` when the scan comes to it and by `scanImpl` when it is the scope;
both return the same tree (`scoped_of_subdir`).  With what `Scope` says of the way down to the directory
and `Settings` of what the two scans are given, the scan of a scope returns what the scan of the whole
working tree has there (`scoped_scan_eq`), under any schedule of the two.

The scan of a scope does not look at the names above it.  A directory of a reserved name is left out by
the scan of the whole, and scanned as a scope; and a full `clone_root` that cannot be flattened leaves
`ls` without the recorded times it has in a scope (`scoped_scan_differs`).
-/
import Omemfs.Scan.Settings
import Omemfs.Scan.Schedule

namespace Omemfs.Scan

open Lib

/-! ## A stubbed directory as a scope -/

theorem logicalNames_of_marker {raw seen : List String} {l : List Listed}
    (h : ∀ x ∈ l, x.name = dirStubName) : logicalNames raw l seen = [] := by
  induction l with
  | nil => rfl
  | cons x l ih =>
      obtain ⟨hx, hl⟩ := List.forall_mem_cons.mp h
      rw [logicalNames, if_pos hx]
      exact ih hl

theorem excludedSide_of_marker {pfx : Path} {l : List Listed}
    (h : ∀ x ∈ l, x.name = dirStubName) : excludedSide pfx l = .empty := by
  have hconf : conflictBaseName dirStubName = none := by decide
  have hunknown : isUnknownReservedName dirStubName = false := by decide
  have hkeep : (l.filterMap fun x => if x.name ≠ metadataDirName then
      (conflictBaseName x.name).map fun b => pfx ++ [b] else none) = [] :=
    List.filterMap_eq_nil_iff.mpr fun x hx => by simp [h x hx, hconf]
  have hwarn : (l.filterMap fun x => if isConflictArtifact x.name || isWorkingTreeTmp x.name ||
      x.name == metadataDirName then none
      else if isUnknownReservedName x.name then some (pfx ++ [x.name]) else none) = [] :=
    List.filterMap_eq_nil_iff.mpr fun x hx => by simp [h x hx, hunknown]
  unfold excludedSide SideData.empty
  rw [hkeep, hwarn]

/-- In a quiet directory nothing comes back. -/
theorem reappeared_of_quiet {calls : DirCalls} {raw present : List String}
    (h : ∀ n, n ∉ raw → calls.lookAgain n = .error .notFound) (recorded : List (String × TreeEntry)) :
    reappeared calls raw present recorded = .ok [] := by
  induction recorded with
  | nil => rfl
  | cons x recorded ih =>
      obtain ⟨n, old⟩ := x
      rw [reappeared]
      by_cases hn : n ∈ raw ∨ n ∈ present
      · rw [if_pos hn, ih]
      · rw [if_neg hn, h n (not_or.mp hn).1]
        exact ih

/-- A directory with nothing but its marker is empty. -/
theorem scanDir_of_marker {cfg : ScanConfig} {rechecked : Bool} {pfx : Path} {calls : DirCalls}
    {obs : DirObs} (hopen : calls.openDir = .ok ()) (hquiet : calls.Quiet obs)
    (h : ∀ n ∈ obs.names, n = dirStubName) :
    scanDir cfg rechecked pfx calls (listed cfg pfx obs) = .ok ⟨.nil, [], .empty, false⟩ := by
  have hnames := names_listed cfg pfx obs
  have hall : ∀ x ∈ listed cfg pfx obs, x.name = dirStubName := fun x hx =>
    h x.name (hnames ▸ List.mem_map_of_mem hx)
  have hkept : keptNames (listed cfg pfx obs) = listed cfg pfx obs := by
    refine List.filter_eq_self.mpr fun x hx => ?_
    rw [hall x hx]
    decide
  have hthere : (if rechecked then stillThere calls else .ok true) = .ok true := by
    rw [hquiet.there]
    exact ite_self _
  have hback : (if cfg.writeBlobs then
      reappeared calls obs.names [] (cfg.childrenOf pfx) else .ok []) = .ok [] := by
    rw [reappeared_of_quiet hquiet.lookAgain]
    exact ite_self _
  rw [scanDir_eq, hquiet.lists hopen, hkept, logicalNames_of_marker hall]
  show finishDir cfg rechecked pfx calls (listed cfg pfx obs) [] = _
  simp only [finishDir, hkept, hnames]
  show ((if cfg.writeBlobs then reappeared calls obs.names [] (cfg.childrenOf pfx) else .ok [])
    >>= _) = _
  rw [hback]
  show ((if rechecked then stillThere calls else .ok true) >>= _) = _
  rw [hthere]
  show Except.ok (DirScan.mk .nil [] (levelSide pfx (listed cfg pfx obs) [] []) false) = _
  unfold levelSide
  rw [excludedSide_of_marker hall]
  rfl

/-- **`scoped_of_subdir`** — a directory is scanned as a scope as it is on the way. -/
theorem scoped_of_subdir {cfg : ScanConfig} {d : Path} {f : Found} {c : SubScan} (hd : d ≠ [])
    (hquiet : f.calls.Quiet f.sub)
    (h : scanSubdir cfg d f.calls (scanDir cfg true d f.calls (listed cfg d f.sub)) = .ok c) :
    ∃ r m, scanImpl cfg d f.calls f.sub = .ok r ∧ c.entry = some (.tree r.root m) ∧
      c.files = r.files ∧ c.side.below d = r.side.below d := by
  have hthere : ∀ s, scanDir cfg true d f.calls (listed cfg d f.sub) = .ok s → s.vanished = false :=
    fun s hs => by simpa [hquiet.there] using (stillThere_of_scanDir hs).symm
  have hrun : f.calls.openDir = .ok () → ∀ {s : DirScan} {r : ScanResult},
      scanDir cfg true d f.calls (listed cfg d f.sub) = .ok s → finishScan cfg d f.calls s = .ok r →
      scanImpl cfg d f.calls f.sub = .ok r := by
    intro hopen s r hs hr
    rw [scanImpl_eq, hopen, decide_eq_true hd, hs]
    exact hr
  cases scanSubdir_cases h with
  | gone hopen => exact absurd hopen (not_or.mpr ⟨hquiet.opens.2, hquiet.opens.1⟩)
  | vanished hopen hstub hs hv =>
      rw [hthere _ hs] at hv
      cases hv
  | @full t m stubs hopen hstub =>
      have hmarker : ∀ n ∈ f.sub.names, n = dirStubName := by
        rcases (classifyDirStub_ok hstub).2 with hk | ⟨r, t', real, -, -, hreal, hk⟩
        · cases hk
        · cases real with
          | true => cases hk
          | false => simpa [dirHasRealChildren, hquiet.relist] using hreal
      refine ⟨⟨t, [], SideData.empty.merge (.ofStubs stubs)⟩, m,
        hrun hopen (scanDir_of_marker hopen hquiet hmarker) ?_, rfl, rfl, ?_⟩
      · simp only [finishScan, hstub]
        rfl
      · rw [SideData.empty_merge]
  | @plain s stubs hopen hstub hs hv =>
      refine ⟨⟨s.tree, s.files, s.side.merge (.ofStubs stubs)⟩, _, hrun hopen hs ?_, rfl, rfl, rfl⟩
      simp only [finishScan, hv, hstub]
      rfl
  | @merged t m s stubs hopen hstub hs hv hload =>
      refine ⟨⟨mergePartialExpansion t s.tree, s.files, s.side.merge (.ofStubs stubs)⟩, _,
        hrun hopen hs ?_, rfl, rfl, rfl⟩
      simp only [finishScan, hv, hstub, Bool.false_eq_true, if_false, bind, Except.bind, hload]
  | @unresolved t m s stubs hopen hstub hs hv hload htol =>
      refine ⟨⟨t, s.files, _⟩, m, hrun hopen hs ?_, rfl, rfl, rfl⟩
      simp only [finishScan, hv, hstub, Bool.false_eq_true, if_false, bind, Except.bind, hload]
      exact if_pos htol

/-- The root's own marker adds to its tree, and notes nothing below. -/
theorem finishScan_ok {cfg : ScanConfig} {root : Path} {calls : DirCalls} {s : DirScan}
    {r : ScanResult} (h : finishScan cfg root calls s = .ok r)
    (hused : readsDisk cfg root calls = true) :
    (∀ d, d ≠ [] → ∀ e, s.tree.at d = some e → r.root.at d = some e) ∧ r.files = s.files ∧
      ∀ q, root <+: q → r.side.below q = s.side.below q := by
  unfold finishScan at h
  have hv : s.vanished = false := by
    cases hv : s.vanished with
    | true => simp [hv] at h
    | false => rfl
  rw [hv, if_neg Bool.false_ne_true] at h
  obtain ⟨⟨k, stubs⟩, hk, h⟩ := bind_eq_ok.mp h
  have hside := fun q hq => below_ofStubs (q := q) hk hq s.side
  cases k with
  | none =>
      cases h
      exact ⟨fun _ _ _ h => h, rfl, hside⟩
  | full t m => simp [readsDisk, hk] at hused
  | partialStub t m =>
      have hload : cfg.loadRecorded t = .ok () := by
        simp only [readsDisk, hk] at hused
        cases hl : cfg.loadRecorded t with
        | ok u => rfl
        | error e => simp [hl, Except.isOk, Except.toBool] at hused
      simp only [hload] at h
      cases h
      refine ⟨fun d hd e he => ?_, rfl, hside⟩
      obtain ⟨n, p, rfl⟩ := List.exists_cons_of_ne_nil hd
      exact mergePartialExpansion_at he

theorem scanImpl_congr {d : Path} {cfg cfg' : ScanConfig} (h : AgreeBelow d cfg cfg')
    (calls : DirCalls) (obs : DirObs) : scanImpl cfg d calls obs = scanImpl cfg' d calls obs := by
  have hfinish : finishScan cfg d calls = finishScan cfg' d calls := by
    funext s
    simp only [finishScan, h.loadRecorded, h.tolerate]
  rw [scanImpl_eq, scanImpl_eq, listed_congr h (List.prefix_refl d),
    scanDir_congr h (List.prefix_refl d), hfinish]

/-! ## The two scans -/

/-- What is recorded, for the scan of the whole; nothing where the objects cannot be loaded. -/
def recordedEntries (forPush : Bool) (held : Tree → Bool) (cloneRoot : Option Tree) :
    PathMap TreeEntry :=
  (cloneRoot.bind fun t => flattenRoot forPush held t).getD []

def recordedScoped (forPush : Bool) (held : Tree → Bool) (cloneRoot : Option Tree) (d : Path) :
    PathMap TreeEntry :=
  (cloneRoot.bind fun t => flattenScoped forPush held t d).getD []

/-- The working tree and all that a scan of it is given. -/
structure Repository where
  env : ScanEnv
  /-- the scan is a push's, and not that of `ls` -/
  forPush : Bool
  held : Tree → Bool
  cloneRoot : Option Tree
  statCache : PathMap StatCacheEntry
  calls : DirCalls
  obs : DirObs

namespace Repository

def filters (repo : Repository) : FilterSet := .load repo.calls repo.obs

def fullConfig (repo : Repository) : ScanConfig :=
  scanConfig repo.env repo.filters repo.statCache
    (recordedEntries repo.forPush repo.held repo.cloneRoot)

def scopedConfig (repo : Repository) (d : Path) : ScanConfig :=
  scanConfig repo.env (.loadScoped repo.calls repo.obs d) (readScoped repo.statCache d)
    (recordedScoped repo.forPush repo.held repo.cloneRoot d)

def fullScan (repo : Repository) (sched : Schedule) : Except ScanError ScanResult :=
  scanWith sched repo.fullConfig [] repo.calls repo.obs

def scopedScan (repo : Repository) (sched : Schedule) (d : Path) (f : Found) :
    Except ScanError ScanResult :=
  scanWith sched (repo.scopedConfig d) d f.calls f.sub

/-- Nobody changes the working tree. -/
structure Quiet (repo : Repository) : Prop where
  root : repo.calls.Quiet repo.obs
  below : repo.obs.Quiet

/-- A real directory that is not ignored and whose own listing a scan of the whole would use. -/
structure Reached (repo : Repository) (d : Path) (f : Found) : Prop where
  real : RealPath repo.obs d f
  notIgnored : ∀ e, e ≠ [] → e <+: d → repo.filters.isIgnored e = false
  rootUsed : readsDisk repo.fullConfig [] repo.calls = true
  used : ∀ e g, RealPath repo.obs e g → e <+: d → e ≠ d → readsDisk repo.fullConfig e g.calls = true

/-- The recorded entries of the whole can be loaded. -/
structure Recorded (repo : Repository) : Prop where
  wf : ∀ t, repo.cloneRoot = some t → t.Wf
  loads : ∀ t, repo.cloneRoot = some t → (flattenRoot repo.forPush repo.held t).isSome

theorem belowIn_recorded {repo : Repository} (h : repo.Recorded) {d : Path} (hd : d ≠ []) :
    belowIn d (recordedEntries repo.forPush repo.held repo.cloneRoot) =
      belowIn d (recordedScoped repo.forPush repo.held repo.cloneRoot d) := by
  unfold recordedEntries recordedScoped
  cases ht : repo.cloneRoot with
  | none => rfl
  | some t =>
      obtain ⟨l, hl⟩ := Option.isSome_iff_exists.mp (h.loads t ht)
      rw [Option.bind_some, Option.bind_some, hl, flattenScoped_eq]
      have hheld : repo.held t = true := by
        unfold flattenRoot at hl
        split_ifs at hl with hheld
        exact hheld
      have hroot : flattenInto repo.forPush repo.held t [] = some l := by
        rwa [flattenRoot, if_pos hheld] at hl
      rw [← List.nil_append d]
      exact belowIn_flattenScoped (h.wf t ht) hheld hd hroot

end Repository

theorem scanWith_eq_ok {sched : Schedule} {cfg : ScanConfig} {root : Path} {calls : DirCalls}
    {obs : DirObs} {r : ScanResult} :
    scanWith sched cfg root calls obs = .ok r ↔ scanImpl cfg root calls obs = .ok r :=
  toOption_eq_iff.mp (toOption_scanWith sched cfg root calls obs) r

/-- The scan of a directory returns what the scan of the whole has there and below. -/
def Repository.SameScans (repo : Repository) (d : Path) (f : Found) : Prop :=
  ∀ sched sched' r, repo.fullScan sched = .ok r → ∃ r' m, repo.scopedScan sched' d f = .ok r' ∧
    r.root.at d = some (.tree r'.root m) ∧ belowIn d r.files = belowIn d r'.files ∧
    r.side.below d = r'.side.below d

/-- A name that the scan of the whole takes for itself, as it does the name of a scope. -/
def Unreserved (d : Path) : Prop := ∀ n ∈ d, isReservedName n = false ∧ n ≠ metadataDirName

instance (d : Path) : Decidable (Unreserved d) := inferInstanceAs (Decidable (∀ n ∈ d, _))

/-- **`scoped_scan_eq`** — in a quiet working tree the scan of a directory returns what the scan of the
whole has there and below, however the two are scheduled. -/
theorem scoped_scan_eq {repo : Repository} {d : Path} {f : Found} (hquiet : repo.Quiet)
    (hreached : repo.Reached d f) (hrecorded : repo.Recorded)
    (hnames : Unreserved d) :
    repo.SameScans d f ∧ ∀ sched sched' cfg root calls obs, (scanWith sched cfg root calls obs).toOption =
      (scanWith sched' cfg root calls obs).toOption := by
  refine ⟨fun sched sched' r hr => ?_, fun sched sched' cfg root calls obs => ?_⟩
  · have hd := hreached.real.ne_nil
    rw [Repository.fullScan, scanWith_eq_ok, scanImpl_eq] at hr
    obtain ⟨u, hopen, hr⟩ := bind_eq_ok.mp hr
    obtain ⟨s, hs, hr⟩ := bind_eq_ok.mp hr
    have hopen : repo.calls.openDir = .ok () := by
      split at hopen <;> first | cases hopen | exact hopen
    have hv : s.vanished = false := by
      cases hv : s.vanished with
      | false => rfl
      | true => simp [finishScan, hv] at hr
    obtain ⟨hway, c, hc, hentry, hbelow⟩ := scanned_on_the_way hreached.real hs hv hopen
      hquiet.root.nodup hquiet.below hnames hreached.notIgnored hreached.used
    rw [List.nil_append] at hc hbelow
    obtain ⟨r', m, hr', htree, hfiles, hside⟩ := scoped_of_subdir hd (hquiet.below.at hreached.real) hc
    obtain ⟨hroot, hrfiles, hrside⟩ := finishScan_ok hr hreached.rootUsed
    -- below the directory, its own settings are those of the whole
    have hagree : AgreeBelow d repo.fullConfig (repo.scopedConfig d) :=
      settings_agree (fun q hq => isIgnored_loadScoped hway hreached.notIgnored hq.1 hq.2)
        (Repository.belowIn_recorded hrecorded hd)
    refine ⟨r', m, ?_, ?_⟩
    · rw [Repository.scopedScan, scanWith_eq_ok, ← scanImpl_congr hagree]
      exact hr'
    · rw [hroot d hd _ (hentry _ htree), hrfiles, (hbelow d (List.prefix_refl d)).1, hfiles, hrside d List.nil_prefix,
        (hbelow d (List.prefix_refl d)).2, hside]
      exact ⟨rfl, rfl, rfl⟩
  · rw [toOption_scanWith, toOption_scanWith]

/-! ## Samples -/

/-- A directory nobody changes, without a marker. -/
def stillDir (l : DirObs) : DirCalls where
  openDir := .ok ()
  listing := .ok ()
  markerStat := .error .notFound
  readMarker := .error .notFound
  relist := .ok l.names
  lookAgain _ := .error .notFound
  fstat := .ok ⟨.dir, ⟨none, 0, none⟩, 1⟩
  recheck := .ok ⟨.dir, ⟨none, 0, none⟩, 1⟩

theorem stillDir_quiet {l : DirObs} (h : l.names.Nodup) : (stillDir l).Quiet l where
  opens := ⟨nofun, nofun⟩
  lists _ := rfl
  relist := rfl
  nodup := h
  there := rfl
  lookAgain _ _ := rfl

/-- A file of one byte, written at time 7. -/
def oneFile (name : String) : DirObs :=
  .entry name .file
    { kindStat := .error .io
      lstat := .ok ⟨.file, ⟨some 7, 1, none⟩, 2⟩
      readLink := .error .einval
      readFile := .ok (.ok 1 ⟨some 7, 1, none⟩)
      readStub := .error .io
      readFilter := none }
    (stillDir .nil) .nil .nil

/-- A directory with that file in it. -/
def oneDir (name : String) : Found where
  kind := .dir
  o :=
    { kindStat := .error .io
      lstat := .ok ⟨.dir, ⟨none, 0, none⟩, 1⟩
      readLink := .error .einval
      readFile := .error .io
      readStub := .error .io
      readFilter := none }
  calls := stillDir (oneFile name)
  sub := oneFile name

/-- A working tree with one directory, scanned by `ls`. -/
def sample (dir : String) (held : Tree → Bool) (cloneRoot : Option Tree) : Repository where
  env := ⟨0, false, true, false, fun _ => false, fun _ => .ok (), fun _ => 0⟩
  forPush := false
  held := held
  cloneRoot := cloneRoot
  statCache := []
  calls := stillDir (.entry dir (oneDir "a").kind (oneDir "a").o (oneDir "a").calls (oneDir "a").sub .nil)
  obs := .entry dir (oneDir "a").kind (oneDir "a").o (oneDir "a").calls (oneDir "a").sub .nil

def anySchedule : Schedule := ⟨fun _ => true, fun _ => 0⟩

theorem sample_quiet (dir : String) (held : Tree → Bool) (cloneRoot : Option Tree) :
    (sample dir held cloneRoot).Quiet where
  root := stillDir_quiet (List.nodup_cons.mpr ⟨List.not_mem_nil, List.nodup_nil⟩)
  below := ⟨stillDir_quiet (by decide), ⟨stillDir_quiet List.nodup_nil, trivial, trivial⟩, trivial⟩

theorem sample_recorded (dir : String) (held : Tree → Bool) : (sample dir held none).Recorded where
  wf _ h := nomatch h
  loads _ h := nomatch h

theorem sample_reached {dir : String} {held : Tree → Bool} {cloneRoot : Option Tree}
    (h : (sample dir held cloneRoot).filters = []) :
    (sample dir held cloneRoot).Reached [dir] (oneDir "a") where
  real := .last (by simp [sample, DirObs.find?]) rfl
  notIgnored e _ _ := by
    rw [h]
    rfl
  rootUsed := rfl
  used e g hreal hpre hne := by
    have hnil : e = [] := by
      rcases List.prefix_cons_iff.mp hpre with h | ⟨t, rfl, ht⟩
      · exact h
      · exact absurd (by simp [List.prefix_nil.mp ht]) hne
    exact absurd hnil hreal.ne_nil

theorem scoped_scan_src : ∃ r r' m, (sample "src" (fun _ => true) none).fullScan anySchedule = .ok r ∧
    (sample "src" (fun _ => true) none).scopedScan anySchedule ["src"] (oneDir "a") = .ok r' ∧
    r.root.at ["src"] = some (.tree r'.root m) := by
  obtain ⟨r, hr⟩ : ∃ r, (sample "src" (fun _ => true) none).fullScan anySchedule = .ok r := ⟨_, rfl⟩
  have hreached := sample_reached (rfl : (sample "src" (fun _ => true) none).filters = [])
  have hsame := (scoped_scan_eq (sample_quiet ..) hreached
    (sample_recorded ..) (by decide)).1
  obtain ⟨r', m, hr', hroot, -⟩ := hsame anySchedule anySchedule r hr
  exact ⟨r, r', m, hr, hr', hroot⟩

/-- What is recorded of the file: the same content, written at time 5. -/
def recordedFile : Tree := .blob "a" ⟨1, some 5, 1, none⟩ .nil

/-- A recorded tree with another directory whose object is not in the local store. -/
def recordedRoot : Tree :=
  .tree "src" recordedFile ⟨some 5, 1, 1⟩ (.tree "other" (.symlink "l" ⟨"x", none⟩ .nil) ⟨none, 0, 1⟩ .nil)

/-- The scan of the whole leaves out a directory of a reserved name, and knows nothing of recorded times
when one tree object is missing. -/
theorem scoped_scan_differs :
    (¬ ∀ (repo : Repository) (d : Path) (f : Found), repo.Quiet → repo.Reached d f → repo.Recorded →
      repo.SameScans d f) ∧
    ¬ ∀ (repo : Repository) (d : Path) (f : Found), repo.Quiet → repo.Reached d f → Unreserved d →
      (∀ t, repo.cloneRoot = some t → t.Wf) → repo.SameScans d f := by
  constructor
  · intro hall
    obtain ⟨r', m, -, hroot, -⟩ := hall (sample ".omemfs-tmp-x" (fun _ => true) none) _ _
      (sample_quiet ..) (sample_reached rfl) (sample_recorded ..) anySchedule anySchedule
      ⟨.nil, [], _⟩ rfl
    cases hroot
  · intro hall
    have hwf : ∀ t, some recordedRoot = some t → t.Wf := by
      rintro t ⟨⟩
      simp [recordedRoot, recordedFile, Tree.Wf, Tree.names, Tree.entries]
    obtain ⟨r', m, hr', hroot, -⟩ := hall
      (sample "src" (fun t => t = recordedRoot ∨ t = recordedFile) (some recordedRoot)) _ _
      (sample_quiet ..) (sample_reached rfl) (by decide) hwf anySchedule anySchedule
      ⟨.tree "src" (.blob "a" ⟨1, some 7, 1, none⟩ .nil) ⟨some 7, 1, 1⟩ .nil, _, _⟩ rfl
    have hscoped : r'.root = recordedFile := congrArg ScanResult.root (Except.ok.inj hr').symm
    rw [hscoped] at hroot
    have hfile : TreeEntry.tree (.blob "a" ⟨1, some 7, 1, none⟩ .nil) ⟨some 7, 1, 1⟩ =
        .tree recordedFile m := Option.some.inj hroot
    exact absurd (TreeEntry.tree.inj hfile).1 (by decide)

end Omemfs.Scan
