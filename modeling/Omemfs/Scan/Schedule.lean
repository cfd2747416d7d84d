/-
# Omemfs.Scan.Schedule — directories scanned in parallel or one after another.

A level is classified name by name; then its subdirectories are scanned, then its files are hashed, each
in a pass of its own.  A directory that gets a permit runs its passes in parallel, and whichever file
fails may be the one that is reported; a directory that gets none runs serially, with everything below
it.  Who gets a permit depends on the budget of descriptors and on timing: a `Schedule` answers it for
every directory.

What a scan returns depends on none of it (`toOption_scanWith`): a schedule only chooses between several
failures.
-/
import Omemfs.Scan.Scope

namespace Omemfs.Scan

open Lib

structure Schedule where
  /-- the directory gets a permit -/
  permit : Path → Bool
  /-- which of the directory's failing files is reported -/
  pick : Path → Nat

/-! ## One level in passes -/

def Outcome.isSubdir : Outcome → Bool
  | .subdir _ => true
  | _ => false

def Outcome.isFile : Outcome → Bool
  | .file .. => true
  | _ => false

/-- A classified name. -/
structure Job where
  name : String
  out : Outcome
  side : SideData

def classifyNames (cfg : ScanConfig) (calls : DirCalls) (pfx : Path) (kept : List Listed) :
    List (String × Option Listed) → Except ScanError (List Job)
  | [] => .ok []
  | (name, real) :: l =>
      classifyName cfg calls pfx kept name real >>= fun out =>
      classifyNames cfg calls pfx kept l >>= fun rest =>
      .ok (⟨name, out.1, out.2⟩ :: rest)

def runJob (cfg : ScanConfig) (pfx : Path) (job : Job) : Except ScanError (String × NameScan) :=
  (runOutcome cfg (pfx ++ [job.name]) job.out).map fun res =>
    (job.name, { res with side := job.side.merge res.side })

/-- The pass over the subdirectories, then the one over the files. -/
def runPasses (serial : Bool) (pick : Nat) (cfg : ScanConfig) (pfx : Path) (jobs : List Job) :
    Except ScanError (List (String × NameScan)) :=
  match failures (runJob cfg pfx) (jobs.filter fun j => j.out.isSubdir) with
  | e :: _ => .error e
  | [] =>
      match failures (runJob cfg pfx) (jobs.filter fun j => j.out.isFile) with
      | e :: es => .error (if serial then e else (e :: es).getD pick e)
      | [] => .ok (results (runJob cfg pfx) jobs)

/-- The rest of `scan_dir`, when every name of the level was scanned. -/
def finishDir (cfg : ScanConfig) (rechecked : Bool) (pfx : Path) (calls : DirCalls)
    (l : List Listed) (scans : List (String × NameScan)) : Except ScanError DirScan :=
  let raw := (keptNames l).map Listed.name
  let entries := levelEntries scans
  (if cfg.writeBlobs then
    reappeared calls raw (entries.map Prod.fst) (cfg.childrenOf pfx) else .ok []) >>= fun back =>
  let side := levelSide pfx l scans back
  (if rechecked then stillThere calls else .ok true) >>= fun there =>
  .ok (if there then
      ⟨Tree.buildAndStore (entries ++ back), scans.flatMap fun x => x.2.files, side, false⟩
    else
      ⟨.nil, [], (SideData.unstable pfx).merge side, true⟩)

def scanDirWith (sched : Schedule) (serial : Bool) (cfg : ScanConfig) (rechecked : Bool) (pfx : Path)
    (calls : DirCalls) (l : List Listed) : Except ScanError DirScan :=
  calls.listing >>= fun _ =>
  let kept := keptNames l
  classifyNames cfg calls pfx kept (logicalNames (kept.map Listed.name) kept []) >>= fun jobs =>
  runPasses serial (sched.pick pfx) cfg pfx jobs >>= finishDir cfg rechecked pfx calls l

/-- A listing with the scans of the directories in it; a serial scan stays serial below. -/
def listedWith (sched : Schedule) (cfg : ScanConfig) : Bool → Path → DirObs → List Listed
  | _, _, .nil => []
  | serial, pfx, .entry name kind o calls sub rest =>
      let serial' := serial || !sched.permit (pfx ++ [name])
      ⟨name, kind, o, scanSubdir cfg (pfx ++ [name]) calls
        (scanDirWith sched serial' cfg true (pfx ++ [name]) calls
          (listedWith sched cfg serial' (pfx ++ [name]) sub))⟩ :: listedWith sched cfg serial pfx rest

/-- The rest of `scan_impl`, when the directory was scanned. -/
def finishScan (cfg : ScanConfig) (root : Path) (calls : DirCalls) (s : DirScan) :
    Except ScanError ScanResult :=
  if s.vanished then .error .sourceChanged
  else
    classifyDirStub root calls >>= fun stub =>
    let side := s.side.merge { SideData.empty with stubs := stub.2 }
    match stub.1 with
    | .none => .ok ⟨s.tree, s.files, side⟩
    | .full t _ => .ok ⟨t, s.files, side⟩
    | .partialStub t _ =>
        match cfg.loadRecorded t with
        | .ok _ => .ok ⟨mergePartialExpansion t s.tree, s.files, side⟩
        | .error .objectNotFound =>
            if cfg.tolerateUnresolvedStubs then
              .ok ⟨t, s.files, SideData.merge { SideData.empty with unresolvedStubs := [root] } side⟩
            else .error .objectNotFound
        | .error e => .error e

/-- `scan_impl`: the scanned directory's own level runs in parallel. -/
def scanWith (sched : Schedule) (cfg : ScanConfig) (root : Path) (calls : DirCalls) (obs : DirObs) :
    Except ScanError ScanResult :=
  (match calls.openDir with
    | .error .notFound => .error .sourceChanged
    | .error .symlinkEscape => .error .sourceChanged
    | r => r) >>= fun _ =>
  scanDirWith sched false cfg (root ≠ []) root calls (listedWith sched cfg false root obs) >>=
    finishScan cfg root calls

theorem scanDir_eq (cfg : ScanConfig) (rechecked : Bool) (pfx : Path) (calls : DirCalls)
    (l : List Listed) : scanDir cfg rechecked pfx calls l =
      calls.listing >>= fun _ =>
      scanNames cfg calls pfx (keptNames l)
        (logicalNames ((keptNames l).map Listed.name) (keptNames l) []) >>=
      finishDir cfg rechecked pfx calls l := rfl

theorem scanImpl_eq (cfg : ScanConfig) (root : Path) (calls : DirCalls) (obs : DirObs) :
    scanImpl cfg root calls obs =
      (match calls.openDir with
        | .error .notFound => .error .sourceChanged
        | .error .symlinkEscape => .error .sourceChanged
        | r => r) >>= fun _ =>
      scanDir cfg (root ≠ []) root calls (listed cfg root obs) >>= finishScan cfg root calls := rfl

/-! ## Passes and one traversal -/

section Level

variable {cfg : ScanConfig} {calls : DirCalls} {pfx : Path} {kept : List Listed}

theorem scanNames_eq_ok {names : List (String × Option Listed)} {scans : List (String × NameScan)} :
    scanNames cfg calls pfx kept names = .ok scans ↔
      ∃ jobs, classifyNames cfg calls pfx kept names = .ok jobs ∧
        List.Forall₂ (fun job z => runJob cfg pfx job = .ok z) jobs scans := by
  induction names generalizing scans with
  | nil =>
      constructor
      · intro h
        cases h
        exact ⟨[], rfl, .nil⟩
      · rintro ⟨jobs, h, hall⟩
        cases h
        cases hall
        rfl
  | cons y names ih =>
      obtain ⟨n, real⟩ := y
      have hjob : ∀ out : Outcome × SideData, ∀ z, runJob cfg pfx ⟨n, out.1, out.2⟩ = .ok z ↔
          ∃ res, runOutcome cfg (pfx ++ [n]) out.1 = .ok res ∧
            z = (n, { res with side := out.2.merge res.side }) := by
        intro out z
        unfold runJob
        cases runOutcome cfg (pfx ++ [n]) out.1 <;> simp [Except.map, eq_comm]
      rw [scanNames, classifyNames]
      constructor
      · intro h
        obtain ⟨out, hout, h⟩ := bind_eq_ok.mp h
        obtain ⟨res, hres, h⟩ := bind_eq_ok.mp h
        obtain ⟨rest, hrest, h⟩ := bind_eq_ok.mp h
        cases h
        obtain ⟨jobs, hjobs, hall⟩ := ih.mp hrest
        refine ⟨⟨n, out.1, out.2⟩ :: jobs, ?_, .cons ((hjob out _).mpr ⟨res, hres, rfl⟩) hall⟩
        exact bind_eq_ok.mpr ⟨out, hout, bind_eq_ok.mpr ⟨jobs, hjobs, rfl⟩⟩
      · rintro ⟨jobs, h, hall⟩
        obtain ⟨out, hout, h⟩ := bind_eq_ok.mp h
        obtain ⟨rest, hrest, h⟩ := bind_eq_ok.mp h
        cases h
        cases hall with
        | cons hz hall =>
            obtain ⟨res, hres, rfl⟩ := (hjob out _).mp hz
            exact bind_eq_ok.mpr ⟨out, hout, bind_eq_ok.mpr ⟨res, hres,
              bind_eq_ok.mpr ⟨_, ih.mpr ⟨rest, hrest, hall⟩, rfl⟩⟩⟩

/-- Only directories and files can still fail. -/
theorem runJob_ok {job : Job} (hd : job.out.isSubdir = false) (hf : job.out.isFile = false) :
    ∃ z, runJob cfg pfx job = .ok z := by
  unfold runJob
  cases ho : job.out with
  | subdir child => simp [ho, Outcome.isSubdir] at hd
  | file st read => simp [ho, Outcome.isFile] at hf
  | _ => exact ⟨_, rfl⟩

theorem runPasses_eq_ok {serial : Bool} {pick : Nat} {jobs : List Job}
    {scans : List (String × NameScan)} :
    runPasses serial pick cfg pfx jobs = .ok scans ↔
      List.Forall₂ (fun job z => runJob cfg pfx job = .ok z) jobs scans := by
  have hall : (∀ job ∈ jobs, ∃ z, runJob cfg pfx job = .ok z) ↔
      failures (runJob cfg pfx) (jobs.filter fun j => j.out.isSubdir) = [] ∧
        failures (runJob cfg pfx) (jobs.filter fun j => j.out.isFile) = [] := by
    simp only [failures_eq_nil, List.mem_filter]
    constructor
    · exact fun h => ⟨fun job hj => h job hj.1, fun job hj => h job hj.1⟩
    · rintro ⟨hd, hf⟩ job hj
      by_cases hjd : job.out.isSubdir = true
      · exact hd job ⟨hj, hjd⟩
      · by_cases hjf : job.out.isFile = true
        · exact hf job ⟨hj, hjf⟩
        · exact runJob_ok (by simpa using hjd) (by simpa using hjf)
  unfold runPasses
  constructor
  · intro h
    split at h
    · cases h
    · next hd =>
        split at h
        · cases h
        · next hf => exact results_eq_iff.mp ⟨hall.mpr ⟨hd, hf⟩, Except.ok.inj h⟩
  · intro h
    obtain ⟨hok, hres⟩ := results_eq_iff.mpr h
    obtain ⟨hd, hf⟩ := hall.mp hok
    rw [hd, hf]
    exact congrArg _ hres

/-- A level in passes scans its names as one traversal does. -/
theorem toOption_scanDirWith (sched : Schedule) (serial rechecked : Bool) (l : List Listed) :
    (scanDirWith sched serial cfg rechecked pfx calls l).toOption =
      (scanDir cfg rechecked pfx calls l).toOption := by
  rw [toOption_eq_iff]
  intro s
  rw [scanDir_eq, scanDirWith]
  simp only [bind_eq_ok, scanNames_eq_ok, runPasses_eq_ok]
  constructor
  · rintro ⟨u, hlist, jobs, hjobs, scans, hall, hfinish⟩
    exact ⟨u, hlist, scans, ⟨jobs, hjobs, hall⟩, hfinish⟩
  · rintro ⟨u, hlist, scans, ⟨jobs, hjobs, hall⟩, hfinish⟩
    exact ⟨u, hlist, jobs, hjobs, scans, hall, hfinish⟩

end Level

/-! ## Which failure a subdirectory reports -/

/-- One failure stands for every other. -/
def settle {α : Type} (x : Except ScanError α) : Except ScanError α :=
  match x with
  | .ok a => .ok a
  | .error _ => .error .io

theorem settle_eq_settle {α : Type} {x y : Except ScanError α} :
    settle x = settle y ↔ x.toOption = y.toOption := by
  cases x <;> cases y <;> simp [settle, Except.toOption]

theorem toOption_settle {α : Type} (x : Except ScanError α) : (settle x).toOption = x.toOption := by
  cases x <;> rfl

def Listed.settle (x : Listed) : Listed := { x with child := Scan.settle x.child }

def Outcome.settle : Outcome → Outcome
  | .subdir child => .subdir (Scan.settle child)
  | out => out

theorem classifyKind_settle (path : Path) (x : Listed) (kind : EntryKind) :
    classifyKind path x.settle kind =
      (classifyKind path x kind).map fun out => (out.1.settle, out.2) := by
  cases kind with
  | symlink =>
      simp only [classifyKind, Listed.settle]
      repeat' split
      all_goals rfl
  | file =>
      simp only [classifyKind, Listed.settle]
      repeat' split
      all_goals rfl
  | _ => rfl

theorem classifyReal_settle (path : Path) (x : Listed) :
    classifyReal path x.settle =
      (classifyReal path x).map fun out => (out.1.settle, out.2) := by
  have hkind : x.settle.kind = x.kind := rfl
  have hstat : x.settle.o = x.o := rfl
  unfold classifyReal
  rw [hkind, hstat]
  split
  · split
    · exact classifyKind_settle path x _
    · rfl
    · rfl
  · exact classifyKind_settle path x _

theorem classifyName_settle (cfg : ScanConfig) (calls : DirCalls) (pfx : Path) (kept : List Listed)
    (n : String) (real : Option Listed) :
    classifyName cfg calls pfx (kept.map Listed.settle) n (real.map Listed.settle) =
      (classifyName cfg calls pfx kept n real).map fun out => (out.1.settle, out.2) := by
  have hfind : (kept.map Listed.settle).find? (fun y => y.name = n ++ stubSuffix) =
      (kept.find? fun y => y.name = n ++ stubSuffix).map Listed.settle := by
    rw [List.find?_map]
    rfl
  simp only [classifyName, hfind]
  cases cfg.isIgnored (pfx ++ [n]) with
  | true => cases real <;> rfl
  | false =>
      simp only [Bool.false_eq_true, if_false]
      cases hf : kept.find? fun y => y.name = n ++ stubSuffix with
      | none =>
          cases real with
          | none => rfl
          | some x => exact classifyReal_settle _ x
      | some y =>
          have hstub : y.settle.o.readStub = y.o.readStub := rfl
          simp only [Option.map_some, hstub]
          cases y.o.readStub with
          | ok r =>
              cases real with
              | none => rfl
              | some x =>
                  simp only [Option.map_some, classifyReal_settle]
                  cases classifyReal (pfx ++ [n]) x <;> rfl
          | error e =>
              cases real with
              | none => rfl
              | some x =>
                  simp only [Option.map_some, classifyReal_settle]
                  split_ifs <;> rfl

theorem toOption_runOutcome_settle (cfg : ScanConfig) (path : Path) (out : Outcome) :
    (runOutcome cfg path out.settle).toOption = (runOutcome cfg path out).toOption := by
  cases out with
  | subdir child => cases child <;> rfl
  | _ => rfl

theorem toOption_scanNames_settle (cfg : ScanConfig) (calls : DirCalls) (pfx : Path)
    (kept : List Listed) (names : List (String × Option Listed)) :
    (scanNames cfg calls pfx (kept.map Listed.settle)
      (names.map fun y => (y.1, y.2.map Listed.settle))).toOption =
      (scanNames cfg calls pfx kept names).toOption := by
  induction names with
  | nil => rfl
  | cons y names ih =>
      obtain ⟨n, real⟩ := y
      rw [List.map_cons, scanNames, scanNames, classifyName_settle]
      cases classifyName cfg calls pfx kept n real with
      | error e => rfl
      | ok out =>
          show (runOutcome cfg _ out.1.settle >>= _).toOption = (runOutcome cfg _ out.1 >>= _).toOption
          rw [toOption_bind, toOption_bind, toOption_runOutcome_settle]
          congr 1
          funext res
          rw [toOption_bind, toOption_bind, ih]

theorem keptNames_settle (l : List Listed) :
    keptNames (l.map Listed.settle) = (keptNames l).map Listed.settle := by
  unfold keptNames
  rw [List.filter_map]
  rfl

theorem logicalNames_settle (raw : List String) (l : List Listed) (seen : List String) :
    logicalNames raw (l.map Listed.settle) seen =
      (logicalNames raw l seen).map fun y => (y.1, y.2.map Listed.settle) := by
  induction l generalizing seen with
  | nil => rfl
  | cons x l ih =>
      have hname : x.settle.name = x.name := rfl
      rw [List.map_cons, logicalNames, logicalNames, hname]
      by_cases hmarker : x.name = dirStubName
      · rw [if_pos hmarker, if_pos hmarker]
        exact ih seen
      · rw [if_neg hmarker, if_neg hmarker]
        cases logicalName x.name with
        | some n =>
            simp only [ih]
            split_ifs <;> rfl
        | none =>
            simp only [ih]
            split_ifs <;> rfl

theorem excludedSide_settle (pfx : Path) (l : List Listed) :
    excludedSide pfx (l.map Listed.settle) = excludedSide pfx l := by
  simp only [excludedSide, List.filterMap_map]
  rfl

/-- **`toOption_scanDir_settle`** — which failure a subdirectory has does not show in a scanned level. -/
theorem toOption_scanDir_settle (cfg : ScanConfig) (rechecked : Bool) (pfx : Path) (calls : DirCalls)
    (l : List Listed) : (scanDir cfg rechecked pfx calls (l.map Listed.settle)).toOption =
      (scanDir cfg rechecked pfx calls l).toOption := by
  have hnames : ((keptNames l).map Listed.settle).map Listed.name = (keptNames l).map Listed.name := by
    rw [List.map_map]
    rfl
  have hfinish : finishDir cfg rechecked pfx calls (l.map Listed.settle) =
      finishDir cfg rechecked pfx calls l := by
    funext scans
    simp only [finishDir, keptNames_settle, hnames, levelSide, excludedSide_settle]
  rw [scanDir_eq, scanDir_eq, hfinish, keptNames_settle, hnames, logicalNames_settle]
  apply toOption_bind_congr rfl
  intro _
  exact toOption_bind_congr (toOption_scanNames_settle ..) fun _ => rfl

theorem toOption_scanDir_congr {cfg : ScanConfig} {l l' : List Listed}
    (h : l.map Listed.settle = l'.map Listed.settle) (rechecked : Bool) (pfx : Path)
    (calls : DirCalls) : (scanDir cfg rechecked pfx calls l).toOption =
      (scanDir cfg rechecked pfx calls l').toOption := by
  rw [← toOption_scanDir_settle, h, toOption_scanDir_settle]

theorem toOption_scanSubdir_congr (cfg : ScanConfig) (path : Path) (calls : DirCalls)
    {scan scan' : Except ScanError DirScan} (h : scan.toOption = scan'.toOption) :
    (scanSubdir cfg path calls scan).toOption = (scanSubdir cfg path calls scan').toOption := by
  unfold scanSubdir
  split
  · rfl
  · rfl
  · rfl
  · apply toOption_bind_congr rfl
    intro stub
    cases stub.1 with
    | full t m => rfl
    | none => exact toOption_bind_congr h fun _ => rfl
    | partialStub t m => exact toOption_bind_congr h fun _ => rfl

/-! ## Any schedule -/

theorem listedWith_settle (sched : Schedule) (cfg : ScanConfig) (serial : Bool) (pfx : Path)
    (obs : DirObs) :
    (listedWith sched cfg serial pfx obs).map Listed.settle = (listed cfg pfx obs).map Listed.settle := by
  induction obs generalizing serial pfx with
  | nil => rfl
  | entry name kind o calls sub rest ihs ihr =>
      rw [listedWith, listed, List.map_cons, List.map_cons, ihr]
      congr 1
      rw [Listed.settle, Listed.settle]
      congr 1
      refine settle_eq_settle.mpr (toOption_scanSubdir_congr cfg _ calls ?_)
      rw [toOption_scanDirWith]
      exact toOption_scanDir_congr (ihs _ _) ..

/-- **`toOption_scanWith`** — a scan returns the same under every schedule. -/
theorem toOption_scanWith (sched : Schedule) (cfg : ScanConfig) (root : Path) (calls : DirCalls)
    (obs : DirObs) : (scanWith sched cfg root calls obs).toOption =
      (scanImpl cfg root calls obs).toOption := by
  rw [scanWith, scanImpl_eq]
  apply toOption_bind_congr rfl
  intro _
  refine toOption_bind_congr ?_ fun _ => rfl
  rw [toOption_scanDirWith]
  exact toOption_scanDir_congr (listedWith_settle sched cfg false root obs) ..

end Omemfs.Scan
