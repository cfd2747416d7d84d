/-
# Omemfs.Scan.Scope — a directory of the working tree, scanned alone.

`push <path>` and `ls <path>` scan one directory.  They load the filter files above and inside it, the
STAT_CACHE entries of paths in it and the recorded entries in it, and scan it as the root of its own
scan.  In a working tree that nobody changes, the directory's tree and everything collected below it
are those of the scan of the whole (`scoped_scan_eq`): a scan below a directory looks at settings below
it only (`listed_congr`), and what a scan collects below a directory comes from that directory's own
scan (`scanned_on_the_way`).
-/
import Omemfs.Scan.Filter
import Omemfs.Scan.Level

namespace Omemfs.Scan

open Lib

/-! ## Paths below a directory -/

/-- A path strictly below another one. -/
def Below (d q : Path) : Prop := d <+: q ∧ d ≠ q

instance (d q : Path) : Decidable (Below d q) := inferInstanceAs (Decidable (_ ∧ _))

theorem below_concat (d : Path) (n : String) : Below d (d ++ [n]) :=
  ⟨List.prefix_append _ _, by simp⟩

theorem Below.of_above {d e q : Path} (h : d <+: e) (hq : Below e q) : Below d q := by
  refine ⟨h.trans hq.1, ?_⟩
  rintro rfl
  exact hq.2 (List.IsPrefix.eq_of_length hq.1 (le_antisymm hq.1.length_le h.length_le))

/-- The part of a list that is about paths below a directory. -/
def belowIn {α : Type} (d : Path) (l : List (Path × α)) : List (Path × α) :=
  l.filter fun x => Below d x.1

@[simp]
theorem belowIn_append {α : Type} (d : Path) (a b : List (Path × α)) :
    belowIn d (a ++ b) = belowIn d a ++ belowIn d b :=
  List.filter_append ..

def SideData.below (d : Path) (s : SideData) : SideData where
  conflictPaths := s.conflictPaths.filter (Below d ·)
  stubs := belowIn d s.stubs
  ignored := belowIn d s.ignored
  unknownReserved := s.unknownReserved.filter (Below d ·)
  unstablePaths := s.unstablePaths.filter (Below d ·)
  seenOther := s.seenOther.filter (Below d ·)
  seenStub := s.seenStub.filter (Below d ·)
  unresolvedStubs := s.unresolvedStubs.filter (Below d ·)

/-! ## A scan looks at settings below its directory only -/

/-- Settings that agree below a directory. -/
structure AgreeBelow (d : Path) (cfg cfg' : ScanConfig) : Prop where
  isIgnored : ∀ q, Below d q → cfg.isIgnored q = cfg'.isIgnored q
  previous : ∀ q, Below d q → cfg.previous q = cfg'.previous q
  childrenOf : ∀ q, d <+: q → cfg.childrenOf q = cfg'.childrenOf q
  fileJob : ∀ q, Below d q → cfg.fileJob q = cfg'.fileJob q
  writeBlobs : cfg.writeBlobs = cfg'.writeBlobs
  tolerate : cfg.tolerateUnresolvedStubs = cfg'.tolerateUnresolvedStubs
  loadRecorded : cfg.loadRecorded = cfg'.loadRecorded
  treeHash : cfg.treeHash = cfg'.treeHash

section Agree

variable {d : Path} {cfg cfg' : ScanConfig}

theorem classifyName_congr (h : AgreeBelow d cfg cfg') {pfx : Path} (hp : d <+: pfx)
    (calls : DirCalls) (kept : List Listed) (n : String) (real : Option Listed) :
    classifyName cfg calls pfx kept n real = classifyName cfg' calls pfx kept n real := by
  have hb : Below d (pfx ++ [n]) := (below_concat pfx n).of_above hp
  simp only [classifyName, h.isIgnored _ hb, h.treeHash]

theorem runOutcome_congr (h : AgreeBelow d cfg cfg') {path : Path} (hp : Below d path)
    (out : Outcome) : runOutcome cfg path out = runOutcome cfg' path out := by
  cases out with
  | unstable => simp only [runOutcome, h.previous path hp]
  | file stat read => simp only [runOutcome, runFileJob, h.fileJob path hp, h.writeBlobs]
  | _ => rfl

theorem scanNames_congr (h : AgreeBelow d cfg cfg') {pfx : Path} (hp : d <+: pfx)
    (calls : DirCalls) (kept : List Listed) (names : List (String × Option Listed)) :
    scanNames cfg calls pfx kept names = scanNames cfg' calls pfx kept names := by
  induction names with
  | nil => rfl
  | cons y names ih =>
      have hb : Below d (pfx ++ [y.1]) := (below_concat pfx y.1).of_above hp
      have hrun : runOutcome cfg (pfx ++ [y.1]) = runOutcome cfg' (pfx ++ [y.1]) :=
        funext (runOutcome_congr h hb)
      simp only [scanNames, classifyName_congr h hp, hrun, ih]

theorem scanDir_congr (h : AgreeBelow d cfg cfg') {pfx : Path} (hp : d <+: pfx) (rechecked : Bool)
    (calls : DirCalls) (l : List Listed) :
    scanDir cfg rechecked pfx calls l = scanDir cfg' rechecked pfx calls l := by
  simp only [scanDir, scanNames_congr h hp, h.writeBlobs, h.childrenOf pfx hp]

theorem scanSubdir_congr (h : AgreeBelow d cfg cfg') {path : Path} (hp : Below d path)
    (calls : DirCalls) (scan : Except ScanError DirScan) :
    scanSubdir cfg path calls scan = scanSubdir cfg' path calls scan := by
  simp only [scanSubdir, h.previous path hp, h.loadRecorded, h.tolerate]

/-- **`listed_congr`** — what is below a listing is scanned alike. -/
theorem listed_congr (h : AgreeBelow d cfg cfg') {pfx : Path} (hp : d <+: pfx) (obs : DirObs) :
    listed cfg pfx obs = listed cfg' pfx obs := by
  induction obs generalizing pfx with
  | nil => rfl
  | entry name kind o calls sub rest ihs ihr =>
      have hb : Below d (pfx ++ [name]) := (below_concat pfx name).of_above hp
      rw [listed, listed, ihs hb.1, ihr hp, scanDir_congr h hb.1, scanSubdir_congr h hb]

end Agree

/-! ## What is collected where -/

namespace SideData

/-- Every path something is noted of. -/
def paths (s : SideData) : List Path :=
  s.conflictPaths ++ s.stubs.map Prod.fst ++ s.ignored.map Prod.fst ++ s.unknownReserved ++
    s.unstablePaths ++ s.seenOther ++ s.seenStub ++ s.unresolvedStubs

theorem merge_empty (s : SideData) : s.merge .empty = s := by
  simp [merge, empty]

theorem empty_merge (s : SideData) : SideData.empty.merge s = s := by
  simp [merge, empty]

theorem mem_paths_merge {a b : SideData} {q : Path} :
    q ∈ (a.merge b).paths ↔ q ∈ a.paths ∨ q ∈ b.paths := by
  simp only [paths, merge, List.map_append, List.mem_append]
  tauto

theorem below_merge (d : Path) (a b : SideData) :
    (a.merge b).below d = (a.below d).merge (b.below d) := by
  simp [below, merge, belowIn]

theorem below_eq_empty {d : Path} {s : SideData} (h : ∀ q ∈ s.paths, ¬ Below d q) :
    s.below d = .empty := by
  have hpairs : ∀ {α : Type} {l : List (Path × α)}, (∀ q ∈ l.map Prod.fst, ¬ Below d q) →
      belowIn d l = [] := by
    intro α l hl
    exact List.filter_eq_nil_iff.mpr fun x hx => by simpa using hl x.1 (List.mem_map_of_mem hx)
  have hpaths : ∀ {l : List Path}, (∀ q ∈ l, ¬ Below d q) →
      l.filter (fun q => decide (Below d q)) = [] := by
    intro l hl
    exact List.filter_eq_nil_iff.mpr fun q hq => by simpa using hl q hq
  simp only [paths, List.forall_mem_append] at h
  obtain ⟨⟨⟨⟨⟨⟨⟨h1, h2⟩, h3⟩, h4⟩, h5⟩, h6⟩, h7⟩, h8⟩ := h
  unfold below empty
  rw [hpaths h1, hpairs h2, hpairs h3, hpaths h4, hpaths h5, hpaths h6, hpaths h7, hpaths h8]

end SideData

/-- A name's scan is about the paths from its own on. -/
structure Local (p : Path) (files : List (Path × ScannedFile)) (side : SideData) : Prop where
  files : ∀ x ∈ files, p <+: x.1
  side : ∀ q ∈ side.paths, p <+: q

theorem Local.nil (p : Path) : Local p [] .empty := ⟨nofun, nofun⟩

theorem Local.merge {p : Path} {files files' : List (Path × ScannedFile)} {a b : SideData}
    (h : Local p files a) (h' : Local p files' b) : Local p (files ++ files') (a.merge b) where
  files := List.forall_mem_append.mpr ⟨h.files, h'.files⟩
  side := fun q hq => (SideData.mem_paths_merge.mp hq).elim (h.side q) (h'.side q)

/-- A scan of a name says nothing about what is below another name. -/
theorem Local.below {pfx d : Path} {m n : String} {files : List (Path × ScannedFile)}
    {side : SideData} (h : Local (pfx ++ [m]) files side) (hne : m ≠ n) (hd : pfx ++ [n] <+: d) :
    belowIn d files = [] ∧ side.below d = .empty := by
  have hout : ∀ q, pfx ++ [m] <+: q → ¬ Below d q := fun q hq hb =>
    hne (concat_prefix_inj hq (hd.trans hb.1))
  constructor
  · exact List.filter_eq_nil_iff.mpr fun x hx => by simpa using hout x.1 (h.files x hx)
  · exact SideData.below_eq_empty fun q hq => hout q (h.side q hq)

section Level

variable {pfx d : Path} {n : String} {z : NameScan}

theorem below_scans_of_not_mem {l : List (String × NameScan)}
    (hlocal : ∀ x ∈ l, Local (pfx ++ [x.1]) x.2.files x.2.side) (hn : n ∉ l.map Prod.fst)
    (hd : pfx ++ [n] <+: d) :
    belowIn d (l.flatMap fun x => x.2.files) = [] ∧
      (l.foldr (fun x s => x.2.side.merge s) SideData.empty).below d = .empty := by
  induction l with
  | nil => exact ⟨rfl, rfl⟩
  | cons x l ih =>
      rw [List.map_cons, List.mem_cons, not_or] at hn
      obtain ⟨hx, hl⟩ := List.forall_mem_cons.mp hlocal
      obtain ⟨hfiles, hside⟩ := hx.below (Ne.symm hn.1) hd
      obtain ⟨ihf, ihs⟩ := ih hl hn.2
      rw [List.flatMap_cons, belowIn_append, hfiles, ihf, List.foldr_cons, SideData.below_merge,
        hside, ihs]
      exact ⟨rfl, rfl⟩

/-- **`below_scans`** — below a name, a level collects what the name's own scan does. -/
theorem below_scans {scans : List (String × NameScan)}
    (hlocal : ∀ x ∈ scans, Local (pfx ++ [x.1]) x.2.files x.2.side)
    (hnd : (scans.map Prod.fst).Nodup) (hz : (n, z) ∈ scans) (hd : pfx ++ [n] <+: d) :
    belowIn d (scans.flatMap fun x => x.2.files) = belowIn d z.files ∧
      (scans.foldr (fun x s => x.2.side.merge s) SideData.empty).below d = z.side.below d := by
  induction scans with
  | nil => cases hz
  | cons x l ih =>
      rw [List.map_cons, List.nodup_cons] at hnd
      obtain ⟨hx, hl⟩ := List.forall_mem_cons.mp hlocal
      rw [List.flatMap_cons, belowIn_append, List.foldr_cons, SideData.below_merge]
      rcases List.mem_cons.mp hz with rfl | hz
      · obtain ⟨hfiles, hside⟩ := below_scans_of_not_mem hl hnd.1 hd
        rw [hfiles, hside, List.append_nil, SideData.merge_empty]
        exact ⟨rfl, rfl⟩
      · have hne : x.1 ≠ n := by
          rintro rfl
          exact hnd.1 (List.mem_map.mpr ⟨_, hz, rfl⟩)
        obtain ⟨hfiles, hside⟩ := hx.below hne hd
        rw [hfiles, hside, List.nil_append, SideData.empty_merge]
        exact ih hl hnd.2 hz

end Level

/-! ## Scans are about their own paths -/

theorem classifyKind_paths {path : Path} {x : Listed} {kind : EntryKind} {out : Outcome × SideData}
    (h : classifyKind path x kind = .ok out) : ∀ q ∈ out.2.paths, q = path := by
  cases kind <;> simp only [classifyKind] at h
  all_goals (repeat' split at h)
  all_goals cases h
  all_goals simp [SideData.paths, SideData.empty, SideData.unstable]

theorem classifyReal_paths {path : Path} {x : Listed} {out : Outcome × SideData}
    (h : classifyReal path x = .ok out) : ∀ q ∈ out.2.paths, q = path := by
  unfold classifyReal at h
  split at h
  · split at h
    · exact classifyKind_paths h
    · cases h
      simp [SideData.paths, SideData.empty, SideData.unstable]
    · cases h
  · exact classifyKind_paths h

theorem classifyName_paths {cfg : ScanConfig} {calls : DirCalls} {pfx : Path} {kept : List Listed}
    {n : String} {real : Option Listed} {out : Outcome × SideData}
    (h : classifyName cfg calls pfx kept n real = .ok out) :
    ∀ q ∈ out.2.paths, q = pfx ++ [n] := by
  cases hi : cfg.isIgnored (pfx ++ [n]) with
  | true =>
      simp only [classifyName, hi, if_true] at h
      cases h
      simp [SideData.paths, SideData.empty]
  | false =>
      simp only [classifyName, hi, Bool.false_eq_true, if_false] at h
      split at h
      · split at h
        · cases h
          simp [SideData.paths, SideData.empty]
        · next r x _ =>
            cases hr : classifyReal (pfx ++ [n]) x with
            | error e => simp [hr, Except.map] at h
            | ok out' =>
                simp only [hr, Except.map, Except.ok.injEq] at h
                rw [← h]
                intro q hq
                rcases SideData.mem_paths_merge.mp hq with hq | hq
                · simpa [SideData.paths, SideData.empty] using hq
                · exact classifyReal_paths hr q hq
        · cases h
        · split_ifs at h
          exact classifyReal_paths h
      · split at h
        · exact classifyReal_paths h
        · cases h
          simp [SideData.paths, SideData.empty]

/-- The scan of a subdirectory is about its own paths. -/
def ChildLocal (pfx : Path) (x : Listed) : Prop :=
  ∀ c, x.child = .ok c → Local (pfx ++ [x.name]) c.files c.side

/-- Only an entry that is there is scanned as a directory. -/
theorem classifyName_subdir {cfg : ScanConfig} {calls : DirCalls} {pfx : Path} {kept : List Listed}
    {n : String} {real : Option Listed} {out : Outcome × SideData}
    (h : classifyName cfg calls pfx kept n real = .ok out) {child : Except ScanError SubScan}
    (hsub : out.1 = .subdir child) : ∃ x, real = some x ∧ child = x.child := by
  cases hi : cfg.isIgnored (pfx ++ [n]) with
  | true =>
      simp only [classifyName, hi, if_true] at h
      cases h
      cases hsub
  | false =>
      cases real with
      | some x =>
          obtain ⟨side, hreal⟩ := classifyName_real hi h
          rcases classifyReal_ok hreal with ⟨-, hx⟩ | ⟨-, hx⟩
          · rw [hsub] at hx
            cases hx
            exact ⟨x, rfl, rfl⟩
          · rcases hx with hx | hx | ⟨l, hx⟩ | ⟨st, read, hx⟩ <;> rw [hsub] at hx <;> cases hx
      | none =>
          simp only [classifyName, hi, Bool.false_eq_true, if_false] at h
          split at h
          · split at h
            · cases h
              cases hsub
            · next heq => cases heq
            · cases h
            · next heq => cases heq
          · cases h
            cases hsub

theorem yields_local {cfg : ScanConfig} {calls : DirCalls} {pfx : Path} {kept : List Listed}
    {n : String} {real : Option Listed} {z : NameScan}
    (hchild : ∀ x, real = some x → x.name = n ∧ ChildLocal pfx x)
    (h : Yields cfg calls pfx kept n real z) : Local (pfx ++ [n]) z.files z.side := by
  obtain ⟨out, res, hout, hres, rfl⟩ := h
  have hself : Local (pfx ++ [n]) [] out.2 :=
    ⟨fun x hx => (nomatch hx), fun q hq => (classifyName_paths hout q hq).symm ▸ List.prefix_refl _⟩
  refine hself.merge ?_
  cases ho : out.1 with
  | subdir child =>
      obtain ⟨x, hreal, rfl⟩ := classifyName_subdir hout ho
      obtain ⟨hname, hx⟩ := hchild x hreal
      rw [ho] at hres
      cases hc : x.child with
      | error e => simp [runOutcome, hc, Except.map] at hres
      | ok c =>
          simp only [runOutcome, hc, Except.map, Except.ok.injEq] at hres
          rw [← hres, ← hname]
          exact hx c hc
  | file stat read =>
      rw [ho] at hres
      simp only [runOutcome] at hres
      cases hj : runFileJob cfg (pfx ++ [n]) stat read with
      | error e => simp [hj, Except.map] at hres
      | ok j =>
          simp only [hj, Except.map, Except.ok.injEq] at hres
          rw [← hres]
          refine ⟨by simp, ?_⟩
          show ∀ q ∈ (if j.unstable then SideData.unstable (pfx ++ [n]) else .empty).paths, _
          split_ifs <;> simp [SideData.paths, SideData.empty, SideData.unstable]
  | skip =>
      rw [ho] at hres
      cases hres
      exact .nil _
  | entry e =>
      rw [ho] at hres
      cases hres
      exact .nil _
  | unstable =>
      rw [ho] at hres
      cases hres
      exact .nil _

theorem Local.of_concat {pfx : Path} {n : String} {files : List (Path × ScannedFile)}
    {side : SideData} (h : Local (pfx ++ [n]) files side) : Local pfx files side where
  files := fun x hx => (List.prefix_append _ _).trans (h.files x hx)
  side := fun q hq => (List.prefix_append _ _).trans (h.side q hq)

/-- The names of a level, each scanned. -/
theorem scans_local {cfg : ScanConfig} {calls : DirCalls} {pfx : Path} {l : List Listed}
    (hl : ∀ x ∈ l, ChildLocal pfx x) {scans : List (String × NameScan)}
    (h : scanNames cfg calls pfx (keptNames l)
      (logicalNames ((keptNames l).map Listed.name) (keptNames l) []) = .ok scans) :
    ∀ x ∈ scans, Local (pfx ++ [x.1]) x.2.files x.2.side := by
  intro z hz
  have hraw : ∀ y ∈ keptNames l, y.name ∈ (keptNames l).map Listed.name := fun y hy =>
    List.mem_map_of_mem hy
  obtain ⟨real, hmem, hyields⟩ := exists_name h hz
  refine yields_local (fun x hx => ?_) hyields
  rw [hx] at hmem
  have hf := ((mem_logicalNames_some hraw).mp hmem).1
  refine ⟨by simpa using List.find?_some hf, ?_⟩
  exact hl x (mem_keptNames.mp (List.mem_of_find?_eq_some hf)).1

theorem excludedSide_paths (pfx : Path) (l : List Listed) :
    ∀ q ∈ (excludedSide pfx l).paths, ∃ n, q = pfx ++ [n] := by
  intro q hq
  have hmem : q ∈ (excludedSide pfx l).conflictPaths ∨ q ∈ (excludedSide pfx l).unknownReserved := by
    simpa [SideData.paths, excludedSide] using hq
  rcases hmem with hmem | hmem
  · obtain ⟨x, -, hx⟩ := List.mem_filterMap.mp hmem
    split_ifs at hx
    obtain ⟨b, -, rfl⟩ := Option.map_eq_some_iff.mp hx
    exact ⟨b, rfl⟩
  · obtain ⟨x, -, hx⟩ := List.mem_filterMap.mp hmem
    split_ifs at hx
    exact ⟨x.name, (Option.some.inj hx).symm⟩

/-- A level notes its scans, and names directly in it. -/
theorem levelSide_paths {pfx : Path} {l : List Listed} {scans : List (String × NameScan)}
    {back : List (String × TreeEntry)} {q : Path} (hq : q ∈ (levelSide pfx l scans back).paths) :
    (∃ n, q = pfx ++ [n]) ∨ ∃ z ∈ scans, q ∈ z.2.side.paths := by
  rcases SideData.mem_paths_merge.mp hq with hq | hq
  · obtain ⟨x, -, rfl⟩ : ∃ x ∈ back, pfx ++ [x.1] = q := by
      simpa [SideData.paths, SideData.empty] using hq
    exact .inl ⟨x.1, rfl⟩
  · rcases SideData.mem_paths_merge.mp hq with hq | hq
    · clear * - hq
      right
      induction scans with
      | nil => simp [SideData.paths, SideData.empty] at hq
      | cons z scans ih =>
          rcases SideData.mem_paths_merge.mp hq with hq | hq
          · exact ⟨z, List.mem_cons_self .., hq⟩
          · obtain ⟨z', hz', hq'⟩ := ih hq
            exact ⟨z', List.mem_cons_of_mem _ hz', hq'⟩
    · exact .inl (excludedSide_paths pfx l q hq)

/-- A scanned directory is about its own paths when its subdirectories are. -/
theorem scanDir_local {cfg : ScanConfig} {rechecked : Bool} {calls : DirCalls} {pfx : Path}
    {l : List Listed} (hl : ∀ x ∈ l, ChildLocal pfx x) {s : DirScan}
    (h : scanDir cfg rechecked pfx calls l = .ok s) : Local pfx s.files s.side := by
  obtain ⟨-, -, h⟩ := bind_eq_ok.mp h
  obtain ⟨scans, hscans, h⟩ := bind_eq_ok.mp h
  obtain ⟨back, hback, h⟩ := bind_eq_ok.mp h
  obtain ⟨there, hthere, h⟩ := bind_eq_ok.mp h
  have hlocal := scans_local hl hscans
  have hside : ∀ q ∈ (levelSide pfx l scans back).paths, pfx <+: q := by
    intro q hq
    rcases levelSide_paths hq with ⟨n, rfl⟩ | ⟨z, hz, hq⟩
    · exact List.prefix_append _ _
    · exact (hlocal z hz).of_concat.side q hq
  cases there with
  | true =>
      cases h
      refine ⟨fun x hx => ?_, hside⟩
      obtain ⟨z, hz, hx⟩ := List.mem_flatMap.mp hx
      exact (hlocal z hz).of_concat.files x hx
  | false =>
      cases h
      refine ⟨fun x hx => (nomatch hx), fun q hq => ?_⟩
      rcases SideData.mem_paths_merge.mp hq with hq | hq
      · have hq' : q = pfx := by simpa [SideData.paths, SideData.unstable, SideData.empty] using hq
        exact hq' ▸ List.prefix_refl _
      · exact hside q hq

theorem scanSubdir_local {cfg : ScanConfig} {path : Path} {calls : DirCalls}
    {scan : Except ScanError DirScan}
    (hscan : ∀ s, scan = .ok s → Local path s.files s.side) {c : SubScan}
    (h : scanSubdir cfg path calls scan = .ok c) : Local path c.files c.side := by
  have hself : ∀ {side : SideData}, (∀ q ∈ side.paths, q = path) → Local path [] side :=
    fun hside => ⟨fun x hx => (nomatch hx), fun q hq => hside q hq ▸ List.prefix_refl _⟩
  have hunstable : Local path [] (.unstable path) :=
    hself (by simp [SideData.paths, SideData.unstable, SideData.empty])
  have hstubs : ∀ {k : DirStubKind} {stubs : List (Path × StubRecord)},
      classifyDirStub path calls = .ok (k, stubs) → Local path [] (.ofStubs stubs) := by
    intro k stubs hk
    apply hself
    intro q hq
    have hq' : q ∈ stubs.map Prod.fst := by simpa [SideData.paths, SideData.empty] using hq
    obtain ⟨x, hx, rfl⟩ := List.mem_map.mp hq'
    exact (classifyDirStub_ok hk).1 x hx
  cases scanSubdir_cases h with
  | gone hopen => exact hunstable
  | full hopen hstub => exact hstubs hstub
  | vanished hopen hstub hs hv =>
      have hboth := (hscan _ hs).merge (hstubs hstub)
      rw [List.append_nil] at hboth
      exact hunstable.merge hboth
  | plain hopen hstub hs hv =>
      have hboth := (hscan _ hs).merge (hstubs hstub)
      rwa [List.append_nil] at hboth
  | merged hopen hstub hs hv hload =>
      have hboth := (hscan _ hs).merge (hstubs hstub)
      rwa [List.append_nil] at hboth
  | unresolved hopen hstub hs hv hload htol =>
      have hboth := (hscan _ hs).merge (hstubs hstub)
      rw [List.append_nil] at hboth
      exact (hself (by simp [SideData.paths, SideData.empty])).merge hboth

theorem listed_local (cfg : ScanConfig) (pfx : Path) (obs : DirObs) :
    ∀ x ∈ listed cfg pfx obs, ChildLocal pfx x := by
  induction obs generalizing pfx with
  | nil =>
      intro x hx
      cases hx
  | entry name kind o calls sub rest ihs ihr =>
      rw [listed]
      refine List.forall_mem_cons.mpr ⟨fun c hc => ?_, ihr pfx⟩
      exact scanSubdir_local (fun s hs => scanDir_local (ihs (pfx ++ [name])) hs) hc

/-! ## The way down to a directory -/

/-- A real directory: every name on its path is listed as a directory. -/
inductive RealPath : DirObs → Path → Found → Prop
  | last {obs : DirObs} {n : String} {f : Found} (found : obs.find? n = some f)
      (dir : isListedDir f.kind f.o = true) : RealPath obs [n] f
  | down {obs : DirObs} {n : String} {f g : Found} {rest : Path} (found : obs.find? n = some f)
      (dir : isListedDir f.kind f.o = true) (tail : RealPath f.sub rest g) :
      RealPath obs (n :: rest) g

/-- Nobody changes the directory: what is listed stays, and nothing else appears. -/
structure DirCalls.Quiet (calls : DirCalls) (sub : DirObs) : Prop where
  opens : calls.openDir ≠ .error .notFound ∧ calls.openDir ≠ .error .symlinkEscape
  lists : calls.openDir = .ok () → calls.listing = .ok ()
  relist : calls.relist = .ok sub.names
  nodup : sub.names.Nodup
  there : stillThere calls = .ok true
  lookAgain : ∀ n, n ∉ sub.names → calls.lookAgain n = .error .notFound

/-- Nobody changes anything below. -/
def DirObs.Quiet : DirObs → Prop
  | .nil => True
  | .entry _ _ _ calls sub rest => calls.Quiet sub ∧ sub.Quiet ∧ rest.Quiet

theorem DirObs.Quiet.find? {obs : DirObs} (h : obs.Quiet) {n : String} {f : Found}
    (hf : obs.find? n = some f) : f.calls.Quiet f.sub ∧ f.sub.Quiet := by
  induction obs with
  | nil => cases hf
  | entry name kind o calls sub rest _ ih =>
      rw [DirObs.find?] at hf
      split_ifs at hf
      · cases hf
        exact ⟨h.1, h.2.1⟩
      · exact ih h.2.2 hf

theorem lookup_eq_some_of_mem {l : List (String × TreeEntry)} (hnd : (l.map Prod.fst).Nodup)
    {n : String} {e : TreeEntry} (h : (n, e) ∈ l) : l.lookup n = some e := by
  induction l with
  | nil => cases h
  | cons x l ih =>
      rw [List.map_cons, List.nodup_cons] at hnd
      rw [Tree.lookup_cons_ite]
      rcases List.mem_cons.mp h with rfl | h
      · simp
      · rw [if_neg, ih hnd.2 h]
        rintro rfl
        exact hnd.1 (List.mem_map.mpr ⟨_, h, rfl⟩)

/-- **`level_of_name`** — a directory that is listed and kept was scanned: the level has its entry, and
below it collected what its scan did. -/
theorem level_of_name {cfg : ScanConfig} {calls : DirCalls} {pfx : Path} {rechecked : Bool}
    {obs : DirObs} {s : DirScan} (h : scanDir cfg rechecked pfx calls (listed cfg pfx obs) = .ok s)
    (hv : s.vanished = false) {n : String} {f : Found} (hf : obs.find? n = some f)
    (hdir : isListedDir f.kind f.o = true)
    (hn : isExcluded n = false ∧ logicalName n = none)
    (hi : cfg.isIgnored (pfx ++ [n]) = false) :
    ∃ c, scanSubdir cfg (pfx ++ [n]) f.calls
        (scanDir cfg true (pfx ++ [n]) f.calls (listed cfg (pfx ++ [n]) f.sub)) = .ok c ∧
      (∀ e, c.entry = some e → s.tree.find? n = some e) ∧
      ∀ d, pfx ++ [n] <+: d → belowIn d s.files = belowIn d c.files ∧
        s.side.below d = c.side.below d := by
  obtain ⟨hx, hl⟩ := hn
  obtain ⟨scans, back, hscans, hback, -, htree⟩ := scanDir_ok h
  obtain ⟨htree, hfiles, hside⟩ := htree hv
  have hraw : ∀ y ∈ keptNames (listed cfg pfx obs),
      y.name ∈ (keptNames (listed cfg pfx obs)).map Listed.name := fun y hy =>
    List.mem_map_of_mem hy
  have hkept : (keptNames (listed cfg pfx obs)).find? (fun y => y.name = n) = some
      ⟨n, f.kind, f.o, scanSubdir cfg (pfx ++ [n]) f.calls
        (scanDir cfg true (pfx ++ [n]) f.calls (listed cfg (pfx ++ [n]) f.sub))⟩ := by
    rw [find?_keptNames, hx, find?_listed, hf]
    rfl
  have hmem := (mem_logicalNames_some hraw).mpr ⟨hkept, hl, List.not_mem_nil⟩
  obtain ⟨z, hz, hyields⟩ := exists_scan hscans hmem
  obtain ⟨out, c, hout, hc, rfl⟩ := yields_dir hyields hi hdir
  have hnd := nodup_logicalNames ((keptNames (listed cfg pfx obs)).map Listed.name) []
    (keptNames (listed cfg pfx obs))
  refine ⟨c, hc, fun e he => ?_, fun d hd => ?_⟩
  · have hentry : (n, e) ∈ levelEntries scans :=
      List.mem_filterMap.mpr ⟨_, hz, by simp [he]⟩
    rw [htree, Tree.find?_buildAndStore, List.lookup_append,
      lookup_eq_some_of_mem (nodup_levelEntries hscans hnd) hentry]
    rfl
  · obtain ⟨hbf, hbs⟩ := below_scans (scans_local (listed_local cfg pfx obs) hscans)
      (map_fst_scans hscans ▸ hnd) hz hd
    -- nothing directly in this level is below `d`
    have hlevel : ∀ m, ¬ Below d (pfx ++ [m]) := by
      intro m hb
      have hlen : d.length = (pfx ++ [m]).length :=
        le_antisymm hb.1.length_le (by simpa using hd.length_le)
      exact hb.2 (hb.1.eq_of_length hlen)
    have hout : out.2.below d = .empty := by
      apply SideData.below_eq_empty
      intro q hq
      rw [classifyName_paths hout q hq]
      exact hlevel n
    have hback : SideData.below d
        { SideData.empty with unstablePaths := back.map fun x => pfx ++ [x.1] } = .empty := by
      apply SideData.below_eq_empty
      intro q hq
      obtain ⟨x, -, rfl⟩ : ∃ x ∈ back, pfx ++ [x.1] = q := by
        simpa [SideData.paths, SideData.empty] using hq
      exact hlevel x.1
    have hexcluded : (excludedSide pfx (listed cfg pfx obs)).below d = .empty := by
      apply SideData.below_eq_empty
      intro q hq
      obtain ⟨m, rfl⟩ := excludedSide_paths _ _ q hq
      exact hlevel m
    refine ⟨by rw [hfiles, hbf], ?_⟩
    rw [hside]
    unfold levelSide
    rw [SideData.below_merge, SideData.below_merge, hback, hexcluded, hbs, SideData.below_merge,
      hout, SideData.empty_merge, SideData.empty_merge, SideData.merge_empty]

/-- A merged tree has what the disk has, else what is recorded. -/
theorem find?_mergePartialExpansion (recorded disk : Tree) (n : String) :
    (mergePartialExpansion recorded disk).find? n = (disk.find? n).or (recorded.find? n) := by
  rw [mergePartialExpansion, Tree.find?_buildAndStore, List.lookup_append]
  show (disk.find? n).or _ = _
  cases hd : disk.find? n with
  | some e => rfl
  | none =>
      have hn := Tree.find?_eq_none_iff.mp hd
      rw [Option.none_or, Option.none_or, Tree.find?]
      induction recorded.entries with
      | nil => rfl
      | cons x l ih =>
          rw [List.filter_cons, Tree.lookup_cons_ite]
          by_cases hx : n = x.1
          · rw [if_pos hx, if_pos (by simpa [← hx] using hn), Tree.lookup_cons_ite, if_pos hx]
          · rw [if_neg hx]
            split_ifs
            · rw [Tree.lookup_cons_ite, if_neg hx]
              exact ih
            · exact ih

theorem mergePartialExpansion_at {recorded disk : Tree} {n : String} {p : Path} {e : TreeEntry}
    (h : disk.at (n :: p) = some e) : (mergePartialExpansion recorded disk).at (n :: p) = some e := by
  rw [Tree.at_cons] at h ⊢
  obtain ⟨c, hc, he⟩ := Option.bind_eq_some_iff.mp h
  rw [find?_mergePartialExpansion, hc]
  exact he

theorem RealPath.ne_nil {obs : DirObs} {d : Path} {f : Found} (h : RealPath obs d f) : d ≠ [] := by
  cases h <;> exact List.cons_ne_nil _ _

theorem DirObs.Quiet.at {obs : DirObs} (h : obs.Quiet) {d : Path} {f : Found}
    (hd : RealPath obs d f) : f.calls.Quiet f.sub := by
  induction hd with
  | last found _ => exact (h.find? found).1
  | down found _ _ ih => exact ih (h.find? found).2

/-- A marker notes nothing below its own directory. -/
theorem below_ofStubs {path q : Path} {calls : DirCalls} {k : DirStubKind}
    {stubs : List (Path × StubRecord)} (hk : classifyDirStub path calls = .ok (k, stubs))
    (hq : path <+: q) (side : SideData) : (side.merge (.ofStubs stubs)).below q = side.below q := by
  have hnone : (SideData.ofStubs stubs).below q = .empty := by
    apply SideData.below_eq_empty
    intro p hp hb
    have hp' : p ∈ stubs.map Prod.fst := by simpa [SideData.paths, SideData.empty] using hp
    obtain ⟨x, hx, rfl⟩ := List.mem_map.mp hp'
    rw [(classifyDirStub_ok hk).1 x hx] at hb
    exact hb.2 (hb.1.eq_of_length (le_antisymm hb.1.length_le hq.length_le))
  rw [SideData.below_merge, hnone, SideData.merge_empty]

/-- What the subdirectory on the way adds is its own scan's, and its tree leads where that scan's does. -/
theorem subdir_on_the_way {cfg : ScanConfig} {path : Path} {f : Found}
    {scan : Except ScanError DirScan} {c : SubScan} (hc : scanSubdir cfg path f.calls scan = .ok c)
    (hquiet : f.calls.Quiet f.sub) (hdisk : readsDisk cfg path f.calls = true)
    (hthere : ∀ s, scan = .ok s → s.vanished = false) :
    f.calls.openDir = .ok () ∧ ∃ s t m, scan = .ok s ∧ s.vanished = false ∧ c.files = s.files ∧
      c.entry = some (.tree t m) ∧ (∀ n p e, s.tree.at (n :: p) = some e → t.at (n :: p) = some e) ∧
      ∀ q, path <+: q → c.side.below q = s.side.below q := by
  cases scanSubdir_cases hc with
  | gone hopen => exact absurd hopen (not_or.mpr ⟨hquiet.opens.2, hquiet.opens.1⟩)
  | full hopen hstub => simp [readsDisk, hstub] at hdisk
  | vanished hopen hstub hs hv =>
      rw [hthere _ hs] at hv
      cases hv
  | plain hopen hstub hs hv =>
      exact ⟨hopen, _, _, _, hs, hv, rfl, rfl, fun _ _ _ h => h,
        fun q hq => below_ofStubs hstub hq _⟩
  | merged hopen hstub hs hv hload =>
      refine ⟨hopen, _, _, _, hs, hv, rfl, rfl, fun _ _ _ h => ?_, fun q hq => below_ofStubs hstub hq _⟩
      exact mergePartialExpansion_at h
  | unresolved hopen hstub hs hv hload htol =>
      simp [readsDisk, hstub, hload, Except.isOk, Except.toBool] at hdisk

/-- **`scanned_on_the_way`** — a directory that the scan of a quiet tree comes to was scanned: its tree
stands at its path, and below it nothing else was collected. -/
theorem scanned_on_the_way {cfg : ScanConfig} {d : Path} {f : Found} {obs : DirObs}
    (hd : RealPath obs d f) {calls : DirCalls} {pfx : Path} {rechecked : Bool} {s : DirScan}
    (h : scanDir cfg rechecked pfx calls (listed cfg pfx obs) = .ok s) (hv : s.vanished = false)
    (hopen : calls.openDir = .ok ()) (hnd : obs.names.Nodup) (hquiet : obs.Quiet)
    (hnames : ∀ n ∈ d, isReservedName n = false ∧ n ≠ metadataDirName)
    (hign : ∀ e, e ≠ [] → e <+: d → cfg.isIgnored (pfx ++ e) = false)
    (hdisk : ∀ e g, RealPath obs e g → e <+: d → e ≠ d →
      readsDisk cfg (pfx ++ e) g.calls = true) :
    Way calls obs d f.calls f.sub ∧ ∃ c,
      scanSubdir cfg (pfx ++ d) f.calls
        (scanDir cfg true (pfx ++ d) f.calls (listed cfg (pfx ++ d) f.sub)) = .ok c ∧
      (∀ e, c.entry = some e → s.tree.at d = some e) ∧
      ∀ q, pfx ++ d <+: q → belowIn q s.files = belowIn q c.files ∧
        s.side.below q = c.side.below q := by
  induction hd generalizing calls pfx rechecked s with
  | @last obs n f found dir =>
      have hn := hnames n (List.mem_cons_self ..)
      obtain ⟨c, hc, hentry, hbelow⟩ := level_of_name h hv found dir (kept_of_unreserved hn.1 hn.2)
        (hign [n] (by simp) (List.prefix_refl _))
      have hreadable : calls.readable = true := by
        simp [DirCalls.readable, hopen, listing_of_scanDir h, Except.isOk, Except.toBool]
      refine ⟨.down ⟨found, dir, hreadable, hnd, hn.1, hn.2⟩ (.here _ _), c, hc, ?_, hbelow⟩
      intro e he
      rw [Tree.at_singleton]
      exact hentry e he
  | @down obs n f g rest found dir tail ih =>
      have hn := hnames n (List.mem_cons_self ..)
      obtain ⟨c, hc, hentry, hbelow⟩ := level_of_name h hv found dir (kept_of_unreserved hn.1 hn.2)
        (hign [n] (by simp) (by simp))
      have hreadable : calls.readable = true := by
        simp [DirCalls.readable, hopen, listing_of_scanDir h, Except.isOk, Except.toBool]
      obtain ⟨hq, hqsub⟩ := hquiet.find? found
      have hassoc : ∀ e, pfx ++ n :: e = pfx ++ [n] ++ e := by simp
      obtain ⟨hopen', s', t, m, hs', hv', hfiles, htree, hat, hside⟩ := subdir_on_the_way hc hq
        (hdisk [n] f (.last found dir) (by simp) (by simpa using tail.ne_nil))
        (fun s' hs' => by simpa [hq.there] using (stillThere_of_scanDir hs').symm)
      obtain ⟨hway, c', hc', hentry', hbelow'⟩ := ih hs' hv' hopen' hq.nodup hqsub
        (fun m hm => hnames m (List.mem_cons_of_mem _ hm))
        (fun e he hpre => hassoc e ▸ hign (n :: e) (by simp) (by simpa using hpre))
        (fun e k hk hpre hne =>
          hassoc e ▸ hdisk (n :: e) k (.down found dir hk) (by simpa using hpre) (by simpa using hne))
      refine ⟨.down ⟨found, dir, hreadable, hnd, hn.1, hn.2⟩ hway, c', hassoc rest ▸ hc', ?_, ?_⟩
      · intro e he
        obtain ⟨m', rest', rfl⟩ := List.exists_cons_of_ne_nil tail.ne_nil
        rw [Tree.at_cons, hentry _ htree]
        exact hat m' rest' e (hentry' e he)
      · intro q hpre
        rw [hassoc] at hpre
        have hpre' : pfx ++ [n] <+: q := (List.prefix_append _ _).trans hpre
        obtain ⟨hbf, hbs⟩ := hbelow q hpre'
        obtain ⟨hbf', hbs'⟩ := hbelow' q hpre
        exact ⟨by rw [hbf, hfiles, hbf'], by rw [hbs, hside q hpre', hbs']⟩

end Omemfs.Scan
