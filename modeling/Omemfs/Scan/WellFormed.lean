/-
# Omemfs.Scan.WellFormed — which trees a scan builds.

A reader of a tree object refuses a name that fails `validateEntryName`, so a tree with one such name
is lost to every client.  A level of a scanned tree gets its names from four places: the listing,
stub files with their suffix taken off, the recorded tree of a partly expanded directory, and recorded
entries kept for names that could not be read.  However the working tree changes during the scan, the
four never give one name twice, and three of them give only valid names.  A stub file is left out or
kept by its own name, and the name it stands for is not looked at: the tree is well named exactly when
every stub file taken into it stands for a valid name (`wellNamed_iff`).
-/
import Omemfs.Scan.Level

namespace Omemfs

/-! ## Well-named trees -/

/-- At every level names are distinct and can stand in a tree object. -/
def Tree.WellNamed : Tree → Prop
  | .nil => True
  | .blob n _ rest => n ∉ rest.names ∧ Scan.ValidName n ∧ rest.WellNamed
  | .tree n t _ rest => n ∉ rest.names ∧ Scan.ValidName n ∧ t.WellNamed ∧ rest.WellNamed
  | .symlink n _ rest => n ∉ rest.names ∧ Scan.ValidName n ∧ rest.WellNamed

namespace Tree

theorem wellNamed_cons {n : String} {e : TreeEntry} {rest : Tree} :
    (cons n e rest).WellNamed ↔
      n ∉ rest.names ∧ Scan.ValidName n ∧ e.children.WellNamed ∧ rest.WellNamed := by
  cases e with
  | blob b => simp [cons, WellNamed, TreeEntry.children]
  | tree t m => exact Iff.rfl
  | symlink l => simp [cons, WellNamed, TreeEntry.children]

/-- The entries a well-named tree may have. -/
def NamedEntries (l : List (String × TreeEntry)) : Prop :=
  (l.map Prod.fst).Nodup ∧ ∀ x ∈ l, Scan.ValidName x.1 ∧ x.2.children.WellNamed

theorem wellNamed_iff_entries {t : Tree} : t.WellNamed ↔ NamedEntries t.entries := by
  induction t using Tree.induction_cons with
  | nil => simp [WellNamed, NamedEntries, entries]
  | cons n e rest _ ih =>
      rw [wellNamed_cons, ih, entries_cons]
      simp only [NamedEntries, names, List.map_cons, List.nodup_cons, List.forall_mem_cons]
      tauto

theorem WellNamed.valid {t : Tree} (h : t.WellNamed) {n : String} (hn : n ∈ t.names) :
    Scan.ValidName n := by
  obtain ⟨x, hx, rfl⟩ := List.mem_map.mp hn
  exact ((wellNamed_iff_entries.mp h).2 x hx).1

theorem WellNamed.of_find? {t : Tree} (h : t.WellNamed) {n : String} {e : TreeEntry}
    (he : t.find? n = some e) : Scan.ValidName n ∧ e.children.WellNamed := by
  induction t using Tree.induction_cons with
  | nil => cases he
  | cons k e' rest _ ih =>
      obtain ⟨-, hk, hchildren, hrest⟩ := wellNamed_cons.mp h
      rw [find?_cons] at he
      by_cases hkn : n = k
      · rw [if_pos hkn] at he
        cases he
        exact ⟨hkn ▸ hk, hchildren⟩
      · rw [if_neg hkn] at he
        exact ih hrest he

theorem WellNamed.valid_at {t : Tree} (h : t.WellNamed) {p : Path} (hp : t.at p ≠ none) :
    ∀ n ∈ p, Scan.ValidName n := by
  induction p generalizing t with
  | nil => exact nofun
  | cons m p ih =>
      rw [at_cons] at hp
      cases hf : t.find? m with
      | none => simp [hf] at hp
      | some e =>
          obtain ⟨hm, hchildren⟩ := h.of_find? hf
          rw [hf, Option.bind_some] at hp
          intro n hn
          rcases List.mem_cons.mp hn with rfl | hn
          · exact hm
          · cases p with
            | nil => cases hn
            | cons k p => exact ih hchildren hp n hn

theorem NamedEntries.perm {l l' : List (String × TreeEntry)} (h : l.Perm l') :
    NamedEntries l ↔ NamedEntries l' := by
  unfold NamedEntries
  rw [(h.map Prod.fst).nodup_iff]
  simp only [h.mem_iff]

theorem wellNamed_buildAndStore {l : List (String × TreeEntry)} :
    (buildAndStore l).WellNamed ↔ NamedEntries l := by
  rw [wellNamed_iff_entries, buildAndStore, entries_ofEntries]
  exact NamedEntries.perm (sortedEntries_perm l)

theorem namedEntries_append {l l' : List (String × TreeEntry)}
    (hdisj : ∀ x ∈ l', x.1 ∉ l.map Prod.fst) :
    NamedEntries (l ++ l') ↔ NamedEntries l ∧ NamedEntries l' := by
  unfold NamedEntries
  rw [List.map_append, List.nodup_append, List.forall_mem_append]
  have hd : ∀ a ∈ l.map Prod.fst, ∀ b ∈ l'.map Prod.fst, a ≠ b := by
    rintro n hn _ hn' rfl
    obtain ⟨x, hx, rfl⟩ := List.mem_map.mp hn'
    exact hdisj x hx hn
  tauto

end Tree

namespace Scan

open Lib
open Omemfs.Tree (NamedEntries)

/-- **`wellNamed_merge`** — a merge is well named exactly when the disk's tree is. -/
theorem wellNamed_merge {recorded disk : Tree} (hr : recorded.WellNamed) :
    (mergePartialExpansion recorded disk).WellNamed ↔ disk.WellNamed := by
  unfold mergePartialExpansion
  rw [Tree.wellNamed_buildAndStore, Tree.namedEntries_append, ← Tree.wellNamed_iff_entries]
  · refine and_iff_left ⟨?_, ?_⟩
    · exact (Tree.wellNamed_iff_entries.mp hr).1.sublist (List.filter_sublist.map _)
    · intro x hx
      exact (Tree.wellNamed_iff_entries.mp hr).2 x (List.mem_of_mem_filter hx)
  · intro x hx
    have h : decide (x.1 ∉ disk.names) = true := (List.mem_filter.mp hx).2
    exact of_decide_eq_true h
/-! ## One level -/

variable {cfg : ScanConfig} {calls : DirCalls} {pfx : Path}

/-- What is recorded of the working tree is well named. -/
structure RecordedNamed (cfg : ScanConfig) : Prop where
  previous : ∀ p e, cfg.previous p = some e → e.children.WellNamed
  childrenOf : ∀ p, NamedEntries (cfg.childrenOf p)
  /-- a file's job is given the recorded entry of its path -/
  fileJob : ∀ p, (cfg.fileJob p).cloneRootEntry = cfg.previous p
/-- **`level_wellNamed`** — a level is well named when the stub files taken into it stand for valid
names, and the directories in it are well named. -/
theorem level_wellNamed (hrec : RecordedNamed cfg) {rechecked : Bool} {l : List Listed}
    (hl : ∀ x ∈ l, KernelName x.name) {s : DirScan}
    (h : scanDir cfg rechecked pfx calls l = .ok s) (hv : s.vanished = false) :
    s.tree.WellNamed ↔
      (∀ n, (∃ y ∈ keptNames l, y.name ≠ dirStubName ∧ logicalName y.name = some n) →
        n ∉ (keptNames l).map Listed.name → cfg.isIgnored (pfx ++ [n]) = false → ValidName n) ∧
      ∀ d x r, (keptNames l).find? (fun y => y.name = d) = some x → logicalName d = none →
        cfg.isIgnored (pfx ++ [d]) = false → isListedDir x.kind x.o → x.child = .ok r →
        ∀ e, r.entry = some e → e.children.WellNamed := by
  obtain ⟨scans, back, hscans, hback, -, htree⟩ := scanDir_ok h
  have hraw : ∀ y ∈ keptNames l, y.name ∈ (keptNames l).map Listed.name := fun y hy =>
    List.mem_map_of_mem hy
  have hnamed : NamedEntries back ∧ ∀ x ∈ back, x.1 ∉ (levelEntries scans).map Prod.fst := by
    rcases hback with rfl | hback
    · exact ⟨⟨List.nodup_nil, nofun⟩, nofun⟩
    · obtain ⟨hsub, hnew⟩ := reappeared_ok hback
      have hall := hrec.childrenOf pfx
      exact ⟨⟨hall.1.sublist (hsub.map _), fun x hx => hall.2 x (hsub.subset hx)⟩, hnew⟩
  have hnodup := nodup_levelEntries hscans (nodup_logicalNames _ _ _)
  rw [(htree hv).1, Tree.wellNamed_buildAndStore, Tree.namedEntries_append hnamed.2,
    and_iff_left hnamed.1, NamedEntries, and_iff_right hnodup]
  constructor
  · intro hall
    refine ⟨fun n hy hn hi => ?_, fun d x r hf hd hi hdir hr e hre => ?_⟩
    · have hmem := (mem_logicalNames_none hraw).mpr ⟨hy, hn, List.not_mem_nil⟩
      obtain ⟨e, he⟩ := exists_contributes hscans hmem
      obtain ⟨y, hyk, -, hyn⟩ := hy
      rcases contributes_none ⟨y, hyk, stripSuffix_eq_some.mp hyn⟩ he with ⟨hi', -⟩ | ⟨-, b, rfl⟩
      · rw [hi] at hi'
        cases hi'
      · exact (hall (n, .blob b) ((mem_levelEntries hscans).mpr ⟨none, hmem, he⟩)).1
    · have hmem := (mem_logicalNames_some hraw).mpr ⟨hf, hd, List.not_mem_nil⟩
      obtain ⟨c, hc⟩ := exists_contributes hscans hmem
      rcases contributes_some hc with ⟨-, -, r', hr', rfl⟩ | ⟨hno, -⟩
      · rw [hr] at hr'
        cases hr'
        exact (hall (d, e) ((mem_levelEntries hscans).mpr ⟨some x, hmem, hre ▸ hc⟩)).2
      · exact absurd ⟨hi, hdir⟩ hno
  · rintro ⟨hstubs, hdirs⟩ ⟨n, e⟩ hy
    obtain ⟨real, hmem, hc⟩ := (mem_levelEntries hscans).mp hy
    cases real with
    | none =>
        obtain ⟨hk, hn, -⟩ := (mem_logicalNames_none hraw).mp hmem
        obtain ⟨y, hyk, -, hyn⟩ := id hk
        rcases contributes_none ⟨y, hyk, stripSuffix_eq_some.mp hyn⟩ hc with ⟨-, he⟩ | ⟨hi, b, he⟩
        · cases he
        · cases he
          exact ⟨hstubs n hk hn hi, trivial⟩
    | some x =>
        obtain ⟨hf, hn, -⟩ := (mem_logicalNames_some hraw).mp hmem
        have hxn : x.name = n := by simpa using List.find?_some hf
        obtain ⟨hxl, hxx⟩ := List.mem_filter.mp (List.mem_of_find?_eq_some hf)
        refine ⟨valid_of_kept (hxn ▸ hl x hxl) (by simpa [hxn] using hxx) hn, ?_⟩
        rcases contributes_some hc with ⟨hi, hdir, r, hr, he⟩ | ⟨-, hother⟩
        · exact hdirs n x r hf hn hi hdir hr e he.symm
        · rcases hother e rfl with he | he | he
          · rw [he]
            trivial
          · exact hrec.previous _ _ he
          · rw [hrec.fileJob] at he
            exact hrec.previous _ _ he

/-! ## Directories below -/

/-- The tree a stub marker records is well named. -/
def MarkerNamed (calls : DirCalls) : Prop :=
  ∀ r t, calls.readMarker = .ok r → r.target = .tree t → t.WellNamed
theorem MarkerNamed.of_classify {path : Path} {calls : DirCalls} (hm : MarkerNamed calls)
    {k : DirStubKind} {stubs : List (Path × StubRecord)}
    (h : classifyDirStub path calls = .ok (k, stubs)) {t : Tree} {m : TreeMeta}
    (hk : k = .full t m ∨ k = .partialStub t m) : t.WellNamed := by
  rcases (classifyDirStub_ok h).2 with rfl | ⟨r, t', real, hr, ht, -, rfl⟩
  · rcases hk with hk | hk <;> cases hk
  · have ht' := hm r t' hr ht
    cases real <;> rcases hk with hk | hk <;> cases hk <;> exact ht'

/-- **`scanSubdir_wellNamed`** — a subdirectory's entry is as well named as its own scan, where that is
used, and well named where it is not. -/
theorem scanSubdir_wellNamed {cfg : ScanConfig} (hrec : RecordedNamed cfg) {path : Path}
    {calls : DirCalls} (hm : MarkerNamed calls) {scan : Except ScanError DirScan}
    (hscan : ∀ s, scan = .ok s → stillThere calls = .ok (!s.vanished)) {r : SubScan}
    (h : scanSubdir cfg path calls scan = .ok r) :
    (Enters cfg path calls → ∃ s e, scan = .ok s ∧ s.vanished = false ∧ r.entry = some e ∧
      (e.children.WellNamed ↔ s.tree.WellNamed)) ∧
    (¬ Enters cfg path calls → ∀ e, r.entry = some e → e.children.WellNamed) := by
  have hprev : ∀ e, cfg.previous path = some e → e.children.WellNamed := hrec.previous path
  have hone : ∀ {t : Tree} {m : TreeMeta}, t.WellNamed → ∀ e, some (TreeEntry.tree t m) = some e →
      e.children.WellNamed := by
    intro t m ht e he
    cases he
    exact ht
  cases scanSubdir_cases h with
  | gone hopen =>
      refine ⟨fun he => ?_, fun _ => hprev⟩
      rcases hopen with hopen | hopen <;> cases hopen.symm.trans he.1
  | full hopen hstub =>
      have hno : readsDisk cfg path calls = false := by simp [readsDisk, hstub]
      exact ⟨fun he => (nomatch hno.symm.trans he.2.2),
        fun _ => hone (hm.of_classify hstub (.inl rfl))⟩
  | vanished hopen hstub hs hv =>
      have hthere := hscan _ hs
      rw [hv] at hthere
      exact ⟨fun he => (nomatch hthere.symm.trans he.2.1), fun _ => hprev⟩
  | plain hopen hstub hs hv =>
      have hthere := hscan _ hs
      rw [hv] at hthere
      refine ⟨fun _ => ⟨_, _, hs, hv, rfl, Iff.rfl⟩, fun hno => absurd ?_ hno⟩
      exact ⟨hopen, hthere, by simp [readsDisk, hstub]⟩
  | merged hopen hstub hs hv hload =>
      have hthere := hscan _ hs
      rw [hv] at hthere
      have ht := hm.of_classify hstub (.inr rfl)
      refine ⟨fun _ => ⟨_, _, hs, hv, rfl, wellNamed_merge ht⟩, fun hno => absurd ?_ hno⟩
      exact ⟨hopen, hthere, by simp [readsDisk, hstub, hload, Except.isOk, Except.toBool]⟩
  | unresolved hopen hstub hs hv hload htol =>
      have hno : readsDisk cfg path calls = false := by
        simp [readsDisk, hstub, hload, Except.isOk, Except.toBool]
      exact ⟨fun he => (nomatch hno.symm.trans he.2.2),
        fun _ => hone (hm.of_classify hstub (.inr rfl))⟩

/-! ## The whole scan -/

/-- Listed names are names the kernel knows, and recorded trees are well named. -/
def DirObs.Sound : DirObs → Prop
  | .nil => True
  | .entry name _ _ calls sub rest => KernelName name ∧ MarkerNamed calls ∧ sub.Sound ∧ rest.Sound

/-- The names stub files stand for that are taken into the tree of a directory: below directories that
are scanned into it, stub files that are not left out by their own name, beside no entry of the name,
and not ignored. -/
inductive TakenStub (cfg : ScanConfig) : Path → DirObs → String → Prop
  | here {pfx : Path} {obs : DirObs} {n : String} (stub : n ++ stubSuffix ∈ obs.names)
      (marker : n ≠ "") (kept : isExcluded (n ++ stubSuffix) = false)
      (alone : n ∈ obs.names → isExcluded n = true)
      (ignored : cfg.isIgnored (pfx ++ [n]) = false) : TakenStub cfg pfx obs n
  | inside {pfx : Path} {obs : DirObs} {d : String} {f : Found} {n : String}
      (found : obs.find? d = some f) (kept : isExcluded d = false) (real : logicalName d = none)
      (ignored : cfg.isIgnored (pfx ++ [d]) = false) (dir : isListedDir f.kind f.o)
      (enters : Enters cfg (pfx ++ [d]) f.calls) (taken : TakenStub cfg (pfx ++ [d]) f.sub n) :
      TakenStub cfg pfx obs n

theorem DirObs.Sound.find? {obs : DirObs} (h : obs.Sound) {n : String} {f : Found}
    (hf : obs.find? n = some f) : MarkerNamed f.calls ∧ f.sub.Sound := by
  induction obs with
  | nil => cases hf
  | entry name kind o calls sub rest _ ih =>
      rw [DirObs.find?] at hf
      split_ifs at hf with hn
      · cases hf
        exact ⟨h.2.1, h.2.2.1⟩
      · exact ih h.2.2.2 hf

theorem DirObs.Sound.kernelName {obs : DirObs} (h : obs.Sound) {n : String} (hn : n ∈ obs.names) :
    KernelName n := by
  induction obs with
  | nil => cases hn
  | entry name kind o calls sub rest _ ih =>
      rcases List.mem_cons.mp hn with rfl | hn
      · exact h.1
      · exact ih h.2.2.2 hn

theorem append_stubSuffix_eq {n : String} : n ++ stubSuffix = dirStubName ↔ n = "" := by
  rw [← String.toList_inj, String.toList_append, ← String.toList_inj]
  exact List.append_left_eq_self

/-- **`scanDir_wellNamed`** — a scanned directory is well named exactly when the stub files taken into
it are, by induction on what is below it. -/
theorem scanDir_wellNamed {cfg : ScanConfig} (hrec : RecordedNamed cfg) {obs : DirObs}
    (hobs : obs.Sound) {rechecked : Bool} {pfx : Path} {calls : DirCalls} {s : DirScan}
    (h : scanDir cfg rechecked pfx calls (listed cfg pfx obs) = .ok s) (hv : s.vanished = false) :
    s.tree.WellNamed ↔ ∀ n, TakenStub cfg pfx obs n → ValidName n := by
  induction obs using DirObs.induction_find generalizing rechecked pfx calls s with
  | step obs ih =>
      have hnames := names_listed cfg pfx obs
      have hmem : ∀ n, n ∈ obs.names ↔ ∃ y ∈ listed cfg pfx obs, y.name = n := by
        intro n
        rw [← hnames, List.mem_map]
      have hkernel : ∀ x ∈ listed cfg pfx obs, KernelName x.name := fun x hx =>
        hobs.kernelName ((hmem _).mpr ⟨x, hx, rfl⟩)
      have hdir : ∀ d f, obs.find? d = some f → isExcluded d = false →
          (keptNames (listed cfg pfx obs)).find? (fun y => y.name = d) = some
            ⟨d, f.kind, f.o, scanSubdir cfg (pfx ++ [d]) f.calls
              (scanDir cfg true (pfx ++ [d]) f.calls (listed cfg (pfx ++ [d]) f.sub))⟩ := by
        intro d f hf hx
        rw [find?_keptNames, hx, find?_listed, hf]
        rfl
      have hsub : ∀ d f r, obs.find? d = some f →
          scanSubdir cfg (pfx ++ [d]) f.calls
            (scanDir cfg true (pfx ++ [d]) f.calls (listed cfg (pfx ++ [d]) f.sub)) = .ok r →
          ((∀ e, r.entry = some e → e.children.WellNamed) ↔
            (Enters cfg (pfx ++ [d]) f.calls →
              ∀ n, TakenStub cfg (pfx ++ [d]) f.sub n → ValidName n)) := by
        intro d f r hf hr
        obtain ⟨hmark, hsound⟩ := hobs.find? hf
        obtain ⟨hin, hout⟩ := scanSubdir_wellNamed hrec hmark
          (fun s hs => stillThere_of_scanDir hs) hr
        by_cases he : Enters cfg (pfx ++ [d]) f.calls
        · obtain ⟨s', e, hs', hv', hre, hiff⟩ := hin he
          have hs := ih d f hf hsound hs' hv'
          rw [hre]
          simp [he, ← hs, ← hiff]
        · simp only [he, false_implies, iff_true]
          exact hout he
      rw [level_wellNamed hrec hkernel h hv]
      constructor
      · rintro ⟨hstubs, hdirs⟩ n htaken
        cases htaken with
        | here hstub hm hx halone hi =>
            obtain ⟨y, hy, hyn⟩ := (hmem _).mp hstub
            refine hstubs n ⟨y, mem_keptNames.mpr ⟨hy, hyn ▸ hx⟩, ?_, ?_⟩ ?_ hi
            · exact fun he => hm (append_stubSuffix_eq.mp (hyn.symm.trans he))
            · exact stripSuffix_eq_some.mpr hyn
            · intro hn
              obtain ⟨z, hz, hzn⟩ := List.mem_map.mp hn
              obtain ⟨hz, hzx⟩ := mem_keptNames.mp hz
              rw [hzn, halone ((hmem _).mpr ⟨z, hz, hzn⟩)] at hzx
              cases hzx
        | @inside _ _ d f _ hf hx hreal hi hd henters htaken =>
            obtain ⟨r, hr⟩ := level_child h (hdir d f hf hx) hreal hi hd
            have hw := hdirs d _ r (hdir d f hf hx) hreal hi hd hr
            exact (hsub d f r hf hr).mp hw henters n htaken
      · intro hall
        refine ⟨fun n hy hn hi => ?_, fun d x r hf hreal hi hd hr => ?_⟩
        · obtain ⟨y, hy, hym, hyn⟩ := hy
          obtain ⟨hyl, hyx⟩ := mem_keptNames.mp hy
          have hyn := stripSuffix_eq_some.mp hyn
          refine hall n (.here ((hmem _).mpr ⟨y, hyl, hyn⟩) ?_ (hyn ▸ hyx) ?_ hi)
          · exact fun he => hym (hyn.trans (append_stubSuffix_eq.mpr he))
          · intro hno
            by_contra hx
            obtain ⟨z, hz, hzn⟩ := (hmem _).mp hno
            refine hn (List.mem_map.mpr ⟨z, mem_keptNames.mpr ⟨hz, ?_⟩, hzn⟩)
            rw [hzn]
            simpa using hx
        · have hx : isExcluded d = false := by
            have hxk := (mem_keptNames.mp (List.mem_of_find?_eq_some hf)).2
            have hxd : x.name = d := by simpa using List.find?_some hf
            exact hxd ▸ hxk
          rw [find?_keptNames, hx, if_neg nofun, find?_listed] at hf
          obtain ⟨f, hff, rfl⟩ := Option.map_eq_some_iff.mp hf
          refine (hsub d f r hff hr).mpr fun henters n htaken => ?_
          exact hall n (.inside hff hx hreal hi hd henters htaken)

/-- A first push: nothing is ignored, recorded or cached. -/
def freshConfig : ScanConfig where
  isIgnored _ := false
  previous _ := none
  childrenOf _ := []
  fileJob _ := ⟨true, 0, none, false, none, fun _ => false⟩
  writeBlobs := true
  tolerateUnresolvedStubs := false
  loadRecorded _ := .ok ()
  treeHash _ := 0

/-- A directory that stays as it is, with no marker in it. -/
def quietDir : DirCalls where
  openDir := .ok ()
  listing := .ok ()
  markerStat := .error .notFound
  readMarker := .error .notFound
  relist := .ok []
  lookAgain _ := .error .notFound
  fstat := .ok ⟨.dir, ⟨none, 0, none⟩, 1⟩
  recheck := .ok ⟨.dir, ⟨none, 0, none⟩, 1⟩

/-- A stub file alone in its directory. -/
def oneStub (name : String) : DirObs :=
  .entry name .file
    { kindStat := .ok ⟨.file, ⟨none, 0, none⟩, 2⟩
      lstat := .ok ⟨.file, ⟨none, 0, none⟩, 2⟩
      readLink := .error .einval
      readFile := .error .io
      readStub := .ok ⟨.blob 1, 1, none, none, 1⟩
      readFilter := none }
    quietDir .nil .nil

theorem freshConfig_named : RecordedNamed freshConfig where
  previous _ _ h := nomatch h
  childrenOf _ := ⟨List.nodup_nil, fun _ h => nomatch h⟩
  fileJob _ := rfl

theorem quietDir_named : MarkerNamed quietDir := fun _ _ h => nomatch h

theorem oneStub_sound {name : String} (h : KernelName name) : (oneStub name).Sound :=
  ⟨h, quietDir_named, trivial, trivial⟩

end Scan

end Omemfs
