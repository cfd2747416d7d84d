/-
# Omemfs.Scan.Seen — which paths of a quiet working tree a scan takes note of.

A pull compares a path with what the scan before it saw there.  The scan keeps the time and the size of
every file it looks at, and the paths of the symlinks and directories.  It looks at a path if it goes
through every name on the way (`passes`); what it then keeps is what the disk has there, whatever its
caches say (`scan_seen`).  Special files, and files without a time, are looked at and not kept.
-/
import Omemfs.Scan.Still

namespace Omemfs.Scan

open Lib

/-- The scan goes through this name: it is not left out, no stub file's, and not ignored. -/
def passesName (isIgnored : Path → Bool) (pfx : Path) (n : String) : Bool :=
  !isExcluded n && (logicalName n).isNone && !isIgnored (pfx ++ [n])

/-- The scan goes through every name of a path from a directory. -/
def passes (isIgnored : Path → Bool) : Path → Path → Bool
  | _, [] => true
  | pfx, n :: p => passesName isIgnored pfx n && passes isIgnored (pfx ++ [n]) p

theorem passesName_iff {isIgnored : Path → Bool} {pfx : Path} {n : String} :
    passesName isIgnored pfx n = true ↔
      isExcluded n = false ∧ logicalName n = none ∧ isIgnored (pfx ++ [n]) = false := by
  simp [passesName, and_assoc]

theorem passes_append {isIgnored : Path → Bool} (pfx p q : Path) :
    passes isIgnored pfx (p ++ q) = (passes isIgnored pfx p && passes isIgnored (pfx ++ p) q) := by
  induction p generalizing pfx with
  | nil => simp [passes]
  | cons n p ih => simp [passes, ih, Bool.and_assoc]

/-- A symlink or a directory. -/
def isOther : Item String DiskLeaf → Bool
  | .leaf (.symlink _ _) => true
  | .sub _ => true
  | _ => false

/-- What is kept of an entry and of everything below it: `files` by time and size, `other` by path. -/
structure Seen (isIgnored : Path → Bool) (path : Path) (x : Item String DiskLeaf)
    (files : List (Path × ScannedFile)) (other : List Path) : Prop where
  /-- what is kept of a file is what it has -/
  file : ∀ q f, (q, f) ∈ files → ∃ p c stat, q = path ++ p ∧ passes isIgnored path p = true ∧
    x.at p = some (.leaf (.file c stat)) ∧ stat.mtime = some f.fsMtime ∧ stat.size = f.fsSize
  found : ∀ p c stat, passes isIgnored path p = true → x.at p = some (.leaf (.file c stat)) →
    stat.mtime ≠ none → ∃ f, (path ++ p, f) ∈ files
  other : ∀ q, q ∈ other ↔ ∃ p y, q = path ++ p ∧ passes isIgnored path p = true ∧
    x.at p = some y ∧ isOther y = true

/-! ## One name -/

section Name

variable {cfg : ScanConfig} {pfx : Path} {d : Disk}

theorem leaf_at_iff {a : DiskLeaf} {p : Path} {y : Item String DiskLeaf} :
    (Item.leaf a).at p = some y ↔ p = [] ∧ y = .leaf a := by
  cases p with
  | nil => simp [eq_comm]
  | cons n p => simp [Item.at_cons, Item.children]

/-- Whatever the caches say, the time and the size kept of a file are its own. -/
theorem runFileJob_seen {path : Path} {c : Content} {stat : FileStat} {res : FileJobResult}
    (h : runFileJob cfg path stat (.ok (.ok c.hash stat)) = .ok res) :
    res.scanned.map (fun f => (f.fsMtime, f.fsSize)) = stat.mtime.map fun m => (m, stat.size) := by
  have hcached : ∀ x, cacheHit (cfg.fileJob path) stat = some x → stat.mtime = some x.1 := by
    intro x hx
    unfold cacheHit at hx
    cases hm : stat.mtime with
    | none => simp [hm] at hx
    | some m =>
        simp only [hm, Option.bind_eq_bind, Option.bind_some] at hx
        obtain ⟨e, -, he⟩ := Option.bind_eq_some_iff.mp hx
        split_ifs at he
        rw [← Option.some.inj he]
  cases hc : cacheHit (cfg.fileJob path) stat with
  | some x =>
      simp only [runFileJob, hc, Except.ok.injEq] at h
      rw [← h, hcached x hc]
      simp only [processFileJob, hc, Option.map_some]
  | none =>
      cases hf : fallbackHit (cfg.fileJob path) stat with
      | some b =>
          simp only [runFileJob, hc, hf, Except.ok.injEq] at h
          rw [← h]
          simp only [processFileJob, hc, hf, Option.map_map]
          rfl
      | none =>
          simp only [runFileJob, hc, hf, Except.ok.injEq] at h
          rw [← h]
          simp only [processFileJob, hc, hf, Option.map_map]
          cases (cfg.fileJob path).writeBlobs <;> cases hm : stat.mtime <;> simp [hm]

theorem seen_file {isIgnored : Path → Bool} {path : Path} {c : Content} {stat : FileStat}
    {o : Option ScannedFile}
    (h : o.map (fun f => (f.fsMtime, f.fsSize)) = stat.mtime.map fun m => (m, stat.size)) :
    Seen isIgnored path (.leaf (.file c stat)) (o.map fun f => (path, f)).toList [] where
  file := by
    intro q f hmem
    obtain ⟨g, rfl, heq⟩ : ∃ g, o = some g ∧ (path, g) = (q, f) := by simpa using hmem
    cases heq
    have hstat := h.symm
    rw [Option.map_some, Option.map_eq_some_iff] at hstat
    obtain ⟨m, hm, heq⟩ := hstat
    obtain ⟨rfl, hsize⟩ := Prod.mk.inj heq
    exact ⟨[], c, stat, by simp, rfl, rfl, hm, hsize⟩
  found := by
    intro p c' stat' _ hat hm
    obtain ⟨rfl, hy⟩ := leaf_at_iff.mp hat
    cases hy
    obtain ⟨m, hm⟩ := Option.ne_none_iff_exists'.mp hm
    rw [hm, Option.map_some, Option.map_eq_some_iff] at h
    obtain ⟨f, hf, -⟩ := h
    exact ⟨f, by simp [hf]⟩
  other := by
    intro q
    simp only [List.not_mem_nil, false_iff]
    rintro ⟨p, y, -, -, hat, hy⟩
    rw [(leaf_at_iff.mp hat).2] at hy
    cases hy

theorem seen_symlink {isIgnored : Path → Bool} {path : Path} {target : String} {m : Option Time} :
    Seen isIgnored path (.leaf (.symlink target m)) [] [path] where
  file := nofun
  found := by
    intro p c stat _ hat
    cases (leaf_at_iff.mp hat).2
  other := by
    intro q
    rw [List.mem_singleton]
    constructor
    · rintro rfl
      exact ⟨[], _, by simp, rfl, rfl, rfl⟩
    · rintro ⟨p, y, rfl, -, hat, -⟩
      rw [(leaf_at_iff.mp hat).1, List.append_nil]

theorem seen_special {isIgnored : Path → Bool} {path : Path} :
    Seen isIgnored path (.leaf .special) [] [] where
  file := nofun
  found := by
    intro p c stat _ hat
    cases (leaf_at_iff.mp hat).2
  other := by
    intro q
    simp only [List.not_mem_nil, false_iff]
    rintro ⟨p, y, -, -, hat, hy⟩
    rw [(leaf_at_iff.mp hat).2] at hy
    cases hy

/-- A leaf that the scan goes to is kept as what it is. -/
theorem yields_leaf_seen {kept : List Listed} {n : String} {a : DiskLeaf} {z : NameScan}
    {child : Except ScanError SubScan} (hi : cfg.isIgnored (pfx ++ [n]) = false)
    (h : Yields cfg (stillCalls d) pfx kept n (some ⟨n, a.kind, nameObs (.leaf a), child⟩) z) :
    Seen cfg.isIgnored (pfx ++ [n]) (.leaf a) z.files z.side.seenOther := by
  obtain ⟨out, res, hout, hres, rfl⟩ := h
  obtain ⟨side, hreal, hseen⟩ := classifyName_listed hi hout
  show Seen _ _ _ res.files (out.2.seenOther ++ res.side.seenOther)
  rw [hseen]
  cases a with
  | file c stat =>
      obtain ⟨hfile, rfl⟩ := Prod.mk.inj (Except.ok.inj hreal)
      rw [← hfile] at hres
      obtain ⟨job, hjob, rfl⟩ := map_eq_ok.mp hres
      have hother : (if job.unstable then SideData.unstable (pfx ++ [n]) else .empty).seenOther = [] := by
        split_ifs <;> rfl
      simp only [hother]
      exact seen_file (runFileJob_seen hjob)
  | symlink target m =>
      obtain ⟨hlink, rfl⟩ := Prod.mk.inj (Except.ok.inj hreal)
      rw [← hlink] at hres
      cases hres
      exact seen_symlink
  | special =>
      obtain ⟨hskip, rfl⟩ := Prod.mk.inj (Except.ok.inj hreal)
      rw [← hskip] at hres
      cases hres
      exact seen_special

/-- A name that is ignored, or that only a stub file stands for, is no entry that is seen. -/
theorem classifyName_nothing {kept : List Listed} {n : String} {real : Option Listed}
    {out : Outcome × SideData} (h : classifyName cfg (stillCalls d) pfx kept n real = .ok out)
    (hno : cfg.isIgnored (pfx ++ [n]) = true ∨ real = none) :
    (out.1 = .skip ∨ ∃ e, out.1 = .entry e) ∧ out.2.seenOther = [] := by
  cases hi : cfg.isIgnored (pfx ++ [n]) with
  | true =>
      simp only [classifyName, hi, if_true] at h
      cases h
      exact ⟨.inl rfl, rfl⟩
  | false =>
      obtain rfl := hno.resolve_left (by simp [hi])
      simp only [classifyName, hi, Bool.false_eq_true, if_false] at h
      cases hf : kept.find? fun y => y.name = n ++ stubSuffix with
      | none =>
          simp only [hf] at h
          cases h
          exact ⟨.inl rfl, rfl⟩
      | some y =>
          simp only [hf] at h
          cases hs : y.o.readStub with
          | error e =>
              rw [hs] at h
              cases h
          | ok r =>
              rw [hs] at h
              cases h
              exact ⟨.inr ⟨_, rfl⟩, rfl⟩

theorem yields_nothing {kept : List Listed} {n : String} {real : Option Listed} {z : NameScan}
    (h : Yields cfg (stillCalls d) pfx kept n real z)
    (hno : cfg.isIgnored (pfx ++ [n]) = true ∨ real = none) : z.files = [] ∧ z.side.seenOther = [] := by
  obtain ⟨out, res, hout, hres, rfl⟩ := h
  obtain ⟨hkind, hother⟩ := classifyName_nothing hout hno
  show res.files = [] ∧ out.2.seenOther ++ res.side.seenOther = []
  rw [hother]
  rcases hkind with he | ⟨e, he⟩
  · rw [he] at hres
    cases hres
    exact ⟨rfl, rfl⟩
  · rw [he] at hres
    cases hres
    exact ⟨rfl, rfl⟩

end Name

/-! ## One directory -/

section Level

variable {cfg : ScanConfig} {pfx : Path} {d : Disk}

/-- What a level has seen is what its names have. -/
theorem mem_seenOther_level {l : List Listed} {scans : List (String × NameScan)}
    {back : List (String × TreeEntry)} {q : Path} :
    q ∈ (levelSide pfx l scans back).seenOther ↔ ∃ x ∈ scans, q ∈ x.2.side.seenOther := by
  have hfold : (scans.foldr (fun x s => x.2.side.merge s) SideData.empty).seenOther =
      scans.flatMap fun x => x.2.side.seenOther := by
    induction scans with
    | nil => rfl
    | cons x scans ih =>
        rw [List.foldr_cons, List.flatMap_cons, ← ih]
        rfl
  show q ∈ [] ++ ((scans.foldr (fun x s => x.2.side.merge s) SideData.empty).seenOther ++ []) ↔ _
  rw [hfold]
  simp

/-- Below a directory is what its entries have at and below them. -/
theorem at_sub_cons {n : String} {p : Path} :
    (Item.sub d).at (n :: p) = (d.find? n).bind fun y => y.at p := rfl

/-- **`seen_level`** — a directory is seen as its entries are. -/
theorem seen_level {files : List (Path × ScannedFile)} {other : List Path}
    {part : String → List (Path × ScannedFile) × List Path → Prop}
    (hfiles : ∀ x, x ∈ files ↔ ∃ n fo, part n fo ∧ x ∈ fo.1)
    (hother : ∀ q, q ∈ other ↔ ∃ n fo, part n fo ∧ q ∈ fo.2)
    (hpart : ∀ n fo, part n fo → fo = ([], []) ∨ passesName cfg.isIgnored pfx n = true ∧
      ∃ y, d.find? n = some y ∧ Seen cfg.isIgnored (pfx ++ [n]) y fo.1 fo.2)
    (hall : ∀ n y, passesName cfg.isIgnored pfx n = true → d.find? n = some y → ∃ fo, part n fo ∧
      Seen cfg.isIgnored (pfx ++ [n]) y fo.1 fo.2) :
    Seen cfg.isIgnored pfx (.sub d) files (pfx :: other) where
  file := by
    intro q f hmem
    obtain ⟨n, fo, hn, hf⟩ := (hfiles _).mp hmem
    rcases hpart n fo hn with rfl | ⟨hpass, y, hy, hseen⟩
    · cases hf
    · obtain ⟨p, c, stat, rfl, hp, hat, hm, hsize⟩ := hseen.file q f hf
      refine ⟨n :: p, c, stat, by simp, ?_, ?_, hm, hsize⟩
      · rw [passes, hpass, hp]
        rfl
      · rw [at_sub_cons, hy]
        exact hat
  found := by
    intro p c stat hp hat hm
    cases p with
    | nil => cases hat
    | cons n p =>
        rw [passes, Bool.and_eq_true] at hp
        rw [at_sub_cons] at hat
        obtain ⟨y, hy, hat⟩ := Option.bind_eq_some_iff.mp hat
        obtain ⟨fo, hn, hseen⟩ := hall n y hp.1 hy
        obtain ⟨f, hf⟩ := hseen.found p c stat hp.2 hat hm
        exact ⟨f, (hfiles _).mpr ⟨n, fo, hn, by simpa using hf⟩⟩
  other := by
    intro q
    rw [List.mem_cons, hother]
    constructor
    · rintro (rfl | ⟨n, fo, hn, hq⟩)
      · exact ⟨[], .sub d, by simp, rfl, rfl, rfl⟩
      · rcases hpart n fo hn with rfl | ⟨hpass, y, hy, hseen⟩
        · cases hq
        · obtain ⟨p, z, rfl, hp, hat, hz⟩ := (hseen.other q).mp hq
          refine ⟨n :: p, z, by simp, ?_, ?_, hz⟩
          · rw [passes, hpass, hp]
            rfl
          · rw [at_sub_cons, hy]
            exact hat
    · rintro ⟨p, z, rfl, hp, hat, hz⟩
      cases p with
      | nil => exact .inl (by simp)
      | cons n p =>
          rw [passes, Bool.and_eq_true] at hp
          rw [at_sub_cons] at hat
          obtain ⟨y, hy, hat⟩ := Option.bind_eq_some_iff.mp hat
          obtain ⟨fo, hn, hseen⟩ := hall n y hp.1 hy
          exact .inr ⟨n, fo, hn, (hseen.other _).mpr ⟨p, z, by simp, hp.2, hat, hz⟩⟩

/-- A directory whose marker is all there is of it has nothing the scan goes to. -/
theorem seen_stubbed {path : Path} (h : ∀ n ∈ d.names, n = dirStubName) :
    Seen cfg.isIgnored path (.sub d) [] [path] := by
  have hnone : ∀ n y, passesName cfg.isIgnored path n = true → d.find? n ≠ some y := by
    intro n y hn hy
    have hmem : n ∈ d.names := not_not.mp fun hno => by
      rw [DirTree.find?_eq_none_iff.mpr hno] at hy
      cases hy
    obtain ⟨-, hl, -⟩ := passesName_iff.mp hn
    rw [h n hmem] at hl
    exact absurd hl (by decide)
  exact seen_level (by simp) (by simp) (fun _ _ (hno : False) => hno.elim)
    fun n y hn hy => absurd hy (hnone n y hn)

theorem subdir_seen {path : Path} {c : SubScan}
    (h : scanSubdir cfg path (stillCalls d)
      (scanDir cfg true path (stillCalls d) (listed cfg path (observe d))) = .ok c)
    (ih : ∀ s, scanDir cfg true path (stillCalls d) (listed cfg path (observe d)) = .ok s →
      Seen cfg.isIgnored path (.sub d) s.files (path :: s.side.seenOther)) :
    Seen cfg.isIgnored path (.sub d) c.files (path :: c.side.seenOther) := by
  have hside : ∀ (s : DirScan) stubs, (s.side.merge (.ofStubs stubs)).seenOther = s.side.seenOther :=
    fun s stubs => List.append_nil _
  cases scanSubdir_cases h with
  | gone hopen => simp [stillCalls] at hopen
  | vanished hopen hstub hs hv =>
      rw [vanished_still hs] at hv
      cases hv
  | full hopen hstub =>
      rcases classifyDirStub_still hstub with ⟨hk, -⟩ | ⟨t, m, -, ⟨-, hnames⟩ | hk⟩
      · cases hk
      · exact seen_stubbed hnames
      · cases hk
  | plain hopen hstub hs hv =>
      rw [hside]
      exact ih _ hs
  | merged hopen hstub hs hv hload =>
      rw [hside]
      exact ih _ hs
  | @unresolved t m s stubs hopen hstub hs hv hload htol =>
      show Seen _ _ _ s.files (path :: ([] ++ (s.side.merge (.ofStubs stubs)).seenOther))
      rw [hside]
      exact ih _ hs

/-- **`scanDir_seen`** — a scanned directory has seen what it has. -/
theorem scanDir_seen {rechecked : Bool} {s : DirScan}
    (h : scanDir cfg rechecked pfx (stillCalls d) (listed cfg pfx (observe d)) = .ok s) :
    Seen cfg.isIgnored pfx (.sub d) s.files (pfx :: s.side.seenOther) := by
  induction d using DirTree.induction_find generalizing rechecked pfx s with
  | step d ih =>
      obtain ⟨scans, back, hscans, -, hthere, htree⟩ := scanDir_ok h
      have hall : (if rechecked then stillThere (stillCalls d) else .ok true) = .ok true := ite_self _
      have hv : s.vanished = false := by
        rw [hall] at hthere
        simpa using (Except.ok.inj hthere).symm
      obtain ⟨-, hfiles, hside⟩ := htree hv
      -- what an entry that the scan goes to has added
      have hreal : ∀ n y z, cfg.isIgnored (pfx ++ [n]) = false → d.find? n = some y →
          Yields cfg (stillCalls d) pfx (keptOf cfg pfx d) n (some (listedItem cfg pfx n y)) z →
          Seen cfg.isIgnored (pfx ++ [n]) y z.files z.side.seenOther := by
        intro n y z hi hy hyields
        cases y with
        | leaf a => exact yields_leaf_seen hi hyields
        | sub d' =>
            obtain ⟨out, c, hout, hc, rfl⟩ := yields_dir hyields hi rfl
            obtain ⟨side, hreal, hseen⟩ := classifyName_listed hi hout
            obtain ⟨-, rfl⟩ := Prod.mk.inj (Except.ok.inj hreal)
            show Seen _ _ _ c.files (out.2.seenOther ++ c.side.seenOther)
            rw [hseen]
            exact subdir_seen hc fun s hs => ih n d' hy hs
      have hname : ∀ n real z, (n, real) ∈ namesOf cfg pfx d →
          Yields cfg (stillCalls d) pfx (keptOf cfg pfx d) n real z →
          (z.files, z.side.seenOther) = ([], []) ∨ passesName cfg.isIgnored pfx n = true ∧
            ∃ y, d.find? n = some y ∧ Seen cfg.isIgnored (pfx ++ [n]) y z.files z.side.seenOther := by
        intro n real z hmem hyields
        by_cases hno : cfg.isIgnored (pfx ++ [n]) = true ∨ real = none
        · obtain ⟨hf, ho⟩ := yields_nothing hyields hno
          exact .inl (by rw [hf, ho])
        · rw [not_or, Bool.not_eq_true] at hno
          obtain ⟨x, rfl⟩ := Option.ne_none_iff_exists'.mp hno.2
          obtain ⟨hx, hl, y, hy, rfl⟩ := mem_namesOf.mp hmem
          exact .inr ⟨passesName_iff.mpr ⟨hx, hl, hno.1⟩, y, hy, hreal n y z hno.1 hy hyields⟩
      refine @seen_level cfg pfx d s.files s.side.seenOther
        (fun n fo => ∃ z, (n, z) ∈ scans ∧ fo = (z.files, z.side.seenOther)) ?_ ?_ ?_ ?_
      · intro x
        rw [hfiles, List.mem_flatMap]
        constructor
        · rintro ⟨⟨n, z⟩, hz, hx⟩
          exact ⟨n, _, ⟨z, hz, rfl⟩, hx⟩
        · rintro ⟨n, _, ⟨z, hz, rfl⟩, hx⟩
          exact ⟨(n, z), hz, hx⟩
      · intro q
        rw [hside, mem_seenOther_level]
        constructor
        · rintro ⟨⟨n, z⟩, hz, hx⟩
          exact ⟨n, _, ⟨z, hz, rfl⟩, hx⟩
        · rintro ⟨n, _, ⟨z, hz, rfl⟩, hx⟩
          exact ⟨(n, z), hz, hx⟩
      · rintro n _ ⟨z, hz, rfl⟩
        obtain ⟨real, hmem, hyields⟩ := exists_name hscans hz
        exact hname n real z hmem hyields
      · intro n y hpass hy
        obtain ⟨hx, hl, hi⟩ := passesName_iff.mp hpass
        have hmem : (n, some (listedItem cfg pfx n y)) ∈ namesOf cfg pfx d :=
          mem_namesOf.mpr ⟨hx, hl, y, hy, rfl⟩
        obtain ⟨z, hz, hyields⟩ := exists_scan hscans hmem
        exact ⟨_, ⟨z, hz, rfl⟩, hreal n y z hi hy hyields⟩

/-- **`scan_seen`** — a scan of the working tree has seen, of all paths that it goes to, what is there. -/
theorem scan_seen {r : ScanResult} (h : scanImpl cfg [] (stillCalls d) (observe d) = .ok r) :
    Seen cfg.isIgnored [] (.sub d) r.files ([] :: r.side.seenOther) := by
  obtain ⟨-, -, h⟩ := bind_eq_ok.mp h
  obtain ⟨s, hs, h⟩ := bind_eq_ok.mp h
  have hseen := scanDir_seen hs
  have hv : s.vanished = false := by
    obtain ⟨-, -, -, -, hthere, -⟩ := scanDir_ok hs
    rw [stillThere_still, ite_self] at hthere
    simpa using (Except.ok.inj hthere).symm
  have hfinish : finishScan cfg [] (stillCalls d) s = .ok r := h
  rw [finishScan, hv, if_neg Bool.false_ne_true] at hfinish
  obtain ⟨⟨k, stubs⟩, -, hfinish⟩ := bind_eq_ok.mp hfinish
  have hside : (s.side.merge (.ofStubs stubs)).seenOther = s.side.seenOther := List.append_nil _
  have hkept : r.files = s.files ∧ r.side.seenOther = s.side.seenOther := by
    cases k with
    | none =>
        cases hfinish
        exact ⟨rfl, hside⟩
    | full t m =>
        cases hfinish
        exact ⟨rfl, hside⟩
    | partialStub t m =>
        simp only at hfinish
        split at hfinish
        · cases hfinish
          exact ⟨rfl, hside⟩
        · split_ifs at hfinish
          cases hfinish
          exact ⟨rfl, hside⟩
        · cases hfinish
  rw [hkept.1, hkept.2]
  exact hseen

end Level

end Omemfs.Scan
