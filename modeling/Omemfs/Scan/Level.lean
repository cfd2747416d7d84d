/-
# Omemfs.Scan.Level — what one level of a scan consists of.

What a successful scan of a directory returns, taken apart: which names the level has
(`mem_logicalNames_some`, `mem_logicalNames_none`), what each of them adds (`Contributes`), and which
subdirectories are scanned into it (`Enters`).  Everything proved of whole scans starts from here.
-/
import Mathlib.Data.List.Forall2
import Omemfs.Scan.Walk

namespace Omemfs.Scan

open Lib

/-! ## The names of a level -/

/-- What a listed name adds to the logical names: itself, the name it is a stub of, or nothing. -/
theorem logicalNames_cons (raw seen : List String) (x : Listed) (l : List Listed) :
    (∃ y, logicalNames raw (x :: l) seen = y :: logicalNames raw l (y.1 :: seen) ∧ y.1 ∉ seen ∧
      (y = (x.name, some x) ∧ logicalName x.name = none ∨
        y.2 = none ∧ logicalName x.name = some y.1 ∧ y.1 ∉ raw)) ∨
    logicalNames raw (x :: l) seen = logicalNames raw l seen ∧
      (logicalName x.name = none → x.name ∈ seen) := by
  rw [logicalNames]
  by_cases hm : x.name = dirStubName
  · have hs : logicalName dirStubName ≠ none := by decide
    exact .inr ⟨if_pos hm, fun h => absurd (hm ▸ h) hs⟩
  rw [if_neg hm]
  cases hl : logicalName x.name with
  | some n =>
      by_cases hn : n ∉ raw ∧ n ∉ seen
      · exact .inl ⟨(n, none), if_pos hn, hn.2, .inr ⟨rfl, rfl, hn.1⟩⟩
      · exact .inr ⟨if_neg hn, fun h => nomatch h⟩
  | none =>
      by_cases hn : x.name ∉ seen
      · exact .inl ⟨(x.name, some x), if_pos hn, hn, .inl ⟨rfl, rfl⟩⟩
      · exact .inr ⟨if_neg hn, fun _ => not_not.mp hn⟩

theorem not_mem_seen {raw seen : List String} {l : List Listed} {y : String × Option Listed}
    (h : y ∈ logicalNames raw l seen) : y.1 ∉ seen := by
  induction l generalizing seen with
  | nil => cases h
  | cons x l ih =>
      rcases logicalNames_cons raw seen x l with ⟨z, heq, hz, -⟩ | ⟨heq, -⟩
      · rw [heq, List.mem_cons] at h
        rcases h with rfl | h
        · exact hz
        · exact fun hy => ih h (List.mem_cons_of_mem _ hy)
      · exact ih (heq ▸ h)

/-- A level has each name once. -/
theorem nodup_logicalNames (raw seen : List String) (l : List Listed) :
    ((logicalNames raw l seen).map Prod.fst).Nodup := by
  induction l generalizing seen with
  | nil => exact List.nodup_nil
  | cons x l ih =>
      rcases logicalNames_cons raw seen x l with ⟨z, heq, -⟩ | ⟨heq, -⟩
      · rw [heq]
        refine List.nodup_cons.mpr ⟨fun hn => ?_, ih _⟩
        obtain ⟨y, hy, hyz⟩ := List.mem_map.mp hn
        exact not_mem_seen hy (hyz ▸ List.mem_cons_self ..)
      · exact heq ▸ ih seen

/-- **`mem_logicalNames_some`** — an entry gives its own name, the first time it is listed. -/
theorem mem_logicalNames_some {raw seen : List String} {l : List Listed}
    (hraw : ∀ y ∈ l, y.name ∈ raw) {n : String} {x : Listed} :
    (n, some x) ∈ logicalNames raw l seen ↔
      l.find? (fun y => y.name = n) = some x ∧ logicalName n = none ∧ n ∉ seen := by
  induction l generalizing seen with
  | nil => simp [logicalNames]
  | cons y l ih =>
      have hl' : ∀ z ∈ l, z.name ∈ raw := fun z hz => hraw z (List.mem_cons_of_mem _ hz)
      rw [List.find?_cons]
      rcases logicalNames_cons raw seen y l with ⟨z, heq, hz, hy⟩ | ⟨heq, hy⟩
      · rw [heq, List.mem_cons, ih hl', List.mem_cons, not_or]
        rcases hy with ⟨rfl, hl⟩ | ⟨hz2, hl, hzraw⟩
        · by_cases hn : y.name = n
          · subst hn
            simp [hl, hz, eq_comm]
          · simp [hn, Ne.symm hn]
        · -- a stub file gives another name than its own, and one that is not listed
          have hne : (n, some x) ≠ z := fun h => by simp [← h] at hz2
          by_cases hn : y.name = n
          · subst hn
            simp [hl, hne]
          · simp only [hne, hn, decide_false, false_or, and_congr_right_iff]
            intro hf _
            refine and_iff_right fun hnz => hzraw ?_
            have hx : x.name = n := by simpa using List.find?_some hf
            rw [← hnz, ← hx]
            exact hl' x (List.mem_of_find?_eq_some hf)
      · rw [heq, ih hl']
        by_cases hn : y.name = n
        · subst hn
          simp only [decide_true, Option.some.injEq]
          exact ⟨fun h => absurd (hy h.2.1) h.2.2, fun h => absurd (hy h.2.1) h.2.2⟩
        · simp [hn]

/-- **`mem_logicalNames_none`** — a stub file gives the name it stands for unless that name is listed
itself. -/
theorem mem_logicalNames_none {raw seen : List String} {l : List Listed}
    (hraw : ∀ y ∈ l, y.name ∈ raw) {n : String} :
    (n, none) ∈ logicalNames raw l seen ↔
      (∃ y ∈ l, y.name ≠ dirStubName ∧ logicalName y.name = some n) ∧ n ∉ raw ∧ n ∉ seen := by
  induction l generalizing seen with
  | nil => simp [logicalNames]
  | cons x l ih =>
      have hl' : ∀ z ∈ l, z.name ∈ raw := fun z hz => hraw z (List.mem_cons_of_mem _ hz)
      rw [logicalNames]
      by_cases hm : x.name = dirStubName
      · simp [hm, ih hl']
      · rw [if_neg hm]
        cases hl : logicalName x.name with
        | none =>
            have hx : x.name ∈ raw := hraw x (List.mem_cons_self ..)
            have hne : n ∉ raw → n ≠ x.name := fun h he => h (he ▸ hx)
            by_cases hs : x.name ∈ seen
            · simp [hs, ih hl', hl]
            · simp only [hs, not_false_eq_true, if_true, List.mem_cons, ih hl']
              simp [hl]
              tauto
        | some k =>
            by_cases hk : k ∉ raw ∧ k ∉ seen
            · by_cases hn : n = k
              · simp [hk, hn, hl, hm]
              · simp [hk, hn, Ne.symm hn, hl, ih hl']
            · have hn : n ∉ raw → n ∉ seen → k ≠ n := fun h1 h2 he => hk ⟨he ▸ h1, he ▸ h2⟩
              show (n, none) ∈ (if k ∉ raw ∧ k ∉ seen then _ else _) ↔ _
              rw [if_neg hk, ih hl']
              simp only [List.exists_mem_cons_iff, hl, Option.some.injEq]
              tauto

/-! ## One level -/

section Level

variable {cfg : ScanConfig} {calls : DirCalls} {pfx : Path} {kept : List Listed}

/-- One logical name of a level, scanned. -/
def Yields (cfg : ScanConfig) (calls : DirCalls) (pfx : Path) (kept : List Listed)
    (n : String) (real : Option Listed) (z : NameScan) : Prop :=
  ∃ out res, classifyName cfg calls pfx kept n real = .ok out ∧
    runOutcome cfg (pfx ++ [n]) out.1 = .ok res ∧ z = { res with side := out.2.merge res.side }

/-- What one logical name adds to a level. -/
def Contributes (cfg : ScanConfig) (calls : DirCalls) (pfx : Path) (kept : List Listed)
    (n : String) (real : Option Listed) (e : Option TreeEntry) : Prop :=
  ∃ out res, classifyName cfg calls pfx kept n real = .ok out ∧
    runOutcome cfg (pfx ++ [n]) out.1 = .ok res ∧ e = res.entry

theorem scanNames_yields {names : List (String × Option Listed)} {scans : List (String × NameScan)}
    (h : scanNames cfg calls pfx kept names = .ok scans) :
    List.Forall₂ (fun y z => y.1 = z.1 ∧ Yields cfg calls pfx kept y.1 y.2 z.2) names scans := by
  induction names generalizing scans with
  | nil =>
      cases h
      exact .nil
  | cons y names ih =>
      obtain ⟨n, real⟩ := y
      obtain ⟨out, hout, h⟩ := bind_eq_ok.mp h
      obtain ⟨res, hres, h⟩ := bind_eq_ok.mp h
      obtain ⟨rest, hrest, h⟩ := bind_eq_ok.mp h
      cases h
      exact .cons ⟨rfl, out, res, hout, hres, rfl⟩ (ih hrest)

theorem exists_scan {names : List (String × Option Listed)} {scans : List (String × NameScan)}
    (h : scanNames cfg calls pfx kept names = .ok scans) {n : String} {real : Option Listed}
    (hmem : (n, real) ∈ names) : ∃ z, (n, z) ∈ scans ∧ Yields cfg calls pfx kept n real z := by
  have hforall := scanNames_yields h
  clear h
  induction hforall with
  | nil => cases hmem
  | @cons x z names scans hx _ ih =>
      rcases List.mem_cons.mp hmem with rfl | hmem
      · exact ⟨z.2, List.mem_cons.mpr (.inl (Prod.ext hx.1 rfl)), hx.2⟩
      · obtain ⟨z', hz', hy⟩ := ih hmem
        exact ⟨z', List.mem_cons_of_mem _ hz', hy⟩

theorem exists_name {names : List (String × Option Listed)} {scans : List (String × NameScan)}
    (h : scanNames cfg calls pfx kept names = .ok scans) {z : String × NameScan} (hmem : z ∈ scans) :
    ∃ real, (z.1, real) ∈ names ∧ Yields cfg calls pfx kept z.1 real z.2 := by
  have hforall := scanNames_yields h
  clear h
  induction hforall with
  | nil => cases hmem
  | @cons x z' names scans hx _ ih =>
      rcases List.mem_cons.mp hmem with rfl | hmem
      · exact ⟨x.2, List.mem_cons.mpr (.inl (Prod.ext hx.1.symm rfl)), hx.1 ▸ hx.2⟩
      · obtain ⟨real, hr, hy⟩ := ih hmem
        exact ⟨real, List.mem_cons_of_mem _ hr, hy⟩

theorem scanNames_forall₂ {names : List (String × Option Listed)} {scans : List (String × NameScan)}
    (h : scanNames cfg calls pfx kept names = .ok scans) :
    List.Forall₂ (fun y z => y.1 = z.1 ∧ Contributes cfg calls pfx kept y.1 y.2 z.2.entry)
      names scans := by
  apply (scanNames_yields h).imp
  rintro y z ⟨hname, out, res, hout, hres, hz⟩
  exact ⟨hname, out, res, hout, hres, by rw [hz]⟩

theorem Contributes.unique {n : String} {real : Option Listed} {e e' : Option TreeEntry}
    (h : Contributes cfg calls pfx kept n real e) (h' : Contributes cfg calls pfx kept n real e') :
    e = e' := by
  obtain ⟨out, res, hout, hres, rfl⟩ := h
  obtain ⟨out', res', hout', hres', rfl⟩ := h'
  rw [hout] at hout'
  cases hout'
  rw [hres] at hres'
  cases hres'
  rfl

theorem mem_levelEntries {names : List (String × Option Listed)} {scans : List (String × NameScan)}
    (h : scanNames cfg calls pfx kept names = .ok scans) {y : String × TreeEntry} :
    y ∈ levelEntries scans ↔
      ∃ real, (y.1, real) ∈ names ∧ Contributes cfg calls pfx kept y.1 real (some y.2) := by
  have hforall := scanNames_forall₂ h
  clear h
  induction hforall with
  | nil => simp [levelEntries]
  | @cons x z names scans hx _ ih =>
      obtain ⟨hname, hadds⟩ := hx
      have hhead : z.2.entry.map (fun e => (z.1, e)) = some y ↔ z.1 = y.1 ∧ z.2.entry = some y.2 := by
        cases z.2.entry <;> simp [Prod.ext_iff]
      have hcons : y ∈ levelEntries (z :: scans) ↔
          (z.1 = y.1 ∧ z.2.entry = some y.2) ∨ y ∈ levelEntries scans := by
        rw [← hhead]
        unfold levelEntries
        rw [List.filterMap_cons]
        cases z.2.entry.map (fun e => (z.1, e)) <;> simp [eq_comm]
      refine hcons.trans ((or_congr_right ih).trans ⟨?_, ?_⟩)
      · rintro (⟨hz, he⟩ | ⟨real, hmem, hc⟩)
        · have hx1 : x.1 = y.1 := hname.trans hz
          exact ⟨x.2, hx1 ▸ List.mem_cons_self .., hx1 ▸ he ▸ hadds⟩
        · exact ⟨real, List.mem_cons_of_mem _ hmem, hc⟩
      · rintro ⟨real, hmem, hc⟩
        rcases List.mem_cons.mp hmem with rfl | hmem
        · exact .inl ⟨hname.symm, hadds.unique hc⟩
        · exact .inr ⟨real, hmem, hc⟩

theorem map_fst_scans {names : List (String × Option Listed)} {scans : List (String × NameScan)}
    (h : scanNames cfg calls pfx kept names = .ok scans) :
    names.map Prod.fst = scans.map Prod.fst := by
  rw [← List.forall₂_eq_eq_eq, List.forall₂_map_left_iff, List.forall₂_map_right_iff]
  exact (scanNames_forall₂ h).imp fun _ _ hy => hy.1

theorem levelEntries_sublist (scans : List (String × NameScan)) :
    ((levelEntries scans).map Prod.fst).Sublist (scans.map Prod.fst) := by
  induction scans with
  | nil => exact .slnil
  | cons z scans ih =>
      unfold levelEntries at ih ⊢
      rw [List.filterMap_cons]
      cases z.2.entry with
      | none => exact ih.cons _
      | some e => exact ih.cons_cons _

theorem nodup_levelEntries {names : List (String × Option Listed)}
    {scans : List (String × NameScan)} (h : scanNames cfg calls pfx kept names = .ok scans)
    (hn : (names.map Prod.fst).Nodup) : ((levelEntries scans).map Prod.fst).Nodup :=
  (map_fst_scans h ▸ hn).sublist (levelEntries_sublist scans)

/-- A name of a level is found as what its scan added. -/
theorem lookup_levelEntries {scans : List (String × NameScan)} (hnd : (scans.map Prod.fst).Nodup)
    {n : String} {z : NameScan} (h : (n, z) ∈ scans) : (levelEntries scans).lookup n = z.entry := by
  induction scans with
  | nil => cases h
  | cons x scans ih =>
      obtain ⟨hx, hnd⟩ := List.nodup_cons.mp hnd
      have hcons : levelEntries (x :: scans) =
          (x.2.entry.map fun e => (x.1, e)).toList ++ levelEntries scans := by
        unfold levelEntries
        rw [List.filterMap_cons]
        cases x.2.entry <;> rfl
      rw [hcons]
      rcases List.mem_cons.mp h with rfl | h
      · cases he : z.entry with
        | some e => simp
        | none =>
            refine Tree.lookup_eq_none_iff.mpr fun hn => hx ?_
            simpa using (levelEntries_sublist scans).subset (by simpa using hn)
      · have hne : n ≠ x.1 := by
          rintro rfl
          exact hx (List.mem_map.mpr ⟨_, h, rfl⟩)
        cases x.2.entry with
        | none => exact ih hnd h
        | some e => simpa [Tree.lookup_cons_ite, hne] using ih hnd h

theorem lookup_levelEntries_of_not_mem {scans : List (String × NameScan)} {n : String}
    (h : n ∉ scans.map Prod.fst) : (levelEntries scans).lookup n = none :=
  Tree.lookup_eq_none_iff.mpr fun hn => h ((levelEntries_sublist scans).subset hn)

theorem exists_contributes {names : List (String × Option Listed)}
    {scans : List (String × NameScan)} (h : scanNames cfg calls pfx kept names = .ok scans)
    {y : String × Option Listed} (hy : y ∈ names) :
    ∃ e, Contributes cfg calls pfx kept y.1 y.2 e := by
  obtain ⟨z, -, out, res, hout, hres, -⟩ := exists_scan h hy
  exact ⟨res.entry, out, res, hout, hres, rfl⟩

theorem isListedDir_unknown {o : NameObs} :
    isListedDir .unknown o = true ↔ ∃ st, o.kindStat = .ok st ∧ st.kind = .dir := by
  cases h : o.kindStat with
  | error e => simp [isListedDir, h, Except.toOption]
  | ok st => simp [isListedDir, h, Except.toOption]

theorem isListedDir_of_ne {kind : EntryKind} (h : kind ≠ .unknown) (o : NameObs) :
    isListedDir kind o = true ↔ kind = .dir := by
  cases kind with
  | unknown => exact absurd rfl h
  | _ => simp [isListedDir]

/-- An entry that is there is a directory, or adds no tree of the disk. -/
theorem classifyKind_ok {path : Path} {x : Listed} {kind : EntryKind} {out : Outcome × SideData}
    (h : classifyKind path x kind = .ok out) :
    (kind = .dir ∧ out.1 = .subdir x.child) ∨
      kind ≠ .dir ∧ (out.1 = .skip ∨ out.1 = .unstable ∨ (∃ l, out.1 = .entry (.symlink l)) ∨
        ∃ st read, out.1 = .file st read) := by
  cases kind with
  | dir =>
      cases h
      exact .inl ⟨rfl, rfl⟩
  | symlink =>
      refine .inr ⟨nofun, ?_⟩
      simp only [classifyKind] at h
      repeat' split at h
      all_goals cases h
      all_goals simp
  | file =>
      refine .inr ⟨nofun, ?_⟩
      simp only [classifyKind] at h
      repeat' split at h
      all_goals cases h
      all_goals simp
  | other =>
      cases h
      exact .inr ⟨nofun, .inl rfl⟩
  | unknown =>
      cases h
      exact .inr ⟨nofun, .inl rfl⟩

theorem classifyReal_ok {path : Path} {x : Listed} {out : Outcome × SideData}
    (h : classifyReal path x = .ok out) :
    (isListedDir x.kind x.o ∧ out.1 = .subdir x.child) ∨
      ¬ isListedDir x.kind x.o ∧ (out.1 = .skip ∨ out.1 = .unstable ∨
        (∃ l, out.1 = .entry (.symlink l)) ∨ ∃ st read, out.1 = .file st read) := by
  by_cases hu : x.kind = .unknown
  · simp only [classifyReal, hu] at h
    cases hst : x.o.kindStat with
    | ok st =>
        simp only [hst] at h
        have hd : isListedDir x.kind x.o ↔ st.kind = .dir := by
          rw [hu, isListedDir_unknown]
          simp [hst]
        rw [hd]
        exact classifyKind_ok h
    | error e =>
        have hd : ¬ isListedDir x.kind x.o := by
          rw [hu, isListedDir_unknown]
          simp [hst]
        simp only [hst] at h
        split at h
        · next heq => cases heq
        · cases h
          exact .inr ⟨hd, .inr (.inl rfl)⟩
        · cases h
  · have hreal : classifyReal path x = classifyKind path x x.kind := by
      unfold classifyReal
      split
      · next hk => exact absurd hk hu
      · rfl
    have hd : isListedDir x.kind x.o ↔ x.kind = .dir := isListedDir_of_ne hu _
    rw [hd]
    exact classifyKind_ok (hreal ▸ h)

/-- A stub file beside an entry does not change what the entry is taken for, nor what is seen. -/
theorem classifyName_listed {n : String} {x : Listed} {out : Outcome × SideData}
    (hi : cfg.isIgnored (pfx ++ [n]) = false)
    (h : classifyName cfg calls pfx kept n (some x) = .ok out) :
    ∃ side, classifyReal (pfx ++ [n]) x = .ok (out.1, side) ∧ out.2.seenOther = side.seenOther := by
  simp only [classifyName, hi, Bool.false_eq_true, if_false] at h
  cases hf : kept.find? fun y => y.name = n ++ stubSuffix with
  | none => exact ⟨out.2, by simpa [hf] using h, rfl⟩
  | some y =>
      simp only [hf] at h
      cases hs : y.o.readStub with
      | ok r =>
          simp only [hs] at h
          cases hr : classifyReal (pfx ++ [n]) x with
          | error e => simp [hr, Except.map] at h
          | ok out' =>
              simp only [hr, Except.map, Except.ok.injEq] at h
              exact ⟨out'.2, by rw [← h], by rw [← h]; rfl⟩
      | error e =>
          simp only [hs] at h
          split_ifs at h
          exact ⟨out.2, h, rfl⟩

theorem classifyName_real {n : String} {x : Listed} {out : Outcome × SideData}
    (hi : cfg.isIgnored (pfx ++ [n]) = false)
    (h : classifyName cfg calls pfx kept n (some x) = .ok out) :
    ∃ side, classifyReal (pfx ++ [n]) x = .ok (out.1, side) :=
  (classifyName_listed hi h).imp fun _ hside => hside.1

/-- A stub file alone stands for a blob, unless its name is ignored. -/
theorem contributes_none {n : String} (hk : ∃ y ∈ kept, y.name = n ++ stubSuffix)
    {e : Option TreeEntry} (h : Contributes cfg calls pfx kept n none e) :
    cfg.isIgnored (pfx ++ [n]) = true ∧ e = none ∨
      cfg.isIgnored (pfx ++ [n]) = false ∧ ∃ b, e = some (.blob b) := by
  obtain ⟨out, res, hout, hres, rfl⟩ := h
  obtain ⟨y, hy, hyn⟩ := hk
  cases hi : cfg.isIgnored (pfx ++ [n]) with
  | true =>
      simp only [classifyName, hi, if_true] at hout
      cases hout
      cases hres
      exact .inl ⟨rfl, rfl⟩
  | false =>
      simp only [classifyName, hi, Bool.false_eq_true, if_false] at hout
      cases hf : kept.find? fun y => y.name = n ++ stubSuffix with
      | none =>
          have hno := List.find?_eq_none.mp hf y hy
          simp [hyn] at hno
      | some z =>
          simp only [hf] at hout
          cases hs : z.o.readStub with
          | error e => simp [hs] at hout
          | ok r =>
              simp only [hs] at hout
              cases hout
              cases hres
              exact .inr ⟨rfl, _, rfl⟩

/-- A file is a blob or what was recorded of its path. -/
theorem processFileJob_entry {job : FileJobConfig} {stat : FileStat} {read : FileRead}
    {d : TreeEntry} (h : (processFileJob job stat read).entry = some d) :
    d.children = .nil ∨ job.cloneRootEntry = some d := by
  unfold processFileJob at h
  cases hc : cacheHit job stat with
  | some x =>
      simp only [hc] at h
      cases h
      exact .inl rfl
  | none =>
      cases hf : fallbackHit job stat with
      | some b =>
          simp only [hc, hf] at h
          cases h
          exact .inl rfl
      | none =>
          cases read with
          | sourceChanged =>
              simp only [hc, hf] at h
              exact .inr h
          | ok hash captured =>
              simp only [hc, hf] at h
              cases h
              exact .inl rfl

theorem runFileJob_ok {path : Path} {stat : FileStat} {read : Except ScanError FileRead}
    {res : FileJobResult} (h : runFileJob cfg path stat read = .ok res) :
    ∃ r, res = processFileJob (cfg.fileJob path) stat r := by
  simp only [runFileJob] at h
  repeat' split at h
  all_goals cases h
  all_goals exact ⟨_, rfl⟩

/-- An entry that is a directory adds what its own scan found. -/
theorem yields_dir {n : String} {x : Listed} {z : NameScan}
    (h : Yields cfg calls pfx kept n (some x) z) (hi : cfg.isIgnored (pfx ++ [n]) = false)
    (hdir : isListedDir x.kind x.o = true) :
    ∃ out c, classifyName cfg calls pfx kept n (some x) = .ok out ∧ x.child = .ok c ∧
      z = ⟨c.entry, c.files, out.2.merge c.side⟩ := by
  obtain ⟨out, res, hout, hres, rfl⟩ := h
  obtain ⟨side, hreal⟩ := classifyName_real hi hout
  rcases classifyReal_ok hreal with ⟨-, hsub⟩ | ⟨hno, -⟩
  · rw [hsub] at hres
    cases hc : x.child with
    | error e => simp [runOutcome, hc, Except.map] at hres
    | ok c =>
        simp only [runOutcome, hc, Except.map, Except.ok.injEq] at hres
        exact ⟨out, c, hout, rfl, by rw [← hres]⟩
  · exact absurd hdir hno

/-- **`contributes_some`** — an entry that is there is a directory that is scanned, or what it adds has
nothing of the disk below it. -/
theorem contributes_some {n : String} {x : Listed} {e : Option TreeEntry}
    (h : Contributes cfg calls pfx kept n (some x) e) :
    (cfg.isIgnored (pfx ++ [n]) = false ∧ isListedDir x.kind x.o ∧
      ∃ s, x.child = .ok s ∧ e = s.entry) ∨
      ¬ (cfg.isIgnored (pfx ++ [n]) = false ∧ isListedDir x.kind x.o) ∧
        ∀ d, e = some d → d.children = .nil ∨ cfg.previous (pfx ++ [n]) = some d ∨
          (cfg.fileJob (pfx ++ [n])).cloneRootEntry = some d := by
  obtain ⟨out, res, hout, hres, rfl⟩ := h
  cases hi : cfg.isIgnored (pfx ++ [n]) with
  | true =>
      simp only [classifyName, hi, if_true] at hout
      cases hout
      cases hres
      exact .inr ⟨fun h => (nomatch h.1), nofun⟩
  | false =>
      obtain ⟨side, hreal⟩ := classifyName_real hi hout
      rcases classifyReal_ok hreal with ⟨hd, hsub⟩ | ⟨hd, hsub⟩
      · rw [hsub] at hres
        cases hc : x.child with
        | error e => simp [runOutcome, hc, Except.map] at hres
        | ok s =>
            simp only [runOutcome, hc, Except.map, Except.ok.injEq] at hres
            exact .inl ⟨rfl, hd, s, rfl, by rw [← hres]⟩
      · refine .inr ⟨fun h => hd h.2, fun d he => ?_⟩
        rcases hsub with hsub | hsub | ⟨l, hsub⟩ | ⟨st, read, hsub⟩
        · rw [hsub] at hres
          cases hres
          cases he
        · rw [hsub] at hres
          cases hres
          exact .inr (.inl he)
        · rw [hsub] at hres
          cases hres
          cases he
          exact .inl rfl
        · rw [hsub] at hres
          simp only [runOutcome] at hres
          cases hj : runFileJob cfg (pfx ++ [n]) st read with
          | error e => simp [hj, Except.map] at hres
          | ok j =>
              simp only [hj, Except.map, Except.ok.injEq] at hres
              obtain ⟨r, rfl⟩ := runFileJob_ok hj
              rw [← hres] at he
              exact (processFileJob_entry he).imp_right .inr

/-- Recorded names come back only where the level has no entry of the name. -/
theorem reappeared_ok {raw present : List String} {recorded back : List (String × TreeEntry)}
    (h : reappeared calls raw present recorded = .ok back) :
    back.Sublist recorded ∧ ∀ x ∈ back, x.1 ∉ present := by
  induction recorded generalizing back with
  | nil =>
      cases h
      exact ⟨.slnil, nofun⟩
  | cons y recorded ih =>
      obtain ⟨n, old⟩ := y
      have hskip : reappeared calls raw present recorded = .ok back →
          back.Sublist ((n, old) :: recorded) ∧ ∀ x ∈ back, x.1 ∉ present := by
        intro h
        exact ⟨(ih h).1.cons _, (ih h).2⟩
      rw [reappeared] at h
      by_cases hn : n ∈ raw ∨ n ∈ present
      · rw [if_pos hn] at h
        exact hskip h
      · rw [if_neg hn] at h
        split at h
        · cases hr : reappeared calls raw present recorded with
          | error e => simp [hr, Except.map] at h
          | ok rest =>
              simp only [hr, Except.map, Except.ok.injEq] at h
              subst h
              refine ⟨(ih hr).1.cons_cons _, ?_⟩
              exact List.forall_mem_cons.mpr ⟨(not_or.mp hn).2, (ih hr).2⟩
        · exact hskip h
        · cases h

/-- A scanned directory, taken apart. -/
theorem scanDir_ok {rechecked : Bool} {l : List Listed} {s : DirScan}
    (h : scanDir cfg rechecked pfx calls l = .ok s) :
    ∃ scans back, scanNames cfg calls pfx (keptNames l)
        (logicalNames ((keptNames l).map Listed.name) (keptNames l) []) = .ok scans ∧
      (back = [] ∨ reappeared calls ((keptNames l).map Listed.name)
        ((levelEntries scans).map Prod.fst) (cfg.childrenOf pfx) = .ok back) ∧
      (if rechecked then stillThere calls else .ok true) = .ok (!s.vanished) ∧
      (s.vanished = false → s.tree = Tree.buildAndStore (levelEntries scans ++ back) ∧
        s.files = scans.flatMap (fun x => x.2.files) ∧ s.side = levelSide pfx l scans back) := by
  obtain ⟨-, -, h⟩ := bind_eq_ok.mp h
  obtain ⟨scans, hscans, h⟩ := bind_eq_ok.mp h
  obtain ⟨back, hback, h⟩ := bind_eq_ok.mp h
  obtain ⟨there, hthere, h⟩ := bind_eq_ok.mp h
  refine ⟨scans, back, hscans, ?_, ?_⟩
  · split_ifs at hback
    · exact .inr hback
    · exact .inl (Except.ok.inj hback).symm
  · cases there <;> cases h <;> exact ⟨hthere, by simp⟩

theorem listing_of_scanDir {rechecked : Bool} {l : List Listed} {s : DirScan}
    (h : scanDir cfg rechecked pfx calls l = .ok s) : calls.listing = .ok () := by
  obtain ⟨_, hlist, _⟩ := bind_eq_ok.mp h
  exact hlist

theorem stillThere_of_scanDir {l : List Listed} {s : DirScan}
    (h : scanDir cfg true pfx calls l = .ok s) : stillThere calls = .ok (!s.vanished) := by
  obtain ⟨_, _, -, -, hthere, -⟩ := scanDir_ok h
  exact hthere

/-- The directories of a scanned level were scanned. -/
theorem level_child {rechecked : Bool} {l : List Listed} {s : DirScan}
    (h : scanDir cfg rechecked pfx calls l = .ok s) {d : String} {x : Listed}
    (hf : (keptNames l).find? (fun y => y.name = d) = some x) (hd : logicalName d = none)
    (hi : cfg.isIgnored (pfx ++ [d]) = false) (hdir : isListedDir x.kind x.o) :
    ∃ r, x.child = .ok r := by
  obtain ⟨scans, -, hscans, -⟩ := scanDir_ok h
  have hraw : ∀ y ∈ keptNames l, y.name ∈ (keptNames l).map Listed.name := fun y hy =>
    List.mem_map_of_mem hy
  have hmem := (mem_logicalNames_some hraw).mpr ⟨hf, hd, List.not_mem_nil⟩
  obtain ⟨e, he⟩ := exists_contributes hscans hmem
  rcases contributes_some he with ⟨-, -, r, hr, -⟩ | ⟨hno, -⟩
  · exact ⟨r, hr⟩
  · exact absurd ⟨hi, hdir⟩ hno

end Level

/-! ## Directories below -/

/-- The directory's own listing goes into its tree. -/
def readsDisk (cfg : ScanConfig) (path : Path) (calls : DirCalls) : Bool :=
  match classifyDirStub path calls with
  | .ok (.none, _) => true
  | .ok (.partialStub t _, _) => (cfg.loadRecorded t).isOk
  | _ => false

/-- A subdirectory that is scanned into its parent's tree: it opens, it is there in the end, and its
listing is used. -/
def Enters (cfg : ScanConfig) (path : Path) (calls : DirCalls) : Prop :=
  calls.openDir = .ok () ∧ stillThere calls = .ok true ∧ readsDisk cfg path calls = true

/-- What a directory's marker can say. -/
theorem classifyDirStub_ok {path : Path} {calls : DirCalls} {k : DirStubKind}
    {stubs : List (Path × StubRecord)} (h : classifyDirStub path calls = .ok (k, stubs)) :
    (∀ x ∈ stubs, x.1 = path) ∧ (k = .none ∨
      ∃ r t real, calls.readMarker = .ok r ∧ r.target = .tree t ∧
        dirHasRealChildren calls = .ok real ∧
        k = if real then .partialStub t r.meta' else .full t r.meta') := by
  unfold classifyDirStub at h
  split at h
  · cases h
    exact ⟨fun x hx => (nomatch hx), .inl rfl⟩
  · cases h
  · split_ifs at h with hk
    · cases h
      exact ⟨fun x hx => (nomatch hx), .inl rfl⟩
    · obtain ⟨r, hr, h⟩ := bind_eq_ok.mp h
      cases ht : r.target with
      | blob hash =>
          simp only [ht] at h
          cases h
          exact ⟨by simp, .inl rfl⟩
      | tree t =>
          simp only [ht] at h
          cases hd : dirHasRealChildren calls with
          | error e => simp [hd, Except.map] at h
          | ok real =>
              simp only [hd, Except.map] at h
              cases h
              exact ⟨by simp, .inr ⟨r, t, real, hr, ht, rfl, rfl⟩⟩

/-- The side data of a classified marker. -/
abbrev SideData.ofStubs (stubs : List (Path × StubRecord)) : SideData :=
  { SideData.empty with stubs := stubs }

/-- What became of a subdirectory. -/
inductive SubdirCase (cfg : ScanConfig) (path : Path) (calls : DirCalls)
    (scan : Except ScanError DirScan) : SubScan → Prop
  | gone (hopen : calls.openDir = .error .symlinkEscape ∨ calls.openDir = .error .notFound) :
      SubdirCase cfg path calls scan ⟨cfg.previous path, [], .unstable path⟩
  | full {t : Tree} {m : TreeMeta} {stubs : List (Path × StubRecord)} (hopen : calls.openDir = .ok ())
      (hstub : classifyDirStub path calls = .ok (.full t m, stubs)) :
      SubdirCase cfg path calls scan ⟨some (.tree t m), [], .ofStubs stubs⟩
  | vanished {k : DirStubKind} {s : DirScan} {stubs : List (Path × StubRecord)}
      (hopen : calls.openDir = .ok ()) (hstub : classifyDirStub path calls = .ok (k, stubs))
      (hscan : scan = .ok s) (hv : s.vanished = true) :
      SubdirCase cfg path calls scan
        ⟨cfg.previous path, s.files, (SideData.unstable path).merge (s.side.merge (.ofStubs stubs))⟩
  | plain {s : DirScan} {stubs : List (Path × StubRecord)} (hopen : calls.openDir = .ok ())
      (hstub : classifyDirStub path calls = .ok (.none, stubs)) (hscan : scan = .ok s)
      (hv : s.vanished = false) :
      SubdirCase cfg path calls scan
        ⟨some (.tree s.tree (Tree.treeMeta s.tree)), s.files, s.side.merge (.ofStubs stubs)⟩
  | merged {t : Tree} {m : TreeMeta} {s : DirScan} {stubs : List (Path × StubRecord)}
      (hopen : calls.openDir = .ok ())
      (hstub : classifyDirStub path calls = .ok (.partialStub t m, stubs)) (hscan : scan = .ok s)
      (hv : s.vanished = false) (hload : cfg.loadRecorded t = .ok ()) :
      SubdirCase cfg path calls scan
        ⟨some (.tree (mergePartialExpansion t s.tree)
          (Tree.treeMeta (mergePartialExpansion t s.tree))), s.files, s.side.merge (.ofStubs stubs)⟩
  | unresolved {t : Tree} {m : TreeMeta} {s : DirScan} {stubs : List (Path × StubRecord)}
      (hopen : calls.openDir = .ok ())
      (hstub : classifyDirStub path calls = .ok (.partialStub t m, stubs)) (hscan : scan = .ok s)
      (hv : s.vanished = false) (hload : cfg.loadRecorded t = .error .objectNotFound)
      (htol : cfg.tolerateUnresolvedStubs = true) :
      SubdirCase cfg path calls scan
        ⟨some (.tree t m), s.files, SideData.merge { SideData.empty with unresolvedStubs := [path] }
          (s.side.merge (.ofStubs stubs))⟩

/-- **`scanSubdir_cases`** — a subdirectory's scan that succeeds is one of these. -/
theorem scanSubdir_cases {cfg : ScanConfig} {path : Path} {calls : DirCalls}
    {scan : Except ScanError DirScan} {c : SubScan} (h : scanSubdir cfg path calls scan = .ok c) :
    SubdirCase cfg path calls scan c := by
  cases ho : calls.openDir with
  | error e =>
      simp only [scanSubdir, ho] at h
      split at h
      · next heq =>
          cases h
          exact .gone (.inl (ho.trans heq))
      · next heq =>
          cases h
          exact .gone (.inr (ho.trans heq))
      · cases h
      · next hok => cases hok
  | ok u =>
      simp only [scanSubdir, ho] at h
      obtain ⟨⟨k, stubs⟩, hk, h⟩ := bind_eq_ok.mp h
      cases k with
      | full t m =>
          cases h
          exact .full ho hk
      | none =>
          obtain ⟨s, hs, h⟩ := bind_eq_ok.mp h
          cases hv : s.vanished <;> simp only [hv, if_true, Bool.false_eq_true, if_false] at h <;>
            cases h
          · exact .plain ho hk hs hv
          · exact .vanished ho hk hs hv
      | partialStub t m =>
          obtain ⟨s, hs, h⟩ := bind_eq_ok.mp h
          cases hv : s.vanished with
          | true =>
              simp only [hv, if_true] at h
              cases h
              exact .vanished ho hk hs hv
          | false =>
              simp only [hv, Bool.false_eq_true, if_false] at h
              cases hload : cfg.loadRecorded t with
              | ok u =>
                  simp only [hload] at h
                  cases h
                  exact .merged ho hk hs hv hload
              | error e =>
                  simp only [hload] at h
                  split at h
                  · next hok => cases hok
                  · next heq =>
                      split_ifs at h with htol
                      cases h
                      exact .unresolved ho hk hs hv (hload.trans heq) htol
                  · cases h

theorem find?_listed (cfg : ScanConfig) (pfx : Path) (obs : DirObs) (n : String) :
    (listed cfg pfx obs).find? (fun y => y.name = n) = (obs.find? n).map fun f =>
      ⟨n, f.kind, f.o, scanSubdir cfg (pfx ++ [n]) f.calls
        (scanDir cfg true (pfx ++ [n]) f.calls (listed cfg (pfx ++ [n]) f.sub))⟩ := by
  induction obs with
  | nil => rfl
  | entry name kind o calls sub rest _ ih =>
      rw [listed, List.find?_cons, DirObs.find?]
      by_cases hn : name = n
      · simp [hn]
      · simpa [hn] using ih

theorem names_listed (cfg : ScanConfig) (pfx : Path) (obs : DirObs) :
    (listed cfg pfx obs).map Listed.name = obs.names := by
  induction obs with
  | nil => rfl
  | entry name kind o calls sub rest _ ih => simp [listed, DirObs.names, ih]

theorem find?_keptNames (l : List Listed) (n : String) :
    (keptNames l).find? (fun y => y.name = n) =
      if isExcluded n then none else l.find? fun y => y.name = n := by
  unfold keptNames
  rw [List.find?_filter]
  cases hx : isExcluded n with
  | true =>
      refine List.find?_eq_none.mpr fun y _ => ?_
      by_cases hn : y.name = n <;> simp [hn, hx]
  | false =>
      refine congrArg (l.find? ·) (funext fun y => ?_)
      by_cases hn : y.name = n <;> simp [hn, hx]

theorem mem_keptNames {l : List Listed} {x : Listed} :
    x ∈ keptNames l ↔ x ∈ l ∧ isExcluded x.name = false := by
  simp [keptNames]

/-- What is below the names of a listing is smaller than the listing. -/
theorem DirObs.induction_find {motive : DirObs → Prop}
    (step : ∀ obs, (∀ n f, obs.find? n = some f → motive f.sub) → motive obs) (obs : DirObs) :
    motive obs := by
  have hall : motive obs ∧ ∀ n f, obs.find? n = some f → motive f.sub := by
    induction obs with
    | nil =>
        have hfind : ∀ n f, DirObs.nil.find? n = some f → motive f.sub := by
          intro n f hf
          cases hf
        exact ⟨step _ hfind, hfind⟩
    | entry name kind o calls sub rest ihs ihr =>
        have hfind : ∀ n f, (DirObs.entry name kind o calls sub rest).find? n = some f →
            motive f.sub := by
          intro n f hf
          rw [DirObs.find?] at hf
          split_ifs at hf with hn
          · cases hf
            exact ihs.1
          · exact ihr.2 n f hf
        exact ⟨step _ hfind, hfind⟩
  exact hall.1

end Omemfs.Scan
