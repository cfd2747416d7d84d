/-
# Omemfs.Work.RestoreStep — what the single calls of a restore do.

The working tree is a tidy one: the command's own files in it are files, and none of them is a stub.  There
a removal with the stub is the removal alone, the helpers of a path go wherever the way to it is open, and a
directory that is not recorded goes with all that it has, as it is listed (`removeListed_effect`).
-/
import Omemfs.Lib.Settle
import Omemfs.Work.Planned

namespace Omemfs.Work

open Lib Scan Fsguard
open Omemfs.Sync (artifactPath artifactPath_concat isConflictArtifact_append)
open Omemfs.Sync.Checked (fileStubPath dirStubPath isFile)

/-! ## Calls that find nothing, or what is theirs -/

section Calls

variable {s : Disk} {p : Path} {n m : String}

theorem exists_concat (hp : p ≠ []) : ∃ parent n, p = parent ++ [n] :=
  ⟨p.dropLast, p.getLast hp, (List.dropLast_append_getLast hp).symm⟩

theorem fileStub_concat (p : Path) (n : String) : fileStubPath (p ++ [n]) = p ++ [n ++ stubSuffix] := by
  simp [fileStubPath]

theorem openWay_beside (h : OpenWay s (p ++ [n])) (m : String) : OpenWay s (p ++ [m]) :=
  openWay_concat.mpr (openWay_concat.mp h)

theorem removeAbsent_effect (hp : p ≠ []) (hway : OpenWay s p) (hnone : s.get p = none) :
    Effect (removeFileTolerant p) s True fun _ s' => ∀ q, s'.get q = s.get q := by
  refine (removeFileTolerant_effect s hp).congr (iff_of_true ⟨hway, by simp [hnone]⟩ trivial) ?_
  intro _ _ s' hs' q
  rw [hs']
  split_ifs with hq
  · rw [hq, hnone]
  · rfl

/-- Something above the path is no directory: nothing is opened. -/
theorem openLeaf_blocked (h : ¬ OpenWay s (p ++ [n])) :
    ∃ e, openLeaf false (p ++ [n]) s = .error e s ∧ e ≠ .io .enoent := by
  obtain ⟨a, x, ha, hx⟩ : ∃ a x, a <+: p ∧ s.get a = some (.leaf x) := by
    by_contra hno
    exact h (openWay_concat.mpr fun a ha x hx => hno ⟨a, x, ha, hx⟩)
  rw [openLeaf_concat]
  rcases resolveDir_open (d := s) (DirTree.get_nil s) p with ⟨hdir, -⟩ | ⟨hno, -, -⟩ | ⟨-, q, hq⟩
  · rw [List.nil_append] at hdir
    rw [DirTree.dir_of_prefix hdir ha] at hx
    cases hx
  · exact absurd hx (hno a ha x)
  · exact ⟨_, hq, by simp⟩

/-- Whatever stands above it, a path where nothing is stays so. -/
theorem ignoring_absent (hnone : s.get (p ++ [n]) = none) :
    Effect (ignoring (removeFileTolerant (p ++ [n]))) s True fun _ s' => ∀ q, s'.get q = s.get q := by
  by_cases hway : OpenWay s (p ++ [n])
  · obtain ⟨a, s', hs', hget⟩ := (removeAbsent_effect (by simp) hway hnone).succeeds trivial
    refine Effect.of_eq_ok (a := ⟨⟩) (t := s') ?_ trivial hget
    simp only [ignoring, hs']
  · obtain ⟨e, he, hne⟩ := openLeaf_blocked hway
    have herr : removeFileTolerant (p ++ [n]) s = .error e s := by
      unfold removeFileTolerant
      rw [he]
      cases e with
      | io e => cases e <;> first | exact absurd rfl hne | rfl
      | _ => rfl
    refine Effect.of_eq_ok (a := ⟨⟩) (t := s) ?_ trivial fun q => rfl
    simp only [ignoring, herr]

theorem acting_effect {x : Guarded DiskLeaf PUnit} {ok : Prop} {post : PUnit → Disk → Prop}
    (h : Effect x s ok post) : Effect (acting x) s ok post where
  succeeds := by
    intro hok
    obtain ⟨a, s', hs', hpost⟩ := h.succeeds hok
    exact ⟨⟨⟩, s', by simp only [acting, hs'], hpost⟩
  fails := by
    intro hno
    obtain ⟨e, s', hs'⟩ := h.fails hno
    exact ⟨.failed e, s', by simp only [acting, hs']⟩

/-! ## Conflict helpers -/

/-- One of the files that a conflict leaves beside a path. -/
def HelperOf (p q : Path) : Prop := ∃ x ∈ conflictArtifactSuffixes, q = artifactPath p x

theorem helperOf_concat {q : Path} :
    HelperOf (p ++ [n]) q ↔ ∃ x ∈ conflictArtifactSuffixes, q = p ++ [n ++ x] := by
  simp only [HelperOf, artifactPath_concat]

/-- **`removeConflictHelpers_effect`** — where the way to a path is open, its helpers go. -/
theorem removeConflictHelpers_effect (hp : p ≠ []) (hown : ∀ q, HelperOf p q → s.get q ≠ some .dir) :
    Effect (removeConflictHelpers p) s (OpenWay s p)
      fun _ => Reaches (fun d q => d.get q) (fun _ => none) (HelperOf p) s := by
  obtain ⟨parent, n, rfl⟩ := exists_concat hp
  have hall : Effect (removeConflictHelpers (parent ++ [n])) s
      (∀ x ∈ conflictArtifactSuffixes, OpenWay s (parent ++ [n])) fun _ =>
      Settled (fun (d : Disk) q => d.get q) (fun _ => none)
        (fun x q => q = artifactPath (parent ++ [n]) x) conflictArtifactSuffixes s := by
    refine Effect.settle (fun _ => True) trivial (fun _ _ _ _ => trivial)
      (fun _ => OpenWay s (parent ++ [n])) fun done t _ hdone ht x hx => ?_
    -- the helpers that are gone by now lie beside the path, not above it
    have habove : ∀ a, a <+: parent → t.get a = s.get a := by
      intro a ha
      refine ht.kept a fun y _ hy => ?_
      rw [hy, artifactPath_concat] at ha
      simpa using ha.length_le
    have hkind : t.get (artifactPath (parent ++ [n]) x) ≠ some .dir := by
      rcases ht.view_or (artifactPath (parent ++ [n]) x) with h | ⟨-, h⟩
      · rw [h]
        exact hown _ ⟨x, hx, rfl⟩
      · simp [h]
    rw [artifactPath_concat] at hkind ⊢
    refine (removeFileTolerant_effect t (by simp)).congr ?_ ?_
    · rw [openWay_concat, openWay_concat]
      constructor
      · intro h a ha y
        rw [← habove a ha]
        exact h.1 a ha y
      · intro h
        refine ⟨fun a ha y => ?_, hkind⟩
        rw [habove a ha]
        exact h a ha y
    · intro _ _ u hu
      constructor
      · intro q hq
        rw [hu, if_pos hq]
      · intro q hq
        rw [hu, if_neg hq]
  refine hall.congr ?_ ?_
  · constructor
    · intro h
      exact h _ (List.mem_cons_self ..)
    · exact fun h _ _ => h
  · intro _ _ t ht
    constructor
    · rintro q ⟨x, hx, hq⟩
      exact ht.reached x hx q hq
    · intro q hq
      exact ht.kept q fun x hx h => hq ⟨x, hx, h⟩

end Calls

/-! ## A tidy working tree -/

/-- The command's own files are files, none of them a stub, and nothing is special. -/
structure Tidy (d : Disk) : Prop where
  stub : ∀ p n, d.get (p ++ [n]) ≠ none → isStubFilename n = false
  own : ∀ p n, (isConflictArtifact n || isWorkingTreeTmp n) = true → d.get (p ++ [n]) ≠ some .dir
  plain : ∀ p, d.get p ≠ some (.leaf .special)

theorem Tidy.fileStub {s : Disk} (h : Tidy s) (p : Path) (n : String) :
    s.get (p ++ [n ++ stubSuffix]) = none := by
  by_contra hne
  have hends : isStubFilename (n ++ stubSuffix) = true := by
    simp [isStubFilename, endsWith]
  rw [h.stub p _ hne] at hends
  cases hends

theorem Tidy.dirStub {s : Disk} (h : Tidy s) (p : Path) : s.get (p ++ [dirStubName]) = none :=
  h.fileStub p ""

theorem Tidy.helper {s : Disk} (h : Tidy s) {p q : Path} (hp : p ≠ []) (hq : HelperOf p q) :
    s.get q ≠ some .dir := by
  obtain ⟨parent, n, rfl⟩ := exists_concat hp
  obtain ⟨x, hx, rfl⟩ := helperOf_concat.mp hq
  exact h.own parent _ (by rw [isConflictArtifact_append n hx, Bool.true_or])

theorem Tidy.mono {s s' : Disk} (h : Tidy s) (hs : ∀ q, s'.get q = none ∨ s'.get q = s.get q) :
    Tidy s' where
  stub := by
    intro p n hne
    apply h.stub p n
    rcases hs (p ++ [n]) with hq | hq
    · exact absurd hq hne
    · rwa [← hq]
  own := by
    intro p n hown hdir
    apply h.own p n hown
    rcases hs (p ++ [n]) with hq | hq
    · rw [hq] at hdir
      cases hdir
    · rwa [← hq]
  plain := by
    intro p hsp
    apply h.plain p
    rcases hs p with hq | hq
    · rw [hq] at hsp
      cases hsp
    · rwa [← hq]

/-! ## Removing what is there -/

section Remove

variable {cfg : RestoreConfig} {s : Disk} {p dir : Path} {n : String}

theorem openWay_of_dir (h : s.get dir = some .dir) (n : String) : OpenWay s (dir ++ [n]) := by
  apply openWay_concat.mpr
  intro a ha x hx
  rw [DirTree.dir_of_prefix h ha] at hx
  cases hx

/-- A file goes together with its stub, of which there is none. -/
theorem removeWithStub_effect (ht : Tidy s) :
    Effect (removeFileTolerant (dir ++ [n]) >>= fun _ => removeFileTolerant (fileStubPath (dir ++ [n])))
      s (OpenWay s (dir ++ [n]) ∧ s.get (dir ++ [n]) ≠ some .dir)
      fun _ s' => ∀ q, s'.get q = if q = dir ++ [n] then none else s.get q := by
  refine (removeFileTolerant_effect s (by simp)).andAlways ?_
  intro _ t hok ht'
  have hway : OpenWay t (dir ++ [n ++ stubSuffix]) := by
    apply openWay_concat.mpr
    intro a ha x hx
    rw [ht', if_neg (by rintro rfl; simpa using ha.length_le)] at hx
    exact openWay_concat.mp hok.1 a ha x hx
  have hnone : t.get (dir ++ [n ++ stubSuffix]) = none := by
    rw [ht', ht.fileStub]
    split_ifs <;> rfl
  rw [fileStub_concat]
  refine (removeAbsent_effect (by simp) hway hnone).congr Iff.rfl ?_
  intro _ _ u hu q
  rw [hu, ht']

/-- One of the command's own files goes, too. -/
theorem ignoring_effect (hway : OpenWay s (dir ++ [n])) (hleaf : s.get (dir ++ [n]) ≠ some .dir) :
    Effect (ignoring (removeFileTolerant (dir ++ [n]))) s True
      fun _ s' => ∀ q, s'.get q = if q = dir ++ [n] then none else s.get q := by
  obtain ⟨a, s', hs', hget⟩ :=
    (removeFileTolerant_effect s (p := dir ++ [n]) (by simp)).succeeds ⟨hway, hleaf⟩
  refine Effect.of_eq_ok (a := ⟨⟩) (t := s') ?_ trivial hget
  simp only [ignoring, hs']

theorem removeDirOk_effect (hway : OpenWay s (dir ++ [n]))
    (hempty : ∀ m r, s.get (dir ++ n :: m :: r) = none) (hleaf : ∀ x, s.get (dir ++ [n]) ≠ some (.leaf x)) :
    Effect (removeDirOk cfg (dir ++ [n])) s True
      fun _ s' => ∀ q, s'.get q = if dir ++ [n] <+: q then none else s.get q := by
  have hrun : removeDirOk cfg (dir ++ [n]) s = tryRmdir (dir ++ [n]) s := by
    simp [removeDirOk, linkAbove_of_openWay hway]
  have hbelow : ∀ q, dir ++ [n] <+: q → q ≠ dir ++ [n] → s.get q = none := by
    rintro _ ⟨_ | ⟨m, r⟩, rfl⟩ hne
    · simp at hne
    · simpa using hempty m r
  rcases hget : s.get (dir ++ [n]) with _ | _ | x
  · -- it is gone already, and that the call fails does not matter
    refine Effect.of_eq_ok (a := ⟨⟩) (t := s) (hrun.trans (tryRmdir_of_not_empty ?_)) trivial ?_
    · rw [DirTree.get_eq_none_iff.mp hget]
      simp
    · intro q
      split_ifs with hq
      · by_cases hne : q = dir ++ [n]
        · rw [hne, hget]
        · exact hbelow q hq hne
      · rfl
  · obtain ⟨s', hs', hget'⟩ := tryRmdir_of_empty (DirTree.at_eq_empty_iff.mpr
      ⟨hget, fun m => by simpa using hempty m []⟩)
    refine Effect.of_eq_ok (a := ⟨⟩) (t := s') (hrun.trans hs') trivial fun q => ?_
    rw [hget']
    by_cases hq : q = dir ++ [n]
    · simp [hq]
    · rw [if_neg hq]
      split_ifs with hle
      · exact hbelow q hle hq
      · rfl
  · exact absurd hget (hleaf x)

theorem prefix_of_ne {m : String} (h : m ≠ n) (r : Path) : ¬ dir ++ [n] <+: dir ++ m :: r := by
  rintro ⟨r', hr'⟩
  rw [List.append_assoc, List.singleton_append] at hr'
  exact h (List.cons_eq_cons.mp (List.append_cancel_left hr')).1.symm

/-- One name after another: what is done for the first leaves the rest of the listing as it is. -/
theorem removeNext_effect {first rest : Guarded DiskLeaf PUnit} {l : Disk} (hn : n ∉ l.names)
    (hdir : s.get dir = some .dir) (ht : Tidy s)
    (hlist : ∀ m ∈ l.names, ∀ r, s.get (dir ++ m :: r) = l.get (m :: r))
    (hfirst : Effect first s True fun _ s' =>
      ∀ q, s'.get q = if dir ++ [n] <+: q then none else s.get q)
    (hrest : ∀ u : Disk, u.get dir = some .dir → Tidy u →
      (∀ m ∈ l.names, ∀ r, u.get (dir ++ m :: r) = l.get (m :: r)) →
      Effect rest u True fun _ s' =>
        ∀ q, s'.get q = if ∃ m ∈ l.names, dir ++ [m] <+: q then none else u.get q) :
    Effect (first >>= fun _ => rest) s True fun _ s' =>
      ∀ q, s'.get q = if ∃ m ∈ n :: l.names, dir ++ [m] <+: q then none else s.get q := by
  refine hfirst.andThen ?_
  intro _ u hu
  refine (hrest u ?_ (ht.mono fun q => ?_) ?_).congr Iff.rfl ?_
  · rw [hu, if_neg (fun h => by simpa using h.length_le), hdir]
  · rw [hu]
    exact ite_eq_or_eq ..
  · intro m hm r
    have hmn : m ≠ n := by
      rintro rfl
      exact hn hm
    rw [hu, if_neg (prefix_of_ne hmn r), hlist m hm]
  · intro _ _ v hv q
    rw [hv, hu]
    simp only [List.exists_mem_cons_iff]
    by_cases hq : dir ++ [n] <+: q <;> simp [hq]

/-- Nothing is left below a directory when all that it lists is gone. -/
theorem gone_below {c u : Disk} (hget : ∀ r, s.get (dir ++ r) = c.get r)
    (hu : ∀ q, u.get q = if ∃ m ∈ c.names, dir ++ [m] <+: q then none else s.get q) (m : String)
    (r : Path) : u.get (dir ++ m :: r) = none := by
  rw [hu]
  by_cases hm : m ∈ c.names
  · rw [if_pos ⟨m, hm, r, by simp⟩]
  · rw [hget, DirTree.get_cons_of_none (DirTree.find?_eq_none_iff.mpr hm), ite_self]

/-- **`removeListed_effect`** — all that is listed goes, with everything below it. -/
theorem removeListed_effect {l : Disk} (hwf : l.Wf) (hdir : s.get dir = some .dir) (ht : Tidy s)
    (hlist : ∀ m ∈ l.names, ∀ r, s.get (dir ++ m :: r) = l.get (m :: r)) :
    Effect (removeListed cfg l dir) s True fun _ s' =>
      ∀ q, s'.get q = if ∃ m ∈ l.names, dir ++ [m] <+: q then none else s.get q := by
  induction l generalizing s dir with
  | nil =>
      refine Effect.of_eq_ok (a := ⟨⟩) (t := s) rfl trivial fun q => ?_
      simp [DirTree.names]
  | leaf n x rest ih =>
      obtain ⟨hn, hrest⟩ := hwf
      have hget : s.get (dir ++ [n]) = some (.leaf x) := by
        rw [hlist n (List.mem_cons_self ..), DirTree.get_leaf_cons, if_pos rfl, if_pos rfl]
      -- below a file there is nothing that could be left
      have hgone : ∀ s' : Disk, (∀ q, s'.get q = if q = dir ++ [n] then none else s.get q) →
          ∀ q, s'.get q = if dir ++ [n] <+: q then none else s.get q := by
        intro s' hs' q
        rw [hs']
        by_cases hq : dir ++ [n] <+: q
        · obtain ⟨_ | ⟨m, r⟩, rfl⟩ := hq
          · simp
          · rw [DirTree.get_append_of_not_dir (by simp [hget])]
            simp
        · rw [if_neg hq, if_neg]
          rintro rfl
          exact hq List.prefix_rfl
      have hfile : Effect (removeFileTolerant (dir ++ [n]) >>= fun _ =>
          removeFileTolerant (fileStubPath (dir ++ [n]))) s True _ :=
        (removeWithStub_effect ht).congr
          (iff_of_true ⟨openWay_of_dir hdir n, by simp [hget]⟩ trivial) fun _ _ s' => hgone s'
      refine removeNext_effect hn hdir ht ?_ ?_ fun u hu htu hlu => ih hrest hu htu hlu
      · intro m hm r
        have hmn : m ≠ n := by
          rintro rfl
          exact hn hm
        rw [hlist m (List.mem_cons_of_mem _ hm), DirTree.get_leaf_cons, if_neg hmn]
      · split_ifs
        · exact (ignoring_effect (openWay_of_dir hdir n) (by simp [hget])).congr Iff.rfl
            fun _ _ s' => hgone s'
        · cases x with
          | special => exact absurd hget (ht.plain _)
          | file c stat => exact hfile
          | symlink target m => exact hfile
  | sub n c rest ihc ih =>
      obtain ⟨hn, hcwf, hrest⟩ := hwf
      have hget : ∀ r, s.get (dir ++ n :: r) = c.get r := by
        intro r
        rw [hlist n (List.mem_cons_self ..), DirTree.get_sub_cons, if_pos rfl]
      have hsub : s.get (dir ++ [n]) = some .dir := by rw [hget, DirTree.get_nil]
      -- in a tidy tree only a file has a name of the command's own
      have hown : (isStubFilename n || isConflictArtifact n || isWorkingTreeTmp n) = false := by
        rw [Bool.or_assoc, Bool.or_eq_false_iff]
        exact ⟨ht.stub dir n (by simp [hsub]), by
          rw [Bool.eq_false_iff]
          exact fun h => ht.own dir n h hsub⟩
      refine removeNext_effect hn hdir ht ?_ ?_ fun u hu htu hlu => ih hrest hu htu hlu
      · intro m hm r
        have hmn : m ≠ n := by
          rintro rfl
          exact hn hm
        rw [hlist m (List.mem_cons_of_mem _ hm), DirTree.get_sub_cons, if_neg hmn]
      · rw [hown, if_neg Bool.false_ne_true]
        have hget' : ∀ r, s.get (dir ++ [n] ++ r) = c.get r := by
          intro r
          rw [List.append_assoc, List.singleton_append, hget]
        have hinner := ihc hcwf hsub ht fun m _ r => hget' (m :: r)
        refine hinner.andThen ?_
        intro _ u hu
        -- nothing is left in the directory, so its own removal goes through
        have hempty : ∀ m r, u.get (dir ++ n :: m :: r) = none := by
          intro m r
          simpa using gone_below hget' hu m r
        have hkept : ∀ q, ¬ dir ++ [n] <+: q → u.get q = s.get q := by
          intro q hq
          rw [hu, if_neg]
          rintro ⟨m, -, hle⟩
          exact hq ((List.prefix_append _ [m]).trans hle)
        have hself : u.get (dir ++ [n]) = some .dir := by
          rw [hu, hsub]
          simp
        have hparent : u.get dir = some .dir := by
          rw [hkept dir (fun h => by simpa using h.length_le), hdir]
        refine (removeDirOk_effect (openWay_of_dir hparent n) hempty (by simp [hself])).congr Iff.rfl ?_
        intro _ _ v hv q
        rw [hv]
        split_ifs with hq
        · rfl
        · exact hkept q hq

theorem removeAddedDir_effect (hwf : s.Wf) (ht : Tidy s) (hway : OpenWay s (dir ++ [n]))
    (hleaf : ∀ x, s.get (dir ++ [n]) ≠ some (.leaf x)) :
    Effect (removeAddedDir cfg (dir ++ [n]) >>= fun _ => removeDirOk cfg (dir ++ [n])) s True
      fun _ s' => ∀ q, s'.get q = if dir ++ [n] <+: q then none else s.get q := by
  have hinner : Effect (removeAddedDir cfg (dir ++ [n])) s True fun _ s' =>
      ∀ q, s'.get q = if dir ++ [n] <+: q ∧ q ≠ dir ++ [n] then none else s.get q := by
    rcases @readDir_of_openWay cfg s _ hway hleaf with ⟨hnone, hread⟩ | ⟨c, hat, hread⟩
    · refine Effect.of_eq_ok (a := ⟨⟩) (t := s) (by simp only [removeAddedDir, hread]) trivial ?_
      intro q
      split_ifs with hq
      · obtain ⟨⟨_ | ⟨m, r⟩, rfl⟩, hne⟩ := hq
        · simp at hne
        · exact DirTree.get_append_of_not_dir (by simp [hnone]) m r
      · rfl
    · have hget : ∀ r, s.get (dir ++ [n] ++ r) = c.get r := by
        intro r
        rw [DirTree.get, DirTree.at_append, hat]
        rfl
      have hrun : removeAddedDir cfg (dir ++ [n]) s = removeListed cfg c (dir ++ [n]) s := by
        simp only [removeAddedDir, hread]
      have hall : Effect (removeListed cfg c (dir ++ [n])) s True _ :=
        removeListed_effect (wf_of_at hwf hat) (DirTree.get_eq_dir_iff.mpr ⟨c, hat⟩) ht
          fun m _ r => hget (m :: r)
      obtain ⟨a, s', hs', hget'⟩ := hall.succeeds trivial
      refine Effect.of_eq_ok (a := a) (t := s') (hrun.trans hs') trivial fun q => ?_
      by_cases hq : dir ++ [n] <+: q ∧ q ≠ dir ++ [n]
      · rw [if_pos hq]
        obtain ⟨⟨_ | ⟨m, r⟩, rfl⟩, hne⟩ := hq
        · simp at hne
        · exact gone_below hget hget' m r
      · rw [hget', if_neg hq, if_neg]
        rintro ⟨m, -, hle⟩
        refine hq ⟨(List.prefix_append _ [m]).trans hle, ?_⟩
        rintro rfl
        simpa using hle.length_le
  refine hinner.andThen ?_
  intro _ u hu
  have hway' : OpenWay u (dir ++ [n]) := by
    apply openWay_concat.mpr
    intro a ha x hx
    rw [hu, if_neg (fun h => by simpa using h.1.length_le.trans ha.length_le)] at hx
    exact openWay_concat.mp hway a ha x hx
  refine (removeDirOk_effect hway' (fun m r => ?_) fun x => ?_).congr Iff.rfl ?_
  · rw [hu, if_pos ⟨⟨m :: r, by simp⟩, by simp⟩]
  · rw [hu]
    simpa using hleaf x
  · intro _ _ v hv q
    rw [hv, hu]
    by_cases hq : dir ++ [n] <+: q <;> simp [hq]

end Remove

/-! ## Names stay distinct -/

section Distinct

theorem syscall_wf {call : Disk → Except Errno Disk}
    (h : ∀ d d' : Disk, d.Wf → call d = .ok d' → d'.Wf) : Maintains DirTree.Wf (syscall call) := by
  intro d hd
  cases hc : call d with
  | ok d' => exact (after_of_ok (syscall_ok hc)).symm ▸ h d d' hd hc
  | error e => exact (after_of_error (syscall_error hc)).symm ▸ hd

theorem descend_wf (create : Bool) (parent : Path) (n : String) :
    Maintains DirTree.Wf (descend create parent n : Guarded DiskLeaf Path) := by
  intro d hd
  apply Maintains.of_run hd
  rcases hget : d.get (parent ++ [n]) with _ | _ | x
  · by_cases hc : create = true
    · exact ⟨syscall (fun d => d.mkdir (parent ++ [n])) >>= fun _ => pure (parent ++ [n]),
        by simp only [descend, hget, hc, if_true],
        (syscall_wf fun d d' hd h => hd.mkdir h).bind fun _ => Maintains.of_pure _⟩
    · exact ⟨throw (.io .enoent), by simp only [descend, hget, hc]; rfl, Maintains.of_throw _⟩
  · exact ⟨pure _, by simp only [descend, hget]; rfl, Maintains.of_pure _⟩
  · exact ⟨throw _, by simp only [descend, hget]; rfl, Maintains.of_throw _⟩

theorem resolveDir_wf (create : Bool) (parent rel : Path) :
    Maintains DirTree.Wf (resolveDir create parent rel : Guarded DiskLeaf Path) := by
  induction rel generalizing parent with
  | nil => exact Maintains.of_pure _
  | cons n rel ih => exact (descend_wf create parent n).bind ih

theorem openLeaf_wf (create : Bool) (p : Path) :
    Maintains DirTree.Wf (openLeaf create p : Guarded DiskLeaf Path) := by
  unfold openLeaf
  cases p.getLast? with
  | none => exact Maintains.of_throw _
  | some n => exact resolveDir_wf create [] p.dropLast

theorem rename_wf (p : Path) (x : DiskLeaf) :
    Maintains DirTree.Wf (syscall fun d : Disk => d.rename p x) :=
  syscall_wf fun _ _ hd h => hd.rename h

theorem createDirAll_wf (p : Path) : Maintains DirTree.Wf (createDirAll p : Guarded DiskLeaf PUnit) :=
  (resolveDir_wf true [] p).bind fun _ => Maintains.of_pure _

theorem atomicWrite_wf (p : Path) (x : DiskLeaf) : Maintains DirTree.Wf (atomicWrite p x) :=
  (openLeaf_wf true p).bind fun _ => rename_wf p x

theorem tryRmdir_wf (p : Path) : Maintains DirTree.Wf (tryRmdir p : Guarded DiskLeaf PUnit) := by
  intro d hd
  cases hr : d.rmdir p with
  | ok d' =>
      rw [after_of_ok (show tryRmdir p d = .ok ⟨⟩ d' by simp only [tryRmdir, hr])]
      exact hd.rmdir hr
  | error e =>
      rw [after_of_ok (show tryRmdir p d = .ok ⟨⟩ d by simp only [tryRmdir, hr])]
      exact hd

theorem replaceSymlink_wf (p : Path) (x : DiskLeaf) : Maintains DirTree.Wf (replaceSymlink p x) :=
  (openLeaf_wf true p).bind fun _ => (tryRmdir_wf p).bind fun _ => rename_wf p x

theorem removeFileTolerant_wf (p : Path) :
    Maintains DirTree.Wf (removeFileTolerant p : Guarded DiskLeaf PUnit) := by
  intro d hd
  cases ho : (openLeaf false p : Guarded DiskLeaf Path) d with
  | ok a t =>
      have ht : t.Wf := (openLeaf_wf false p).of_eq_ok hd ho
      cases hu : t.unlink p with
      | ok u =>
          rw [after_of_ok (show removeFileTolerant p d = .ok ⟨⟩ u by simp only [removeFileTolerant, ho, hu])]
          exact ht.unlink hu
      | error e =>
          have hafter : after (removeFileTolerant p : Guarded DiskLeaf PUnit) d = t := by
            cases e <;> simp only [after, removeFileTolerant, ho, hu]
          exact hafter ▸ ht
  | error e t =>
      have hafter : after (removeFileTolerant p : Guarded DiskLeaf PUnit) d = t := by
        rcases e with e | _ | _
        · cases e <;> simp only [after, removeFileTolerant, ho]
        · simp only [after, removeFileTolerant, ho]
        · simp only [after, removeFileTolerant, ho]
      exact hafter ▸ (openLeaf_wf false p).of_eq_error hd ho

theorem ignoring_wf {m : Guarded DiskLeaf PUnit} (h : Maintains DirTree.Wf m) :
    Maintains DirTree.Wf (ignoring m) := by
  intro d hd
  have hafter : after (ignoring m) d = after m d := by
    simp only [after, ignoring]
    cases m d <;> rfl
  exact hafter ▸ h d hd

theorem acting_wf {m : Guarded DiskLeaf PUnit} (h : Maintains DirTree.Wf m) :
    Maintains DirTree.Wf (acting m) := by
  intro d hd
  have hafter : after (acting m) d = after m d := by
    simp only [after, acting]
    cases m d <;> rfl
  exact hafter ▸ h d hd

theorem removeConflictHelpers_wf (p : Path) : Maintains DirTree.Wf (removeConflictHelpers p) :=
  Maintains.forM (fun x => removeFileTolerant_wf (artifactPath p x)) _

variable {cfg : RestoreConfig}

theorem setMode_wf (hchmod : ∀ p mode (d : Disk), d.Wf → (cfg.chmodBeyond p mode d).Wf) (p : Path)
    (mode : Option String) : Maintains DirTree.Wf (setMode cfg p mode) := by
  refine (openLeaf_wf false p).bind fun _ d hd => ?_
  apply Maintains.of_run hd
  rcases d.get p with _ | _ | x
  · exact ⟨throw (.io .enoent), rfl, Maintains.of_throw _⟩
  · exact ⟨pure _, rfl, Maintains.of_pure _⟩
  · cases x with
    | file c stat =>
        exact ⟨syscall fun d => d.rename p (.file c { stat with mode := mode.map fun _ => "755" }),
          rfl, rename_wf p _⟩
    | special => exact ⟨pure _, rfl, Maintains.of_pure _⟩
    | symlink target m =>
        -- the mode is set where the symlink leads
        by_cases hs : (cfg.statBeyond d p).isSome = true
        · refine ⟨fun d => .ok ⟨⟩ (cfg.chmodBeyond p mode d), by simp only [hs, if_true], ?_⟩
          exact fun d hd => hchmod p mode d hd
        · exact ⟨throw (.io .enoent), by simp only [hs]; rfl, Maintains.of_throw _⟩

variable (hrmdir : ∀ p (d : Disk), d.Wf → (cfg.rmdirBeyond p d).Wf)

include hrmdir

theorem removeDirOk_wf (p : Path) : Maintains DirTree.Wf (removeDirOk cfg p) := by
  intro d hd
  apply Maintains.of_run hd
  by_cases h : RestoreConfig.linkAbove d p = true
  · exact ⟨fun d => .ok ⟨⟩ (cfg.rmdirBeyond p d), by simp only [removeDirOk, h, if_true],
      fun d hd => hrmdir p d hd⟩
  · exact ⟨tryRmdir p, by simp only [removeDirOk, h]; rfl, tryRmdir_wf p⟩

theorem removeListed_wf (l : Disk) (dir : Path) : Maintains DirTree.Wf (removeListed cfg l dir) := by
  induction l generalizing dir with
  | nil => exact Maintains.of_pure _
  | leaf n x rest ih =>
      refine Maintains.bind ?_ fun _ => ih dir
      split_ifs
      · exact ignoring_wf (removeFileTolerant_wf _)
      · cases x with
        | special => exact Maintains.of_pure _
        | file c stat => exact (removeFileTolerant_wf _).bind fun _ => removeFileTolerant_wf _
        | symlink target m => exact (removeFileTolerant_wf _).bind fun _ => removeFileTolerant_wf _
  | sub n c rest ihc ih =>
      refine Maintains.bind ?_ fun _ => ih dir
      split_ifs
      · exact ignoring_wf (removeFileTolerant_wf _)
      · exact (ihc _).bind fun _ => removeDirOk_wf hrmdir _

theorem removeAddedDir_wf (p : Path) : Maintains DirTree.Wf (removeAddedDir cfg p) := by
  intro d hd
  apply Maintains.of_run hd
  rcases hread : cfg.readDir d p with e | l
  · by_cases he : e = .enoent
    · exact ⟨pure _, by simp only [removeAddedDir, hread, he]; rfl, Maintains.of_pure _⟩
    · refine ⟨throw (.io e), ?_, Maintains.of_throw _⟩
      cases e <;> first | exact absurd rfl he | (simp only [removeAddedDir, hread]; rfl)
  · exact ⟨removeListed cfg l p, by simp only [removeAddedDir, hread], removeListed_wf hrmdir l p⟩

/-- **`applyAction_wf`** — no action that a plan without stubs has makes two entries of one name. -/
theorem applyAction_wf (hchmod : ∀ p mode (d : Disk), d.Wf → (cfg.chmodBeyond p mode d).Wf)
    (stillUnavailable : List Hash) {t : Tree} {a : RestoreAction} (ha : FromEntry t a) :
    Maintains DirTree.Wf (applyAction cfg stillUnavailable a) := by
  cases a with
  | restoreBlobContent p b =>
      simp only [applyAction]
      split_ifs
      · exact Maintains.of_throw _
      · exact acting_wf ((atomicWrite_wf p _).bind fun _ => (removeFileTolerant_wf _).bind fun _ =>
          removeConflictHelpers_wf p)
  | restoreBlobModeOnly p mode =>
      intro d hd
      apply Maintains.of_run hd
      by_cases hs : (cfg.stat d p).isNone = true
      · exact ⟨throw (.unavailable p), by simp only [applyAction, hs]; rfl, Maintains.of_throw _⟩
      · exact ⟨acting (setMode cfg p mode >>= fun _ => removeConflictHelpers p),
          by simp only [applyAction, hs]; rfl,
          acting_wf ((setMode_wf hchmod p mode).bind fun _ => removeConflictHelpers_wf p)⟩
  | cleanupOnly p => exact acting_wf (removeConflictHelpers_wf p)
  | restoreSymlink p y =>
      exact acting_wf ((ignoring_wf (removeFileTolerant_wf _)).bind fun _ =>
        (ignoring_wf (removeFileTolerant_wf _)).bind fun _ => (replaceSymlink_wf p _).bind fun _ =>
        removeConflictHelpers_wf p)
  | deleteFile p => exact acting_wf ((removeFileTolerant_wf p).bind fun _ => removeFileTolerant_wf _)
  | deleteAddedDir p =>
      exact acting_wf ((removeAddedDir_wf hrmdir p).bind fun _ => removeDirOk_wf hrmdir p)
  | ensureDir p => exact acting_wf (createDirAll_wf p)
  | deleteConflictArtifact p => exact acting_wf (removeFileTolerant_wf p)
  | _ => exact ha.elim

end Distinct

end Omemfs.Work
