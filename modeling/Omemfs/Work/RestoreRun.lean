/-
# Omemfs.Work.RestoreRun — one action in the middle of a restore.

Every action that succeeds leaves the paths it is about (`region`) as the command wants to have them
(`target`), and the others as they were.  Whether it succeeds is decided by the kinds of what stands at
its path and above (`Blocks`), and these are the same at the start of the command and in every state that
it goes through: no action removes or creates what stands in the way of another.
-/
import Omemfs.Work.RestoreStep

namespace Omemfs.Work

open Lib Scan Fsguard
open Omemfs.Sync (artifactPath artifactPath_concat isConflictArtifact_append)
open Omemfs.Sync.Checked (fileStubPath dirStubPath isFile)

/-! ## What the command wants -/

section Want

variable (cfg : RestoreConfig) (d : Disk) (t : Tree)

/-- The file of a recorded blob; one that has the content already keeps what else it has. -/
def blobTarget (q : Path) (b : Blob) : DiskLeaf :=
  match d.get q with
  | some (.leaf (.file c stat)) =>
      if c.hash = b.hash then .file c { stat with mode := b.mode.map fun _ => "755" }
      else cfg.mach.file b
  | _ => cfg.mach.file b

/-- What an action leaves at a path in its region. -/
def target (q : Path) : Option (Kind DiskLeaf) :=
  (t.at q).map fun e =>
    match e with
    | .tree _ _ => .dir
    | .symlink y => .leaf (cfg.mach.link y)
    | .blob b => .leaf (blobTarget cfg d q b)

/-- The paths that an action is about. -/
def region : RestoreAction → Path → Prop
  | .restoreBlobContent p _, q => q <+: p ∨ HelperOf p q
  | .restoreBlobModeOnly p _, q => q = p ∨ HelperOf p q
  | .cleanupOnly p, q => HelperOf p q
  | .restoreSymlink p _, q => q <+: p ∨ HelperOf p q
  | .deleteFile p, q => q = p
  | .deleteAddedDir p, q => p <+: q
  | .ensureDir p, q => q <+: p
  | .deleteConflictArtifact p, q => q = p
  | _, _ => False

/-- Something of the wrong kind stands at a recorded path and cannot be replaced: a file or symlink in the
place of a directory, a directory in the place of a file, a directory that is not empty in the place of a
symlink. -/
def Blocks (g : Lstat) (q : Path) : Prop :=
  match t.at q with
  | some (.tree _ _) => ∃ x, g q = some (.leaf x)
  | some (.blob _) => g q = some .dir
  | some (.symlink _) => g q = some .dir ∧ ∃ n, g (q ++ [n]) ≠ none
  | none => False

/-- An action can be carried out. -/
def Feasible (a : RestoreAction) : Prop :=
  (∀ q, q <+: a.identity.2 → ¬ Blocks t d.get q) ∧
    ∀ q b, a = .restoreBlobContent q b → cfg.blobCached b.hash = true

end Want

/-! ## The setting -/

/-- A restore of recorded paths in a working tree without stubs.  A symlink in the place of a blob may
lead to a file of that content, but not to one that differs in its mode: that file would be changed, wherever
it is. -/
structure Restoring (cfg : RestoreConfig) (d : Disk) (t : Tree) (rels : List Path) : Prop where
  wf : d.Wf
  tidy : Tidy d
  fileStub : ∀ p, cfg.stubExists d p = false
  dirStub : ∀ p, cfg.dirStubExists d p = false
  wellNamed : t.WellNamed
  cached : cfg.treeCached t = true
  subtrees : SubtreesCached cfg t
  given : ∀ p ∈ rels, Given t d p
  links : ∀ q b, t.at q = some (.blob b) → RestoreConfig.isLinkAt d q = true →
    cfg.contentMatches d q b.hash = true → cfg.modeMatches d q b.mode = true
  /-- of the mode a scan reads the execute bit -/
  modes : ∀ p c stat, d.get p = some (.leaf (.file c stat)) →
    stat.mode = none ∨ stat.mode = some "755"
  rmdirWf : ∀ p (s : Disk), s.Wf → (cfg.rmdirBeyond p s).Wf
  chmodWf : ∀ p mode (s : Disk), s.Wf → (cfg.chmodBeyond p mode s).Wf

theorem Restoring.unstubbed {cfg : RestoreConfig} {d : Disk} {t : Tree} {rels : List Path}
    (h : Restoring cfg d t rels) : Unstubbed cfg d := ⟨h.tidy.stub, h.fileStub, h.dirStub⟩

/-! ## Whose paths the actions are about -/

section Regions

variable {cfg : RestoreConfig} {d : Disk} {t : Tree} {scope : Path → Prop} {a : RestoreAction}
  {p q : Path}

theorem ne_nil_of_leaf {e : TreeEntry} (h : t.at p = some e) (he : e.isTree = false) : p ≠ [] := by
  rintro rfl
  cases h
  cases he

theorem at_ne_none_of_le (hle : q <+: p) (hp : t.at p ≠ none) : t.at q ≠ none := by
  obtain ⟨r, rfl⟩ := hle
  cases r with
  | nil => simpa using hp
  | cons n r =>
      obtain ⟨s, m, hs⟩ := Tree.isTree_of_at_append (q := n :: r) (by simp) hp
      simp [hs]

/-- Above a recorded path there are recorded directories. -/
theorem dirAt_of_lt (hle : q <+: p) (hne : q ≠ p) (hp : t.at p ≠ none) : ∃ s, DirAt t q s := by
  obtain ⟨r, rfl⟩ := hle
  cases r with
  | nil => simp at hne
  | cons n r =>
      obtain ⟨s, m, hs⟩ := Tree.isTree_of_at_append (q := n :: r) (by simp) hp
      exact ⟨s, m, hs⟩

theorem dirAt_of_le {c : Tree} (hle : q <+: p) (hp : DirAt t p c) : ∃ s, DirAt t q s := by
  by_cases hq : q = p
  · exact hq ▸ ⟨c, hp⟩
  · obtain ⟨m, hm⟩ := hp
    exact dirAt_of_lt hle hq (by simp [hm])

/-- Something that is not recorded, in or below a recorded directory; the metadata directory apart. -/
def Stray (t : Tree) (q : Path) : Prop :=
  ∃ c n r s, q = c ++ n :: r ∧ DirAt t c s ∧ n ∉ s.names ∧ n ≠ metadataDirName

theorem at_of_dirAt {c : Path} {s : Tree} (h : DirAt t c s) (n : String) (r : Path) :
    t.at (c ++ n :: r) = s.at (n :: r) := by
  obtain ⟨m, hm⟩ := h
  rw [Tree.at_append, hm]
  rfl

theorem Stray.at_eq_none (h : Stray t q) : t.at q = none := by
  obtain ⟨c, n, r, s, rfl, hs, hn, -⟩ := h
  rw [at_of_dirAt hs, Tree.at_cons_of_not_mem hn]

theorem metadata_not_own : isConflictArtifact metadataDirName = false := by decide

theorem stray_of_helper (hwn : t.WellNamed) (hp : p ≠ []) (hat : t.at p ≠ none) (hq : HelperOf p q) :
    Stray t q := by
  obtain ⟨parent, n, rfl⟩ := exists_concat hp
  obtain ⟨x, hx, rfl⟩ := helperOf_concat.mp hq
  obtain ⟨s, hs⟩ := dirAt_of_lt (List.prefix_append parent [n]) (by simp) hat
  have hart : isConflictArtifact (n ++ x) = true := isConflictArtifact_append n hx
  refine ⟨parent, n ++ x, [], s, rfl, hs, fun hmem => ?_, ?_⟩
  · rw [(own_of_valid ((hs.wellNamed hwn).valid hmem)).2.1] at hart
    cases hart
  · intro hmeta
    rw [hmeta, metadata_not_own] at hart
    cases hart

/-- What is planned for removal is not recorded. -/
theorem stray_of_extra (hwn : t.WellNamed) {c : Path} {n : String} {s : Tree} {k : Kind DiskLeaf}
    (hs : DirAt t c s) (ha : a ∈ extraAction (decide (n ∈ s.names)) (c ++ [n]) n k) (r : Path) :
    Stray t (c ++ n :: r) :=
  ⟨c, n, r, s, rfl, hs, not_mem_names_of_extra (hs.wellNamed hwn) ha, (mem_extraAction ha).1⟩

/-- **`region_cases`** — an action is about recorded paths down to its own, and about what is not
recorded. -/
theorem region_cases (hwn : t.WellNamed) (ha : Calls cfg d t scope a) (hq : region a q) :
    (q <+: a.identity.2 ∧ t.at a.identity.2 ≠ none) ∨ Stray t q := by
  rcases ha with ⟨p, e, -, he, ha⟩ | ⟨c, n, s, k, -, hs, -, ha⟩
  · have hat : t.at p ≠ none := by simp [he]
    cases e with
    | blob b =>
        have hp : p ≠ [] := ne_nil_of_leaf he rfl
        rcases mem_blobAction ha with ⟨rfl, -⟩ | ⟨rfl, -⟩ | ⟨rfl, -⟩
        · exact hq.imp (fun h => ⟨h, hat⟩) (stray_of_helper hwn hp hat)
        · rcases hq with rfl | hq
          · exact .inl ⟨List.prefix_rfl, hat⟩
          · exact .inr (stray_of_helper hwn hp hat hq)
        · exact .inr (stray_of_helper hwn hp hat hq)
    | tree s m =>
        obtain rfl := List.mem_singleton.mp ha
        exact .inl ⟨hq, hat⟩
    | symlink y =>
        obtain ⟨-, rfl⟩ := mem_symlinkAction.mp ha
        exact hq.imp (fun h => ⟨h, hat⟩) (stray_of_helper hwn (ne_nil_of_leaf he rfl) hat)
  · have hstray := stray_of_extra hwn hs ha
    rcases (mem_extraAction ha).2 with ⟨rfl, -⟩ | ⟨-, ⟨rfl, -⟩ | ⟨rfl, -⟩⟩
    · obtain rfl : q = c ++ [n] := hq
      exact .inr (hstray [])
    · obtain ⟨r, rfl⟩ : c ++ [n] <+: q := hq
      exact .inr (by simpa using hstray r)
    · obtain rfl : q = c ++ [n] := hq
      exact .inr (hstray [])

theorem target_of_stray (h : Stray t q) : target cfg d t q = none := by
  simp [target, h.at_eq_none]

theorem target_of_dirAt {s : Tree} (h : DirAt t q s) : target cfg d t q = some .dir := by
  obtain ⟨m, hm⟩ := h
  simp [target, hm]

/-- Nothing is there to be done in the place of a blob or symlink but what is for that itself. -/
theorem not_stray_below {e : TreeEntry} (h : t.at q = some e) (he : e.isTree = false) (n : String) :
    ¬ Stray t (q ++ [n]) := by
  rintro ⟨c, k, r, s, heq, hs, hk, -⟩
  rcases List.eq_nil_or_concat r with rfl | ⟨r', m, rfl⟩
  · obtain ⟨rfl, -⟩ := List.append_inj' heq rfl
    obtain ⟨m, hm⟩ := hs
    rw [h] at hm
    cases hm
    cases he
  · rw [List.concat_eq_append, ← List.cons_append, ← List.append_assoc] at heq
    obtain ⟨rfl, -⟩ := List.append_inj' heq rfl
    rw [at_of_dirAt hs, Tree.at_cons_of_not_mem hk] at h
    cases h

end Regions

/-! ## A state on the way -/

/-- Some of the actions are done, each of which could be. -/
structure Midway (cfg : RestoreConfig) (d : Disk) (t : Tree) (rels : List Path)
    (done : List RestoreAction) (s : Disk) : Prop where
  feasible : ∀ a ∈ done, Calls cfg d t (InScope rels) a ∧ Feasible cfg d t a
  settled : Settled (fun (s : Disk) q => s.get q) (target cfg d t) region done d s

section Midway

variable {cfg : RestoreConfig} {d s : Disk} {t : Tree} {rels : List Path} {done : List RestoreAction}
  {a : RestoreAction} {p q : Path}

theorem Midway.kept_or (hm : Midway cfg d t rels done s) (q : Path) :
    s.get q = d.get q ∨ s.get q = target cfg d t q :=
  (hm.settled.view_or q).imp id And.right

/-- What is not recorded is as it was, or gone. -/
theorem Midway.kept_or_gone (hm : Midway cfg d t rels done s) (h : Stray t q) :
    s.get q = d.get q ∨ s.get q = none := by
  rcases hm.kept_or q with hq | hq
  · exact .inl hq
  · exact .inr (hq.trans (target_of_stray h))

theorem target_eq_leaf {x : DiskLeaf} (h : target cfg d t q = some (.leaf x)) : x ≠ .special := by
  unfold target at h
  rcases hat : t.at q with _ | b | ⟨u, m⟩ | y
  · rw [hat] at h
    cases h
  · rw [hat] at h
    have hx : blobTarget cfg d q b = x := by simpa using h
    rw [← hx]
    unfold blobTarget
    split
    · split_ifs <;> simp [Machine.file]
    · simp [Machine.file]
  · rw [hat] at h
    cases h
  · rw [hat] at h
    cases h
    simp [Machine.link]

theorem Midway.tidy (hr : Restoring cfg d t rels) (hm : Midway cfg d t rels done s) : Tidy s where
  stub := by
    intro p n hne
    rcases hm.kept_or (p ++ [n]) with h | h
    · exact hr.tidy.stub p n (h ▸ hne)
    · have hat : t.at (p ++ [n]) ≠ none := by
        intro hnone
        rw [h, target, hnone] at hne
        exact hne rfl
      exact (own_of_valid (hr.wellNamed.valid_at hat n (by simp))).2.2.2
  own := by
    intro p n hown hdir
    rcases hm.kept_or (p ++ [n]) with h | h
    · exact hr.tidy.own p n hown (h ▸ hdir)
    · have hat : t.at (p ++ [n]) ≠ none := by
        intro hnone
        rw [h, target, hnone] at hdir
        cases hdir
      obtain ⟨-, hart, htmp, -⟩ := own_of_valid (hr.wellNamed.valid_at hat n (by simp))
      simp [hart, htmp] at hown
  plain := by
    intro p hsp
    rcases hm.kept_or p with h | h
    · exact hr.tidy.plain p (h ▸ hsp)
    · exact target_eq_leaf (h.symm.trans hsp) rfl

/-- What an action leaves at a recorded path does not stand in the way of anything. -/
theorem not_blocks_target {g : Lstat} (h : g q = target cfg d t q) : ¬ Blocks t g q := by
  unfold target at h
  rcases hat : t.at q with _ | b | ⟨u, m⟩ | y
  · simp [Blocks, hat]
  all_goals
    rw [hat] at h
    simp [Blocks, hat, h]

/-- **`Midway.blocks_iff`** — what stood in the way still does, and nothing else. -/
theorem Midway.blocks_iff (hr : Restoring cfg d t rels) (hm : Midway cfg d t rels done s) (q : Path) :
    Blocks t s.get q ↔ Blocks t d.get q := by
  by_cases hhit : ∃ a ∈ done, region a q
  · -- neither what was there when an action was found feasible nor what it left stands in the way
    obtain ⟨a, ha, hreg⟩ := hhit
    obtain ⟨hcalls, hfeas⟩ := hm.feasible a ha
    refine iff_of_false (not_blocks_target (hm.settled.reached a ha q hreg)) ?_
    rcases region_cases hr.wellNamed hcalls hreg with ⟨hle, -⟩ | hstray
    · exact hfeas.1 q hle
    · simp [Blocks, hstray.at_eq_none]
  · have hq : s.get q = d.get q := hm.settled.kept q fun a ha hreg => hhit ⟨a, ha, hreg⟩
    unfold Blocks
    rcases hat : t.at q with _ | b | ⟨u, m⟩ | y
    · exact Iff.rfl
    · rw [hq]
    · rw [hq]
    · -- below a symlink's path there is nothing to be done either
      have hbelow : ∀ n, s.get (q ++ [n]) = d.get (q ++ [n]) := by
        intro n
        refine hm.settled.kept (q ++ [n]) fun a ha hreg => ?_
        rcases region_cases hr.wellNamed (hm.feasible a ha).1 hreg with ⟨hle, hpath⟩ | hstray
        · have heq := eq_of_at_below hat rfl (List.prefix_append q [n])
            (at_ne_none_of_le hle hpath)
          simp at heq
        · exact not_stray_below hat rfl n hstray
      simp only [hq, hbelow]

/-- The way to a recorded path. -/
theorem openWay_iff {g : Disk} (hat : t.at p ≠ none) :
    OpenWay g p ↔ ∀ q, q <+: p → q ≠ p → ¬ Blocks t g.get q := by
  constructor
  · rintro h q hle hne hb
    obtain ⟨u, m, hu⟩ := dirAt_of_lt hle hne hat
    rw [Blocks, hu] at hb
    obtain ⟨x, hx⟩ := hb
    exact h q hle hne x hx
  · intro h q hle hne x hx
    obtain ⟨u, m, hu⟩ := dirAt_of_lt hle hne hat
    refine h q hle hne ?_
    rw [Blocks, hu]
    exact ⟨x, hx⟩

theorem Midway.openWay_iff (hr : Restoring cfg d t rels) (hm : Midway cfg d t rels done s)
    (hat : t.at p ≠ none) : OpenWay s p ↔ OpenWay d p := by
  rw [Work.openWay_iff hat, Work.openWay_iff hat]
  simp only [hm.blocks_iff hr]

/-- Nothing stands in the way of an action: its way is open, and what is at its path can be replaced. -/
theorem Midway.clear_iff (hr : Restoring cfg d t rels) (hm : Midway cfg d t rels done s)
    (hat : t.at p ≠ none) :
    (∀ q, q <+: p → ¬ Blocks t d.get q) ↔ OpenWay s p ∧ ¬ Blocks t s.get p := by
  rw [Work.openWay_iff hat]
  simp only [hm.blocks_iff hr]
  constructor
  · intro h
    exact ⟨fun q hle _ => h q hle, h p List.prefix_rfl⟩
  · rintro ⟨h, hp⟩ q hle
    by_cases hne : q = p
    · exact hne ▸ hp
    · exact h q hle hne

end Midway

/-! ## The actions -/

section Actions

variable {cfg : RestoreConfig} {d s : Disk} {t : Tree} {rels : List Path} {done : List RestoreAction}
  {a : RestoreAction} {p q : Path}

/-- One path's region is as the command wants it. -/
abbrev Brings (cfg : RestoreConfig) (d : Disk) (t : Tree) (R : Path → Prop) (s s' : Disk) : Prop :=
  Reaches (fun (s : Disk) q => s.get q) (target cfg d t) R s s'

theorem openWay_congr {u : Disk} (h : ∀ q, u.get q = s.get q) : OpenWay u p ↔ OpenWay s p := by
  simp only [OpenWay, h]

/-- A helper is beside its path, not above it. -/
theorem not_above_of_helper (hwn : t.WellNamed) (hp : p ≠ []) (hat : t.at p ≠ none)
    (hq : HelperOf p q) : ¬ q <+: p := fun hle =>
  at_ne_none_of_le hle hat (stray_of_helper hwn hp hat hq).at_eq_none

theorem dir_above (hle : q <+: p) (hne : q ≠ p) (hp : s.get p ≠ none) : s.get q = some .dir := by
  obtain ⟨r, rfl⟩ := hle
  cases r with
  | nil => simp at hne
  | cons n r => exact DirTree.get_of_append hp

theorem prefix_parent_of_ne {parent : Path} {n : String} (hle : q <+: parent ++ [n])
    (hne : q ≠ parent ++ [n]) : q <+: parent := by
  rcases List.prefix_concat_iff.mp hle with h | h
  · exact absurd h hne
  · exact h

/-- The helpers go when what is at the path has been written. -/
theorem helpersAfterWrite_effect (hwn : t.WellNamed) (ht : Tidy s) (hp : p ≠ []) (hat : t.at p ≠ none)
    {x : DiskLeaf} (htarget : target cfg d t p = some (.leaf x)) {u : Disk}
    (hu : ∀ q, u.get q = if q = p then some (.leaf x) else if q <+: p then some .dir else s.get q) :
    Effect (removeConflictHelpers p) u True fun _ =>
      Brings cfg d t (fun q => q <+: p ∨ HelperOf p q) s := by
  have hway : OpenWay u p := openWay_of_get (by simp [hu])
  -- the write has left the helpers where they were
  have hhelper : ∀ q, HelperOf p q → u.get q = s.get q := by
    intro q hq
    have hle := not_above_of_helper hwn hp hat hq
    have hneq : q ≠ p := by
      rintro rfl
      exact hle List.prefix_rfl
    rw [hu, if_neg hneq, if_neg hle]
  have hown : ∀ q, HelperOf p q → u.get q ≠ some .dir := by
    intro q hq
    rw [hhelper q hq]
    exact ht.helper hp hq
  refine (removeConflictHelpers_effect hp hown).congr (iff_of_true hway trivial) ?_
  intro _ _ v hv
  constructor
  · intro q hq
    show v.get q = _
    by_cases hhelp : HelperOf p q
    · rw [hv.reached q hhelp, target_of_stray (stray_of_helper hwn hp hat hhelp)]
    · have hle : q <+: p := hq.resolve_right hhelp
      rw [hv.kept q hhelp, hu]
      split_ifs with heq
      · rw [heq, htarget]
      · obtain ⟨w, hw⟩ := dirAt_of_lt hle heq hat
        rw [target_of_dirAt hw]
  · intro q hq
    show v.get q = s.get q
    rw [hv.kept q fun h => hq (.inr h), hu, if_neg, if_neg fun h => hq (.inl h)]
    rintro rfl
    exact hq (.inl List.prefix_rfl)

theorem blocks_blob {g : Lstat} {b : Blob} (h : t.at p = some (.blob b)) :
    Blocks t g p ↔ g p = some .dir := by
  simp [Blocks, h]

theorem blocks_symlink {g : Lstat} {y : Symlink} (h : t.at p = some (.symlink y)) :
    Blocks t g p ↔ g p = some .dir ∧ ∃ n, g (p ++ [n]) ≠ none := by
  simp [Blocks, h]

/-- What `contentMatches` says where the way is open: of a file. -/
theorem contentMatches_iff (hr : Restoring cfg d t rels) (hway : OpenWay d p)
    (hlink : RestoreConfig.isLinkAt d p = false) (h : Hash) :
    cfg.contentMatches d p h = true ↔ ∃ c stat, d.get p = some (.leaf (.file c stat)) ∧ c.hash = h := by
  unfold RestoreConfig.contentMatches
  rw [hr.fileStub, stat_of_openWay hway hlink]
  rcases d.get p with _ | _ | _ | _ | _ <;> simp

theorem isLinkAt_of_file {c : Content} {stat : FileStat} (h : d.get p = some (.leaf (.file c stat))) :
    RestoreConfig.isLinkAt d p = false := by
  simp [RestoreConfig.isLinkAt, h]

/-- There is no stub beside a file that has been written. -/
theorem stub_after_write (ht : Tidy s) (hp : p ≠ []) {x : DiskLeaf} {u : Disk}
    (hu : ∀ q, u.get q = if q = p then some (.leaf x) else if q <+: p then some .dir else s.get q) :
    Effect (removeFileTolerant (fileStubPath p)) u True fun _ v => ∀ q, v.get q = u.get q := by
  obtain ⟨parent, n, rfl⟩ := exists_concat hp
  rw [fileStub_concat]
  have hway : OpenWay u (parent ++ [n ++ stubSuffix]) :=
    openWay_beside (openWay_of_get (p := parent ++ [n]) (by simp [hu])) _
  have hle : ¬ parent ++ [n ++ stubSuffix] <+: parent ++ [n] := by
    intro hle
    have heq := hle.eq_of_length (by simp)
    simp [stubSuffix] at heq
  have hne : parent ++ [n ++ stubSuffix] ≠ parent ++ [n] := by
    intro heq
    exact hle (heq ▸ List.prefix_rfl)
  have hnone : u.get (parent ++ [n ++ stubSuffix]) = none := by
    rw [hu, if_neg hne, if_neg hle]
    exact ht.fileStub parent n
  exact removeAbsent_effect (by simp) hway hnone

/-- A file that is written has not had the content already. -/
theorem blobTarget_of_mismatch (hr : Restoring cfg d t rels) (hway : OpenWay d p) {b : Blob}
    (hc : cfg.contentMatches d p b.hash = false) : blobTarget cfg d p b = cfg.mach.file b := by
  unfold blobTarget
  rcases hget : d.get p with _ | _ | ⟨c, stat⟩ | _ | _ <;> try rfl
  have hother : c.hash ≠ b.hash := by
    intro heq
    have hmatch := (contentMatches_iff hr hway (isLinkAt_of_file hget) b.hash).mpr
      ⟨c, stat, hget, heq⟩
    rw [hc] at hmatch
    cases hmatch
  simp [hother]

theorem content_effect (hr : Restoring cfg d t rels) (hm : Midway cfg d t rels done s)
    {pend : List Hash} {b : Blob} (hat : t.at p = some (.blob b))
    (hc : cfg.contentMatches d p b.hash = false)
    (hpend : b.hash ∈ pend ↔ cfg.blobCached b.hash = false) :
    Effect (applyAction cfg pend (.restoreBlobContent p b)) s
      (Feasible cfg d t (.restoreBlobContent p b)) fun _ =>
        Brings cfg d t (region (.restoreBlobContent p b)) s := by
  have hp : p ≠ [] := ne_nil_of_leaf hat rfl
  have hne : t.at p ≠ none := by simp [hat]
  have hok : Feasible cfg d t (.restoreBlobContent p b) ↔
      (OpenWay s p ∧ s.get p ≠ some .dir) ∧ cfg.blobCached b.hash = true := by
    show (∀ q, q <+: p → ¬ Blocks t d.get q) ∧ _ ↔ _
    rw [hm.clear_iff hr hne, blocks_blob hat]
    refine and_congr_right fun _ => ⟨fun h => h p b rfl, ?_⟩
    rintro h q b' heq
    cases heq
    exact h
  by_cases hcached : cfg.blobCached b.hash = true
  · have hnot : b.hash ∉ pend := by simp [hpend, hcached]
    have hrun : applyAction cfg pend (.restoreBlobContent p b) =
        acting (atomicWrite p (cfg.mach.file b) >>= fun _ =>
          removeFileTolerant (fileStubPath p) >>= fun _ => removeConflictHelpers p) := by
      simp only [applyAction, if_neg hnot]
    rw [hrun]
    rw [and_iff_left hcached] at hok
    rw [hok]
    apply acting_effect
    apply (atomicWrite_effect s hp (cfg.mach.file b)).andAlways
    rintro _ u ⟨hway, -⟩ hu
    refine (stub_after_write (hm.tidy hr) hp hu).andThen fun _ v hv => ?_
    have htarget : target cfg d t p = some (.leaf (cfg.mach.file b)) := by
      simp [target, hat, blobTarget_of_mismatch hr ((hm.openWay_iff hr hne).mp hway) hc]
    exact helpersAfterWrite_effect hr.wellNamed (hm.tidy hr) hp hne htarget
      fun q => (hv q).trans (hu q)
  · -- the blob could not be had, and the path is left alone
    have hin : b.hash ∈ pend := by simpa [hpend] using hcached
    have hrun : applyAction cfg pend (.restoreBlobContent p b) s = .error (.unavailable p) s := by
      simp only [applyAction, if_pos hin]
      rfl
    exact Effect.of_eq_error hrun fun h => hcached (hok.mp h).2

/-- Of a file, the mode is set by replacing it. -/
theorem setMode_ok (cfg : RestoreConfig) (mode : Option String) (hp : p ≠ []) {c : Content}
    {stat : FileStat} (hs : s.get p = some (.leaf (.file c stat))) : ∃ u, setMode cfg p mode s = .ok ⟨⟩ u ∧
      ∀ q, u.get q = if q = p then
        some (.leaf (.file c { stat with mode := mode.map fun _ => "755" }))
        else if q <+: p then some .dir else s.get q := by
  obtain ⟨parent, n, rfl⟩ := exists_concat hp
  have hparent : s.get parent = some .dir :=
    DirTree.get_of_append (n := n) (q := []) (by simp [hs])
  obtain ⟨u, hu, hget⟩ := DirTree.rename_of_not_dir hparent (n := n) (by simp [hs])
    (.file c { stat with mode := mode.map fun _ => "755" })
  have hset : setMode cfg (parent ++ [n]) mode s =
      syscall (fun d => d.rename (parent ++ [n])
        (.file c { stat with mode := mode.map fun _ => "755" })) s := by
    refine (bind_eq_of_ok (openLeaf_of_dir false n hparent) _).trans ?_
    simp only [hs]
  refine ⟨u, hset.trans (syscall_ok hu), fun q => ?_⟩
  rw [hget]
  split_ifs with hq hle
  · rfl
  · exact DirTree.dir_of_prefix hparent (prefix_parent_of_ne hle hq)
  · rfl

theorem setMode_blocked (cfg : RestoreConfig) (mode : Option String) (hp : p ≠ []) (hway : ¬ OpenWay s p) :
    ∃ e, setMode cfg p mode s = .error e s := by
  obtain ⟨parent, n, rfl⟩ := exists_concat hp
  obtain ⟨e, he, -⟩ := openLeaf_blocked hway
  exact ⟨e, bind_eq_of_error he _⟩

theorem modeOnly_effect (hr : Restoring cfg d t rels) (hm : Midway cfg d t rels done s)
    {pend : List Hash} {b : Blob} (hat : t.at p = some (.blob b))
    (hc : cfg.contentMatches d p b.hash = true) (hmode : cfg.modeMatches d p b.mode = false) :
    Effect (applyAction cfg pend (.restoreBlobModeOnly p b.mode)) s
      (Feasible cfg d t (.restoreBlobModeOnly p b.mode)) fun _ =>
        Brings cfg d t (region (.restoreBlobModeOnly p b.mode)) s := by
  have hp : p ≠ [] := ne_nil_of_leaf hat rfl
  have hne : t.at p ≠ none := by simp [hat]
  have hlink : RestoreConfig.isLinkAt d p = false := by
    rw [Bool.eq_false_iff]
    intro h
    rw [hr.links p b hat h hc] at hmode
    cases hmode
  have hok : Feasible cfg d t (.restoreBlobModeOnly p b.mode) ↔
      OpenWay s p ∧ ¬ Blocks t s.get p := by
    rw [← hm.clear_iff hr hne]
    show (∀ q, q <+: p → ¬ Blocks t d.get q) ∧ _ ↔ _
    simp
  rw [hok, blocks_blob hat]
  by_cases hway : OpenWay s p
  · obtain ⟨c, stat, hget, hhash⟩ :=
      (contentMatches_iff hr ((hm.openWay_iff hr hne).mp hway) hlink b.hash).mp hc
    have htarget : target cfg d t p =
        some (.leaf (.file c { stat with mode := b.mode.map fun _ => "755" })) := by
      simp [target, hat, blobTarget, hget, hhash]
    -- a file of this content is there, with its mode set or not
    obtain ⟨stat', hs, hstat⟩ : ∃ stat', s.get p = some (.leaf (.file c stat')) ∧
        ({ stat' with mode := b.mode.map fun _ => "755" } : FileStat) =
          { stat with mode := b.mode.map fun _ => "755" } := by
      rcases hm.kept_or p with h | h
      · exact ⟨stat, h.trans hget, rfl⟩
      · exact ⟨_, h.trans htarget, rfl⟩
    have hstat_some : (cfg.stat s p).isNone = false := by
      rw [stat_of_openWay hway (isLinkAt_of_file hs), hs]
      rfl
    have hrun : applyAction cfg pend (.restoreBlobModeOnly p b.mode) s =
        acting (setMode cfg p b.mode >>= fun _ => removeConflictHelpers p) s := by
      simp only [applyAction, hstat_some, Bool.false_eq_true, if_false]
    obtain ⟨u, hset, hwritten⟩ := setMode_ok cfg b.mode hp hs
    rw [hstat] at hwritten
    obtain ⟨_, v, hv, hpost⟩ :=
      (helpersAfterWrite_effect hr.wellNamed (hm.tidy hr) hp hne htarget hwritten).succeeds trivial
    refine Effect.of_eq_ok (a := ⟨⟩) (t := v) ?_ ⟨hway, by simp [hs]⟩ ?_
    · rw [hrun]
      simp only [acting, bind_eq_of_ok hset, hv]
    · constructor
      · intro q hq
        rcases hq with rfl | hq
        · exact hpost.reached q (.inl List.prefix_rfl)
        · exact hpost.reached q (.inr hq)
      · intro q hq
        by_cases hle : q <+: p
        · -- above the path there are directories, before and after
          have hqp : q ≠ p := fun h => hq (.inl h)
          obtain ⟨w, hw⟩ := dirAt_of_lt hle hqp hne
          have hreached := hpost.reached q (.inl hle)
          rw [target_of_dirAt hw] at hreached
          rw [hreached]
          exact (dir_above hle hqp (by simp [hs])).symm
        · exact hpost.kept q fun h => h.elim hle fun h => hq (.inr h)
  · -- the check may follow a symlink above the path, the write does not
    obtain ⟨e, he⟩ := setMode_blocked cfg b.mode hp hway
    by_cases hnone : (cfg.stat s p).isNone = true
    · refine Effect.of_eq_error (e := .unavailable p) (t := s) ?_ fun h => hway h.1
      simp only [applyAction, hnone, if_true]
    · refine Effect.of_eq_error (e := .failed e) (t := s) ?_ fun h => hway h.1
      simp only [applyAction, hnone, acting, bind_eq_of_error he _]
      rfl

theorem cleanup_effect (hr : Restoring cfg d t rels) (hm : Midway cfg d t rels done s)
    {pend : List Hash} {b : Blob} (hat : t.at p = some (.blob b))
    (hc : cfg.contentMatches d p b.hash = true) :
    Effect (applyAction cfg pend (.cleanupOnly p)) s (Feasible cfg d t (.cleanupOnly p)) fun _ =>
      Brings cfg d t (region (.cleanupOnly p)) s := by
  have hp : p ≠ [] := ne_nil_of_leaf hat rfl
  have hne : t.at p ≠ none := by simp [hat]
  -- a directory would not have had the content
  have hnotdir : OpenWay s p → ¬ Blocks t s.get p := by
    intro hway
    rw [hm.blocks_iff hr, blocks_blob hat]
    intro hdir
    have hlink : RestoreConfig.isLinkAt d p = false := by simp [RestoreConfig.isLinkAt, hdir]
    obtain ⟨c, stat, hget, -⟩ :=
      (contentMatches_iff hr ((hm.openWay_iff hr hne).mp hway) hlink b.hash).mp hc
    rw [hdir] at hget
    cases hget
  have hok : Feasible cfg d t (.cleanupOnly p) ↔ OpenWay s p := by
    rw [← and_iff_left_of_imp hnotdir, ← hm.clear_iff hr hne]
    show (∀ q, q <+: p → ¬ Blocks t d.get q) ∧ _ ↔ _
    simp
  rw [hok]
  apply acting_effect
  refine (removeConflictHelpers_effect hp fun q hq => (hm.tidy hr).helper hp hq).congr Iff.rfl ?_
  intro _ _ u hu
  constructor
  · intro q hq
    rw [target_of_stray (stray_of_helper hr.wellNamed hp hne hq)]
    exact hu.reached q hq
  · exact hu.kept

theorem symlink_effect (hr : Restoring cfg d t rels) (hm : Midway cfg d t rels done s)
    {pend : List Hash} {y : Symlink} (hat : t.at p = some (.symlink y)) :
    Effect (applyAction cfg pend (.restoreSymlink p y)) s
      (Feasible cfg d t (.restoreSymlink p y)) fun _ =>
        Brings cfg d t (region (.restoreSymlink p y)) s := by
  have hp : p ≠ [] := ne_nil_of_leaf hat rfl
  have hne : t.at p ≠ none := by simp [hat]
  obtain ⟨parent, n, hpn⟩ := exists_concat hp
  have hok : Feasible cfg d t (.restoreSymlink p y) ↔ OpenWay s p ∧ ¬ Blocks t s.get p := by
    rw [← hm.clear_iff hr hne]
    show (∀ q, q <+: p → ¬ Blocks t d.get q) ∧ _ ↔ _
    simp
  rw [hok, blocks_symlink hat]
  -- the two stubs that the source removes first are not there
  have hfile : Effect (ignoring (removeFileTolerant (fileStubPath p))) s True
      fun _ u => ∀ q, u.get q = s.get q := by
    rw [hpn, fileStub_concat]
    exact ignoring_absent ((hm.tidy hr).fileStub parent n)
  apply acting_effect
  refine hfile.andThen fun _ u hu => ?_
  have hdir : Effect (ignoring (removeFileTolerant (dirStubPath p))) u True
      fun _ v => ∀ q, v.get q = u.get q :=
    ignoring_absent ((hu _).trans ((hm.tidy hr).dirStub p))
  refine hdir.andThen fun _ v hv => ?_
  have hsv : ∀ q, v.get q = s.get q := fun q => (hv q).trans (hu q)
  have hcase : OpenWay v p ∧ (v.get p = some .dir → ∀ m, v.get (p ++ [m]) = none) ↔
      OpenWay s p ∧ ¬ (s.get p = some .dir ∧ ∃ m, s.get (p ++ [m]) ≠ none) := by
    rw [openWay_congr hsv]
    simp only [hsv, not_and, not_exists, ne_eq, Decidable.not_not]
  rw [← hcase]
  refine (replaceSymlink_effect v hp (cfg.mach.link y)).andAlways fun _ w _ hw => ?_
  have htarget : target cfg d t p = some (.leaf (cfg.mach.link y)) := by simp [target, hat]
  exact helpersAfterWrite_effect hr.wellNamed (hm.tidy hr) hp hne htarget fun q => by rw [hw, hsv]

theorem ensureDir_effect (hr : Restoring cfg d t rels) (hm : Midway cfg d t rels done s)
    {pend : List Hash} {c : Tree} (hat : DirAt t p c) :
    Effect (applyAction cfg pend (.ensureDir p)) s (Feasible cfg d t (.ensureDir p)) fun _ =>
      Brings cfg d t (region (.ensureDir p)) s := by
  have hdirs : ∀ q, q <+: p → ∃ w, DirAt t q w := fun q hle => dirAt_of_le hle hat
  have hok : Feasible cfg d t (.ensureDir p) ↔ ∀ q, q <+: p → ∀ x, s.get q ≠ some (.leaf x) := by
    have hblocks : ∀ q, q <+: p → (¬ Blocks t d.get q ↔ ∀ x, s.get q ≠ some (.leaf x)) := by
      intro q hle
      obtain ⟨w, m, hw⟩ := hdirs q hle
      rw [← hm.blocks_iff hr]
      simp [Blocks, hw]
    show (∀ q, q <+: p → ¬ Blocks t d.get q) ∧ _ ↔ _
    rw [and_iff_left (by simp)]
    exact forall₂_congr hblocks
  rw [hok]
  apply acting_effect
  refine (createDirAll_effect s p).congr Iff.rfl ?_
  intro _ _ u hu
  constructor
  · intro q hq
    obtain ⟨w, hw⟩ := hdirs q hq
    rw [target_of_dirAt hw]
    exact (hu q).trans (if_pos hq)
  · intro q hq
    exact (hu q).trans (if_neg hq)

/-- What is not recorded can be removed: its directory is one, and stays one. -/
theorem feasible_of_extra (hwn : t.WellNamed) {c : Path} {n : String} {w : Tree} {k : Kind DiskLeaf}
    (hw : DirAt t c w) (hk : d.get (c ++ [n]) = some k)
    (ha : a ∈ extraAction (decide (n ∈ w.names)) (c ++ [n]) n k) : Feasible cfg d t a := by
  have hdir : d.get c = some .dir := DirTree.get_of_append (n := n) (q := []) (by simp [hk])
  constructor
  · intro q hle
    rw [identity_of_extraAction ha] at hle
    by_cases hq : q = c ++ [n]
    · simp [Blocks, hq, (stray_of_extra hwn hw ha []).at_eq_none]
    · have hle' : q <+: c := prefix_parent_of_ne hle hq
      obtain ⟨v, m, hv⟩ := dirAt_of_le hle' hw
      simp [Blocks, hv, DirTree.dir_of_prefix hdir hle']
  · rintro q b rfl
    rcases (mem_extraAction ha).2 with ⟨h, -⟩ | ⟨-, ⟨h, -⟩ | ⟨h, -⟩⟩ <;> cases h

theorem extra_effect (hr : Restoring cfg d t rels) (hm : Midway cfg d t rels done s) (hwf : s.Wf)
    {pend : List Hash} {c : Path} {n : String} {w : Tree} {k : Kind DiskLeaf} (hw : DirAt t c w)
    (hk : d.get (c ++ [n]) = some k)
    (ha : a ∈ extraAction (decide (n ∈ w.names)) (c ++ [n]) n k) :
    Effect (applyAction cfg pend a) s (Feasible cfg d t a) fun _ => Brings cfg d t (region a) s := by
  have hdir : d.get c = some .dir := DirTree.get_of_append (n := n) (q := []) (by simp [hk])
  have hsdir : s.get c = some .dir := by
    rcases hm.kept_or c with h | h
    · rw [h, hdir]
    · rw [h, target_of_dirAt hw]
  have hway : OpenWay s (c ++ [n]) := openWay_of_dir hsdir n
  have htidy := hm.tidy hr
  have hstray := stray_of_extra hr.wellNamed hw ha
  rw [iff_true_intro (feasible_of_extra hr.wellNamed hw hk ha)]
  -- one path goes, or was gone before
  have hone : ∀ {m : Guarded DiskLeaf PUnit},
      Effect m s (OpenWay s (c ++ [n]) ∧ s.get (c ++ [n]) ≠ some .dir)
        (fun _ u => ∀ q, u.get q = if q = c ++ [n] then none else s.get q) →
      s.get (c ++ [n]) ≠ some .dir →
      Effect (acting m) s True fun _ => Brings cfg d t (fun q => q = c ++ [n]) s := by
    intro m hrm hnd
    apply acting_effect
    refine hrm.congr (iff_of_true ⟨hway, hnd⟩ trivial) ?_
    intro _ _ u hu
    constructor
    · rintro q rfl
      rw [target_of_stray (hstray [])]
      exact (hu _).trans (if_pos rfl)
    · intro q hq
      exact (hu q).trans (if_neg hq)
  rcases (mem_extraAction ha).2 with ⟨rfl, hown⟩ | ⟨-, ⟨rfl, rfl⟩ | ⟨rfl, x, rfl, -⟩⟩
  · exact hone (removeFileTolerant_effect s (by simp)) (htidy.own c n hown)
  · have hleaf : ∀ x, s.get (c ++ [n]) ≠ some (.leaf x) := by
      intro x
      rcases hm.kept_or_gone (hstray []) with h | h
      · simp [h, hk]
      · simp [h]
    apply acting_effect
    refine (removeAddedDir_effect hwf htidy hway hleaf).congr Iff.rfl ?_
    intro _ _ u hu
    constructor
    · rintro q ⟨r, rfl⟩
      have hbelow : Stray t (c ++ [n] ++ r) := by simpa using hstray r
      rw [target_of_stray hbelow]
      exact (hu _).trans (if_pos (List.prefix_append ..))
    · intro q hq
      exact (hu q).trans (if_neg hq)
  · have hnd : s.get (c ++ [n]) ≠ some .dir := by
      rcases hm.kept_or_gone (hstray []) with h | h
      · simp [h, hk]
      · simp [h]
    exact hone (removeWithStub_effect htidy) hnd

/-- **`applyAction_effect`** — in the middle of a restore each action succeeds if it could at the start,
and brings its own paths, and no others, to what the command wants. -/
theorem applyAction_effect (hr : Restoring cfg d t rels) (hm : Midway cfg d t rels done s)
    (hwf : s.Wf) {pend : List Hash}
    (hpend : ∀ q b, Calls cfg d t (InScope rels) (.restoreBlobContent q b) →
      (b.hash ∈ pend ↔ cfg.blobCached b.hash = false))
    (ha : Calls cfg d t (InScope rels) a) :
    Effect (applyAction cfg pend a) s (Feasible cfg d t a) fun _ => Brings cfg d t (region a) s := by
  rcases ha with ⟨q, e, hs, he, hmem⟩ | ⟨c, n, w, k, -, hw, hk, hmem⟩
  · cases e with
    | blob b =>
        rcases mem_blobAction hmem with ⟨rfl, hc⟩ | ⟨rfl, hc, hmode⟩ | ⟨rfl, hc, -⟩
        · exact content_effect hr hm he hc (hpend q b (.inl ⟨q, _, hs, he, hmem⟩))
        · exact modeOnly_effect hr hm he hc hmode
        · exact cleanup_effect hr hm he hc
    | tree u m =>
        obtain rfl := List.mem_singleton.mp hmem
        exact ensureDir_effect hr hm ⟨m, he⟩
    | symlink y =>
        obtain ⟨-, rfl⟩ := mem_symlinkAction.mp hmem
        exact symlink_effect hr hm he
  · exact extra_effect hr hm hwf hw hk hmem

end Actions

end Omemfs.Work
