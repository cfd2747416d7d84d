/-
# Omemfs.Work.Restored — when a restore succeeds, and what it leaves.

A restore of recorded paths, in a working tree without stubs, succeeds exactly if nothing of the wrong kind
stands at a recorded path and every blob that has to be written is in the cache.  What it leaves is then
told path by path (`Restored`): the recorded entries are there, what is not recorded is gone, and outside
the given paths nothing is lost.
-/
import Omemfs.Work.RestoreRun

namespace Omemfs.Work

open Lib Scan Fsguard
open Omemfs.Sync (artifactPath artifactPath_concat isConflictArtifact_append)
open Omemfs.Sync.Checked (fileStubPath dirStubPath isFile)

/-! ## The command as a run of its actions -/

section Run

variable {cfg : RestoreConfig} {d s : Disk} {t : Tree} {rels : List Path} {p q : Path}

theorem addressable_of_recorded (hwn : t.WellNamed) (hat : t.at p ≠ none) : addressable p = true := by
  unfold addressable
  rw [List.all_eq_true]
  intro n hn
  obtain ⟨-, hmeta, hres⟩ := validName_iff.mp (hwn.valid_at hat n hn)
  by_cases hf : n = filterName
  · simp [hf, show filterName ≠ metadataDirName by decide]
  · simp [hmeta, hf, hres hf]

theorem no_errors_iff {l : List (RestoreAction × ActionError)} :
    unavailableOf l = [] ∧ failedOf l = [] ↔ l = [] := by
  cases l with
  | nil => simp [unavailableOf, failedOf]
  | cons x l =>
      obtain ⟨a, e⟩ := x
      cases e <;> simp [unavailableOf, failedOf]

/-- **`restore_effect`** — the command is the run of the actions that are called for, in some order. -/
theorem restore_effect (hr : Restoring cfg d t rels) :
    ∃ actions : List RestoreAction, (∀ a, a ∈ actions ↔ Calls cfg d t (InScope rels) a) ∧
      Effect (restore cfg t rels) d (∀ a ∈ actions, Feasible cfg d t a) fun _ =>
        Settled (fun (s : Disk) q => s.get q) (target cfg d t) region actions d := by
  obtain ⟨plan, hplan, htrees, hmem, hpend⟩ :=
    planRestore_spec hr.unstubbed hr.wf hr.wellNamed hr.cached hr.subtrees hr.given
  have hsettle : Effect (plan.actions.forM (applyAction cfg plan.pending)) d
      (∀ a ∈ plan.actions, Feasible cfg d t a) fun _ =>
        Settled (fun (s : Disk) q => s.get q) (target cfg d t) region plan.actions d := by
    refine Effect.settle DirTree.Wf hr.wf ?_ (Feasible cfg d t) ?_
    · intro a ha
      exact applyAction_wf hr.rmdirWf hr.chmodWf plan.pending ((hmem a).mp ha).fromEntry
    · intro done s hwf hdone hs a ha
      have hm : Midway cfg d t rels done s :=
        ⟨fun b hb => ⟨(hmem b).mp (hdone b hb).1, (hdone b hb).2⟩, hs⟩
      refine applyAction_effect hr hm hwf ?_ ((hmem a).mp ha)
      intro q b hcall
      rw [hpend]
      constructor
      · rintro ⟨-, -, -, -, h⟩
        exact h
      · exact fun h => ⟨q, b, hcall, rfl, h⟩
  have hfind : (rels.find? fun rel => !addressable rel) = none := by
    rw [List.find?_eq_none]
    intro p hp
    simp [addressable_of_recorded hr.wellNamed (hr.given p hp).recorded]
  refine ⟨plan.actions, hmem, ?_, ?_⟩
  · intro hok
    obtain ⟨a, s, hs, hpost⟩ := hsettle.succeeds hok
    have htry := tryAll_succeeds_iff.mpr hs
    refine ⟨⟨⟩, s, ?_, hpost⟩
    simp only [restore, hfind, hplan, htrees, htry, List.map_nil, List.append_nil,
      if_pos (no_errors_iff.mpr rfl)]
  · -- the actions after one that fails are tried all the same
    intro hno
    obtain ⟨e, s, hs⟩ := hsettle.fails hno
    have htry : (tryAll (applyAction cfg plan.pending) plan.actions d).1 ≠ [] := by
      intro hnil
      have hrun := tryAll_succeeds_iff.mp (Prod.ext hnil rfl :
        tryAll (applyAction cfg plan.pending) plan.actions d =
          ([], (tryAll (applyAction cfg plan.pending) plan.actions d).2))
      rw [hs] at hrun
      cases hrun
    have hrun : restore cfg t rels d =
        .error (.notRestored (unavailableOf (tryAll (applyAction cfg plan.pending) plan.actions d).1)
          (failedOf (tryAll (applyAction cfg plan.pending) plan.actions d).1))
          (tryAll (applyAction cfg plan.pending) plan.actions d).2 := by
      simp only [restore, hfind, hplan, htrees, List.map_nil, List.append_nil,
        if_neg fun h => htry (no_errors_iff.mp h)]
    exact ⟨_, _, hrun⟩

end Run

/-! ## A directory with one file changed, one missing and one too many -/

def plainRestore : RestoreConfig where
  mach := ⟨0, fun _ => none, fun _ => 0, fun _ => 0⟩
  treeHash := fun _ => 0
  has := fun _ => true
  blobCached := fun _ => true
  lstatBeyond := fun _ _ => none
  statBeyond := fun _ _ => none
  listBeyond := fun _ _ => .error .enoent
  rmdirBeyond := fun _ d => d
  chmodBeyond := fun _ _ d => d

def linkedRoot : Tree :=
  .tree "src" (.blob "a" ⟨7, some 5, 1, none⟩ (.symlink "l" ⟨"a", some 5⟩ .nil)) ⟨some 5, 1, 1⟩ .nil

/-- The directory with a file `a` and one other entry. -/
def srcWith (a : DiskLeaf) (m : String) (x : DiskLeaf) : Disk :=
  .sub "src" (.leaf "a" a (.leaf m x .nil)) .nil

def messySrc : Disk := srcWith (.file ⟨8, none⟩ ⟨some 9, 1, none⟩) "x" (.file ⟨3, none⟩ ⟨some 9, 1, none⟩)

def restoredSrc : Disk := srcWith (.file ⟨7, none⟩ ⟨some 5, 1, none⟩) "l" (.symlink "a" (some 5))

section SrcWith

variable {c : Content} {stat : FileStat} {m n : String} {a x : DiskLeaf} {p q : Path}

theorem srcWith_get (h : (srcWith a m x).get q ≠ none) :
    q = [] ∨ q = ["src"] ∨ (q = ["src", "a"] ∧ (srcWith a m x).get q = some (.leaf a)) ∨
      q = ["src", m] ∧ m ≠ "a" ∧ (srcWith a m x).get q = some (.leaf x) := by
  rcases q with _ | ⟨n, q⟩
  · exact .inl rfl
  · simp only [srcWith, DirTree.get_sub_cons] at h ⊢
    split_ifs at h ⊢ with hn
    · rcases q with _ | ⟨k, q⟩
      · simp [hn]
      · simp only [DirTree.get_leaf_cons] at h ⊢
        split_ifs at h ⊢ with hk hq hk' hq
        · simp [hn, hk, hq]
        · exact absurd rfl h
        · subst hk'
          simp [hn, hk, hq]
        · exact absurd rfl h
        · exact absurd (DirTree.nil_get_cons ..) h
    · exact absurd (DirTree.nil_get_cons ..) h

theorem srcWith_name (h : (srcWith a m x).get (p ++ [n]) ≠ none) : n = "src" ∨ n = "a" ∨ n = m := by
  rcases srcWith_get h with h | h | ⟨h, -⟩ | ⟨h, -⟩
  · simp at h
  · exact .inl (by simpa using congrArg List.getLast? h)
  · exact .inr (.inl (by simpa using congrArg List.getLast? h))
  · exact .inr (.inr (by simpa using congrArg List.getLast? h))

theorem srcWith_tidy (hm : ValidName m) (hx : x ≠ .special) : Tidy (srcWith (.file c stat) m x) where
  stub p n h := by
    rcases srcWith_name h with rfl | rfl | rfl
    · decide
    · decide
    · exact (own_of_valid hm).2.2.2
  own p n hown h := by
    have hvalid : ValidName n := by
      rcases srcWith_name (Option.ne_none_iff_exists'.mpr ⟨_, h⟩) with rfl | rfl | rfl
      · decide
      · decide
      · exact hm
    simp [(own_of_valid hvalid).2.1, (own_of_valid hvalid).2.2.1] at hown
  plain p h := by
    rcases srcWith_get (Option.ne_none_iff_exists'.mpr ⟨_, h⟩) with rfl | rfl | ⟨-, hget⟩ | ⟨-, -, hget⟩
    · cases h
    · cases h
    · rw [hget] at h
      cases h
    · rw [hget] at h
      cases h
      exact hx rfl

/-- Where nothing is, no file is found. -/
theorem plainRestore_stat {d : Disk} (h : d.get p = none) : isFile (plainRestore.stat d p) = false := by
  unfold RestoreConfig.stat
  split_ifs
  · rfl
  · rw [h]
    rfl

/-- Only the other entry may be a symlink, and no blob is recorded for it. -/
theorem srcWith_restoring {rels : List Path} (hrels : ∀ p ∈ rels, p = [] ∨ p = ["src"])
    (hm : ValidName m) (hx : x ≠ .special) (hma : ∀ b, linkedRoot.at ["src", m] ≠ some (.blob b))
    (hstat : stat.mode = none) (hmode : ∀ c stat, x = .file c stat → stat.mode = none) :
    Restoring plainRestore (srcWith (.file c stat) m x) linkedRoot rels where
  wf := by
    have hne : m ≠ "a" := by
      rintro rfl
      exact hma _ rfl
    exact ⟨by decide, ⟨by simpa [DirTree.names] using hne.symm, by simp [DirTree.names], trivial⟩, trivial⟩
  tidy := srcWith_tidy hm hx
  fileStub p := plainRestore_stat ((srcWith_tidy hm hx).fileStub p.dropLast (p.getLastD ""))
  dirStub p := plainRestore_stat ((srcWith_tidy hm hx).dirStub p)
  wellNamed := ⟨by decide, by decide, ⟨by decide, by decide, ⟨by decide, by decide, trivial⟩⟩, trivial⟩
  cached := rfl
  subtrees _ _ _ _ _ := rfl
  given p hp := by
    rcases hrels p hp with rfl | rfl
    · exact ⟨by decide, openWay_of_get (by simp), fun s _ y h => by cases h⟩
    · exact ⟨by decide, openWay_of_get (by simp [srcWith, DirTree.get_sub_cons]), fun s _ y h => by cases h⟩
  links q b hat h := by
    obtain ⟨target, mt, hget⟩ := isLinkAt_eq_true_iff.mp h
    rcases srcWith_get (Option.ne_none_iff_exists'.mpr ⟨_, hget⟩) with rfl | rfl | ⟨-, hleaf⟩ | ⟨rfl, -⟩
    · cases hget
    · cases hget
    · rw [hleaf] at hget
      cases hget
    · exact absurd hat (hma b)
  modes q c' stat' hget := by
    rcases srcWith_get (Option.ne_none_iff_exists'.mpr ⟨_, hget⟩) with rfl | rfl | ⟨-, hleaf⟩ | ⟨-, -, hleaf⟩
    · cases hget
    · cases hget
    · rw [hleaf] at hget
      cases hget
      exact .inl hstat
    · rw [hleaf] at hget
      cases hget
      exact .inl (hmode _ _ rfl)
  rmdirWf _ _ h := h
  chmodWf _ _ _ h := h

theorem messySrc_restoring {rels : List Path} (hrels : ∀ p ∈ rels, p = [] ∨ p = ["src"]) :
    Restoring plainRestore messySrc linkedRoot rels :=
  srcWith_restoring hrels (by decide) (by simp) (fun _ h => by cases h) rfl fun _ _ h => by
    cases h
    rfl

end SrcWith

/-! ## When it succeeds -/

section Succeeds

variable {cfg : RestoreConfig} {d s : Disk} {t : Tree} {rels : List Path} {p q : Path}

/-- Above a given path nothing is in the way, and below it what is in scope. -/
theorem clear_of_scope (hr : Restoring cfg d t rels)
    (hclear : ∀ q, InScope rels q → ¬ Blocks t d.get q) (hp : InScope rels p)
    (hle : q <+: p) : ¬ Blocks t d.get q := by
  obtain ⟨g, hg, hgp⟩ := hp
  rcases List.prefix_or_prefix_of_prefix hgp hle with hgq | hqg
  · exact hclear q ⟨g, hg, hgq⟩
  · by_cases hq : q = g
    · exact hclear q ⟨g, hg, hq ▸ List.prefix_rfl⟩
    · obtain ⟨u, m, hu⟩ := dirAt_of_lt hqg hq (hr.given g hg).recorded
      rw [Blocks, hu]
      rintro ⟨x, hx⟩
      exact (hr.given g hg).way q hqg hq x hx

theorem lstat_of_present (h : d.get q ≠ none) : cfg.lstat d q = d.get q :=
  lstat_of_openWay (openWay_of_get h)

theorem feasible_of_clear (hr : Restoring cfg d t rels)
    (hclear : ∀ q, InScope rels q → ¬ Blocks t d.get q)
    (hblobs : ∀ q b, InScope rels q → t.at q = some (.blob b) →
      cfg.contentMatches d q b.hash = true ∨ cfg.blobCached b.hash = true)
    {a : RestoreAction} (ha : Calls cfg d t (InScope rels) a) : Feasible cfg d t a := by
  rcases ha with ⟨p, e, hp, he, hmem⟩ | ⟨c, n, w, k, -, hw, hk, hmem⟩
  · have hway : ∀ q, q <+: p → ¬ Blocks t d.get q := fun q hle => clear_of_scope hr hclear hp hle
    cases e with
    | blob b =>
        rcases mem_blobAction hmem with ⟨rfl, hc⟩ | ⟨rfl, -⟩ | ⟨rfl, -⟩
        · refine ⟨hway, ?_⟩
          rintro q b' heq
          cases heq
          exact (hblobs p b hp he).resolve_left (by simp [hc])
        · exact ⟨hway, by simp⟩
        · exact ⟨hway, by simp⟩
    | tree u m =>
        obtain rfl := List.mem_singleton.mp hmem
        exact ⟨hway, by simp⟩
    | symlink y =>
        obtain ⟨-, rfl⟩ := mem_symlinkAction.mp hmem
        exact ⟨hway, by simp⟩
  · exact feasible_of_extra hr.wellNamed hw hk hmem

/-- What is in the way calls for an action that cannot be carried out. -/
theorem clear_of_feasible (hr : Restoring cfg d t rels)
    (hall : ∀ a, Calls cfg d t (InScope rels) a → Feasible cfg d t a) (hq : InScope rels q) :
    ¬ Blocks t d.get q := by
  intro hb
  have hcall : ∀ e a, t.at q = some e → a ∈ entryAction cfg d q e → a.identity.2 = q → False := by
    intro e a he ha hpath
    have hfeas := hall a (.inl ⟨q, e, hq, he, ha⟩)
    exact hfeas.1 q (hpath ▸ List.prefix_rfl) hb
  rcases hat : t.at q with _ | b | ⟨u, m⟩ | y
  · simp [Blocks, hat] at hb
  · -- a directory has no content, so the blob would have to be written over it
    have hdir : d.get q = some .dir := (blocks_blob hat).mp hb
    have hlink : RestoreConfig.isLinkAt d q = false := by simp [RestoreConfig.isLinkAt, hdir]
    have hway : OpenWay d q := openWay_of_get (by simp [hdir])
    have hc : cfg.contentMatches d q b.hash = false := by
      rw [Bool.eq_false_iff, ne_eq, contentMatches_iff hr hway hlink, hdir]
      rintro ⟨c, stat, h, -⟩
      cases h
    exact hcall _ (.restoreBlobContent q b) hat
      (by simp [entryAction, blobAction, hc]) rfl
  · exact hcall _ (.ensureDir q) hat (by simp [entryAction]) rfl
  · obtain ⟨hdir, -⟩ := (blocks_symlink hat).mp hb
    have hno : cfg.symlinkMatches d q y.target = false := by
      rw [RestoreConfig.symlinkMatches, lstat_of_present (by simp [hdir]), hdir]
    exact hcall _ (.restoreSymlink q y) hat (mem_symlinkAction.mpr ⟨hno, rfl⟩) rfl

end Succeeds

/-- A symlink stands in the place of a recorded blob and leads to a file of the recorded content. -/
def Stands (cfg : RestoreConfig) (d : Disk) (q : Path) (b : Blob) : Prop :=
  RestoreConfig.isLinkAt d q = true ∧ cfg.contentMatches d q b.hash = true

/-- The working tree after a restore of the given paths. -/
structure Restored (cfg : RestoreConfig) (d : Disk) (t : Tree) (rels : List Path) (s : Disk) : Prop where
  dir : ∀ q u, InScope rels q → DirAt t q u → s.get q = some .dir
  symlink : ∀ q y, InScope rels q → t.at q = some (.symlink y) →
    ∃ m, s.get q = some (.leaf (.symlink y.target m))
  blob : ∀ q b, InScope rels q → t.at q = some (.blob b) → ¬ Stands cfg d q b →
    ∃ c stat, s.get q = some (.leaf (.file c stat)) ∧ c.hash = b.hash ∧
      stat.mode = b.mode.map fun _ => "755"
  /-- A symlink that leads to what is recorded is left where it is. -/
  stands : ∀ q b, InScope rels q → t.at q = some (.blob b) → Stands cfg d q b → s.get q = d.get q
  /-- What is not recorded goes, with all that lies below it. -/
  stray : ∀ c u n r, InScope rels c → DirAt t c u → n ∉ u.names → n ≠ metadataDirName →
    s.get (c ++ n :: r) = none
  metadata : ∀ c u r, DirAt t c u → s.get (c ++ metadataDirName :: r) = d.get (c ++ metadataDirName :: r)
  /-- Outside the scope directories are made above the given paths, and the helpers of these go. -/
  outside : ∀ q, ¬ InScope rels q → s.get q = d.get q ∨
    (d.get q = none ∧ s.get q = some .dir ∧ ∃ p ∈ rels, q <+: p) ∨
    (s.get q = none ∧ ∃ p ∈ rels, HelperOf p q)
  tidy : Tidy s

section Left

variable {cfg : RestoreConfig} {d s : Disk} {t : Tree} {rels : List Path} {done : List RestoreAction}
  {a : RestoreAction} {p q : Path}

/-- An action is about its scope, the directories above it and the helpers of what is given. -/
theorem region_scope (ha : Calls cfg d t (InScope rels) a)
    (hq : region a q) (hout : ¬ InScope rels q) :
    ∃ p ∈ rels, (q <+: p ∧ q ≠ p) ∨ HelperOf p q := by
  have hbelow : ∀ p, InScope rels p → q <+: p → ∃ g ∈ rels, (q <+: g ∧ q ≠ g) ∨ HelperOf g q := by
    rintro p ⟨g, hg, hgp⟩ hle
    rcases List.prefix_or_prefix_of_prefix hgp hle with hgq | hqg
    · exact absurd ⟨g, hg, hgq⟩ hout
    · refine ⟨g, hg, .inl ⟨hqg, ?_⟩⟩
      rintro rfl
      exact hout ⟨q, hg, List.prefix_rfl⟩
  have hhelper : ∀ p, p ≠ [] → InScope rels p → HelperOf p q →
      ∃ g ∈ rels, (q <+: g ∧ q ≠ g) ∨ HelperOf g q := by
    rintro p hp ⟨g, hg, hgp⟩ hq
    -- below a given path the helpers are in its scope, too
    by_cases heq : g = p
    · exact ⟨g, hg, .inr (heq ▸ hq)⟩
    · obtain ⟨parent, n, rfl⟩ := exists_concat hp
      obtain ⟨x, -, rfl⟩ := helperOf_concat.mp hq
      exact absurd ⟨g, hg, (prefix_parent_of_ne hgp heq).trans (List.prefix_append ..)⟩ hout
  rcases ha with ⟨p, e, hp, he, hmem⟩ | ⟨c, n, w, k, hc, -, -, hmem⟩
  · cases e with
    | blob b =>
        have hne : p ≠ [] := ne_nil_of_leaf he rfl
        rcases mem_blobAction hmem with ⟨rfl, -⟩ | ⟨rfl, -⟩ | ⟨rfl, -⟩
        · exact hq.elim (hbelow p hp) (hhelper p hne hp)
        · exact hq.elim (fun h => absurd (h ▸ hp) hout) (hhelper p hne hp)
        · exact hhelper p hne hp hq
    | tree u m =>
        obtain rfl := List.mem_singleton.mp hmem
        exact hbelow p hp hq
    | symlink y =>
        obtain ⟨-, rfl⟩ := mem_symlinkAction.mp hmem
        exact hq.elim (hbelow p hp) (hhelper p (ne_nil_of_leaf he rfl) hp)
  · -- what is removed lies in the scope
    have hin : c ++ [n] <+: q → False := by
      intro hle
      obtain ⟨g, hg, hgc⟩ := hc
      exact hout ⟨g, hg, (hgc.trans (List.prefix_append c [n])).trans hle⟩
    rcases (mem_extraAction hmem).2 with ⟨rfl, -⟩ | ⟨-, ⟨rfl, -⟩ | ⟨rfl, -⟩⟩
    · have hself : q = c ++ [n] := hq
      exact (hin (hself ▸ List.prefix_rfl)).elim
    · exact (hin hq).elim
    · have hself : q = c ++ [n] := hq
      exact (hin (hself ▸ List.prefix_rfl)).elim

/-- Nothing is done to what has the metadata directory's name. -/
theorem not_region_metadata (hr : Restoring cfg d t rels) (ha : Calls cfg d t (InScope rels) a)
    {c : Path} {u : Tree} (hc : DirAt t c u) (r : Path) :
    ¬ region a (c ++ metadataDirName :: r) := by
  intro hq
  -- no recorded path goes through such a name
  have hbad : ∀ p, t.at p ≠ none → metadataDirName ∉ p := fun p hp hmem =>
    (own_of_valid (hr.wellNamed.valid_at hp _ hmem)).1 rfl
  rcases region_cases hr.wellNamed ha hq with ⟨hle, hat⟩ | ⟨c', n, r', w, heq, hw, hn, hmeta⟩
  · exact hbad _ hat (hle.subset (by simp))
  · obtain ⟨m', hw'⟩ := hw
    obtain ⟨m, hc'⟩ := hc
    rcases List.append_eq_append_iff.mp heq with ⟨z, hz, htail⟩ | ⟨z, hz, htail⟩
    · cases z with
      | nil =>
          rw [List.nil_append] at htail
          exact hmeta (List.cons_eq_cons.mp htail).1.symm
      | cons k z =>
          have hk : metadataDirName = k := (List.cons_eq_cons.mp htail).1
          exact hbad c' (by simp [hw']) (by simp [hz, hk])
    · cases z with
      | nil =>
          rw [List.nil_append] at htail
          exact hmeta (List.cons_eq_cons.mp htail).1
      | cons k z =>
          -- the other directory is above this one, so the name is recorded there
          have hk : n = k := (List.cons_eq_cons.mp htail).1
          have hrec : t.at (c' ++ n :: z) ≠ none := by
            rw [hk, ← hz, hc']
            simp
          rw [at_of_dirAt ⟨m', hw'⟩, Tree.at_cons_of_not_mem hn] at hrec
          exact hrec rfl

theorem settled_of_calls (hs : Settled (fun (s : Disk) q => s.get q) (target cfg d t) region done d s)
    (hmem : ∀ a, a ∈ done ↔ Calls cfg d t (InScope rels) a) (ha : Calls cfg d t (InScope rels) a)
    (hq : region a q) : s.get q = target cfg d t q :=
  hs.reached a ((hmem a).mpr ha) q hq

theorem target_of_symlink {y : Symlink} (h : t.at q = some (.symlink y)) :
    target cfg d t q = some (.leaf (.symlink y.target (some (y.mtime.getD cfg.mach.now)))) := by
  simp [target, h, Machine.link]

theorem target_of_blob {b : Blob} (h : t.at q = some (.blob b)) :
    ∃ c stat, target cfg d t q = some (.leaf (.file c stat)) ∧ c.hash = b.hash ∧
      stat.mode = b.mode.map fun _ => "755" := by
  have hfile : ∃ c stat, blobTarget cfg d q b = .file c stat ∧ c.hash = b.hash ∧
      stat.mode = b.mode.map fun _ => "755" := by
    unfold blobTarget
    split
    · split_ifs with hc
      · exact ⟨_, _, rfl, hc, rfl⟩
      · exact ⟨_, _, rfl, rfl, rfl⟩
    · exact ⟨_, _, rfl, rfl, rfl⟩
  obtain ⟨c, stat, hf, hrest⟩ := hfile
  exact ⟨c, stat, by simp [target, h, hf], hrest⟩

/-- What is done about a recorded blob's path is what the blob calls for; its helpers apart. -/
theorem blobAction_of_region (hr : Restoring cfg d t rels) {b : Blob} (hat : t.at q = some (.blob b))
    (ha : Calls cfg d t (InScope rels) a) (hq : region a q) :
    a ∈ blobAction cfg d q b ∧ a ≠ .cleanupOnly q := by
  have hnot : ¬ Stray t q := by
    intro h
    rw [h.at_eq_none] at hat
    cases hat
  have hcleanup : a ≠ .cleanupOnly q := by
    rintro rfl
    exact hnot (stray_of_helper hr.wellNamed (ne_nil_of_leaf hat rfl) (by simp [hat]) hq)
  refine ⟨?_, hcleanup⟩
  obtain ⟨hle, hne⟩ := (region_cases hr.wellNamed ha hq).resolve_right hnot
  have hpath : a.identity.2 = q := eq_of_at_below hat rfl hle hne
  rcases ha with ⟨p, e, hp, he, hmem⟩ | ⟨c, n, w, k, -, hw, hk, hmem⟩
  · obtain rfl : p = q := (identity_of_entryAction hmem).symm.trans hpath
    rw [hat] at he
    cases he
    exact hmem
  · have hq' : c ++ [n] = q := (identity_of_extraAction hmem).symm.trans hpath
    exact absurd (hq' ▸ stray_of_extra hr.wellNamed hw hmem []) hnot

/-- Something that is not recorded calls for its removal. -/
theorem exists_removal (hr : Restoring cfg d t rels) {c : Path} {u : Tree} {n : String} {r : Path}
    (hc : InScope rels c) (hu : DirAt t c u) (hn : n ∉ u.names) (hmeta : n ≠ metadataDirName)
    (hthere : d.get (c ++ n :: r) ≠ none) :
    ∃ a, Calls cfg d t (InScope rels) a ∧ region a (c ++ n :: r) := by
  obtain ⟨k, hk⟩ : ∃ k, d.get (c ++ [n]) = some k := by
    cases r with
    | nil => exact Option.ne_none_iff_exists'.mp hthere
    | cons m r => exact ⟨_, DirTree.get_of_append (n := m) (q := r) (by simpa using hthere)⟩
  have hleaf : ∀ x, k = .leaf x → r = [] := by
    rintro x rfl
    cases r with
    | nil => rfl
    | cons m r =>
        have hbelow := DirTree.get_append_of_not_dir (d := d) (p := c ++ [n]) (by simp [hk]) m r
        exact absurd (by simpa using hbelow) hthere
  have hcall : ∀ a, a ∈ extraAction false (c ++ [n]) n k → Calls cfg d t (InScope rels) a := by
    intro a ha
    exact .inr ⟨c, n, u, k, hc, hu, hk, by simpa [hn] using ha⟩
  by_cases hown : (isConflictArtifact n || isWorkingTreeTmp n) = true
  · refine ⟨.deleteConflictArtifact (c ++ [n]), hcall _ (by simp [extraAction, hmeta, hown]), ?_⟩
    rcases k with _ | x
    · exact absurd hk (hr.tidy.own c n hown)
    · rw [hleaf x rfl]
      rfl
  · rcases k with _ | x
    · refine ⟨.deleteAddedDir (c ++ [n]), hcall _ (by simp [extraAction, hmeta, hown, removal]), ?_⟩
      exact ⟨r, by simp⟩
    · refine ⟨.deleteFile (c ++ [n]), hcall _ ?_, ?_⟩
      · cases x with
        | special => exact absurd hk (hr.tidy.plain _)
        | file content stat => simp [extraAction, hmeta, hown, removal]
        | symlink target m => simp [extraAction, hmeta, hown, removal]
      · rw [hleaf x rfl]
        rfl

/-- The directories above something in scope are there. -/
theorem openWay_of_feasible (hr : Restoring cfg d t rels)
    (hall : ∀ a, Calls cfg d t (InScope rels) a → Feasible cfg d t a) (hq : InScope rels q)
    (hat : t.at q ≠ none) : OpenWay d q :=
  (openWay_iff hat).mpr fun _ hle _ =>
    clear_of_scope hr (fun _ hp => clear_of_feasible hr hall hp) hq hle

theorem symlink_of_kept {y : Symlink} (hway : OpenWay d q) (hat : t.at q = some (.symlink y))
    (hkept : s.get q = d.get q ∨ s.get q = target cfg d t q)
    (hact : ∀ a ∈ entryAction cfg d q (.symlink y), region a q → s.get q = target cfg d t q) :
    ∃ m, s.get q = some (.leaf (.symlink y.target m)) := by
  by_cases hmatch : cfg.symlinkMatches d q y.target = true
  · rw [RestoreConfig.symlinkMatches, lstat_of_openWay hway] at hmatch
    obtain ⟨m, hget⟩ : ∃ m, d.get q = some (.leaf (.symlink y.target m)) := by
      rcases hget : d.get q with _ | _ | _ | ⟨target', m⟩ | _ <;> simp [hget] at hmatch
      exact ⟨m, by rw [hmatch]⟩
    rcases hkept with h | h
    · exact ⟨m, h.trans hget⟩
    · exact ⟨_, h.trans (target_of_symlink hat)⟩
  · have hdone := hact _ (mem_symlinkAction.mpr ⟨by simpa using hmatch, rfl⟩) (.inl List.prefix_rfl)
    exact ⟨_, hdone.trans (target_of_symlink hat)⟩

theorem blob_of_kept (hr : Restoring cfg d t rels) {b : Blob} (hway : OpenWay d q)
    (hat : t.at q = some (.blob b)) (hstands : ¬ Stands cfg d q b)
    (hkept : s.get q = d.get q ∨ s.get q = target cfg d t q)
    (hact : ∀ a ∈ blobAction cfg d q b, region a q → s.get q = target cfg d t q) :
    ∃ c stat, s.get q = some (.leaf (.file c stat)) ∧ c.hash = b.hash ∧
      stat.mode = b.mode.map fun _ => "755" := by
  obtain ⟨c, stat, htarget, hrest⟩ := @target_of_blob cfg d t q b hat
  have hreached : s.get q = target cfg d t q →
      ∃ c stat, s.get q = some (.leaf (.file c stat)) ∧ c.hash = b.hash ∧
        stat.mode = b.mode.map fun _ => "755" := fun h => ⟨c, stat, h.trans htarget, hrest⟩
  by_cases hc : cfg.contentMatches d q b.hash = true
  · have hlink : RestoreConfig.isLinkAt d q = false := by
      rw [Bool.eq_false_iff]
      exact fun h => hstands ⟨h, hc⟩
    obtain ⟨c', stat', hget, hhash⟩ := (contentMatches_iff hr hway hlink b.hash).mp hc
    by_cases hmode : cfg.modeMatches d q b.mode = true
    · -- nothing is done to the file but what leaves it as it is
      rcases hkept with h | h
      · rw [RestoreConfig.modeMatches, stat_of_openWay hway hlink, hget] at hmode
        refine ⟨c', stat', h.trans hget, hhash, ?_⟩
        rcases hr.modes q c' stat' hget with hm | hm <;>
          cases hb : b.mode <;> simp [hm, hb] at hmode ⊢
      · exact hreached h
    · refine hreached (hact (.restoreBlobModeOnly q b.mode) ?_ (.inl rfl))
      simp [blobAction, hc, hmode]
  · refine hreached (hact (.restoreBlobContent q b) ?_ (.inl List.prefix_rfl))
    simp [blobAction, hc]

theorem outside_of_region (hr : Restoring cfg d t rels) (ha : Calls cfg d t (InScope rels) a)
    (hreg : region a q) (hq : ¬ InScope rels q) (hreached : s.get q = target cfg d t q) :
    s.get q = d.get q ∨ (d.get q = none ∧ s.get q = some .dir ∧ ∃ p ∈ rels, q <+: p) ∨
      (s.get q = none ∧ ∃ p ∈ rels, HelperOf p q) := by
  obtain ⟨p, hp, ⟨hle, hne⟩ | hhelp⟩ := region_scope ha hreg hq
  · obtain ⟨w, hw⟩ := dirAt_of_lt hle hne (hr.given p hp).recorded
    rw [target_of_dirAt hw] at hreached
    rcases hget : d.get q with _ | _ | x
    · exact .inr (.inl ⟨rfl, hreached, p, hp, hle⟩)
    · exact .inl hreached
    · exact absurd hget ((hr.given p hp).way q hle hne x)
  · -- the helpers of the root itself would be in scope
    have hpne : p ≠ [] := by
      rintro rfl
      exact hq ⟨[], hp, List.nil_prefix⟩
    have hstray := stray_of_helper hr.wellNamed hpne (hr.given p hp).recorded hhelp
    exact .inr (.inr ⟨hreached.trans (target_of_stray hstray), p, hp, hhelp⟩)

/-- **`restored_of_settled`** — what is left when all that is called for is done. -/
theorem restored_of_settled (hr : Restoring cfg d t rels)
    (hmem : ∀ a, a ∈ done ↔ Calls cfg d t (InScope rels) a) (hfeas : ∀ a ∈ done, Feasible cfg d t a)
    (hs : Settled (fun (s : Disk) q => s.get q) (target cfg d t) region done d s) :
    Restored cfg d t rels s := by
  have hall : ∀ a, Calls cfg d t (InScope rels) a → Feasible cfg d t a := by
    intro a ha
    exact hfeas a ((hmem a).mpr ha)
  have hm : Midway cfg d t rels done s := ⟨fun a ha => ⟨(hmem a).mp ha, hfeas a ha⟩, hs⟩
  have hact : ∀ q e, InScope rels q → t.at q = some e → ∀ a ∈ entryAction cfg d q e, region a q →
      s.get q = target cfg d t q := by
    intro q e hq hat a ha hreg
    exact settled_of_calls hs hmem (.inl ⟨q, e, hq, hat, ha⟩) hreg
  constructor
  case dir =>
    rintro q u hq ⟨m, hu⟩
    rw [hact q _ hq hu (.ensureDir q) (by simp [entryAction]) List.prefix_rfl,
      target_of_dirAt ⟨m, hu⟩]
  case symlink =>
    intro q y hq hat
    have hway : OpenWay d q := openWay_of_feasible hr hall hq (by simp [hat])
    exact symlink_of_kept hway hat (hm.kept_or q) (hact q _ hq hat)
  case blob =>
    intro q b hq hat hstands
    have hway : OpenWay d q := openWay_of_feasible hr hall hq (by simp [hat])
    exact blob_of_kept hr hway hat hstands (hm.kept_or q) (hact q _ hq hat)
  case stands =>
    rintro q b - hat ⟨hlink, hc⟩
    refine hs.kept q fun a ha hreg => ?_
    obtain ⟨hact, hne⟩ := blobAction_of_region hr hat ((hmem a).mp ha) hreg
    have hmode := hr.links q b hat hlink hc
    rcases mem_blobAction hact with ⟨-, h⟩ | ⟨-, -, h⟩ | ⟨rfl, -⟩
    · rw [hc] at h
      cases h
    · rw [hmode] at h
      cases h
    · exact hne rfl
  case tidy => exact hm.tidy hr
  case stray =>
    intro c u n r hc hu hn hmeta
    have hstray : Stray t (c ++ n :: r) := ⟨c, n, r, u, rfl, hu, hn, hmeta⟩
    by_cases hthere : d.get (c ++ n :: r) = none
    · rcases hm.kept_or_gone hstray with h | h
      · rw [h, hthere]
      · exact h
    · obtain ⟨a, ha, hreg⟩ := exists_removal hr hc hu hn hmeta hthere
      rw [settled_of_calls hs hmem ha hreg, target_of_stray hstray]
  case metadata =>
    intro c u r hc
    exact hs.kept _ fun a ha => not_region_metadata hr ((hmem a).mp ha) hc r
  case outside =>
    intro q hq
    by_cases hhit : ∃ a ∈ done, region a q
    · obtain ⟨a, ha, hreg⟩ := hhit
      exact outside_of_region hr ((hmem a).mp ha) hreg hq (hs.reached a ha q hreg)
    · exact .inl (hs.kept q fun a ha hreg => hhit ⟨a, ha, hreg⟩)

end Left

end Omemfs.Work
