/-
# Omemfs.Sync.Abort — a pull that reports conflicts.

With a conflict left a pull writes the artifacts of every conflict and ends; nothing else in the working
tree may change, and the artifacts have to say of each side what it is.  Where a side of a path is no
regular file this goes wrong in several ways: the walk to the base fails at a file above the path, a
directory on the base side is written out as if it were a file, a symlink on the local side is followed,
and nothing can be written below a file, below a symlink, or over a directory that has an artifact's name.

`conflicting_pull_iff` says that these are all the ways.  The loop over the conflicts is told by `Inv`:
what it has left untouched so far, and that the next conflict finds what the working tree was.
-/
import Omemfs.Sync.PullPlan

namespace Omemfs.Sync

open Omemfs Lib Fsguard Scan

/-! ## What the artifacts have to say -/

/-- The bytes of an entry that is a regular file. -/
def fileContent : Option TreeEntry → Option Content
  | some (.blob b) => some (.bytes b.hash)
  | _ => none

/-- The bytes of a side that is a regular file at the path. -/
def sideContent (base remote : Tree) (fs : WorkDir) (p : Path) : AcceptSide → Option Content
  | .base => fileContent (base.at p)
  | .remote => fileContent (remote.at p)
  | .loc =>
      match fs.get p with
      | some (.leaf (.file c _)) => some c
      | _ => none

/-- A helper for each side that is a regular file, with its bytes, and a sidecar that says which. -/
structure Recorded (content : AcceptSide → Option Content) (p : Path) (fs : WorkDir) : Prop where
  helper : ∀ side, fs.get (artifactPath p side.suffix) =
    (content side).map fun c => .leaf (.file c none)
  sidecar : ∃ m sides, fs.get (artifactPath p conflictMetaSuffix) =
      some (.leaf (.file (.sidecar m) none)) ∧ m.sides = some sides ∧
    ∀ side, sides.has side = (content side).isSome

def IsArtifactOf (ps : List Path) (q : Path) : Prop :=
  ∃ p ∈ ps, ∃ s ∈ conflictArtifactSuffixes, q = artifactPath p s

/-- A conflicting pull as it should be. -/
structure AbortsFaithfully (base remote : Tree) (s : PullState) (ps : List Path) (r : PullResult) :
    Prop where
  error : r.outcome = .error .conflict
  cloneRoot : r.state.cloneRoot = s.cloneRoot
  untouched : ∀ q k, s.fs.get q = some k → ¬ IsArtifactOf ps q → r.state.fs.get q = some k
  recorded : ∀ p ∈ ps, Recorded (sideContent base remote s.fs p) p r.state.fs

/-! ## What has to be asked of a path -/

structure Recordable (base : Tree) (linked : Linked) (fs : WorkDir) (p : Path) : Prop where
  walk : ¬ Tree.BlobAbove base p
  noDir : ∀ t m, base.at p ≠ some (.tree t m)
  noLink : isSymlinkAt fs p = true → linked p = none
  writable : Writable fs p

/-- What the pull takes for the content of each side. -/
def sourcesAt (base remote : Tree) (linked : Linked) (fs : WorkDir) (p : Path) : HelperSources where
  base := (base.at p).bind objectContent
  loc := workingFileSource linked fs p
  remote := fileContent (remote.at p)

/-- A conflict of a compared scope: what the whole trees have at its path. -/
structure AtPath (base remote : Tree) (c : Conflict) : Prop where
  ne_nil : c.path ≠ []
  valid : ∀ n ∈ c.path, ValidName n
  sources : ∀ linked fs, ¬ Tree.BlobAbove base c.path →
    ∃ m, conflictSources linked fs c = .ok (sourcesAt base remote linked fs c.path, m)
  fails : ∀ linked fs, Tree.BlobAbove base c.path → ∃ e, conflictSources linked fs c = .error e

/-- The blob of an entry is the file that the remote has there. -/
theorem entrySource_eq {e : DiffEntry} {o : Option TreeEntry} (h : e.leaf = leafOf o) :
    entrySource e = fileContent o := by
  cases o with
  | none => cases e <;> first | rfl | cases h
  | some t =>
      cases t with
      | blob b =>
          have hsame : ∀ {x : Blob}, some (Leaf.file x.hash x.mode) = some (Leaf.file b.hash b.mode) →
              some (Content.bytes x.hash) = some (Content.bytes b.hash) := fun heq =>
            congrArg (fun y => some (Content.bytes y)) (Leaf.file.inj (Option.some.inj heq)).1
          cases e <;> first | exact hsame h | cases h
      | tree s m => cases e <;> first | rfl | cases h
      | symlink l => cases e <;> first | rfl | cases h

/-- The two walks to the base side. -/
theorem walks_of_clear {part : Option Tree} {key : Path} (hkey : key ≠ [])
    (h : ¬ Tree.BlobAbove (part.getD .nil) key) :
    baseRootSource part key = .ok (((part.getD .nil).at key).bind objectContent) ∧
      ∃ o, navigateEntryOpt part key = .ok o := by
  cases part with
  | none =>
      obtain ⟨n, r, rfl⟩ := List.exists_cons_of_ne_nil hkey
      exact ⟨rfl, none, rfl⟩
  | some t =>
      obtain ⟨o, ho⟩ := (Tree.navigateEntry_eq_ok_iff hkey).mpr h
      refine ⟨?_, o, ho⟩
      have hwalk : t.navigateEntry key = .ok o := ho
      simp only [baseRootSource, Tree.navigate_eq hkey, hwalk, Option.getD_some,
        Tree.at_of_navigateEntry hkey hwalk]
      show Except.ok _ = Except.ok _
      cases o with
      | none => rfl
      | some e => cases e <;> rfl

theorem walk_fails {part : Option Tree} {key : Path} (hkey : key ≠ [])
    (h : Tree.BlobAbove (part.getD .nil) key) : ∃ e, baseRootSource part key = .error e := by
  cases part with
  | none =>
      obtain ⟨a, n, r, b, -, ha⟩ := h
      cases a with
      | nil => cases ha
      | cons m a => cases ha
  | some t =>
      have hno := mt (Tree.navigateEntry_eq_ok_iff hkey).mp (not_not_intro h)
      cases hwalk : t.navigateEntry key with
      | ok o => exact absurd ⟨o, hwalk⟩ hno
      | error e =>
          refine ⟨e, ?_⟩
          simp only [baseRootSource, Tree.navigate_eq hkey, hwalk]
          rfl

/-- **`atPath_of_conflict`** — a scoped pull looks each side up in a part of the whole tree, under a
relative key, and finds what the whole tree has at the path. -/
theorem atPath_of_conflict {env : PullEnv} (henv : env.Lawful) {base remote : Tree}
    (hbase : base.WellNamed) (hremote : remote.WellNamed) {pd : PathDiff}
    (h : Compared env base remote pd) {fs : WorkDir} {c : Conflict} (hc : c ∈ conflictsOf env fs pd) :
    AtPath base remote c := by
  obtain ⟨rfl, n, r, e, hkey, he⟩ := h.conflict henv hc
  obtain ⟨hname, hleaf, hthere⟩ := h.entry he
  have hpath : c.path = c.pd.repoRel (n :: r) := by rw [Conflict.path, hkey]
  have hat := h.clone.at_key n r hname
  have hway := h.clone.way (r := r) hname
  rw [← hpath] at hleaf hthere hat hway
  refine ⟨by simp [hpath, PathDiff.repoRel], ?_, fun linked fs hclear => ?_, fun linked fs habove => ?_⟩
  · rcases hthere with hb | hr
    · exact hbase.valid_at hb
    · exact hremote.valid_at hr
  · obtain ⟨hsrc, o, ho⟩ := walks_of_clear (List.cons_ne_nil n r) (mt hway.mp hclear)
    rw [hat] at hsrc
    refine ⟨buildConflictMeta o (some e), ?_⟩
    rw [conflictSources, hkey, hsrc, ho, he]
    show Except.ok _ = Except.ok _
    rw [sourcesAt, ← entrySource_eq hleaf]
    rfl
  · obtain ⟨e', he'⟩ := walk_fails (List.cons_ne_nil n r) (hway.mpr habove)
    refine ⟨e', ?_⟩
    rw [conflictSources, hkey, he']
    rfl

/-! ## The loop over the conflicts -/

/-- `d` is `fs` with artifacts of some of the paths written and the directories above them created. -/
structure Inv (ps : List Path) (fs d : WorkDir) : Prop where
  kept : ∀ q, ¬ IsArtifactOf ps q → d.get q = fs.get q ∨ fs.get q = none ∧ d.get q = some .dir
  dirs : ∀ q, IsArtifactOf ps q → (d.get q = some .dir ↔ fs.get q = some .dir)

section Loop

variable {ps : List Path} {fs d d' : WorkDir} {p : Path} {linked : Linked}

theorem Inv.refl (ps : List Path) (fs : WorkDir) : Inv ps fs fs :=
  ⟨fun _ _ => .inl rfl, fun _ _ => Iff.rfl⟩

theorem Inv.leaf_iff (h : Inv ps fs d) {q : Path} (hq : ¬ IsArtifactOf ps q) (x : WorkNode) :
    d.get q = some (.leaf x) ↔ fs.get q = some (.leaf x) := by
  rcases h.kept q hq with heq | ⟨hnone, hdir⟩
  · rw [heq]
  · simp [hnone, hdir]

theorem not_artifact_of_valid {q : Path} (hq : ∀ n ∈ q, ValidName n) : ¬ IsArtifactOf ps q := by
  rintro ⟨p, -, s, hs, rfl⟩
  exact not_artifact_prefix hs hq List.prefix_rfl

theorem not_artifact_of_le (hp : ∀ n ∈ p, ValidName n) {a : Path} (ha : a <+: p) :
    ¬ IsArtifactOf ps a :=
  not_artifact_of_valid fun n hn => hp n (ha.subset hn)

theorem Inv.openWay_iff (h : Inv ps fs d) (hp : ∀ n ∈ p, ValidName n) :
    OpenWay d p ↔ OpenWay fs p := by
  apply forall₂_congr
  intro a ha
  apply imp_congr_right
  intro _
  apply forall_congr'
  intro x
  exact not_congr (h.leaf_iff (not_artifact_of_le hp ha) x)

theorem Inv.writable_iff (h : Inv ps fs d) (hp : ∀ n ∈ p, ValidName n) (hmem : p ∈ ps) :
    Writable d p ↔ Writable fs p := by
  apply and_congr (h.openWay_iff hp)
  apply forall₂_congr
  intro s hs
  exact not_congr (h.dirs _ ⟨p, hmem, s, hs, rfl⟩)

theorem Inv.isSymlinkAt_eq (h : Inv ps fs d) {q : Path} (hq : ¬ IsArtifactOf ps q) :
    isSymlinkAt d q = isSymlinkAt fs q := by
  unfold isSymlinkAt
  rcases h.kept q hq with heq | ⟨hnone, hdir⟩
  · rw [heq]
  · rw [hnone, hdir]

/-- The local side is what it was before the first artifact was written. -/
theorem Inv.source_eq (h : Inv ps fs d) (hp : ∀ n ∈ p, ValidName n) :
    workingFileSource linked d p = workingFileSource linked fs p := by
  have hlinks : p.inits.any (isSymlinkAt d) = p.inits.any (isSymlinkAt fs) := by
    rw [Bool.eq_iff_iff, List.any_eq_true, List.any_eq_true]
    apply exists_congr
    intro a
    apply and_congr_right
    intro ha
    rw [h.isSymlinkAt_eq (not_artifact_of_le hp ((List.mem_inits a p).mp ha))]
  unfold workingFileSource
  rw [hlinks]
  split_ifs
  · rfl
  · rcases h.kept p (not_artifact_of_le hp List.prefix_rfl) with heq | ⟨hnone, hdir⟩
    · rw [heq]
    · rw [hnone, hdir]

variable {src : HelperSources} {m : ConflictMeta}

/-- What is there of one conflict. -/
structure ArtifactsAt (p : Path) (src : HelperSources) (m : ConflictMeta) (d : WorkDir) : Prop where
  helper : ∀ side, d.get (artifactPath p side.suffix) =
    (src.get side).map fun c => .leaf (.file c none)
  sidecar : d.get (artifactPath p conflictMetaSuffix) =
    some (.leaf (.file (.sidecar { m with sides := some src.sides }) none))

theorem ArtifactsWritten.there (h : ArtifactsWritten p src m d d') : ArtifactsAt p src m d' :=
  ⟨h.helper, h.sidecar⟩

theorem ArtifactsAt.recorded (h : ArtifactsAt p src m d) : Recorded src.get p d :=
  ⟨h.helper, _, _, h.sidecar, rfl, src.has_sides⟩

/-- The artifacts of a conflict, as the working tree `fs` was. -/
def LeavesArtifacts (linked : Linked) (fs : WorkDir) (c : Conflict) (d : WorkDir) : Prop :=
  ∃ src m, conflictSources linked fs c = .ok (src, m) ∧ ArtifactsAt c.path src m d

theorem conflictSources_congr {c : Conflict}
    (h : workingFileSource linked d c.path = workingFileSource linked fs c.path) :
    conflictSources linked d c = conflictSources linked fs c := by
  rw [conflictSources, conflictSources, h]

/-- An artifact of another path is as it was. -/
theorem ArtifactsWritten.other (h : ArtifactsWritten p src m d d') (hp : p ≠ [])
    (hvalid : ∀ n ∈ p, ValidName n) {q : Path} (hq : q ≠ []) (hne : q ≠ p) {s : String}
    (hs : s ∈ conflictArtifactSuffixes) : d'.get (artifactPath q s) = d.get (artifactPath q s) := by
  apply h.beside
  · intro t ht heq
    exact hne (artifactPath_inj hq hp hs ht heq).1
  · intro hpre
    exact not_artifact_prefix hs hvalid (hpre.trans (List.dropLast_prefix p))

theorem ArtifactsWritten.there_other (h : ArtifactsWritten p src m d d') (hp : p ≠ [])
    (hvalid : ∀ n ∈ p, ValidName n) {q : Path} (hq : q ≠ []) (hne : q ≠ p) {src' : HelperSources}
    {m' : ConflictMeta} (hr : ArtifactsAt q src' m' d) : ArtifactsAt q src' m' d' := by
  refine ⟨fun side => ?_, ?_⟩
  · rw [h.other hp hvalid hq hne (suffix_mem side)]
    exact hr.helper side
  · rw [h.other hp hvalid hq hne metaSuffix_mem]
    exact hr.sidecar

theorem ArtifactsWritten.dir (h : ArtifactsWritten p src m d d') {q : Path}
    (hq : d'.get q = some .dir) : d.get q = some .dir ∨ q <+: p.dropLast := by
  by_cases hpre : q <+: p.dropLast
  · exact .inr hpre
  · left
    by_cases hart : ∃ s ∈ conflictArtifactSuffixes, q = artifactPath p s
    · obtain ⟨s, hs, rfl⟩ := hart
      rcases suffix_cases hs with ⟨side, rfl⟩ | rfl
      · rw [h.helper] at hq
        cases hsrc : src.get side <;> simp [hsrc] at hq
      · rw [h.sidecar] at hq
        cases hq
    · push Not at hart
      rwa [← h.beside q hart hpre]

/-- One conflict after another keeps the invariant. -/
theorem Inv.step (h : Inv ps fs d) (hps : ∀ p ∈ ps, p ≠ [] ∧ ∀ n ∈ p, ValidName n) (hmem : p ∈ ps)
    (hok : Writable d p) (hw : ArtifactsWritten p src m d d') : Inv ps fs d' := by
  obtain ⟨hp, hvalid⟩ := hps p hmem
  constructor
  · intro q hq
    by_cases hpre : q <+: p.dropLast
    · -- a directory on the way to the path
      have hdir := hw.above q hpre
      rcases h.kept q hq with heq | ⟨hnone, -⟩
      · rw [hdir, ← heq]
        cases hk : d.get q with
        | none => exact .inr ⟨rfl, rfl⟩
        | some k =>
            cases k with
            | dir => exact .inl rfl
            | leaf x =>
                have hlt : q ≠ p := by
                  rintro rfl
                  have hlen := hpre.length_le
                  rw [List.length_dropLast] at hlen
                  have hpos := List.length_pos_iff.mpr hp
                  omega
                exact absurd hk (hok.1 q (hpre.trans (List.dropLast_prefix p)) hlt x)
      · exact .inr ⟨hnone, hdir⟩
    · rw [hw.beside q (fun s hs heq => hq ⟨p, hmem, s, hs, heq⟩) hpre]
      exact h.kept q hq
  · rintro q ⟨p', hmem', s, hs, rfl⟩
    by_cases hpp : p' = p
    · subst hpp
      have hfs : fs.get (artifactPath p' s) ≠ some .dir := by
        rw [ne_eq, ← h.dirs _ ⟨p', hmem', s, hs, rfl⟩]
        exact hok.2 s hs
      refine iff_of_false ?_ hfs
      rcases suffix_cases hs with ⟨side, rfl⟩ | rfl
      · rw [hw.helper side]
        cases src.get side with
        | none => exact fun heq => nomatch heq
        | some c => exact fun heq => nomatch heq
      · rw [hw.sidecar]
        exact fun heq => nomatch heq
    · rw [hw.other hp hvalid (hps p' hmem').1 hpp hs]
      exact h.dirs _ ⟨p', hmem', s, hs, rfl⟩

/-- What the loop leaves when it has gone through. -/
structure WroteConflicts (ps : List Path) (linked : Linked) (fs : WorkDir) (cs : List Conflict)
    (d d' : WorkDir) : Prop where
  inv : Inv ps fs d'
  there : ∀ c ∈ cs, ∃ c' ∈ cs, c'.path = c.path ∧ LeavesArtifacts linked fs c' d'
  other : ∀ p ∈ ps, p ∉ cs.map Conflict.path → ∀ src m, ArtifactsAt p src m d → ArtifactsAt p src m d'
  dir : ∀ q, d'.get q = some .dir → d.get q = some .dir ∨ ∃ c ∈ cs, q <+: c.path.dropLast

theorem WroteConflicts.cons {c : Conflict} {cs : List Conflict} {d₁ : WorkDir}
    (hps : ∀ p ∈ ps, p ≠ [] ∧ ∀ n ∈ p, ValidName n) (hmem : c.path ∈ ps)
    (hsrc : conflictSources linked fs c = .ok (src, m)) (hw : ArtifactsWritten c.path src m d d₁)
    (h : WroteConflicts ps linked fs cs d₁ d') : WroteConflicts ps linked fs (c :: cs) d d' where
  inv := h.inv
  there := by
    have hlater : ∀ x ∈ cs, ∃ c' ∈ c :: cs, c'.path = x.path ∧ LeavesArtifacts linked fs c' d' := by
      intro x hx
      obtain ⟨c', hc', hl⟩ := h.there x hx
      exact ⟨c', List.mem_cons_of_mem c hc', hl⟩
    refine List.forall_mem_cons.mpr ⟨?_, hlater⟩
    by_cases hagain : c.path ∈ cs.map Conflict.path
    · obtain ⟨x, hx, heq⟩ := List.mem_map.mp hagain
      exact heq ▸ hlater x hx
    · exact ⟨c, List.mem_cons_self, rfl, src, m, hsrc, h.other _ hmem hagain _ _ hw.there⟩
  other := by
    intro p hp hout src' m' hr
    rw [List.map_cons, List.mem_cons, not_or] at hout
    exact h.other p hp hout.2 _ _
      (hw.there_other (hps _ hmem).1 (hps _ hmem).2 (hps p hp).1 hout.1 hr)
  dir := by
    intro q hq
    rcases h.dir q hq with hd₁ | ⟨x, hx, hpre⟩
    · exact (hw.dir hd₁).imp_right fun hpre => ⟨c, List.mem_cons_self, hpre⟩
    · exact .inr ⟨x, List.mem_cons_of_mem c hx, hpre⟩

/-- **`writeConflicts_spec`** — the loop goes through when every base can be looked up and every
artifact be written. -/
theorem writeConflicts_spec (linked : Linked) {base remote : Tree}
    (hps : ∀ p ∈ ps, p ≠ [] ∧ ∀ n ∈ p, ValidName n)
    {cs : List Conflict} (hcs : ∀ c ∈ cs, AtPath base remote c ∧ c.path ∈ ps) (h : Inv ps fs d) :
    ((∃ d', writeConflicts linked cs d = (.ok (), d')) ↔
      ∀ c ∈ cs, ¬ Tree.BlobAbove base c.path ∧ Writable fs c.path) ∧
    ∀ d', writeConflicts linked cs d = (.ok (), d') → WroteConflicts ps linked fs cs d d' := by
  induction cs generalizing d with
  | nil =>
      refine ⟨iff_of_true ⟨d, rfl⟩ nofun, fun d' hd' => ?_⟩
      cases hd'
      exact ⟨h, nofun, fun p _ _ _ _ hr => hr, fun q hq => .inl hq⟩
  | cons c cs ih =>
      obtain ⟨hc, hcs⟩ := List.forall_mem_cons.mp hcs
      obtain ⟨hat, hmem⟩ := hc
      rw [List.forall_mem_cons]
      by_cases habove : Tree.BlobAbove base c.path
      · obtain ⟨e, he⟩ := hat.fails linked d habove
        have hrun : writeConflicts linked (c :: cs) d = (.error (.object e), d) := by
          rw [writeConflicts, he]
        refine ⟨iff_of_false (fun ⟨d', hd'⟩ => ?_) fun hall => hall.1.1 habove, fun d' hd' => ?_⟩
        · rw [hrun] at hd'
          cases hd'
        · rw [hrun] at hd'
          cases hd'
      · obtain ⟨m, hsrc⟩ := hat.sources linked fs habove
        rw [← conflictSources_congr (h.source_eq hat.valid)] at hsrc
        have heffect := writeConflictArtifacts_effect d hat.ne_nil
          (sourcesAt base remote linked fs c.path) m
        rw [h.writable_iff hat.valid hmem] at heffect
        by_cases hw : Writable fs c.path
        · obtain ⟨_, d₁, hrun₁, hwritten⟩ := heffect.succeeds hw
          have hrun : writeConflicts linked (c :: cs) d = writeConflicts linked cs d₁ := by
            rw [writeConflicts, hsrc]
            simp only [hrun₁]
          have hinv := h.step hps hmem ((h.writable_iff hat.valid hmem).mpr hw) hwritten
          obtain ⟨hiff, hpost⟩ := ih hcs hinv
          rw [hrun, hiff]
          refine ⟨(and_iff_right ⟨habove, hw⟩).symm, fun d' hd' => ?_⟩
          rw [conflictSources_congr (h.source_eq hat.valid)] at hsrc
          exact (hpost d' hd').cons hps hmem hsrc hwritten
        · obtain ⟨e, d₁, hrun₁⟩ := heffect.fails hw
          have hrun : writeConflicts linked (c :: cs) d = (.error (.guard e), d₁) := by
            rw [writeConflicts, hsrc]
            simp only [hrun₁]
          refine ⟨iff_of_false (fun ⟨d', hd'⟩ => ?_) fun hall => hw hall.1.2, fun d' hd' => ?_⟩
          · rw [hrun] at hd'
            cases hd'
          · rw [hrun] at hd'
            cases hd'

/-- Each path has the artifacts of what the pull takes for its sides. -/
theorem WroteConflicts.recorded {base remote : Tree} {cs : List Conflict}
    (h : WroteConflicts ps linked fs cs d d')
    (hcs : ∀ c ∈ cs, AtPath base remote c ∧ ¬ Tree.BlobAbove base c.path) {c : Conflict}
    (hc : c ∈ cs) : Recorded (sourcesAt base remote linked fs c.path).get c.path d' := by
  obtain ⟨c', hc', heq, src, m, hsrc, hthere⟩ := h.there c hc
  obtain ⟨hat, hclear⟩ := hcs c' hc'
  obtain ⟨m', hsrc'⟩ := hat.sources linked fs hclear
  rw [hsrc] at hsrc'
  obtain ⟨rfl, rfl⟩ := Prod.mk.inj (Except.ok.inj hsrc')
  rw [← heq]
  exact hthere.recorded

theorem ne_conflict_of_error {cs : List Conflict} {e : PullError}
    (h : writeConflicts linked cs d = (.error e, d')) : e ≠ .conflict := by
  induction cs generalizing d with
  | nil => cases h
  | cons c cs ih =>
      rw [writeConflicts] at h
      split at h
      · cases h
        exact nofun
      · split at h
        · cases h
          exact nofun
        · exact ih h

end Loop

/-! ## The sides that are no regular files -/

section Sides

variable {base remote : Tree} {linked : Linked} {fs : WorkDir} {p : Path}

theorem base_source_iff : (base.at p).bind objectContent = fileContent (base.at p) ↔
    ∀ t m, base.at p ≠ some (.tree t m) := by
  cases base.at p with
  | none => simp [fileContent]
  | some e => cases e <;> simp [fileContent, objectContent]

/-- Where the way is open only the path itself can be a symlink. -/
theorem links_of_openWay (hway : OpenWay fs p) : p.inits.any (isSymlinkAt fs) = isSymlinkAt fs p := by
  rw [Bool.eq_iff_iff, List.any_eq_true]
  constructor
  · rintro ⟨a, ha, hlink⟩
    by_cases hap : a = p
    · rwa [hap] at hlink
    · unfold isSymlinkAt at hlink
      split at hlink
      · rename_i target hget
        exact absurd hget (hway a ((List.mem_inits a p).mp ha) hap _)
      · cases hlink
  · exact fun h => ⟨p, (List.mem_inits p p).mpr List.prefix_rfl, h⟩

theorem local_source_iff (base remote : Tree) (hway : OpenWay fs p) :
    workingFileSource linked fs p = sideContent base remote fs p .loc ↔
      (isSymlinkAt fs p = true → linked p = none) := by
  unfold workingFileSource sideContent
  rw [links_of_openWay hway]
  cases hlink : isSymlinkAt fs p with
  | false => exact iff_of_true rfl fun h => nomatch h
  | true =>
      unfold isSymlinkAt at hlink
      split at hlink
      · rename_i target hget
        simp [hget]
      · cases hlink

theorem sources_iff (base remote : Tree) (hway : OpenWay fs p) :
    (∀ side, (sourcesAt base remote linked fs p).get side = sideContent base remote fs p side) ↔
      (∀ t m, base.at p ≠ some (.tree t m)) ∧ (isSymlinkAt fs p = true → linked p = none) := by
  rw [← base_source_iff, ← local_source_iff base remote hway]
  constructor
  · exact fun h => ⟨h .base, h .loc⟩
  · rintro ⟨hb, hl⟩ side
    cases side with
    | base => exact hb
    | loc => exact hl
    | remote => rfl

theorem recorded_content {f g : AcceptSide → Option Content} {d : WorkDir} (hf : Recorded f p d)
    (hg : Recorded g p d) : f = g := by
  funext side
  have h := (hf.helper side).symm.trans (hg.helper side)
  cases hfs : f side <;> cases hgs : g side <;> simp_all

end Sides

/-! ## The whole pull -/

/-- The conflicts of the scopes that can be compared. -/
def reportedConflicts (env : PullEnv) (remoteRoot : Tree) (target : PullTarget) (s : PullState) :
    List Conflict :=
  ((compareScopes env s.cloneRoot remoteRoot target).filterMap fun scope =>
    scope.toOption.join).flatMap (conflictsOf env s.fs)

/-- No walk to a scope ends at a file above it, and each scope the remote has changed can be scanned. -/
def Comparable (env : PullEnv) (cloneRoot : Option Tree) (remoteRoot : Tree) : PullTarget → Prop
  | .full => (diffTrees cloneRoot (some remoteRoot) env.stubThreshold).size ≠ 0 →
      ∃ w, env.scan false [] = .ok w
  | .paths rels => ∀ rel ∈ rels,
      ¬ Tree.BlobAbove remoteRoot rel ∧ ¬ Tree.BlobAbove (cloneRoot.getD .nil) rel ∧
        ((remoteChange env.stubThreshold (cloneRoot.getD .nil) remoteRoot rel).size ≠ 0 →
          ∃ w, env.scan (leafScope (cloneRoot.getD .nil) remoteRoot rel) rel = .ok w)

theorem comparable_iff {env : PullEnv} {cloneRoot : Option Tree} {remoteRoot : Tree}
    {target : PullTarget} (htarget : ∀ rels, target = .paths rels → [] ∉ rels) :
    (∀ scope ∈ compareScopes env cloneRoot remoteRoot target, ∃ o, scope = .ok o) ↔
      Comparable env cloneRoot remoteRoot target := by
  cases target with
  | full =>
      show (∀ scope ∈ [compareAll env cloneRoot remoteRoot], _) ↔ _
      rw [List.forall_mem_singleton]
      simp only [compareAll, Comparable]
      split_ifs with hsize
      · exact iff_of_true ⟨none, rfl⟩ fun h => absurd hsize h
      · rw [imp_iff_right hsize]
        constructor
        · rintro ⟨o, ho⟩
          obtain ⟨w, hw, -⟩ := bind_eq_ok.mp ho
          exact ⟨w, hw⟩
        · rintro ⟨w, hw⟩
          rw [hw]
          exact ⟨_, rfl⟩
  | paths rels =>
      show (∀ scope ∈ rels.map (comparePath env cloneRoot remoteRoot), _) ↔ _
      rw [List.forall_mem_map]
      apply forall₂_congr
      intro rel hrel
      apply comparePath_ok_iff
      rintro rfl
      exact htarget rels rfl hrel

theorem collectScopes_ok_iff {scopes : List (Except Error (Option PathDiff))} {pds : List PathDiff} :
    collectScopes scopes = .ok pds ↔ (∀ scope ∈ scopes, ∃ o, scope = .ok o) ∧
      scopes.filterMap (fun scope => scope.toOption.join) = pds := by
  induction scopes generalizing pds with
  | nil => simp [collectScopes]
  | cons scope scopes ih =>
      rw [List.forall_mem_cons, collectScopes, bind_eq_ok]
      constructor
      · rintro ⟨o, rfl, hrest⟩
        obtain ⟨pds', hpds', heq⟩ := bind_eq_ok.mp hrest
        obtain ⟨hall, hlist⟩ := ih.mp hpds'
        cases heq
        refine ⟨⟨⟨o, rfl⟩, hall⟩, ?_⟩
        cases o <;> simpa [Except.toOption] using hlist
      · rintro ⟨⟨⟨o, rfl⟩, hall⟩, rfl⟩
        refine ⟨o, rfl, ?_⟩
        rw [ih.mpr ⟨hall, rfl⟩]
        cases o <;> rfl

theorem compared_of_scope {env : PullEnv} (henv : env.Lawful) {cloneRoot : Option Tree}
    {remoteRoot : Tree} (hb : (cloneRoot.getD .nil).Wf) (hr : remoteRoot.Wf) {target : PullTarget}
    (htarget : ∀ rels, target = .paths rels → [] ∉ rels) {pd : PathDiff}
    (h : .ok (some pd) ∈ compareScopes env cloneRoot remoteRoot target) :
    Compared env (cloneRoot.getD .nil) remoteRoot pd := by
  cases target with
  | full => exact compared_of_all henv hb hr (List.mem_singleton.mp h).symm
  | paths rels =>
      obtain ⟨rel, hrel, hpd⟩ := List.mem_map.mp h
      apply compared_of_path henv hb hr _ hpd
      rintro rfl
      exact htarget rels rfl hrel

/-- What a pull with a conflict left comes to. -/
theorem pull_of_conflict {env : PullEnv} {sorted : List Conflict → List Conflict}
    (hsorted : ∀ l, (sorted l).Perm l) (go : List PathDiff → PullResult) {remoteRoot : Tree}
    {target : PullTarget} {s : PullState}
    (hconf : reportedConflicts env remoteRoot target s ≠ []) :
    (∀ scope ∈ compareScopes env s.cloneRoot remoteRoot target, ∃ o, scope = .ok o) ∧
      pull env sorted go remoteRoot target s =
        (match writeConflicts env.linked (sorted (reportedConflicts env remoteRoot target s)) s.fs with
          | (.ok _, fs) => ⟨.error .conflict, { s with fs := fs }⟩
          | (.error e, fs) => ⟨.error e, { s with fs := fs }⟩) ∨
    (¬ ∀ scope ∈ compareScopes env s.cloneRoot remoteRoot target, ∃ o, scope = .ok o) ∧
      ∃ e, (pull env sorted go remoteRoot target s).outcome = .error (.object e) := by
  cases hscopes : collectScopes (compareScopes env s.cloneRoot remoteRoot target) with
  | error e =>
      refine .inr ⟨fun hall => ?_, e, by simp only [pull, hscopes]⟩
      rw [collectScopes_ok_iff.mpr ⟨hall, rfl⟩] at hscopes
      cases hscopes
  | ok pds =>
      obtain ⟨hall, hpds⟩ := collectScopes_ok_iff.mp hscopes
      have hreported : reportedConflicts env remoteRoot target s =
          pds.flatMap (conflictsOf env s.fs) := by
        rw [reportedConflicts, hpds]
      refine .inl ⟨hall, ?_⟩
      rw [hreported] at hconf ⊢
      have hne : sorted (pds.flatMap (conflictsOf env s.fs)) ≠ [] := fun hnil =>
        hconf (hnil ▸ hsorted _).symm.eq_nil
      obtain ⟨c, cs, hcs⟩ := List.exists_cons_of_ne_nil hne
      cases pds with
      | nil => exact absurd rfl hconf
      | cons pd pds =>
          rw [hcs]
          rcases hw : writeConflicts env.linked (c :: cs) s.fs with ⟨_ | _, fs⟩
          all_goals simp only [pull, hscopes, hcs, hw]

/-- **`conflicting_pull_iff`** — a pull that finds a conflict aborts as it should exactly when every
scope can be compared and every path in conflict can be recorded. -/
theorem conflicting_pull_iff {env : PullEnv} (henv : env.Lawful)
    {sorted : List Conflict → List Conflict} (hsorted : ∀ l, (sorted l).Perm l)
    (go : List PathDiff → PullResult) {remoteRoot : Tree} {target : PullTarget} {s : PullState}
    (hbase : (s.cloneRoot.getD .nil).Wf ∧ (s.cloneRoot.getD .nil).WellNamed)
    (hremote : remoteRoot.Wf ∧ remoteRoot.WellNamed)
    (htarget : ∀ rels, target = .paths rels → [] ∉ rels)
    (hconf : reportedConflicts env remoteRoot target s ≠ []) :
    AbortsFaithfully (s.cloneRoot.getD .nil) remoteRoot s
        ((reportedConflicts env remoteRoot target s).map Conflict.path)
        (pull env sorted go remoteRoot target s) ↔
      Comparable env s.cloneRoot remoteRoot target ∧
        ∀ c ∈ reportedConflicts env remoteRoot target s,
          Recordable (s.cloneRoot.getD .nil) env.linked s.fs c.path := by
  rw [← comparable_iff htarget]
  obtain ⟨cs, hcs⟩ : ∃ cs, cs = reportedConflicts env remoteRoot target s := ⟨_, rfl⟩
  have hat : ∀ c ∈ cs, AtPath (s.cloneRoot.getD .nil) remoteRoot c := by
    intro c hc
    rw [hcs, reportedConflicts, List.mem_flatMap] at hc
    obtain ⟨pd, hpd, hc⟩ := hc
    obtain ⟨scope, hscope, hjoin⟩ := List.mem_filterMap.mp hpd
    have hok : scope = .ok (some pd) := by
      rw [Option.join_eq_some_iff, toOption_eq_some] at hjoin
      exact hjoin
    have hcmp := compared_of_scope henv hbase.1 hremote.1 htarget (hok ▸ hscope)
    exact atPath_of_conflict henv hbase.2 hremote.2 hcmp hc
  have hps : ∀ p ∈ cs.map Conflict.path, p ≠ [] ∧ ∀ n ∈ p, ValidName n := by
    intro p hp
    obtain ⟨c, hc, rfl⟩ := List.mem_map.mp hp
    exact ⟨(hat c hc).ne_nil, (hat c hc).valid⟩
  have hmem : ∀ c, c ∈ sorted cs ↔ c ∈ cs := fun c => (hsorted cs).mem_iff
  have hloop : ∀ c ∈ sorted cs, AtPath (s.cloneRoot.getD .nil) remoteRoot c ∧
      c.path ∈ cs.map Conflict.path := fun c hc =>
    ⟨hat c ((hmem c).mp hc), List.mem_map.mpr ⟨c, (hmem c).mp hc, rfl⟩⟩
  obtain ⟨hiff, hpost⟩ := writeConflicts_spec env.linked hps hloop (Inv.refl _ s.fs)
  have hpull := pull_of_conflict hsorted go hconf
  rw [← hcs] at hconf hpull ⊢
  constructor
  · intro h
    rcases hpull with ⟨hall, hrun⟩ | ⟨-, e, he⟩
    · refine ⟨hall, fun c hc => ?_⟩
      rw [hrun] at h
      cases hwrite : writeConflicts env.linked (sorted cs) s.fs with
      | mk res fs' =>
          rw [hwrite] at h
          cases res with
          | error e =>
              have herr := h.error
              exact absurd (Except.error.inj herr) (ne_conflict_of_error hwrite)
          | ok u =>
              have hok := hiff.mp ⟨fs', hwrite⟩
              obtain ⟨hwalk, hwritable⟩ := hok c ((hmem c).mpr hc)
              have hrec := (hpost fs' hwrite).recorded
                (fun x hx => ⟨(hloop x hx).1, (hok x hx).1⟩) ((hmem c).mpr hc)
              have hsame := recorded_content hrec
                (h.recorded c.path (List.mem_map.mpr ⟨c, hc, rfl⟩))
              obtain ⟨hnoDir, hnoLink⟩ := (sources_iff _ _ hwritable.1).mp (congrFun hsame)
              exact ⟨hwalk, hnoDir, hnoLink, hwritable⟩
    · have herr := h.error
      rw [he] at herr
      cases herr
  · rintro ⟨hall, hrecordable⟩
    rcases hpull with ⟨-, hrun⟩ | ⟨hno, -⟩
    · obtain ⟨fs', hwrite⟩ := hiff.mpr fun c hc =>
        ⟨(hrecordable c ((hmem c).mp hc)).walk, (hrecordable c ((hmem c).mp hc)).writable⟩
      have hwrote := hpost fs' hwrite
      rw [hrun, hwrite]
      refine ⟨rfl, rfl, fun q k hk hq => ?_, fun p hp => ?_⟩
      · rcases hwrote.inv.kept q hq with heq | ⟨hnone, -⟩
        · exact heq.trans hk
        · rw [hnone] at hk
          cases hk
      · obtain ⟨c, hc, rfl⟩ := List.mem_map.mp hp
        have hr := hrecordable c hc
        have hsame := (sources_iff (s.cloneRoot.getD .nil) remoteRoot hr.writable.1).mpr
          ⟨hr.noDir, hr.noLink⟩
        exact funext hsame ▸ hwrote.recorded
          (fun x hx => ⟨(hloop x hx).1, (hrecordable x ((hmem x).mp hx)).walk⟩) ((hmem c).mpr hc)
    · exact absurd hall hno

/-- A pull that scans `working`, merges no lines, and finds `opened` behind every symlink. -/
def plainEnv (working : Tree) (opened : Option Content) : PullEnv where
  stubThreshold := 0
  scan _ _ := .ok (some working)
  iter m := m.pairs
  isLineMerge _ := false
  readBytes _ := none
  diffOps _ _ := []
  linked _ := opened

/-- The remote has a new file `f`. -/
def remoteFile : Tree := .blob "f" ⟨1, none, 3, none⟩ .nil

/-- Both sides have a new file `f`. -/
theorem conflicting_pull_newFiles :
    AbortsFaithfully .nil remoteFile ⟨.leaf "f" (.file (.bytes 2) none) .nil, none⟩ [["f"]]
      (pull (plainEnv (.blob "f" ⟨2, none, 3, none⟩ .nil) none) id (fun _ => ⟨.ok (), .nil, none⟩)
        remoteFile .full ⟨.leaf "f" (.file (.bytes 2) none) .nil, none⟩) := by
  have henv : (plainEnv (.blob "f" ⟨2, none, 3, none⟩ .nil) none).Lawful := by
    refine ⟨fun _ _ w hw => ?_, fun m => .refl _⟩
    cases hw
    exact ⟨nofun, .inl rfl, trivial⟩
  have hremote : remoteFile.Wf ∧ remoteFile.WellNamed :=
    ⟨⟨nofun, .inl rfl, trivial⟩, nofun, by decide, trivial⟩
  have hiff := conflicting_pull_iff henv (fun l => List.Perm.refl (id l))
    (fun _ => ⟨.ok (), .nil, none⟩)
    (s := ⟨.leaf "f" (.file (.bytes 2) none) .nil, none⟩) ⟨trivial, trivial⟩ hremote
    (fun rels (h : PullTarget.full = .paths rels) => nomatch h) nofun
  refine hiff.mpr ⟨fun _ => ⟨_, rfl⟩, fun c hc => ?_⟩
  have hpath : c.path ∈ [["f"]] := List.mem_map.mpr ⟨c, hc, rfl⟩
  rw [List.mem_singleton.mp hpath]
  refine ⟨Tree.not_blobAbove_singleton, nofun, fun _ => rfl, fun a ha hne x => ?_, by decide⟩
  cases a with
  | nil => exact nofun
  | cons n a =>
      obtain ⟨rfl, hrest⟩ := List.cons_prefix_cons.mp ha
      rw [List.prefix_nil.mp hrest] at hne
      exact absurd rfl hne

/-- The working tree has a symlink `f`, which leads to a file. -/
def linkEnv : PullEnv := plainEnv (.symlink "f" ⟨"g", none⟩ .nil) (some (.bytes 3))

def linkState : PullState := ⟨.leaf "f" (.symlink "g") .nil, none⟩

/-- **`symlink_followed`** — the remote has a new file `f`, and the working tree a symlink `f`: the pull
writes a helper for the local side, with the bytes of the file that the symlink leads to. -/
theorem symlink_followed :
    (reportedConflicts linkEnv remoteFile .full linkState).map Conflict.path = [["f"]] ∧
      ¬ AbortsFaithfully .nil remoteFile linkState [["f"]]
        (pull linkEnv id (fun _ => ⟨.ok (), .nil, none⟩) remoteFile .full linkState) := by
  refine ⟨rfl, fun h => ?_⟩
  have hloc := (h.recorded ["f"] (List.mem_singleton_self _)).helper .loc
  exact absurd hloc (by decide)

end Omemfs.Sync
