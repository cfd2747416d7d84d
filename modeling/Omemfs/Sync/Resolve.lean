/-
# Omemfs.Sync.Resolve — what resolving the conflicts of a pull comes to.

A full pull has reported conflicts and written their artifacts; then one side is accepted for all of their
paths.  `clone_root` should come to agree with the remote there, so that the conflicts do not come back, and
the working tree should hold the side, whatever kind of entry that is.

None of the paths lies above another (`conflicts_unnested`), so each can be looked at alone, and
`accept_resolves_iff` says when it goes well: a directory at the path is searched and not resolved, a
conflict without a helper is not found, a directory of the remote is not recorded, a symlink on the local or
base side is taken for a side without content, and what the base has above or below the path is lost.
-/
import Omemfs.Sync.Accept

namespace Omemfs.Sync

open Omemfs Lib Fsguard Scan

/-! ## What is asked for -/

def entryNode : Option TreeEntry → Option (Kind WorkNode)
  | none => none
  | some (.blob b) => some (.leaf (.file (.bytes b.hash) b.mode))
  | some (.symlink l) => some (.leaf (.symlink l.target))
  | some (.tree _ _) => some .dir

/-- What a side has at a path. -/
def sideNode (base remote : Tree) (fs : WorkDir) (p : Path) : AcceptSide → Option (Kind WorkNode)
  | .base => entryNode (base.at p)
  | .remote => entryNode (remote.at p)
  | .loc => fs.get p

/-- All conflicts of `ps` resolved for a side, where `s` was the state before the pull. -/
structure ResolvedBy (side : AcceptSide) (remote : Tree) (s : PullState) (ps : List Path)
    (r : AcceptResult) : Prop where
  accepted : ∃ l, r.outcome = .ok l ∧ ∀ p, p ∈ l ↔ p ∈ ps
  advanced : ∀ p ∈ ps, (r.state.cloneRoot.getD .nil).at p = remote.at p
  kept : ∀ q, q ∉ ps →
    isLeaf ((s.cloneRoot.getD .nil).at q) || isLeaf ((r.state.cloneRoot.getD .nil).at q) →
    (r.state.cloneRoot.getD .nil).at q = (s.cloneRoot.getD .nil).at q
  taken : ∀ p ∈ ps, r.state.fs.get p = sideNode (s.cloneRoot.getD .nil) remote s.fs p side
  untouched : ∀ q, q ∉ ps → ¬ IsArtifactOf ps q → ∀ x,
    r.state.fs.get q = some (.leaf x) ↔ s.fs.get q = some (.leaf x)
  stays : ∀ env : PullEnv, env.Lawful →
    ∀ c ∈ reportedConflicts env remote .full r.state, c.path ∉ ps

/-- The side is a file or nothing; of the remote any file or symlink will do. -/
def SideFits (base : Tree) (fs : WorkDir) (p : Path) : AcceptSide → Prop
  | .base => ∀ e, base.at p = some e → ∃ b, e = .blob b
  | .remote => True
  | .loc => isSymlinkAt fs p = false

structure Resolvable (side : AcceptSide) (base remote : Tree) (linked : Linked) (fs : WorkDir) (p : Path) :
    Prop where
  notDir : fs.get p ≠ some .dir
  helper : ∃ side', ((sourcesAt base remote linked fs p).get side').isSome
  clear : ∀ q, q ≠ p → q <+: p ∨ p <+: q → isLeaf (base.at q) = false
  remoteLeaf : ∀ t m, remote.at p ≠ some (.tree t m)
  fits : SideFits base fs p side

/-! ## No conflict lies above another -/

section Diffs

variable {thr : Nat} {g : Bool} {b t : Option TreeEntry} {e : DiffEntry}

theorem nodeDiff_self (thr : Nat) (g : Bool) (o : Option TreeEntry) : nodeDiff thr g o o = none := by
  cases o with
  | none => rfl
  | some e => cases e <;> simp [nodeDiff]

theorem nodeDiff_gone (h : nodeDiff thr g b none = some e) : e = .deleted ∧ isLeaf b = true := by
  cases b with
  | none => cases h
  | some x =>
      cases x with
      | tree s m => cases h
      | blob x =>
          cases h
          exact ⟨rfl, rfl⟩
      | symlink x =>
          cases h
          exact ⟨rfl, rfl⟩

theorem nodeDiff_tree {s : Tree} {m : TreeMeta} (h : nodeDiff thr g b (some (.tree s m)) = some e) :
    (∀ s' m', b ≠ some (.tree s' m')) ∧
      (e = .addedTree s m ∨ e = .addedEmptyDir ∧ s = .nil ∨ e = .deleted ∧ isLeaf b = true) := by
  have hb : ∀ s' m', b ≠ some (.tree s' m') := by
    rintro s' m' rfl
    cases h
  refine ⟨hb, ?_⟩
  have hnode : nodeDiff thr g b (some (.tree s m)) =
      if shouldStub thr g m then some (.addedTree s m)
      else if s = .nil then some .addedEmptyDir
      else b.map fun _ => .deleted := by
    cases b with
    | none => rfl
    | some x =>
        cases x with
        | tree s' m' => exact absurd rfl (hb s' m')
        | blob x => rfl
        | symlink x => rfl
  rw [hnode] at h
  split_ifs at h with hstub hnil
  · exact .inl (Option.some.inj h).symm
  · exact .inr (.inl ⟨(Option.some.inj h).symm, hnil⟩)
  · obtain ⟨x, rfl, rfl⟩ := Option.map_eq_some_iff.mp h
    refine .inr (.inr ⟨rfl, ?_⟩)
    cases x with
    | tree s' m' => exact absurd rfl (hb s' m')
    | blob x => rfl
    | symlink x => rfl

/-- A file or symlink that both sides have or lack is no deletion. -/
theorem leaf_of_deleted (h : nodeDiff thr g b t = some .deleted) :
    isLeaf b = true ∧ isLeaf t = false := by
  cases t with
  | none => exact ⟨(nodeDiff_gone h).2, rfl⟩
  | some x =>
      have hleaf := leaf_of_nodeDiff h
      cases x with
      | blob x => cases hleaf
      | symlink x => cases hleaf
      | tree s m =>
          rcases (nodeDiff_tree h).2 with heq | ⟨heq, -⟩ | ⟨-, hb⟩
          · cases heq
          · cases heq
          · exact ⟨hb, rfl⟩

end Diffs

/-- Below a path that is no tree there is nothing. -/
theorem at_below_of_not_tree {t : Tree} {p : Path} (h : ∀ s m, t.at p ≠ some (.tree s m)) (n : String)
    (r : Path) : t.at (p ++ n :: r) = none := by
  by_contra hne
  obtain ⟨s, m, hs⟩ := Tree.isTree_of_at_append (by simp) hne
  exact h s m hs

section Unnested

variable {base remote working : Option Tree} {thr : Nat} {p : Path} {e : DiffEntry}

theorem node_of_get (hb : (base.getD .nil).Wf) (hr : (remote.getD .nil).Wf)
    (h : (diffTrees base remote thr).get p = some e) :
    ∃ g, nodeDiff thr g ((base.getD .nil).at p) ((remote.getD .nil).at p) = some e := by
  obtain ⟨-, -, -, -, -, -, -, hnone⟩ | ⟨g, hg⟩ := get_remoteDiff hb hr thr p
  · rw [hnone] at h
    cases h
  · exact ⟨g, hg.symm.trans h⟩

/-- What the working tree has to do with a conflict: it has something there, or deleted what was there. -/
theorem working_of_conflict (hb : (base.getD .nil).Wf) (hr : (remote.getD .nil).Wf)
    (hw : (working.getD .nil).Wf) (he : (diffTrees base remote thr).get p = some e)
    (hc : isConflict (diffTrees base working 0) p e = true) :
    (working.getD .nil).at p ≠ none ∨ isLeaf ((base.getD .nil).at p) = true ∧ e ≠ .deleted := by
  by_contra hno
  obtain ⟨hgone, hkept⟩ := not_or.mp hno
  rw [not_not] at hgone
  rw [isConflict] at hc
  cases hl : (diffTrees base working 0).get p with
  | some l =>
      rw [hl] at hc
      rw [get_diffTrees_zero hb hw, hgone] at hl
      obtain ⟨rfl, hleaf⟩ := nodeDiff_gone hl
      apply hkept
      refine ⟨hleaf, ?_⟩
      rintro rfl
      cases hc
  | none =>
      rw [hl] at hc
      -- a new tree, and a change of the working tree below it
      obtain ⟨htree, hany⟩ := Bool.and_eq_true_iff.mp hc
      obtain ⟨s, m, rfl⟩ : ∃ s m, e = .addedTree s m := by
        cases e with
        | addedTree s m => exact ⟨s, m, rfl⟩
        | _ => cases htree
      obtain ⟨x, hx, hbelow⟩ := List.any_eq_true.mp hany
      obtain ⟨n, r, hxp, -⟩ := isLocalChangeUnderAddedTree_iff.mp hbelow
      have hget : (diffTrees base working 0).get (p ++ n :: r) = some x.2 := by
        rw [← hxp]
        exact KeyMap.get_eq_some_iff_mem.mpr hx
      have hnone : (working.getD .nil).at (p ++ n :: r) = none :=
        at_below_of_not_tree (by simp [hgone]) n r
      rw [get_diffTrees_zero hb hw, base_below_addedTree hb hr he, hnone] at hget
      cases hget

/-- **`conflicts_unnested`** — of two conflicts none lies above the other. -/
theorem conflicts_unnested (hb : (base.getD .nil).Wf) (hr : (remote.getD .nil).Wf)
    (hw : (working.getD .nil).Wf) {n : String} {r : Path} {e' : DiffEntry}
    (he : (diffTrees base remote thr).get p = some e)
    (hc : isConflict (diffTrees base working 0) p e = true)
    (he' : (diffTrees base remote thr).get (p ++ n :: r) = some e')
    (hc' : isConflict (diffTrees base working 0) (p ++ n :: r) e' = true) : False := by
  obtain ⟨g, hnode⟩ := node_of_get hb hr he
  obtain ⟨g', hnode'⟩ := node_of_get hb hr he'
  by_cases hbtree : ∃ s m, (base.getD .nil).at p = some (.tree s m)
  · obtain ⟨s, m, hs⟩ := hbtree
    -- the remote has a file or symlink in the directory's place
    have hrnot : ∀ s' m', (remote.getD .nil).at p ≠ some (.tree s' m') := by
      intro s' m' hs'
      rw [hs, hs'] at hnode
      cases hnode
    rw [at_below_of_not_tree hrnot] at hnode'
    obtain ⟨rfl, hleaf⟩ := nodeDiff_gone hnode'
    rcases working_of_conflict hb hr hw he' hc' with hthere | ⟨-, hne⟩
    · obtain ⟨s', m', hs'⟩ := Tree.isTree_of_at_append (by simp) hthere
      have hlocal : (diffTrees base working 0).get p = none := by
        rw [get_diffTrees_zero hb hw, hs, hs']
        rfl
      rw [isConflict, hlocal] at hc
      cases e with
      | addedTree s₁ m₁ => exact hrnot s₁ m₁ (at_addedTree hb hr he).1
      | _ => cases (Bool.and_eq_true_iff.mp hc).1
    · exact hne rfl
  · push Not at hbtree
    -- what the remote has below it is new
    have hbnone := at_below_of_not_tree hbtree n r
    rw [hbnone] at hnode'
    have hrthere : (remote.getD .nil).at (p ++ n :: r) ≠ none := by
      intro hnone
      rw [hnone] at hnode'
      cases hnode'
    obtain ⟨s, m, hs⟩ := Tree.isTree_of_at_append (by simp) hrthere
    rw [hs] at hnode
    rcases (nodeDiff_tree hnode).2 with rfl | ⟨-, rfl⟩ | ⟨rfl, hleaf⟩
    · rw [get_below_addedTree hb hr he n r] at he'
      cases he'
    · rw [Tree.at_append, hs] at hrthere
      exact hrthere rfl
    · rcases working_of_conflict hb hr hw he' hc' with hthere | ⟨hleaf', -⟩
      · obtain ⟨s', m', hs'⟩ := Tree.isTree_of_at_append (by simp) hthere
        have hne : s' ≠ .nil := by
          rintro rfl
          rw [Tree.at_append, hs'] at hthere
          exact hthere rfl
        have hlocal : (diffTrees base working 0).get p = some .deleted := by
          rw [get_diffTrees_zero hb hw, hs']
          cases hbp : (base.getD .nil).at p with
          | none =>
              rw [hbp] at hleaf
              cases hleaf
          | some x =>
              cases x with
              | tree s m => exact absurd hbp (hbtree s m)
              | blob x => simp [nodeDiff, hne]
              | symlink x => simp [nodeDiff, hne]
        rw [isConflict, hlocal] at hc
        cases hc
      · rw [hbnone] at hleaf'
        cases hleaf'

end Unnested

/-! ## The conflicts of a full pull -/

section Full

variable {env : PullEnv} {remote : Tree} {s : PullState}

/-- The one comparison of a full pull. -/
def fullDiff (env : PullEnv) (remote : Tree) (cloneRoot working : Option Tree) : PathDiff :=
  ⟨[], false, diffTrees cloneRoot (some remote) env.stubThreshold, diffTrees cloneRoot working 0,
    some remote, cloneRoot, none⟩

theorem reported_full (henv : env.Lawful) {c : Conflict}
    (hc : c ∈ reportedConflicts env remote .full s) :
    ∃ working e, env.scan false [] = .ok working ∧ c.pd = fullDiff env remote s.cloneRoot working ∧
      c.key = c.path ∧
      (diffTrees s.cloneRoot (some remote) env.stubThreshold).get c.path = some e ∧
      isConflict (diffTrees s.cloneRoot working 0) c.path e = true := by
  rw [reportedConflicts, List.mem_flatMap] at hc
  obtain ⟨pd, hpd, hc⟩ := hc
  obtain ⟨scope, hscope, hjoin⟩ := List.mem_filterMap.mp hpd
  rw [Option.join_eq_some_iff, toOption_eq_some] at hjoin
  have hcmp : compareAll env s.cloneRoot remote = .ok (some pd) :=
    hjoin ▸ (List.mem_singleton.mp hscope).symm
  simp only [compareAll] at hcmp
  split_ifs at hcmp
  · cases hcmp
  obtain ⟨working, hw, hpd⟩ := bind_eq_ok.mp hcmp
  have hpd : fullDiff env remote s.cloneRoot working = pd := Option.some.inj (Except.ok.inj hpd)
  subst hpd
  obtain ⟨key, hkey, rfl⟩ := List.mem_map.mp hc
  obtain ⟨hkey, -⟩ := List.mem_filter.mp hkey
  rcases mem_conflicts hkey with hnil | ⟨e, hmem, hconf⟩
  · cases hnil
  · have hget := KeyMap.get_eq_some_iff_mem.mpr ((henv.iter_perm _).mem_iff.mp hmem)
    exact ⟨working, e, hw, rfl, rfl, hget, hconf⟩

/-- What the sidecar of a conflict is written from. -/
def metaAt (env : PullEnv) (remote : Tree) (s : PullState) (p : Path) : ConflictMeta :=
  buildConflictMeta ((s.cloneRoot.getD .nil).at p)
    ((diffTrees s.cloneRoot (some remote) env.stubThreshold).get p)

theorem conflictSources_full {c : Conflict} {working : Option Tree} {linked : Linked} {fs : WorkDir}
    (hpd : c.pd = fullDiff env remote s.cloneRoot working) (hkey : c.key = c.path) (hp : c.path ≠ [])
    {src : HelperSources} {m : ConflictMeta} (h : conflictSources linked fs c = .ok (src, m)) :
    m = metaAt env remote s c.path := by
  obtain ⟨base, -, h⟩ := bind_eq_ok.mp h
  obtain ⟨o, ho, h⟩ := bind_eq_ok.mp h
  rw [hpd, hkey] at ho h
  have hmeta := (Prod.mk.inj (Except.ok.inj h)).2
  have hat : (s.cloneRoot.getD .nil).at c.path = o := by
    have hwalk : navigateEntryOpt s.cloneRoot c.path = .ok o := ho
    cases hroot : s.cloneRoot with
    | none =>
        rw [hroot] at hwalk
        cases hwalk
        obtain ⟨n, r, hnr⟩ := List.exists_cons_of_ne_nil hp
        rw [hnr]
        rfl
    | some t =>
        rw [hroot] at hwalk
        exact Tree.at_of_navigateEntry hp hwalk
  rw [← hmeta, metaAt, hat]
  rfl

/-- The sidecar says what the remote has, unless that is a directory. -/
def RecordsRemote (base remote : Tree) (p : Path) (m : ConflictMeta) : Prop :=
  (∃ b, remote.at p = some (.blob b) ∧ m.remoteResolution = some (.blob b) ∧
      m.remote = some ⟨b.mtime, b.mode⟩) ∨
    (∃ l, remote.at p = some (.symlink l) ∧ m.remoteResolution = some (.symlink l)) ∨
    isLeaf (remote.at p) = false ∧
      (m.remoteResolution = some .deleted ∧ isLeaf (base.at p) = true ∨
        m.remoteResolution = some .unrecorded ∧ (∃ t k, remote.at p = some (.tree t k)) ∧
          ∀ t k, base.at p ≠ some (.tree t k))

theorem metaAt_recordsRemote (hb : (s.cloneRoot.getD .nil).Wf) (hr : remote.Wf) {p : Path}
    {e : DiffEntry} (he : (diffTrees s.cloneRoot (some remote) env.stubThreshold).get p = some e) :
    RecordsRemote (s.cloneRoot.getD .nil) remote p (metaAt env remote s p) := by
  have hremote : ((some remote).getD .nil).Wf := hr
  obtain ⟨g, hnode⟩ := node_of_get hb hremote he
  rw [Option.getD_some] at hnode
  have hmeta : metaAt env remote s p = buildConflictMeta ((s.cloneRoot.getD .nil).at p) (some e) := by
    rw [metaAt, he]
  rw [hmeta, RecordsRemote]
  cases hat : remote.at p with
  | none =>
      rw [hat] at hnode
      obtain ⟨rfl, hleaf⟩ := nodeDiff_gone hnode
      exact .inr (.inr ⟨rfl, .inl ⟨rfl, hleaf⟩⟩)
  | some x =>
      rw [hat] at hnode
      have hleaf := leaf_of_nodeDiff hnode
      cases x with
      | blob b =>
          refine .inl ⟨b, rfl, ?_⟩
          obtain rfl | rfl : e = .added b ∨ e = .modified b := by
            cases hbp : (s.cloneRoot.getD .nil).at p with
            | none =>
                rw [hbp] at hnode
                cases hnode
                exact .inl rfl
            | some y =>
                rw [hbp] at hnode
                cases y with
                | blob c =>
                    simp only [nodeDiff] at hnode
                    split_ifs at hnode
                    exact .inr (Option.some.inj hnode).symm
                | tree t m =>
                    cases hnode
                    exact .inl rfl
                | symlink l =>
                    cases hnode
                    exact .inl rfl
          · exact ⟨rfl, rfl⟩
          · exact ⟨rfl, rfl⟩
      | symlink l =>
          refine .inr (.inl ⟨l, rfl, ?_⟩)
          obtain ⟨replaced, rfl⟩ : ∃ replaced, e = .symlink l replaced := by
            cases hbp : (s.cloneRoot.getD .nil).at p with
            | none =>
                rw [hbp] at hnode
                exact ⟨_, (Option.some.inj hnode).symm⟩
            | some y =>
                rw [hbp] at hnode
                cases y with
                | symlink l' =>
                    simp only [nodeDiff] at hnode
                    split_ifs at hnode
                    exact ⟨_, (Option.some.inj hnode).symm⟩
                | blob c => exact ⟨_, (Option.some.inj hnode).symm⟩
                | tree t m => exact ⟨_, (Option.some.inj hnode).symm⟩
          rfl
      | tree t m =>
          obtain ⟨hnot, hcases⟩ := nodeDiff_tree hnode
          refine .inr (.inr ⟨rfl, ?_⟩)
          rcases hcases with rfl | ⟨rfl, -⟩ | ⟨rfl, hbase⟩
          · exact .inr ⟨rfl, ⟨t, m, rfl⟩, hnot⟩
          · exact .inr ⟨rfl, ⟨t, m, rfl⟩, hnot⟩
          · exact .inl ⟨rfl, hbase⟩

/-- The conflicts of `ps` as a full pull that started in `s` has left them in `fs`. -/
structure LeftBehind (env : PullEnv) (remote : Tree) (s : PullState) (ps : List Path) (fs : WorkDir) :
    Prop where
  nonempty : ps ≠ []
  unnested : Unnested ps
  clear : ∀ p ∈ ps, ¬ Tree.BlobAbove (s.cloneRoot.getD .nil) p
  change : ∀ p ∈ ps, ∃ e, (diffTrees s.cloneRoot (some remote) env.stubThreshold).get p = some e
  artifacts : ∀ p ∈ ps, ArtifactsAt p (sourcesAt (s.cloneRoot.getD .nil) remote env.linked s.fs p)
    (metaAt env remote s p) fs
  same : ∀ p ∈ ps, fs.get p = s.fs.get p
  inv : Inv ps s.fs fs

theorem leftBehind_of_pull (henv : env.Lawful) {sorted : List Conflict → List Conflict}
    (hsorted : ∀ l, (sorted l).Perm l) (go : List PathDiff → PullResult)
    (hbase : (s.cloneRoot.getD .nil).Wf ∧ (s.cloneRoot.getD .nil).WellNamed)
    (hremote : remote.Wf ∧ remote.WellNamed) (hconf : reportedConflicts env remote .full s ≠ [])
    (hout : (pull env sorted go remote .full s).outcome = .error .conflict) :
    LeftBehind env remote s ((reportedConflicts env remote .full s).map Conflict.path)
        (pull env sorted go remote .full s).state.fs ∧
      (pull env sorted go remote .full s).state.cloneRoot = s.cloneRoot := by
  obtain ⟨cs, hcs⟩ : ∃ cs, cs = reportedConflicts env remote .full s := ⟨_, rfl⟩
  have hpull := pull_of_conflict hsorted go hconf
  have hfull := fun c (hc : c ∈ reportedConflicts env remote .full s) => reported_full henv hc
  rw [← hcs] at hconf hpull hfull ⊢
  have hr : ((some remote).getD .nil).Wf := hremote.1
  have hat : ∀ c ∈ cs, AtPath (s.cloneRoot.getD .nil) remote c := by
    intro c hc
    rw [hcs, reportedConflicts, List.mem_flatMap] at hc
    obtain ⟨pd, hpd, hc⟩ := hc
    obtain ⟨scope, hscope, hjoin⟩ := List.mem_filterMap.mp hpd
    rw [Option.join_eq_some_iff, toOption_eq_some] at hjoin
    have hcmp := compared_of_scope henv hbase.1 hremote.1 (fun rels (h : PullTarget.full = .paths rels) => by cases h)
      (hjoin ▸ hscope)
    exact atPath_of_conflict henv hbase.2 hremote.2 hcmp hc
  have hps : ∀ p ∈ cs.map Conflict.path, p ≠ [] ∧ ∀ n ∈ p, ValidName n := by
    intro p hp
    obtain ⟨c, hc, rfl⟩ := List.mem_map.mp hp
    exact ⟨(hat c hc).ne_nil, (hat c hc).valid⟩
  have hunnested : Unnested (cs.map Conflict.path) := by
    refine ⟨fun p hp => (hps p hp).1, fun p hp => (hps p hp).2, fun p hp q hq hpre => ?_⟩
    obtain ⟨c, hc, rfl⟩ := List.mem_map.mp hp
    obtain ⟨c', hc', rfl⟩ := List.mem_map.mp hq
    obtain ⟨working, e, hw, -, -, he, hconf⟩ := hfull c hc
    obtain ⟨working', e', hw', -, -, he', hconf'⟩ := hfull c' hc'
    obtain rfl := Except.ok.inj (hw.symm.trans hw')
    obtain ⟨r, hr'⟩ := hpre
    cases r with
    | nil => simpa using hr'
    | cons n r =>
        rw [← hr'] at he' hconf'
        exact (conflicts_unnested hbase.1 hr (henv.scan_wf _ _ _ hw) he hconf he' hconf').elim
  have hmem : ∀ c, c ∈ sorted cs ↔ c ∈ cs := fun c => (hsorted cs).mem_iff
  have hloop : ∀ c ∈ sorted cs, AtPath (s.cloneRoot.getD .nil) remote c ∧
      c.path ∈ cs.map Conflict.path := fun c hc =>
    ⟨hat c ((hmem c).mp hc), List.mem_map.mpr ⟨c, (hmem c).mp hc, rfl⟩⟩
  obtain ⟨hiff, hpost⟩ := writeConflicts_spec env.linked hps hloop (Inv.refl _ s.fs)
  rcases hpull with ⟨-, hrun⟩ | ⟨-, e, he⟩
  swap
  · rw [hout] at he
    cases he
  cases hwrite : writeConflicts env.linked (sorted cs) s.fs with
  | mk res fs' =>
      rw [hwrite] at hrun
      cases res with
      | error e =>
          rw [hrun] at hout
          exact absurd (Except.error.inj hout) (ne_conflict_of_error hwrite)
      | ok u =>
          have hwrote := hpost fs' hwrite
          have hok := hiff.mp ⟨fs', hwrite⟩
          rw [hrun]
          refine ⟨⟨fun hnil => hconf (List.map_eq_nil_iff.mp hnil), hunnested, ?_, ?_, ?_, ?_,
            hwrote.inv⟩, rfl⟩
          · intro p hp
            obtain ⟨c, hc, rfl⟩ := List.mem_map.mp hp
            exact (hok c ((hmem c).mpr hc)).1
          · intro p hp
            obtain ⟨c, hc, rfl⟩ := List.mem_map.mp hp
            obtain ⟨-, e, -, -, -, he, -⟩ := hfull c hc
            exact ⟨e, he⟩
          · intro p hp
            obtain ⟨c, hc, rfl⟩ := List.mem_map.mp hp
            obtain ⟨c', hc', heq, src, m, hsrc, hthere⟩ := hwrote.there c ((hmem c).mpr hc)
            obtain ⟨working, -, -, hpd, hkey, -⟩ := hfull c' ((hmem c').mp hc')
            obtain ⟨m', hsrc'⟩ := (hat c' ((hmem c').mp hc')).sources env.linked s.fs (hok c' hc').1
            have hm := conflictSources_full hpd hkey (hat c' ((hmem c').mp hc')).ne_nil hsrc
            rw [hsrc] at hsrc'
            obtain ⟨rfl, -⟩ := Prod.mk.inj (Except.ok.inj hsrc')
            rw [← heq, ← hm]
            exact hthere
          · intro p hp
            rcases hwrote.inv.kept p (not_artifact_of_valid (hps p hp).2) with heq | ⟨hnone, hdir⟩
            · exact heq
            · -- only a directory above another path has been created
              rcases hwrote.dir p hdir with hdir' | ⟨c, hc, hpre⟩
              · rw [hnone] at hdir'
                cases hdir'
              · have hcp := (hloop c hc).2
                have heq := hunnested.apart p hp _ hcp (hpre.trans (List.dropLast_prefix _))
                have hlen := hpre.length_le
                have hpos := List.length_pos_iff.mpr (hps _ hcp).1
                rw [heq, List.length_dropLast] at hlen
                omega

end Full

/-! ## Accepting a side -/

section Accept

variable {env : PullEnv} {remote : Tree} {s : PullState} {ps : List Path} {fs : WorkDir}
  {side : AcceptSide} {p : Path}

/-- The content of each side, as the pull has taken it. -/
def sourcesOf (env : PullEnv) (remote : Tree) (s : PullState) (p : Path) : HelperSources :=
  sourcesAt (s.cloneRoot.getD .nil) remote env.linked s.fs p

/-- A conflict that the command finds. -/
def Found (env : PullEnv) (remote : Tree) (s : PullState) (p : Path) : Prop :=
  s.fs.get p ≠ some .dir ∧ ∃ side, ((sourcesOf env remote s p).get side).isSome

theorem LeftBehind.ready (h : LeftBehind env remote s ps fs) (hp : p ∈ ps)
    (hdir : s.fs.get p ≠ some .dir) : Ready (sourcesOf env remote s) (metaAt env remote s) fs p :=
  ⟨h.unnested.ne_nil p hp, h.unnested.valid p hp, h.artifacts p hp, (h.same p hp).symm ▸ hdir⟩

variable {sortedPaths : List Path → List Path}

/-- A conflict is found by its own path only, since none lies below another. -/
theorem LeftBehind.found_of_mem (h : LeftBehind env remote s ps fs) (hp : p ∈ ps)
    (hmem : p ∈ ps.flatMap (collectScope env.linked fs)) : Found env remote s p := by
  obtain ⟨scope, hscope, hcollect⟩ := List.mem_flatMap.mp hmem
  rcases mem_collectScope hcollect with ⟨rfl, hdir, hhelpers⟩ | ⟨n, r, rfl⟩
  · rw [h.same _ hp] at hdir
    exact ⟨hdir, (h.ready hp hdir).hasHelpers.mp hhelpers⟩
  · have heq := h.unnested.apart scope hscope _ hp (List.prefix_append _ _)
    simp at heq

theorem LeftBehind.collected (h : LeftBehind env remote s ps fs)
    (hfound : ∀ p ∈ ps, Found env remote s p) (q : Path) :
    q ∈ ps.flatMap (collectScope env.linked fs) ↔ q ∈ ps := by
  have hscope : ∀ p ∈ ps, collectScope env.linked fs p = [p] := by
    intro p hp
    obtain ⟨hdir, hsome⟩ := hfound p hp
    have hready := h.ready hp hdir
    exact collectScope_of_helpers hready.not_dir (hready.hasHelpers.mpr hsome)
  constructor
  · intro hq
    obtain ⟨p, hp, hq⟩ := List.mem_flatMap.mp hq
    rw [hscope p hp] at hq
    exact List.mem_singleton.mp hq ▸ hp
  · exact fun hq => List.mem_flatMap.mpr ⟨q, hq, by rw [hscope q hq]; exact List.mem_singleton_self q⟩

theorem LeftBehind.resolution (h : LeftBehind env remote s ps fs)
    (hb : (s.cloneRoot.getD .nil).Wf) (hr : remote.Wf) (hp : p ∈ ps) :
    RecordsRemote (s.cloneRoot.getD .nil) remote p (metaAt env remote s p) := by
  obtain ⟨e, he⟩ := h.change p hp
  exact metaAt_recordsRemote hb hr he

/-- **`LeftBehind.accepted`** — the command goes through where every conflict is found. -/
theorem LeftBehind.accepted (h : LeftBehind env remote s ps fs) (hb : (s.cloneRoot.getD .nil).Wf)
    (hr : remote.Wf) (hpaths : ∀ l, (sortedPaths l).Nodup ∧ ∀ q, q ∈ sortedPaths l ↔ q ∈ l)
    (hfound : ∀ p ∈ ps, Found env remote s p) (side : AcceptSide) :
    ∃ l, (∀ q, q ∈ l ↔ q ∈ ps) ∧
      Accepted side (s.cloneRoot.getD .nil) (sourcesOf env remote s) (metaAt env remote s)
        ⟨fs, s.cloneRoot⟩ l (runAccept env.linked sortedPaths side ps ⟨fs, s.cloneRoot⟩) := by
  obtain ⟨hnd, hmem⟩ := hpaths (ps.flatMap (collectScope env.linked fs))
  have hl : ∀ q, q ∈ sortedPaths (ps.flatMap (collectScope env.linked fs)) ↔ q ∈ ps := fun q =>
    (hmem q).trans (h.collected hfound q)
  refine ⟨_, hl, runAccept_run (s := ⟨fs, s.cloneRoot⟩) rfl ?_ hnd ?_ ?_ ?_ ?_⟩
  · obtain ⟨p, hp⟩ := List.exists_mem_of_ne_nil ps h.nonempty
    exact List.ne_nil_of_mem ((hl p).mpr hp)
  · exact fun p hp => h.ready ((hl p).mp hp) (hfound p ((hl p).mp hp)).1
  · exact ⟨fun p hp => h.unnested.ne_nil p ((hl p).mp hp), fun p hp => h.unnested.valid p ((hl p).mp hp),
      fun p hp q hq => h.unnested.apart p ((hl p).mp hp) q ((hl q).mp hq)⟩
  · exact fun p hp => h.clear p ((hl p).mp hp)
  · intro p hp hdel
    rcases h.resolution hb hr ((hl p).mp hp) with ⟨b, -, hres, -⟩ | ⟨l, -, hres⟩ | ⟨-, ⟨-, hleaf⟩ | ⟨hres, -⟩⟩
    · rw [hres] at hdel
      cases hdel
    · rw [hres] at hdel
      cases hdel
    · intro hnone
      rw [hnone] at hleaf
      cases hleaf
    · rw [hres] at hdel
      cases hdel

/-- What the advanced `clone_root` has at a path of a conflict. -/
theorem Accepted.cloned {l : List Path} {src : Path → HelperSources} {m : Path → ConflictMeta}
    {base : Tree} {s' : PullState} {r : AcceptResult} (h : Accepted side base src m s' l r)
    (hunnested : Unnested l) (hp : p ∈ l) :
    (r.state.cloneRoot.getD .nil).at p = (editOf (m p)).getD (base.at p) := by
  cases hedit : editOf (m p) with
  | some o =>
      exact h.edited.there (p, o) (List.mem_filterMap.mpr ⟨p, hp, by rw [hedit]; rfl⟩)
  | none =>
      apply h.edited.beside
      intro x hx
      obtain ⟨q, hq, hxq⟩ := List.mem_filterMap.mp hx
      obtain ⟨o, ho, rfl⟩ := Option.map_eq_some_iff.mp hxq
      have hne : q ≠ p := by
        rintro rfl
        rw [hedit] at ho
        cases ho
      exact ⟨fun hpre => hne (hunnested.apart q hq p hp hpre),
        fun hpre => hne (hunnested.apart p hp q hq hpre).symm⟩

theorem Accepted.at_path {l : List Path} {src : Path → HelperSources} {m : Path → ConflictMeta}
    {base : Tree} {s' : PullState} {r : AcceptResult} (h : Accepted side base src m s' l r)
    (hunnested : Unnested l) (hp : p ∈ l) :
    r.state.fs.get p = (takenAt side src m s'.fs p).map Kind.leaf := by
  obtain ⟨d, hget, hclean⟩ := h.cleaned
  have hd := hget p
  rw [if_pos hp] at hd
  rw [← hd]
  cases htaken : takenAt side src m s'.fs p with
  | none =>
      rw [htaken] at hd
      rw [hclean.gone p hp hd]
      exact hd.symm
  | some x =>
      rw [htaken] at hd
      rw [(hclean.leaf p (not_artifact_of_valid (hunnested.valid p hp)) x).mpr hd]
      exact hd.symm

theorem mode_bind {mode : Option String} (h : mode = none ∨ mode = some "755") :
    (mode.bind fun _ => executable) = mode := by
  rcases h with rfl | rfl
  · rfl
  · rfl

/-- **`LeftBehind.taken_iff`** — the command leaves at the path what the side has there, as long as that
is something it knows. -/
theorem LeftBehind.taken_iff (h : LeftBehind env remote s ps fs) (hb : (s.cloneRoot.getD .nil).Wf)
    (hr : remote.Wf) (hp : p ∈ ps) (hdir : s.fs.get p ≠ some .dir)
    (hremote : ∀ t m, remote.at p ≠ some (.tree t m)) (side : AcceptSide) :
    (takenAt side (sourcesOf env remote s) (metaAt env remote s) fs p).map Kind.leaf =
        sideNode (s.cloneRoot.getD .nil) remote s.fs p side ↔
      SideFits (s.cloneRoot.getD .nil) s.fs p side := by
  have hmode : ∀ (t : Tree) (b : Blob), t.Wf → t.at p = some (.blob b) →
      (b.mode.bind fun _ => executable) = b.mode := fun t b ht hat => mode_bind (entry_wf ht hat)
  cases side with
  | base =>
      have hsrc : (sourcesOf env remote s p).get .base =
          ((s.cloneRoot.getD .nil).at p).bind objectContent := rfl
      have hmeta : ∀ {b : Blob}, (s.cloneRoot.getD .nil).at p = some (.blob b) →
          (metaAt env remote s p).base = some ⟨b.mtime, b.mode⟩ := by
        intro b hat
        simp only [metaAt, buildConflictMeta, hat]
      rw [takenAt, taken, hsrc]
      show _ ↔ ∀ e, (s.cloneRoot.getD .nil).at p = some e → ∃ b, e = .blob b
      cases hat : (s.cloneRoot.getD .nil).at p with
      | none => exact iff_of_true (by simp [linkToTake, sideNode, hat, entryNode]) (by rintro _ ⟨⟩)
      | some e =>
          cases e with
          | blob b =>
              refine iff_of_true ?_ fun e he => ⟨b, (Option.some.inj he).symm⟩
              have hm := hmode _ b hb hat
              simp [objectContent, sideNode, hat, entryNode, acceptedMeta, hmeta hat, hm]
          | symlink l =>
              refine iff_of_false ?_ fun hall => by rcases hall _ rfl with ⟨_, ⟨⟩⟩
              simp [objectContent, sideNode, hat, entryNode, linkToTake]
          | tree t m =>
              refine iff_of_false ?_ fun hall => by rcases hall _ rfl with ⟨_, ⟨⟩⟩
              simp [objectContent, sideNode, hat, entryNode]
  | remote =>
      have hsrc : (sourcesOf env remote s p).get .remote = fileContent (remote.at p) := rfl
      refine iff_of_true ?_ trivial
      rw [takenAt, taken, hsrc]
      rcases h.resolution hb hr hp with ⟨b, hat, -, hmeta⟩ | ⟨l, hat, hres⟩ | ⟨hleaf, hres⟩
      · have hm := hmode _ b hr hat
        simp [fileContent, sideNode, hat, entryNode, acceptedMeta, hmeta, hm]
      · simp [fileContent, sideNode, hat, entryNode, linkToTake, hres]
      · have hnone : remote.at p = none := by
          cases hat : remote.at p with
          | none => rfl
          | some e =>
              rw [hat] at hleaf
              cases e with
              | tree t m => exact absurd hat (hremote t m)
              | blob b => cases hleaf
              | symlink l => cases hleaf
        rcases hres with ⟨hres, -⟩ | ⟨hres, -⟩
        · simp [fileContent, sideNode, hnone, entryNode, linkToTake, hres]
        · simp [fileContent, sideNode, hnone, entryNode, linkToTake, hres]
  | loc =>
      have hway : OpenWay s.fs p := by
        rw [← h.inv.openWay_iff (h.unnested.valid p hp)]
        exact (h.ready hp hdir).openWay
      have hlinks := links_of_openWay hway
      have hsrc : (sourcesOf env remote s p).get .loc = workingFileSource env.linked s.fs p := rfl
      rw [takenAt, taken, hsrc, permissionsAt, h.same p hp, workingFileSource, hlinks]
      show _ = s.fs.get p ↔ isSymlinkAt s.fs p = false
      rw [isSymlinkAt]
      cases hget : s.fs.get p with
      | none => exact iff_of_true (by simp [linkToTake]) rfl
      | some k =>
          cases k with
          | dir => exact absurd hget hdir
          | leaf x =>
              cases x with
              | file c mode => exact iff_of_true (by simp [acceptedMeta]) rfl
              | symlink target =>
                  refine iff_of_false ?_ (by rintro ⟨⟩)
                  cases env.linked p <;> simp [linkToTake]

theorem isLeaf_of_not_tree {o : Option TreeEntry} (h : isLeaf o = false)
    (hnot : ∀ t m, o ≠ some (.tree t m)) : o = none := by
  cases o with
  | none => rfl
  | some e =>
      cases e with
      | tree t m => exact absurd rfl (hnot t m)
      | blob b => cases h
      | symlink l => cases h

/-- Accepting resolves only what is resolvable. -/
theorem LeftBehind.resolvable (h : LeftBehind env remote s ps fs) (hb : (s.cloneRoot.getD .nil).Wf)
    (hr : remote.Wf) (hpaths : ∀ l, (sortedPaths l).Nodup ∧ ∀ q, q ∈ sortedPaths l ↔ q ∈ l)
    (hres : ResolvedBy side remote s ps
      (runAccept env.linked sortedPaths side ps ⟨fs, s.cloneRoot⟩)) (hp : p ∈ ps) :
    Resolvable side (s.cloneRoot.getD .nil) remote env.linked s.fs p := by
  have hfound : ∀ p ∈ ps, Found env remote s p := by
    obtain ⟨l, hl, hmem⟩ := hres.accepted
    intro p hp
    have hin := (hmem p).mpr hp
    rw [outcome_paths hl] at hin
    exact h.found_of_mem hp (((hpaths _).2 p).mp hin)
  obtain ⟨l, hl, hacc⟩ := h.accepted hb hr hpaths hfound side
  have hunnested : Unnested l :=
    ⟨fun p hp => h.unnested.ne_nil p ((hl p).mp hp), fun p hp => h.unnested.valid p ((hl p).mp hp),
      fun p hp q hq => h.unnested.apart p ((hl p).mp hp) q ((hl q).mp hq)⟩
  have hcloned := hacc.cloned hunnested ((hl p).mpr hp)
  have hrecords := h.resolution hb hr hp
  have hremote : ∀ t m, remote.at p ≠ some (.tree t m) := by
    intro t m htree
    rw [hres.advanced p hp, htree] at hcloned
    rcases hrecords with ⟨b, hat, -⟩ | ⟨x, hat, -⟩ | ⟨-, ⟨hdel, -⟩ | ⟨hun, -, hnot⟩⟩
    · rw [hat] at htree
      cases htree
    · rw [hat] at htree
      cases htree
    · rw [editOf, hdel] at hcloned
      cases hcloned
    · rw [editOf, hun] at hcloned
      exact hnot t m hcloned.symm
  refine ⟨(hfound p hp).1, (hfound p hp).2, fun q hne hcmp => ?_, hremote, ?_⟩
  · -- a file or symlink of the base that is kept leaves no room for the remote's entry
    by_contra hleaf
    rw [Bool.not_eq_false] at hleaf
    have hq : q ∉ ps := by
      intro hq
      rcases hcmp with hpre | hpre
      · exact hne (h.unnested.apart q hq p hp hpre)
      · exact hne (h.unnested.apart p hp q hq hpre).symm
    have hkept := hres.kept q hq (by rw [hleaf]; rfl)
    rcases hcmp with ⟨r, rfl⟩ | ⟨r, rfl⟩
    · cases r with
      | nil => simp at hne
      | cons n r =>
          have hbase : ∀ s' m', (s.cloneRoot.getD .nil).at q ≠ some (.tree s' m') := by
            intro s' m' htree
            rw [htree] at hleaf
            cases hleaf
          have hgone := at_below_of_not_tree (hkept ▸ hbase) n r
          rw [hres.advanced _ hp] at hgone
          rcases hrecords with ⟨b, hat, -⟩ | ⟨x, hat, -⟩ | ⟨-, ⟨-, hthere⟩ | ⟨-, ⟨t, m, hat⟩, -⟩⟩
          · rw [hat] at hgone
            cases hgone
          · rw [hat] at hgone
            cases hgone
          · rw [at_below_of_not_tree hbase] at hthere
            cases hthere
          · rw [hat] at hgone
            cases hgone
    · cases r with
      | nil => simp at hne
      | cons n r =>
          have hthere : ((runAccept env.linked sortedPaths side ps ⟨fs, s.cloneRoot⟩).state.cloneRoot.getD
              .nil).at (p ++ n :: r) ≠ none := by
            rw [hkept]
            intro hnone
            rw [hnone] at hleaf
            cases hleaf
          obtain ⟨t, m, htree⟩ := Tree.isTree_of_at_append (by simp) hthere
          rw [hres.advanced p hp] at htree
          exact hremote t m htree
  · rw [← h.taken_iff hb hr hp (hfound p hp).1 hremote, ← hres.taken p hp]
    exact (hacc.at_path hunnested ((hl p).mpr hp)).symm

/-- What is resolvable is resolved. -/
theorem LeftBehind.resolved (h : LeftBehind env remote s ps fs) (hb : (s.cloneRoot.getD .nil).Wf)
    (hr : remote.Wf) (hpaths : ∀ l, (sortedPaths l).Nodup ∧ ∀ q, q ∈ sortedPaths l ↔ q ∈ l)
    (hall : ∀ p ∈ ps, Resolvable side (s.cloneRoot.getD .nil) remote env.linked s.fs p) :
    ResolvedBy side remote s ps (runAccept env.linked sortedPaths side ps ⟨fs, s.cloneRoot⟩) := by
  obtain ⟨l, hl, hacc⟩ :=
    h.accepted hb hr hpaths (fun p hp => ⟨(hall p hp).notDir, (hall p hp).helper⟩) side
  have hunnested : Unnested l :=
    ⟨fun p hp => h.unnested.ne_nil p ((hl p).mp hp), fun p hp => h.unnested.valid p ((hl p).mp hp),
      fun p hp q hq => h.unnested.apart p ((hl p).mp hp) q ((hl q).mp hq)⟩
  obtain ⟨r, hr'⟩ : ∃ r, r = runAccept env.linked sortedPaths side ps ⟨fs, s.cloneRoot⟩ := ⟨_, rfl⟩
  rw [← hr'] at hacc ⊢
  -- every conflict's sidecar says what the remote has
  have hedit : ∀ p ∈ ps, editOf (metaAt env remote s p) = some (remote.at p) := by
    intro p hp
    rcases h.resolution hb hr hp with ⟨b, hat, hm, -⟩ | ⟨x, hat, hm⟩ | ⟨hleaf, ⟨hm, -⟩ | ⟨-, ⟨t, m, hat⟩, -⟩⟩
    · rw [editOf, hm, hat]
    · rw [editOf, hm, hat]
    · rw [editOf, hm, isLeaf_of_not_tree hleaf (hall p hp).remoteLeaf]
    · exact absurd hat ((hall p hp).remoteLeaf t m)
  have hadvanced : ∀ p ∈ ps, (r.state.cloneRoot.getD .nil).at p = remote.at p := by
    intro p hp
    rw [hacc.cloned hunnested ((hl p).mpr hp), hedit p hp]
    rfl
  refine ⟨⟨l, hacc.outcome, hl⟩, hadvanced, fun q hq hleaf => ?_, fun p hp => ?_, fun q hq hart x => ?_,
    fun env' henv' c hc hp => ?_⟩
  · by_cases hcmp : ∃ p ∈ ps, p <+: q ∨ q <+: p
    · obtain ⟨p, hp, hcmp⟩ := hcmp
      have hne : q ≠ p := by
        rintro rfl
        exact hq hp
      rw [(hall p hp).clear q hne hcmp.symm, Bool.false_or] at hleaf
      have htree := hacc.edited.near q ?_ ⟨(p, remote.at p), ?_, hcmp⟩
      · cases hat : (r.state.cloneRoot.getD .nil).at q with
        | none =>
            rw [hat] at hleaf
            cases hleaf
        | some e =>
            rw [hat] at hleaf
            cases e with
            | tree t m => cases hleaf
            | blob b => cases htree _ hat
            | symlink x => cases htree _ hat
      · intro x hx
        obtain ⟨p', hp', hxp⟩ := List.mem_filterMap.mp hx
        obtain ⟨o, -, rfl⟩ := Option.map_eq_some_iff.mp hxp
        rintro rfl
        exact hq ((hl _).mp hp')
      · exact List.mem_filterMap.mpr ⟨p, (hl p).mpr hp, by rw [hedit p hp]; rfl⟩
    · push Not at hcmp
      apply hacc.edited.beside
      intro x hx
      obtain ⟨p', hp', hxp⟩ := List.mem_filterMap.mp hx
      obtain ⟨o, -, rfl⟩ := Option.map_eq_some_iff.mp hxp
      exact hcmp p' ((hl p').mp hp')
  · rw [hacc.at_path hunnested ((hl p).mpr hp)]
    exact (h.taken_iff hb hr hp (hall p hp).notDir (hall p hp).remoteLeaf side).mpr (hall p hp).fits
  · obtain ⟨d, hget, hclean⟩ := hacc.cleaned
    have hart' : ¬ IsArtifactOf l q := by
      rintro ⟨p, hp, hs⟩
      exact hart ⟨p, (hl p).mp hp, hs⟩
    rw [hclean.leaf q hart' x, hget, if_neg fun hmem => hq ((hl q).mp hmem)]
    exact h.inv.leaf_iff hart x
  · obtain ⟨working, e, -, -, -, he, -⟩ := reported_full henv' hc
    have hwf : (r.state.cloneRoot.getD .nil).Wf := by
      apply hacc.wf hb
      intro p hp b hres
      have hedit' := hedit p ((hl p).mp hp)
      rw [editOf, hres] at hedit'
      exact entry_wf hr (Option.some.inj hedit').symm
    have hremote : ((some remote).getD .nil).Wf := hr
    obtain ⟨g, hnode⟩ := node_of_get hwf hremote he
    rw [hadvanced c.path hp, Option.getD_some, nodeDiff_self] at hnode
    cases hnode

end Accept

/-- A working tree with a file `f`. -/
def fileState : PullState := ⟨.leaf "f" (.file (.bytes 2) none) .nil, none⟩

def fileEnv : PullEnv := plainEnv (.blob "f" ⟨2, none, 3, none⟩ .nil) none

def newFilesPull : PullResult :=
  pull fileEnv id (fun _ => ⟨.ok (), .nil, none⟩) remoteFile .full fileState

/-- Nothing behind the symlink `f`. -/
def danglingEnv : PullEnv := plainEnv (.symlink "f" ⟨"g", none⟩ .nil) none

def danglingPull : PullResult :=
  pull danglingEnv id (fun _ => ⟨.ok (), .nil, none⟩) remoteFile .full linkState

end Omemfs.Sync
