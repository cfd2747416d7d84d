/-
# Omemfs.Sync.PullPlan — a pull until it writes to the working tree.

A full pull compares three whole trees; a scoped pull compares, for each path, what the three have
there.  A path that is a file or a symlink on one side is compared through trees with that one entry,
so that a change of its kind is a change like any other.  Either way what comes out is a list of
`PathDiff`s, and each is gone through for conflicts and for those of them that a line merge resolves.

If a conflict is left the artifacts of all of them are written and the pull ends (`pull`).  What it does
otherwise is a parameter here; so are the scan of the working tree, the patterns of `[line_merge]`, the
diff library, and the order in which a hash map is gone through.
-/
import Omemfs.Scan.WellFormed
import Omemfs.Sync.Artifacts
import Omemfs.Sync.Conflict
import Omemfs.Sync.LineMerge
import Omemfs.Sync.ScopedPush

namespace Omemfs.Sync

open Omemfs Lib Fsguard

/-! ## Comparing -/

/-- One scope, compared. -/
structure PathDiff where
  rel : Path
  isLeaf : Bool
  remoteDiff : DiffMap
  localDiff : DiffMap
  remoteScoped : Option Tree
  cloneScoped : Option Tree
  remoteEntry : Option TreeEntry

/-- What the keys of the scope are relative to. -/
def PathDiff.relPrefix (pd : PathDiff) : Path := if pd.isLeaf then pd.rel.dropLast else pd.rel

def PathDiff.repoRel (pd : PathDiff) (key : Path) : Path := pd.relPrefix ++ key

def asTree : TreeEntry → Option Tree
  | .tree t _ => some t
  | _ => none

/-- A leaf is wrapped in a tree of its own. -/
def scopedTree (leaf : Bool) (root : Option Tree) (rel : Path) (entry : Option TreeEntry) :
    Except Error (Option Tree) :=
  if leaf then .ok (entry.map fun e => Tree.buildAndStore [(rel.getLastD "", e)])
  else
    match root with
    | none => .ok none
    | some t => (t.navigate rel).map fun o => o.bind asTree

def scopedRemoteDiff (stubThreshold : Nat) (clone remote : Option Tree) : DiffMap :=
  let d := diffTrees clone remote stubThreshold
  match remote with
  | some _ => if d.size = 0 && clone.isNone then d.insert [] .addedEmptyDir else d
  | none => d

/-- Everything a pull takes from outside. -/
structure PullEnv where
  stubThreshold : Nat
  /-- the working tree at a path, compared as a leaf or as a directory -/
  scan : Bool → Path → Except Error (Option Tree)
  /-- the order in which a diff is gone through -/
  iter : DiffMap → List (Path × DiffEntry)
  isLineMerge : Path → Bool
  readBytes : Content → Option Bytes
  diffOps : Bytes → Bytes → List DiffOp
  linked : Linked

/-- One path of a scoped pull; nothing when the remote has not changed there. -/
def comparePath (env : PullEnv) (cloneRoot : Option Tree) (remoteRoot : Tree) (rel : Path) :
    Except Error (Option PathDiff) :=
  remoteRoot.navigateEntry rel >>= fun remoteEntry =>
  navigateEntryOpt cloneRoot rel >>= fun cloneEntry =>
  let leaf := isLeaf remoteEntry || isLeaf cloneEntry
  scopedTree leaf (some remoteRoot) rel remoteEntry >>= fun remoteScoped =>
  scopedTree leaf cloneRoot rel cloneEntry >>= fun cloneScoped =>
  if remoteScoped = cloneScoped then .ok none
  else
    let remoteDiff := scopedRemoteDiff env.stubThreshold cloneScoped remoteScoped
    if remoteDiff.size = 0 then .ok none
    else env.scan leaf rel >>= fun working =>
      .ok (some ⟨rel, leaf, remoteDiff, diffTrees cloneScoped working 0, remoteScoped, cloneScoped,
        remoteEntry⟩)

/-- The whole tree; nothing when the remote has not changed. -/
def compareAll (env : PullEnv) (cloneRoot : Option Tree) (remoteRoot : Tree) :
    Except Error (Option PathDiff) :=
  let remoteDiff := diffTrees cloneRoot (some remoteRoot) env.stubThreshold
  if remoteDiff.size = 0 then .ok none
  else env.scan false [] >>= fun working =>
    .ok (some ⟨[], false, remoteDiff, diffTrees cloneRoot working 0, some remoteRoot, cloneRoot, none⟩)

inductive PullTarget where
  | full
  /-- no path is empty, and none lies below another -/
  | paths (rels : List Path)

def compareScopes (env : PullEnv) (cloneRoot : Option Tree) (remoteRoot : Tree) :
    PullTarget → List (Except Error (Option PathDiff))
  | .full => [compareAll env cloneRoot remoteRoot]
  | .paths rels => rels.map (comparePath env cloneRoot remoteRoot)

/-- All of them, or the first error. -/
def collectScopes : List (Except Error (Option PathDiff)) → Except Error (List PathDiff)
  | [] => .ok []
  | scope :: rest => scope >>= fun pd => collectScopes rest >>= fun pds => .ok (pd.toList ++ pds)

/-! ## Line merges -/

/-- The blob that an entry of a diff brings. -/
def DiffEntry.blobHash : DiffEntry → Option Hash
  | .added b => some b.hash
  | .modified b => some b.hash
  | _ => none

def isBlobChange (e : DiffEntry) : Bool := e.blobHash.isSome

/-- The bytes of the object an entry names. -/
def objectContent : TreeEntry → Option Content
  | .blob b => some (.bytes b.hash)
  | .tree t _ => some (.treeObject t)
  | .symlink _ => none

def baseBytes (env : PullEnv) (baseRoot : Option Tree) (key : Path) : Option Bytes :=
  match baseRoot with
  | none => some []
  | some root =>
      match root.navigate key with
      | .error _ => none
      | .ok o =>
          match o.bind objectContent with
          | none => some []
          | some c => env.readBytes c

/-- The merged content; none where no merge is to be tried or it does not go through. -/
def tryLineMergeOne (env : PullEnv) (fs : WorkDir) (pd : PathDiff) (key : Path)
    (remoteEntry : DiffEntry) : Option Bytes :=
  if isSymlinkAt fs (pd.repoRel key) then none
  else do
    let localBytes ← (workingFileSource env.linked fs (pd.repoRel key)).bind env.readBytes
    let remoteBytes ← remoteEntry.blobHash.bind fun h => env.readBytes (.bytes h)
    let base ← baseBytes env pd.cloneScoped key
    match merge (env.diffOps base localBytes) (env.diffOps base remoteBytes) base localBytes
        remoteBytes with
    | .clean content => some content
    | .conflict => none

def resolvedLineMerge (env : PullEnv) (fs : WorkDir) (pd : PathDiff) (key : Path) : Option Bytes :=
  match pd.remoteDiff.get key, pd.localDiff.get key with
  | some r, some l =>
      if isBlobChange r && isBlobChange l && env.isLineMerge (pd.repoRel key) then
        tryLineMergeOne env fs pd key r
      else none
  | _, _ => none

/-! ## Conflicts -/

structure Conflict where
  pd : PathDiff
  key : Path

/-- The path that is reported. -/
def Conflict.path (c : Conflict) : Path := c.pd.repoRel c.key

/-- The conflicts of a scope that no line merge resolves. -/
def conflictsOf (env : PullEnv) (fs : WorkDir) (pd : PathDiff) : List Conflict :=
  ((classifyConflicts pd.localDiff (env.iter pd.remoteDiff) (.empty, [])).2.filter fun key =>
    (resolvedLineMerge env fs pd key).isNone).map fun key => ⟨pd, key⟩

def baseRootSource (baseRoot : Option Tree) (key : Path) : Except Error (Option Content) :=
  match baseRoot with
  | none => .ok none
  | some root => (root.navigate key).map fun o => o.bind objectContent

/-- The blob is fetched if it is not there; all are available. -/
def entrySource (e : DiffEntry) : Option Content := e.blobHash.map .bytes

def buildConflictMeta (baseEntry : Option TreeEntry) (remoteEntry : Option DiffEntry) : ConflictMeta where
  sides := none
  base := match baseEntry with
    | some (.blob b) => some ⟨b.mtime, b.mode⟩
    | _ => none
  remote := match remoteEntry with
    | some (.added b) => some ⟨b.mtime, b.mode⟩
    | some (.modified b) => some ⟨b.mtime, b.mode⟩
    | _ => none
  remoteResolution := some (match remoteEntry with
    | some (.added b) => .blob b
    | some (.modified b) => .blob b
    | some .deleted => .deleted
    | some (.symlink l _) => .symlink l
    | _ => .unrecorded)

/-- What `write_conflict_for_path` looks up before it writes. -/
def conflictSources (linked : Linked) (fs : WorkDir) (c : Conflict) :
    Except Error (HelperSources × ConflictMeta) :=
  baseRootSource c.pd.cloneScoped c.key >>= fun base =>
  navigateEntryOpt c.pd.cloneScoped c.key >>= fun baseEntry =>
  let remoteEntry := c.pd.remoteDiff.get c.key
  .ok (⟨base, workingFileSource linked fs c.path, remoteEntry.bind entrySource⟩,
    buildConflictMeta baseEntry remoteEntry)

inductive PullError where
  | conflict
  | object (e : Error)
  | guard (e : GuardError)
  deriving DecidableEq

/-- The artifacts of one conflict after another, until something fails. -/
def writeConflicts (linked : Linked) : List Conflict → WorkDir → Except PullError Unit × WorkDir
  | [], fs => (.ok (), fs)
  | c :: cs, fs =>
      match conflictSources linked fs c with
      | .error e => (.error (.object e), fs)
      | .ok (src, m) =>
          match writeConflictArtifacts c.path src.base src.loc src.remote m fs with
          | .error e fs' => (.error (.guard e), fs')
          | .ok _ fs' => writeConflicts linked cs fs'

/-! ## The pull -/

structure PullState where
  fs : WorkDir
  cloneRoot : Option Tree

structure PullResult where
  outcome : Except PullError Unit
  state : PullState

/-- `sorted` puts the conflicts in order, and `go` is the rest of a pull without one. -/
def pull (env : PullEnv) (sorted : List Conflict → List Conflict) (go : List PathDiff → PullResult)
    (remoteRoot : Tree) (target : PullTarget) (s : PullState) : PullResult :=
  match collectScopes (compareScopes env s.cloneRoot remoteRoot target) with
  | .error e => ⟨.error (.object e), s⟩
  | .ok [] =>
      match target with
      | .full => ⟨.ok (), { s with cloneRoot := some remoteRoot }⟩
      | .paths _ => ⟨.ok (), s⟩
  | .ok pds =>
      match sorted (pds.flatMap (conflictsOf env s.fs)) with
      | [] => go pds
      | cs =>
          match writeConflicts env.linked cs s.fs with
          | (.ok _, fs) => ⟨.error .conflict, { s with fs := fs }⟩
          | (.error e, fs) => ⟨.error e, { s with fs := fs }⟩

/-! ## A scope and the whole trees -/

/-- In the scope stands what the whole tree has at the paths of the scope. -/
structure Restricts (t : Tree) (pd : PathDiff) (part : Option Tree) : Prop where
  wf : (part.getD .nil).Wf
  at_key : ∀ n r, (pd.isLeaf → some n = pd.rel.getLast?) →
    (part.getD .nil).at (n :: r) = t.at (pd.repoRel (n :: r))
  apart : pd.isLeaf → ∀ n r, some n ≠ pd.rel.getLast? → (part.getD .nil).at (n :: r) = none
  clear : ∀ a, a <+: pd.relPrefix → ∀ b, t.at a ≠ some (.blob b)

theorem prefix_or_below {a p q : Path} {n : String} {r : Path} (h : p ++ q = a ++ n :: r) :
    a <+: p ∨ ∃ m x, a = p ++ m :: x ∧ q = (m :: x) ++ n :: r := by
  obtain ⟨c, rfl, hq⟩ | ⟨c, rfl, hc⟩ := List.append_eq_append_iff.mp h
  · cases c with
    | nil => exact .inl (by simp)
    | cons m x => exact .inr ⟨m, x, rfl, hq⟩
  · exact .inl (List.prefix_append _ _)

/-- The walk in the scope fails where the walk from the root does. -/
theorem Restricts.way {t : Tree} {pd : PathDiff} {part : Option Tree} (h : Restricts t pd part)
    {n : String} {r : Path} (hn : pd.isLeaf → some n = pd.rel.getLast?) :
    Tree.BlobAbove (part.getD .nil) (n :: r) ↔ Tree.BlobAbove t (pd.repoRel (n :: r)) := by
  constructor
  · rintro ⟨a, m, x, b, heq, ha⟩
    cases a with
    | nil => cases ha
    | cons k a =>
        obtain ⟨rfl, -⟩ := List.cons.inj heq
        refine ⟨pd.repoRel (n :: a), m, x, b, ?_, (h.at_key n a hn).symm.trans ha⟩
        simp [PathDiff.repoRel, heq]
  · rintro ⟨a, m, x, b, heq, ha⟩
    obtain hpre | ⟨k, a, rfl, hkey⟩ := prefix_or_below heq
    · exact absurd ha (h.clear a hpre b)
    · obtain ⟨rfl, -⟩ := List.cons.inj hkey
      exact ⟨n :: a, m, x, b, hkey, (h.at_key n a hn).trans ha⟩

theorem wrapped_at (n : String) (e : TreeEntry) (m : String) (r : Path) :
    (Tree.buildAndStore [(n, e)]).at (m :: r) = if m = n then e.at r else none := by
  rw [Tree.at_cons, Tree.find?_buildAndStore]
  simp only [Tree.lookup_cons_ite, List.lookup_nil]
  split_ifs <;> rfl

theorem wrapped_wf {n : String} {e : TreeEntry} (he : e.Wf) : (Tree.buildAndStore [(n, e)]).Wf := by
  show (Tree.cons n e .nil).Wf
  exact Tree.wf_cons.mpr ⟨by simp [Tree.names, Tree.entries], he, trivial⟩

/-! ## What is compared -/

/-- What a tree has at the path, as the scope compares it. -/
def partAt (leaf : Bool) (t : Tree) (rel : Path) : Option Tree :=
  if leaf then (t.at rel).map fun e => Tree.buildAndStore [(rel.getLastD "", e)]
  else (t.at rel).bind asTree

/-- A file or symlink on one side. -/
def leafScope (base remote : Tree) (rel : Path) : Bool := isLeaf (remote.at rel) || isLeaf (base.at rel)

/-- The remote's change at the path. -/
def remoteChange (stubThreshold : Nat) (base remote : Tree) (rel : Path) : DiffMap :=
  let leaf := leafScope base remote rel
  if partAt leaf remote rel = partAt leaf base rel then .empty
  else scopedRemoteDiff stubThreshold (partAt leaf base rel) (partAt leaf remote rel)

theorem scopedTree_eq {root : Option Tree} {rel : Path} (hrel : rel ≠ []) {o : Option TreeEntry}
    (ho : navigateEntryOpt root rel = .ok o) {leaf : Bool} (hleaf : leaf = false → isLeaf o = false) :
    scopedTree leaf root rel o = .ok (partAt leaf (root.getD .nil) rel) := by
  have hat := at_of_navigateEntryOpt hrel ho
  unfold scopedTree partAt
  rw [hat]
  cases leaf with
  | true => rfl
  | false =>
      cases root with
      | none =>
          cases ho
          rfl
      | some t =>
          have hwalk : t.navigate rel = .ok (o.bind TreeEntry.object) := by
            rw [Tree.navigate_eq hrel, show t.navigateEntry rel = .ok o from ho]
            rfl
          simp only [Bool.false_eq_true, if_false, hwalk]
          show Except.ok _ = _
          cases o with
          | none => rfl
          | some e => cases e <;> rfl

theorem not_blobAbove_of_ok {root : Option Tree} {rel : Path} (hrel : rel ≠ [])
    {o : Option TreeEntry} (ho : navigateEntryOpt root rel = .ok o) :
    ¬ Tree.BlobAbove (root.getD .nil) rel := by
  cases root with
  | none =>
      rintro ⟨a, n, r, b, -, ha⟩
      cases a with
      | nil => cases ha
      | cons m a => cases ha
  | some t => exact (Tree.navigateEntry_eq_ok_iff hrel).mp ⟨o, ho⟩

theorem entry_wf {t : Tree} (hwf : t.Wf) {p : Path} {e : TreeEntry} (he : t.at p = some e) : e.Wf :=
  TreeEntry.Wf.of_at (e := t.root) hwf he

theorem restricts_leaf {t : Tree} (hwf : t.Wf) {pd : PathDiff} (hrel : pd.rel ≠ [])
    (hleaf : pd.isLeaf = true) (hclear : ¬ Tree.BlobAbove t pd.rel) :
    Restricts t pd (partAt true t pd.rel) := by
  obtain ⟨parent, last, hpl⟩ := (List.eq_nil_or_concat' pd.rel).resolve_left hrel
  have hpre : pd.relPrefix = parent := by simp [PathDiff.relPrefix, hleaf, hpl]
  have hlast : pd.rel.getLast? = some last := by simp [hpl]
  have hpart : partAt true t pd.rel = (t.at pd.rel).map fun e => Tree.buildAndStore [(last, e)] := by
    simp [partAt, hpl]
  have hrepo : ∀ r, pd.repoRel (last :: r) = pd.rel ++ r := by simp [PathDiff.repoRel, hpre, hpl]
  rw [hpart]
  refine ⟨?_, fun n r hn => ?_, fun _ n r hn => ?_, fun a ha b hab => ?_⟩
  · cases hat : t.at pd.rel with
    | none => trivial
    | some e => exact wrapped_wf (entry_wf hwf hat)
  · have hnl : n = last := by simpa [hlast] using hn hleaf
    subst hnl
    rw [hrepo, Tree.at_append]
    cases t.at pd.rel with
    | none => rfl
    | some e => simp [wrapped_at]
  · have hne : n ≠ last := fun h => hn (by rw [hlast, h])
    cases t.at pd.rel with
    | none => rfl
    | some e => simp [wrapped_at, hne]
  · rw [hpre] at ha
    obtain ⟨c, rfl⟩ := ha
    obtain ⟨m, x, hmx⟩ : ∃ m x, c ++ [last] = m :: x := by
      cases c with
      | nil => exact ⟨last, [], rfl⟩
      | cons m c => exact ⟨m, c ++ [last], rfl⟩
    exact hclear ⟨a, m, x, b, by rw [hpl, List.append_assoc, hmx], hab⟩

theorem restricts_dir {t : Tree} (hwf : t.Wf) {pd : PathDiff} (hleaf : pd.isLeaf = false)
    (hclear : ¬ Tree.BlobAbove t pd.rel) (hno : isLeaf (t.at pd.rel) = false) :
    Restricts t pd (partAt false t pd.rel) := by
  have hpre : pd.relPrefix = pd.rel := by simp [PathDiff.relPrefix, hleaf]
  have htree : ∀ e, t.at pd.rel = some e → ∃ s m, e = .tree s m := by
    intro e he
    rw [he] at hno
    cases e with
    | tree s m => exact ⟨s, m, rfl⟩
    | blob x => cases hno
    | symlink l => cases hno
  refine ⟨?_, fun n r _ => ?_, fun h => absurd h (by simp [hleaf]), fun a ha b hab => ?_⟩
  · cases hat : t.at pd.rel with
    | none => simp [partAt, hat, Tree.Wf]
    | some e =>
        obtain ⟨s, m, rfl⟩ := htree e hat
        have hs : s.Wf := entry_wf hwf hat
        simpa [partAt, hat, asTree] using hs
  · rw [PathDiff.repoRel, hpre, Tree.at_append]
    cases hat : t.at pd.rel with
    | none => simp [partAt, hat]
    | some e =>
        obtain ⟨s, m, rfl⟩ := htree e hat
        simp only [partAt, hat, Bool.false_eq_true, if_false]
        rfl
  · rw [hpre] at ha
    obtain ⟨c, hc⟩ := ha
    cases c with
    | nil =>
        rw [List.append_nil] at hc
        subst hc
        obtain ⟨s, m, heq⟩ := htree _ hab
        cases heq
    | cons m x => exact hclear ⟨a, m, x, b, hc.symm, hab⟩

theorem restricts_part {t : Tree} (hwf : t.Wf) {pd : PathDiff} (hrel : pd.rel ≠ [])
    (hclear : ¬ Tree.BlobAbove t pd.rel) (hno : pd.isLeaf = false → isLeaf (t.at pd.rel) = false) :
    Restricts t pd (partAt pd.isLeaf t pd.rel) := by
  cases hleaf : pd.isLeaf with
  | true => exact restricts_leaf hwf hrel hleaf hclear
  | false => exact restricts_dir hwf hleaf hclear (hno hleaf)

/-- **`comparePath_eq`** — a path compared, where both walks go through. -/
theorem comparePath_eq (env : PullEnv) {cloneRoot : Option Tree} {remoteRoot : Tree} {rel : Path}
    (hrel : rel ≠ []) (hr : ¬ Tree.BlobAbove remoteRoot rel)
    (hb : ¬ Tree.BlobAbove (cloneRoot.getD .nil) rel) :
    comparePath env cloneRoot remoteRoot rel =
      (let base := cloneRoot.getD .nil
       let leaf := leafScope base remoteRoot rel
       let remoteDiff := remoteChange env.stubThreshold base remoteRoot rel
       if remoteDiff.size = 0 then .ok none
       else env.scan leaf rel >>= fun working =>
         .ok (some ⟨rel, leaf, remoteDiff, diffTrees (partAt leaf base rel) working 0,
           partAt leaf remoteRoot rel, partAt leaf base rel, remoteRoot.at rel⟩)) := by
  obtain ⟨ro, hro⟩ := (Tree.navigateEntry_eq_ok_iff hrel).mpr hr
  obtain ⟨co, hco⟩ : ∃ co, navigateEntryOpt cloneRoot rel = .ok co := by
    cases cloneRoot with
    | none => exact ⟨none, rfl⟩
    | some t => exact (Tree.navigateEntry_eq_ok_iff hrel).mpr hb
  have hrat := Tree.at_of_navigateEntry hrel hro
  have hcat := at_of_navigateEntryOpt hrel hco
  have hleaf : (isLeaf ro || isLeaf co) = leafScope (cloneRoot.getD .nil) remoteRoot rel := by
    rw [leafScope, hrat, hcat]
  have hneither : leafScope (cloneRoot.getD .nil) remoteRoot rel = false →
      isLeaf ro = false ∧ isLeaf co = false := by
    rw [← hleaf, Bool.or_eq_false_iff]
    exact id
  have hro' : navigateEntryOpt (some remoteRoot) rel = .ok ro := hro
  have hrs := scopedTree_eq hrel hro' fun h => (hneither h).1
  have hcs := scopedTree_eq hrel hco fun h => (hneither h).2
  unfold comparePath remoteChange
  rw [hro, hco]
  show (scopedTree (isLeaf ro || isLeaf co) (some remoteRoot) rel ro >>= fun remoteScoped => _) = _
  rw [hleaf, hrs]
  show (scopedTree _ cloneRoot rel co >>= fun cloneScoped => _) = _
  rw [hcs, hrat]
  show (if partAt _ remoteRoot rel = partAt _ (cloneRoot.getD .nil) rel then _ else _) = _
  by_cases hsame : partAt (leafScope (cloneRoot.getD .nil) remoteRoot rel) remoteRoot rel =
      partAt (leafScope (cloneRoot.getD .nil) remoteRoot rel) (cloneRoot.getD .nil) rel
  · simp only [if_pos hsame]
    rfl
  · simp only [if_neg hsame, Option.getD_some]

/-- **`comparePath_ok_iff`** — when a path can be compared. -/
theorem comparePath_ok_iff (env : PullEnv) (cloneRoot : Option Tree) (remoteRoot : Tree) {rel : Path}
    (hrel : rel ≠ []) :
    (∃ o, comparePath env cloneRoot remoteRoot rel = .ok o) ↔
      ¬ Tree.BlobAbove remoteRoot rel ∧ ¬ Tree.BlobAbove (cloneRoot.getD .nil) rel ∧
        ((remoteChange env.stubThreshold (cloneRoot.getD .nil) remoteRoot rel).size ≠ 0 →
          ∃ w, env.scan (leafScope (cloneRoot.getD .nil) remoteRoot rel) rel = .ok w) := by
  constructor
  · rintro ⟨o, ho⟩
    obtain ⟨ro, hro, hrest⟩ := bind_eq_ok.mp ho
    obtain ⟨co, hco, -⟩ := bind_eq_ok.mp hrest
    have hr := (Tree.navigateEntry_eq_ok_iff hrel).mp ⟨ro, hro⟩
    have hb := not_blobAbove_of_ok hrel hco
    refine ⟨hr, hb, fun hsize => ?_⟩
    rw [comparePath_eq env hrel hr hb] at ho
    simp only [if_neg hsize] at ho
    obtain ⟨w, hw, -⟩ := bind_eq_ok.mp ho
    exact ⟨w, hw⟩
  · rintro ⟨hr, hb, hscan⟩
    rw [comparePath_eq env hrel hr hb]
    by_cases hsize : (remoteChange env.stubThreshold (cloneRoot.getD .nil) remoteRoot rel).size = 0
    · exact ⟨none, by simp only [if_pos hsize]⟩
    · obtain ⟨w, hw⟩ := hscan hsize
      simp only [if_neg hsize, hw]
      exact ⟨_, rfl⟩

/-- What every scope that is gone through has in common. -/
structure Compared (env : PullEnv) (base remote : Tree) (pd : PathDiff) : Prop where
  clone : Restricts base pd pd.cloneScoped
  theirs : Restricts remote pd pd.remoteScoped
  diff : ∀ n r, pd.remoteDiff.get (n :: r) =
    (diffTrees pd.cloneScoped pd.remoteScoped env.stubThreshold).get (n :: r)
  silent : pd.localDiff.get [] = none
  rootEntry : ∀ t m, pd.remoteDiff.get [] ≠ some (.addedTree t m)

/-- A scan builds well-formed trees, and a diff is gone through entry by entry. -/
structure PullEnv.Lawful (env : PullEnv) : Prop where
  scan_wf : ∀ leaf rel w, env.scan leaf rel = .ok w → (w.getD .nil).Wf
  iter_perm : ∀ m, (env.iter m).Perm m.pairs

theorem localDiff_nil {base working : Option Tree} (hb : (base.getD .nil).Wf)
    (hw : (working.getD .nil).Wf) : (diffTrees base working 0).get [] = none := by
  rw [get_diffTrees_zero hb hw]
  rfl

theorem get_scopedRemoteDiff (thr : Nat) (clone remote : Option Tree) (n : String) (r : Path) :
    (scopedRemoteDiff thr clone remote).get (n :: r) = (diffTrees clone remote thr).get (n :: r) := by
  unfold scopedRemoteDiff
  cases remote with
  | none => rfl
  | some t =>
      by_cases h : ((diffTrees clone (some t) thr).size = 0 && clone.isNone) = true
      · simp only [if_pos h]
        exact KeyMap.get_insert_ne _ _ (by simp)
      · simp only [if_neg h]

theorem diffTrees_nil {base target : Option Tree} (hb : (base.getD .nil).Wf)
    (ht : (target.getD .nil).Wf) (thr : Nat) : (diffTrees base target thr).get [] = none := by
  rw [get_diffTrees hb ht]
  rfl

/-- At most a new empty directory is reported for the scope itself. -/
theorem scopedRemoteDiff_nil {clone remote : Option Tree} (hb : (clone.getD .nil).Wf)
    (hr : (remote.getD .nil).Wf) (thr : Nat) (t : Tree) (m : TreeMeta) :
    (scopedRemoteDiff thr clone remote).get [] ≠ some (.addedTree t m) := by
  unfold scopedRemoteDiff
  have hnil := diffTrees_nil hb hr thr
  cases remote with
  | none => simp [hnil]
  | some s =>
      by_cases h : ((diffTrees clone (some s) thr).size = 0 && clone.isNone) = true
      · simp only [if_pos h, KeyMap.get_insert_self]
        rintro ⟨⟩
      · simp only [if_neg h, hnil]
        rintro ⟨⟩

theorem compared_of_path {env : PullEnv} (henv : env.Lawful) {cloneRoot : Option Tree}
    {remoteRoot : Tree} (hb : (cloneRoot.getD .nil).Wf) (hr : remoteRoot.Wf) {rel : Path}
    (hrel : rel ≠ []) {pd : PathDiff}
    (h : comparePath env cloneRoot remoteRoot rel = .ok (some pd)) :
    Compared env (cloneRoot.getD .nil) remoteRoot pd := by
  obtain ⟨hnr, hnb, -⟩ := (comparePath_ok_iff env cloneRoot remoteRoot hrel).mp ⟨_, h⟩
  rw [comparePath_eq env hrel hnr hnb] at h
  dsimp only at h
  split_ifs at h with hsize
  · cases h
  · obtain ⟨working, hw, hpd⟩ := bind_eq_ok.mp h
    have hwf := henv.scan_wf _ _ _ hw
    have heq := Option.some.inj (Except.ok.inj hpd)
    have hpr : pd.rel = rel := by rw [← heq]
    have hpl : pd.isLeaf = leafScope (cloneRoot.getD .nil) remoteRoot rel := by rw [← heq]
    have hpc : pd.cloneScoped = partAt pd.isLeaf (cloneRoot.getD .nil) pd.rel := by rw [← heq]
    have hpt : pd.remoteScoped = partAt pd.isLeaf remoteRoot pd.rel := by rw [← heq]
    have hpd' : pd.remoteDiff = remoteChange env.stubThreshold (cloneRoot.getD .nil) remoteRoot rel := by
      rw [← heq]
    have hpw : pd.localDiff = diffTrees pd.cloneScoped working 0 := by rw [← heq]
    have hneither : pd.isLeaf = false →
        isLeaf (remoteRoot.at pd.rel) = false ∧ isLeaf ((cloneRoot.getD .nil).at pd.rel) = false := by
      rw [hpl, hpr, leafScope, Bool.or_eq_false_iff]
      exact id
    rw [← hpr] at hrel hnr hnb
    have hclone : Restricts (cloneRoot.getD .nil) pd pd.cloneScoped :=
      hpc ▸ restricts_part hb hrel hnb fun hl => (hneither hl).2
    have htheirs : Restricts remoteRoot pd pd.remoteScoped :=
      hpt ▸ restricts_part hr hrel hnr fun hl => (hneither hl).1
    have hdiff : pd.remoteDiff = scopedRemoteDiff env.stubThreshold pd.cloneScoped pd.remoteScoped := by
      rw [hpd', hpc, hpt, hpl, hpr]
      unfold remoteChange at hsize ⊢
      by_cases hsame : partAt (leafScope (cloneRoot.getD .nil) remoteRoot rel) remoteRoot rel =
          partAt (leafScope (cloneRoot.getD .nil) remoteRoot rel) (cloneRoot.getD .nil) rel
      · simp only [if_pos hsame] at hsize
        exact absurd rfl hsize
      · simp only [if_neg hsame]
    refine ⟨hclone, htheirs, fun n r => ?_, ?_, fun t m => ?_⟩
    · rw [hdiff, get_scopedRemoteDiff]
    · rw [hpw]
      exact localDiff_nil hclone.wf hwf
    · rw [hdiff]
      exact scopedRemoteDiff_nil hclone.wf htheirs.wf _ t m

theorem compared_of_all {env : PullEnv} (henv : env.Lawful) {cloneRoot : Option Tree}
    {remoteRoot : Tree} (hb : (cloneRoot.getD .nil).Wf) (hr : remoteRoot.Wf) {pd : PathDiff}
    (h : compareAll env cloneRoot remoteRoot = .ok (some pd)) :
    Compared env (cloneRoot.getD .nil) remoteRoot pd := by
  simp only [compareAll] at h
  split_ifs at h
  · cases h
  · obtain ⟨working, hw, hpd⟩ := bind_eq_ok.mp h
    have hwf := henv.scan_wf _ _ _ hw
    have heq := Option.some.inj (Except.ok.inj hpd)
    subst heq
    have hroot : ∀ t : Tree, ∀ a, a <+: ([] : Path) → ∀ b, t.at a ≠ some (.blob b) := by
      intro t a ha b hab
      rw [List.prefix_nil.mp ha] at hab
      cases hab
    have hno : (false = true → False) := nofun
    refine ⟨⟨hb, fun n r _ => rfl, fun hl => absurd hl hno, hroot _⟩,
      ⟨hr, fun n r _ => rfl, fun hl => absurd hl hno, hroot _⟩, fun n r => rfl, localDiff_nil hb hwf,
      fun t m => ?_⟩
    have hremote : ((some remoteRoot).getD .nil).Wf := hr
    rw [diffTrees_nil hb hremote]
    exact fun h => nomatch h

/-! ## A path of the remote's diff -/

/-- What stands at a path the diff mentions. -/
theorem Compared.entry {env : PullEnv} {base remote : Tree} {pd : PathDiff}
    (h : Compared env base remote pd) {n : String} {r : Path} {e : DiffEntry}
    (he : pd.remoteDiff.get (n :: r) = some e) :
    (pd.isLeaf → some n = pd.rel.getLast?) ∧ e.leaf = leafOf (remote.at (pd.repoRel (n :: r))) ∧
      (base.at (pd.repoRel (n :: r)) ≠ none ∨ remote.at (pd.repoRel (n :: r)) ≠ none) := by
  rw [h.diff] at he
  obtain ⟨-, -, -, -, -, -, -, hnone⟩ | ⟨g, hg⟩ :=
    get_remoteDiff h.clone.wf h.theirs.wf env.stubThreshold (n :: r)
  · rw [hnone] at he
    cases he
  · rw [hg] at he
    have hname : pd.isLeaf → some n = pd.rel.getLast? := by
      intro hl
      by_contra hn
      rw [h.clone.apart hl n r hn, h.theirs.apart hl n r hn] at he
      cases he
    rw [h.clone.at_key n r hname, h.theirs.at_key n r hname] at he
    refine ⟨hname, leaf_of_nodeDiff he, ?_⟩
    by_contra hboth
    push Not at hboth
    rw [hboth.1, hboth.2] at he
    cases he

theorem mem_conflicts {localDiff : DiffMap} {order : List (Path × DiffEntry)}
    {acc : DiffMap × List Path} {q : Path} (h : q ∈ (classifyConflicts localDiff order acc).2) :
    q ∈ acc.2 ∨ ∃ e, (q, e) ∈ order ∧ isConflict localDiff q e = true := by
  induction order generalizing acc with
  | nil => exact .inl h
  | cons x order ih =>
      obtain ⟨path, e⟩ := x
      obtain ⟨clean, conflicts⟩ := acc
      rw [classifyConflicts] at h
      rcases ih h with hacc | ⟨e', hmem, hc⟩
      · by_cases hc : isConflict localDiff path e = true
        · rw [if_pos hc, List.mem_append, List.mem_singleton] at hacc
          rcases hacc with hacc | rfl
          · exact .inl hacc
          · exact .inr ⟨e, List.mem_cons_self .., hc⟩
        · rw [if_neg hc] at hacc
          exact .inl hacc
      · exact .inr ⟨e', List.mem_cons_of_mem _ hmem, hc⟩

/-- A conflict is about a path of the remote's diff. -/
theorem Compared.conflict {env : PullEnv} (henv : env.Lawful) {base remote : Tree} {pd : PathDiff}
    (h : Compared env base remote pd) {fs : WorkDir} {c : Conflict} (hc : c ∈ conflictsOf env fs pd) :
    c.pd = pd ∧ ∃ n r e, c.key = n :: r ∧ pd.remoteDiff.get (n :: r) = some e := by
  obtain ⟨key, hkey, rfl⟩ := List.mem_map.mp hc
  obtain ⟨hkey, -⟩ := List.mem_filter.mp hkey
  rcases mem_conflicts hkey with hnil | ⟨e, hmem, hconf⟩
  · cases hnil
  · have hget : pd.remoteDiff.get key = some e :=
      KeyMap.get_eq_some_iff_mem.mpr ((henv.iter_perm _).mem_iff.mp hmem)
    refine ⟨rfl, ?_⟩
    cases key with
    | cons n r => exact ⟨n, r, e, rfl, hget⟩
    | nil =>
        -- the working tree never reports the scope itself
        rw [isConflict, h.silent] at hconf
        have htree := (Bool.and_eq_true_iff.mp hconf).1
        cases e with
        | addedTree t m => exact absurd hget (h.rootEntry t m)
        | _ => cases htree

end Omemfs.Sync
