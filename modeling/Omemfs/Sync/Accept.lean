/-
# Omemfs.Sync.Accept — resolving conflicts by taking one side.

`runAccept` goes through the conflicts that have a helper file and, from the sidecars a pull has written,
first computes a `clone_root` that has what the remote has at each of them.  Then it puts the side that was
asked for into the working tree, advances `clone_root`, removes the artifacts, and removes directories that
a deletion has left empty.

A sidecar that cannot be read as one is as good as none.  Messages and dry runs are left out, and so are
modification times of working files.
-/
import Omemfs.Sync.Abort

namespace Omemfs.Sync

open Omemfs Lib Fsguard Scan

/-! ## The conflicts of a scope -/

/-- The base paths of the helpers in `d`, which stands at `dir`. -/
def collectConflictingRecursive (dir : Path) : WorkDir → List Path
  | .nil => []
  | .leaf name _ rest =>
      (if name = ".omemfs" then []
        else ((conflictBaseName name).map fun base => dir ++ [base]).toList) ++
      collectConflictingRecursive dir rest
  | .sub name s rest =>
      (if name = ".omemfs" then [] else collectConflictingRecursive (dir ++ [name]) s) ++
      collectConflictingRecursive dir rest

def isFile (linked : Linked) (d : WorkDir) (p : Path) : Bool := (workingFileSource linked d p).isSome

def baseHasConflictHelpers (linked : Linked) (d : WorkDir) (p : Path) : Bool :=
  conflictSuffixes.any fun suffix => isFile linked d (artifactPath p suffix)

/-- A directory is searched; of anything else the helpers are looked up. -/
def collectScope (linked : Linked) (d : WorkDir) (scope : Path) : List Path :=
  match d.at scope with
  | some (.sub s) => collectConflictingRecursive scope s
  | _ => if baseHasConflictHelpers linked d scope then [scope] else []

/-! ## Deciding -/

def ConflictMeta.read (linked : Linked) (d : WorkDir) (p : Path) : Option ConflictMeta :=
  match workingFileSource linked d (artifactPath p conflictMetaSuffix) with
  | some (.sidecar m) => some m
  | _ => none

inductive Resolution where
  | helper
  | delete
  | remoteSymlink
  deriving DecidableEq

/-- Behind a symlink there is a regular file or nothing. -/
def helperExists (linked : Linked) (d : WorkDir) (p : Path) : Bool :=
  if p.inits.any (isSymlinkAt d) then (linked p).isSome else (d.get p).isSome

/-- Nothing where the helper on disk contradicts the recorded sides. -/
def resolveSide (linked : Linked) (d : WorkDir) (side : AcceptSide) (p : Path)
    (m : Option ConflictMeta) : Option Resolution :=
  let there := helperExists linked d (artifactPath p side.suffix)
  let hasContent := match m.bind ConflictMeta.sides with
    | some sides => if sides.has side = there then some there else none
    | none => some there
  hasContent.map fun content =>
    if content then .helper
    else match side, m.bind ConflictMeta.remoteResolution with
      | .remote, some (.symlink _) => .remoteSymlink
      | _, _ => .delete

inductive AcceptError where
  | noConflicts
  | inconsistent (ps : List Path)
  | object (e : Error)
  | guard (e : GuardError)
  deriving DecidableEq

/-- A path to resolve, and what is known of it. -/
structure Resolving where
  path : Path
  record : Option ConflictMeta
  resolution : Resolution

/-- All paths, or those that cannot be resolved. -/
def resolveAll (linked : Linked) (d : WorkDir) (side : AcceptSide) (ps : List Path) :
    Except AcceptError (List Resolving) :=
  let resolution p := resolveSide linked d side p (ConflictMeta.read linked d p)
  match ps.filter fun p => (resolution p).isNone with
  | [] => .ok (ps.filterMap fun p => (resolution p).map fun r => ⟨p, ConflictMeta.read linked d p, r⟩)
  | bad => .error (.inconsistent bad)

/-! ## Advancing `clone_root` -/

def advanceOne (cloneRoot : Option Tree) (x : Resolving) : Except Error (Option Tree) :=
  match x.record.bind ConflictMeta.remoteResolution with
  | some (.blob b) => (Tree.spliceEntry cloneRoot x.path (.blob b)).map some
  | some (.symlink l) => (Tree.spliceEntry cloneRoot x.path (.symlink l)).map some
  | some .deleted =>
      match cloneRoot with
      | none => .ok none
      | some t => (t.removeEntry x.path).map fun o => some (o.getD t)
  | _ => .ok cloneRoot

def advance (cloneRoot : Option Tree) : List Resolving → Except Error (Option Tree)
  | [] => .ok cloneRoot
  | x :: rest => advanceOne cloneRoot x >>= fun t => advance t rest

/-! ## The working tree -/

def executable : Option String := some "755"

/-- The permissions at the path itself; those of a symlink, and of a directory, let it be executed. -/
def permissionsAt (d : WorkDir) (p : Path) : Option (Option String) :=
  match d.get p with
  | none => none
  | some (.leaf (.file _ mode)) => some mode
  | some _ => some executable

/-- Of a regular file. -/
def setPermissions (p : Path) (mode : Option String) : Guarded WorkNode PUnit := fun d =>
  match d.get p with
  | some (.leaf (.file c _)) => syscall (fun d => d.rename p (.file c mode)) d
  | _ => .error (.io .enoent) d

/-- `set_mode`, whose failure is no error. -/
def restoreSideMeta (p : Path) (side : SideMeta) : Guarded WorkNode PUnit := fun d =>
  match setPermissions p (side.mode.bind fun _ => executable) d with
  | .ok _ d' => .ok ⟨⟩ d'
  | .error _ _ => .ok ⟨⟩ d

/-- `open_file`: no symlink is followed. -/
def readFile (p : Path) : Guarded WorkNode Content := fun d =>
  match d.get p with
  | some (.leaf (.file c _)) => .ok c d
  | some (.leaf (.symlink _)) => .error (.symlinkEscape p) d
  | some .dir => .error (.io .eisdir) d
  | none => .error (.io .enoent) d

def readHelper (p : Path) : Guarded WorkNode Content := openLeaf false p >>= fun _ => readFile p

def acceptedMeta (side : AcceptSide) (m : Option ConflictMeta) : Option SideMeta :=
  match side with
  | .remote => m.bind ConflictMeta.remote
  | .base => m.bind ConflictMeta.base
  | .loc => none

def acceptHelper (side : AcceptSide) (p : Path) (m : Option ConflictMeta) : Guarded WorkNode PUnit :=
  get >>= fun d =>
  readHelper (artifactPath p side.suffix) >>= fun data =>
  atomicWrite p (.file data none) >>= fun _ =>
  (match permissionsAt d p with
    | some mode => setPermissions p mode
    | none => pure ⟨⟩) >>= fun _ =>
  match acceptedMeta side m with
  | some sm => restoreSideMeta p sm
  | none => pure ⟨⟩

/-- The link to create where the remote side is one. -/
def Resolving.link (x : Resolving) : Option Symlink :=
  match x.resolution, x.record.bind ConflictMeta.remoteResolution with
  | .remoteSymlink, some (.symlink l) => some l
  | _, _ => none

def acceptPath (side : AcceptSide) (x : Resolving) : Guarded WorkNode PUnit :=
  match x.resolution, x.link with
  | .helper, _ => acceptHelper side x.path x.record
  | _, some l => replaceSymlink x.path (.symlink l.target)
  | _, none => removeFileTolerant x.path

/-- A directory that is missing or has something in it stays what it is. -/
def removeDirIfEmpty (p : Path) : Guarded WorkNode Bool := fun d =>
  if p = [] then .ok false d
  else match openLeaf false p d with
    | .error (.io .enoent) d => .ok false d
    | .error e d => .error e d
    | .ok _ d =>
        match d.get p with
        | some (.leaf (.symlink _)) => .error (.symlinkEscape p) d
        | some .dir =>
            match d.rmdir p with
            | .ok d' => .ok true d'
            | .error .enotempty => .ok false d
            | .error .enoent => .ok false d
            | .error e => .error (.io e) d
        | _ => .ok false d

/-- Up from the parent of a deleted path, as long as there is nothing left. -/
def pruneUp : List Path → Guarded WorkNode PUnit
  | [] => pure ⟨⟩
  | p :: rest => removeDirIfEmpty p >>= fun removed => if removed then pruneUp rest else pure ⟨⟩

/-- The directories above a path, the deepest first. -/
def parentsOf (p : Path) : List Path := (p.dropLast.inits.filter fun a => a ≠ []).reverse

def isDeleted (x : Resolving) : Bool := x.resolution ≠ .helper && x.link.isNone

def cleanUp (xs : List Resolving) : Guarded WorkNode PUnit :=
  (xs.forM fun x => removeAllConflictArtifacts x.path) >>= fun _ =>
  (xs.filter isDeleted).forM fun x => pruneUp (parentsOf x.path)

/-! ## The command -/

structure AcceptResult where
  /-- the paths that were resolved -/
  outcome : Except AcceptError (List Path)
  state : PullState

/-- `sorted` gives the paths of a list in order, each once. -/
def runAccept (linked : Linked) (sorted : List Path → List Path) (side : AcceptSide)
    (scopes : List Path) (s : PullState) : AcceptResult :=
  let conflicting := sorted (scopes.flatMap (collectScope linked s.fs))
  if conflicting.isEmpty then ⟨.error .noConflicts, s⟩
  else
    match resolveAll linked s.fs side conflicting with
    | .error e => ⟨.error e, s⟩
    | .ok xs =>
        match advance s.cloneRoot xs with
        | .error e => ⟨.error (.object e), s⟩
        | .ok cloneRoot =>
            match xs.forM (acceptPath side) s.fs with
            | .error e fs => ⟨.error (.guard e), ⟨fs, s.cloneRoot⟩⟩
            | .ok _ fs =>
                match cleanUp xs fs with
                | .error e fs => ⟨.error (.guard e), ⟨fs, cloneRoot⟩⟩
                | .ok _ fs => ⟨.ok conflicting, ⟨fs, cloneRoot⟩⟩

/-! ## The artifacts a pull has left -/

section Run

variable {linked : Linked} {side : AcceptSide} {src : HelperSources} {m : ConflictMeta} {d : WorkDir}
  {parent : Path} {n : String}

theorem no_link_above (hdir : d.get parent = some .dir) (hlink : isSymlinkAt d (parent ++ [n]) = false) :
    (parent ++ [n]).inits.any (isSymlinkAt d) = false := by
  rw [List.any_eq_false]
  intro a ha
  rcases List.prefix_concat_iff.mp ((List.mem_inits _ _).mp ha) with rfl | hpre
  · exact Bool.eq_false_iff.mp hlink
  · rw [isSymlinkAt, DirTree.dir_of_prefix hdir hpre]
    exact nofun

theorem ArtifactsAt.dir (h : ArtifactsAt (parent ++ [n]) src m d) : d.get parent = some .dir := by
  have hmeta := h.sidecar
  rw [artifactPath_concat] at hmeta
  exact DirTree.get_of_append (n := n ++ conflictMetaSuffix) (q := []) (by simp [hmeta])

theorem ArtifactsAt.openWay (h : ArtifactsAt (parent ++ [n]) src m d) : OpenWay d (parent ++ [n]) := by
  rw [openWay_concat]
  intro a ha x
  rw [DirTree.dir_of_prefix h.dir ha]
  exact nofun

theorem ArtifactsAt.source (h : ArtifactsAt (parent ++ [n]) src m d) (side : AcceptSide) :
    workingFileSource linked d (artifactPath (parent ++ [n]) side.suffix) = src.get side := by
  have hget := h.helper side
  rw [artifactPath_concat] at hget ⊢
  rw [workingFileSource, no_link_above h.dir, if_neg Bool.false_ne_true, hget]
  · cases src.get side <;> rfl
  · rw [isSymlinkAt, hget]
    cases src.get side <;> rfl

/-- The sidecar as it was written. -/
def writtenMeta (src : HelperSources) (m : ConflictMeta) : ConflictMeta := { m with sides := some src.sides }

theorem ArtifactsAt.read (h : ArtifactsAt (parent ++ [n]) src m d) :
    ConflictMeta.read linked d (parent ++ [n]) = some (writtenMeta src m) := by
  have hget := h.sidecar
  rw [ConflictMeta.read]
  rw [artifactPath_concat] at hget ⊢
  rw [workingFileSource, no_link_above h.dir, if_neg Bool.false_ne_true, hget]
  · rfl
  · rw [isSymlinkAt, hget]

theorem ArtifactsAt.exists_eq (h : ArtifactsAt (parent ++ [n]) src m d) (side : AcceptSide) :
    helperExists linked d (artifactPath (parent ++ [n]) side.suffix) = (src.get side).isSome := by
  have hget := h.helper side
  rw [artifactPath_concat] at hget ⊢
  rw [helperExists, no_link_above h.dir, if_neg Bool.false_ne_true, hget, Option.isSome_map]
  rw [isSymlinkAt, hget]
  cases src.get side <;> rfl

/-- The link to create where the side has no helper. -/
def linkToTake (side : AcceptSide) (m : ConflictMeta) : Option Symlink :=
  match side, m.remoteResolution with
  | .remote, some (.symlink l) => some l
  | _, _ => none

def resolutionOf (side : AcceptSide) (src : HelperSources) (m : ConflictMeta) : Resolution :=
  if (src.get side).isSome then .helper
  else if (linkToTake side m).isSome then .remoteSymlink
  else .delete

theorem ArtifactsAt.resolveSide_eq (h : ArtifactsAt (parent ++ [n]) src m d) (side : AcceptSide) :
    resolveSide linked d side (parent ++ [n]) (some (writtenMeta src m)) =
      some (resolutionOf side src m) := by
  have hsides : (some (writtenMeta src m)).bind ConflictMeta.sides = some src.sides := rfl
  have hres : (some (writtenMeta src m)).bind ConflictMeta.remoteResolution = m.remoteResolution := rfl
  simp only [resolveSide, h.exists_eq, hsides, hres, src.has_sides, resolutionOf, if_true,
    Option.map_some]
  obtain ⟨sides, base, remote, resolution⟩ := m
  cases src.get side with
  | some c => rfl
  | none =>
      cases side with
      | remote =>
          cases resolution with
          | none => rfl
          | some r => cases r <;> rfl
      | loc => rfl
      | base => rfl

theorem ArtifactsAt.hasHelpers (h : ArtifactsAt (parent ++ [n]) src m d) :
    baseHasConflictHelpers linked d (parent ++ [n]) = true ↔ ∃ side, (src.get side).isSome := by
  rw [baseHasConflictHelpers, List.any_eq_true]
  constructor
  · rintro ⟨suffix, hs, hfile⟩
    simp only [conflictSuffixes, List.mem_cons, List.not_mem_nil, or_false] at hs
    have hside : ∃ side : AcceptSide, suffix = side.suffix := by
      rcases hs with rfl | rfl | rfl
      · exact ⟨.base, rfl⟩
      · exact ⟨.loc, rfl⟩
      · exact ⟨.remote, rfl⟩
    obtain ⟨side, rfl⟩ := hside
    rw [isFile, h.source] at hfile
    exact ⟨side, hfile⟩
  · rintro ⟨side, hsome⟩
    refine ⟨side.suffix, by cases side <;> decide, ?_⟩
    rw [isFile, h.source]
    exact hsome

/-! ## Putting a side in its place -/

/-- With the parent there a write changes nothing but the path. -/
theorem ite_of_parent {q : Path} {k : Kind WorkNode} (hdir : d.get parent = some .dir) :
    (if q = parent ++ [n] then some k else if q <+: parent ++ [n] then some .dir else d.get q) =
      if q = parent ++ [n] then some k else d.get q := by
  split_ifs with h1 h2
  · rfl
  · exact (DirTree.dir_of_prefix hdir ((List.prefix_concat_iff.mp h2).resolve_left h1)).symm
  · rfl

theorem setPermissions_run {p : Path} {c : Content} {mode : Option String}
    (h : d.get p = some (.leaf (.file c mode))) (mode' : Option String) :
    ∃ d', setPermissions p mode' d = .ok ⟨⟩ d' ∧
      ∀ q, d'.get q = if q = p then some (.leaf (.file c mode')) else d.get q := by
  obtain ⟨parent, n, rfl, hdir⟩ := DirTree.parent_of_leaf h
  have hnot : d.get (parent ++ [n]) ≠ some .dir := by
    rw [h]
    exact nofun
  obtain ⟨d', hcall, hget⟩ := DirTree.rename_of_not_dir hdir hnot (.file c mode')
  refine ⟨d', ?_, hget⟩
  unfold setPermissions
  rw [h]
  exact syscall_ok hcall

theorem readHelper_run {c : Content} {mode : Option String}
    (h : d.get (parent ++ [n]) = some (.leaf (.file c mode))) :
    readHelper (parent ++ [n]) d = .ok c d := by
  have hdir : d.get parent = some .dir :=
    DirTree.get_of_append (n := n) (q := []) (by simp [h])
  unfold readHelper
  rw [bind_eq_of_ok (openLeaf_of_dir false n hdir)]
  unfold readFile
  rw [h]

/-- What is at the path afterwards: the side's helper or the remote's symlink, if there is one. -/
def taken (side : AcceptSide) (src : HelperSources) (m : ConflictMeta) (before : Option (Option String)) :
    Option WorkNode :=
  match src.get side with
  | some c =>
      some (.file c (match acceptedMeta side (some m) with
        | some sm => sm.mode.bind fun _ => executable
        | none => before.getD none))
  | none => (linkToTake side m).map fun l => .symlink l.target

theorem acceptHelper_run (h : ArtifactsAt (parent ++ [n]) src m d) (hnot : d.get (parent ++ [n]) ≠ some .dir)
    {c : Content} (hc : src.get side = some c) :
    ∃ d', acceptHelper side (parent ++ [n]) (some (writtenMeta src m)) d = .ok ⟨⟩ d' ∧
      ∀ q, d'.get q = if q = parent ++ [n] then
        (taken side src m (permissionsAt d (parent ++ [n]))).map Kind.leaf else d.get q := by
  have hhelper := h.helper side
  rw [hc, artifactPath_concat] at hhelper
  obtain ⟨⟨⟩, d₁, hwrite, hget₁⟩ :=
    (atomicWrite_effect d (by simp) (WorkNode.file c none)).succeeds ⟨h.openWay, hnot⟩
  have hat₁ : ∀ q, d₁.get q =
      if q = parent ++ [n] then some (.leaf (.file c none)) else d.get q := fun q => by
    rw [hget₁, ite_of_parent h.dir]
  -- the permissions of what was there, and then those of the side
  have hperm : ∃ d₂ mode, (match permissionsAt d (parent ++ [n]) with
        | some mode => setPermissions (parent ++ [n]) mode
        | none => pure ⟨⟩) d₁ = .ok ⟨⟩ d₂ ∧ mode = (permissionsAt d (parent ++ [n])).getD none ∧
      ∀ q, d₂.get q = if q = parent ++ [n] then some (.leaf (.file c mode)) else d.get q := by
    cases permissionsAt d (parent ++ [n]) with
    | none => exact ⟨d₁, none, rfl, rfl, hat₁⟩
    | some mode =>
        obtain ⟨d₂, hrun, hget₂⟩ := setPermissions_run (by rw [hat₁, if_pos rfl]) mode
        refine ⟨d₂, mode, hrun, rfl, fun q => ?_⟩
        rw [hget₂, hat₁]
        split_ifs <;> rfl
  obtain ⟨d₂, mode, hrun₂, hmode, hat₂⟩ := hperm
  have hmeta : acceptedMeta side (some (writtenMeta src m)) = acceptedMeta side (some m) := by
    cases side <;> rfl
  have hrun : acceptHelper side (parent ++ [n]) (some (writtenMeta src m)) d =
      (match acceptedMeta side (some m) with
        | some sm => restoreSideMeta (parent ++ [n]) sm
        | none => pure ⟨⟩) d₂ := by
    unfold acceptHelper
    rw [artifactPath_concat]
    have hgetd : (get : Guarded WorkNode WorkDir) d = .ok d d := rfl
    rw [bind_eq_of_ok hgetd, bind_eq_of_ok (readHelper_run hhelper), bind_eq_of_ok hwrite,
      bind_eq_of_ok hrun₂, hmeta]
  rw [hrun]
  unfold taken
  rw [hc]
  cases acceptedMeta side (some m) with
  | none =>
      refine ⟨d₂, rfl, fun q => ?_⟩
      rw [hat₂, hmode]
      rfl
  | some sm =>
      have hfile : d₂.get (parent ++ [n]) = some (.leaf (.file c mode)) := by rw [hat₂, if_pos rfl]
      obtain ⟨d₃, hrun₃, hget₃⟩ := setPermissions_run hfile (sm.mode.bind fun _ => executable)
      refine ⟨d₃, ?_, fun q => ?_⟩
      · show restoreSideMeta (parent ++ [n]) sm d₂ = _
        unfold restoreSideMeta
        rw [hrun₃]
      · rw [hget₃, hat₂]
        split_ifs <;> rfl

/-- The path with what was found of it. -/
def resolvingOf (side : AcceptSide) (src : HelperSources) (m : ConflictMeta) (p : Path) : Resolving :=
  ⟨p, some (writtenMeta src m), resolutionOf side src m⟩

theorem resolvingOf_link (p : Path) (hnone : src.get side = none) :
    (resolvingOf side src m p).link = linkToTake side m := by
  show (match resolutionOf side src m, m.remoteResolution with
    | .remoteSymlink, some (.symlink l) => some l
    | _, _ => none) = _
  rw [resolutionOf, hnone]
  unfold linkToTake
  cases side with
  | remote =>
      cases m.remoteResolution with
      | none => rfl
      | some r => cases r <;> rfl
  | loc => rfl
  | base => rfl

theorem removed_run (h : ArtifactsAt (parent ++ [n]) src m d) (hnot : d.get (parent ++ [n]) ≠ some .dir) :
    ∃ d', removeFileTolerant (parent ++ [n]) d = .ok ⟨⟩ d' ∧
      ∀ q, d'.get q = if q = parent ++ [n] then none else d.get q := by
  obtain ⟨⟨⟩, d', hrun, hget⟩ := (removeFileTolerant_effect d (by simp)).succeeds ⟨h.openWay, hnot⟩
  exact ⟨d', hrun, hget⟩

theorem linked_run (h : ArtifactsAt (parent ++ [n]) src m d) (hnot : d.get (parent ++ [n]) ≠ some .dir)
    (x : WorkNode) : ∃ d', replaceSymlink (parent ++ [n]) x d = .ok ⟨⟩ d' ∧
      ∀ q, d'.get q = if q = parent ++ [n] then some (.leaf x) else d.get q := by
  obtain ⟨⟨⟩, d', hrun, hget⟩ := (replaceSymlink_effect d (by simp) x).succeeds
    ⟨h.openWay, fun hdir => absurd hdir hnot⟩
  exact ⟨d', hrun, fun q => by rw [hget, ite_of_parent h.dir]⟩

/-- **`acceptPath_run`** — only the path itself is changed. -/
theorem acceptPath_run (side : AcceptSide) (h : ArtifactsAt (parent ++ [n]) src m d)
    (hnot : d.get (parent ++ [n]) ≠ some .dir) :
    ∃ d', acceptPath side (resolvingOf side src m (parent ++ [n])) d = .ok ⟨⟩ d' ∧
      ∀ q, d'.get q = if q = parent ++ [n] then
        (taken side src m (permissionsAt d (parent ++ [n]))).map Kind.leaf else d.get q := by
  cases hc : src.get side with
  | some c =>
      have hres : (resolvingOf side src m (parent ++ [n])).resolution = .helper := by
        show resolutionOf side src m = _
        rw [resolutionOf, hc]
        rfl
      obtain ⟨d', hrun, hget⟩ := acceptHelper_run h hnot hc
      refine ⟨d', ?_, hget⟩
      unfold acceptPath
      rw [hres]
      exact hrun
  | none =>
      have hres : (resolvingOf side src m (parent ++ [n])).resolution ≠ .helper := by
        show resolutionOf side src m ≠ _
        rw [resolutionOf, hc]
        cases linkToTake side m <;> exact nofun
      rw [taken, hc]
      unfold acceptPath
      rw [resolvingOf_link _ hc]
      cases hr : (resolvingOf side src m (parent ++ [n])).resolution with
      | helper => exact absurd hr hres
      | delete =>
          cases linkToTake side m with
          | none => exact removed_run h hnot
          | some l => exact linked_run h hnot _
      | remoteSymlink =>
          cases linkToTake side m with
          | none => exact removed_run h hnot
          | some l => exact linked_run h hnot _

end Run

/-! ## All of them -/

section Loops

variable {linked : Linked} {side : AcceptSide} {src : Path → HelperSources} {m : Path → ConflictMeta}
  {ps : List Path}

/-- A conflict as the pull has left it, with no directory at its path. -/
structure Ready (src : Path → HelperSources) (m : Path → ConflictMeta) (d : WorkDir) (p : Path) : Prop
    where
  ne_nil : p ≠ []
  valid : ∀ n ∈ p, ValidName n
  artifacts : ArtifactsAt p (src p) (m p) d
  not_dir : d.get p ≠ some .dir

theorem Ready.openWay {d : WorkDir} {p : Path} (h : Ready src m d p) : OpenWay d p := by
  obtain ⟨parent, n, rfl⟩ := (List.eq_nil_or_concat' p).resolve_left h.ne_nil
  exact h.artifacts.openWay

/-- The artifacts of a path are beside every path that is changed. -/
theorem Ready.of_same {d d' : WorkDir} {p q : Path} (h : Ready src m d q) (hp : ∀ n ∈ p, ValidName n)
    (hne : q ≠ p) (hsame : ∀ a, a ≠ p → d'.get a = d.get a) : Ready src m d' q where
  ne_nil := h.ne_nil
  valid := h.valid
  artifacts := by
    have hart : ∀ s ∈ conflictArtifactSuffixes, d'.get (artifactPath q s) = d.get (artifactPath q s) := by
      intro s hs
      apply hsame
      rintro rfl
      exact not_artifact_prefix hs hp List.prefix_rfl
    refine ⟨fun side => ?_, ?_⟩
    · rw [hart _ (suffix_mem side)]
      exact h.artifacts.helper side
    · rw [hart _ metaSuffix_mem]
      exact h.artifacts.sidecar
  not_dir := by
    rw [hsame q hne]
    exact h.not_dir

/-- What accepting a side leaves at each path. -/
def takenAt (side : AcceptSide) (src : Path → HelperSources) (m : Path → ConflictMeta) (d : WorkDir)
    (p : Path) : Option WorkNode :=
  taken side (src p) (m p) (permissionsAt d p)

/-- **`acceptPaths_run`** — each path is changed, and nothing else. -/
theorem acceptPaths_run (side : AcceptSide) {d : WorkDir} (hready : ∀ p ∈ ps, Ready src m d p)
    (hnd : ps.Nodup) :
    ∃ d', (ps.map fun p => resolvingOf side (src p) (m p) p).forM (acceptPath side) d = .ok ⟨⟩ d' ∧
      ∀ q, d'.get q = if q ∈ ps then (takenAt side src m d q).map Kind.leaf else d.get q := by
  induction ps generalizing d with
  | nil => exact ⟨d, rfl, fun q => by simp⟩
  | cons p ps ih =>
      obtain ⟨hp, hrest⟩ := List.forall_mem_cons.mp hready
      obtain ⟨hout, hnd'⟩ := List.nodup_cons.mp hnd
      obtain ⟨parent, n, rfl⟩ := (List.eq_nil_or_concat' p).resolve_left hp.ne_nil
      obtain ⟨d₁, hrun₁, hget₁⟩ := acceptPath_run side hp.artifacts hp.not_dir
      have hsame : ∀ a, a ≠ parent ++ [n] → d₁.get a = d.get a := fun a ha => by
        rw [hget₁, if_neg ha]
      have hne : ∀ q ∈ ps, q ≠ parent ++ [n] := by
        rintro q hq rfl
        exact hout hq
      obtain ⟨d₂, hrun₂, hget₂⟩ :=
        ih (fun q hq => (hrest q hq).of_same hp.valid (hne q hq) hsame) hnd'
      refine ⟨d₂, ?_, fun q => ?_⟩
      · show (acceptPath side _ >>= fun _ => (ps.map fun p => resolvingOf side (src p) (m p) p).forM
          (acceptPath side)) d = _
        rw [bind_eq_of_ok hrun₁]
        exact hrun₂
      · rw [hget₂]
        by_cases hq : q ∈ ps
        · rw [if_pos hq, if_pos (List.mem_cons_of_mem _ hq), takenAt, takenAt, permissionsAt,
            permissionsAt, hsame q (hne q hq)]
        · rw [if_neg hq, hget₁]
          by_cases hqp : q = parent ++ [n]
          · rw [if_pos hqp, hqp, if_pos List.mem_cons_self]
            rfl
          · rw [if_neg hqp, if_neg (by simp [hqp, hq])]

/-- What the sidecar says `clone_root` should have at the path, if it says anything. -/
def editOf (m : ConflictMeta) : Option (Option TreeEntry) :=
  match m.remoteResolution with
  | some (.blob b) => some (some (.blob b))
  | some (.symlink l) => some (some (.symlink l))
  | some .deleted => some none
  | _ => none

def editsOf (m : Path → ConflictMeta) (ps : List Path) : List (Path × Option TreeEntry) :=
  ps.filterMap fun p => (editOf (m p)).map fun o => (p, o)

theorem editOf_leaf {m : ConflictMeta} {o : Option TreeEntry} (h : editOf m = some o) :
    ∀ e, o = some e → e.isTree = false := by
  rintro e rfl
  unfold editOf at h
  split at h <;> cases h <;> rfl

/-- A path beside the edited ones has no blob above it that was not there before. -/
theorem not_blobAbove_of_edited {base t : Tree} {es : List (Path × Option TreeEntry)} {p : Path}
    (h : Tree.EditedAll base es t) (hapart : ∀ x ∈ es, ¬ x.1 <+: p ∧ ¬ p <+: x.1)
    (hbase : ¬ Tree.BlobAbove base p) : ¬ Tree.BlobAbove t p := by
  rintro ⟨a, n, r, b, rfl, ha⟩
  have hle : ∀ x ∈ es, ¬ x.1 <+: a := fun x hx hpre =>
    (hapart x hx).1 (hpre.trans (List.prefix_append a _))
  by_cases hnear : ∃ x ∈ es, x.1 <+: a ∨ a <+: x.1
  · have hne : ∀ x ∈ es, a ≠ x.1 := by
      rintro x hx rfl
      exact hle x hx List.prefix_rfl
    have htree := h.near a hne hnear _ ha
    cases htree
  · push Not at hnear
    rw [h.beside a hnear] at ha
    exact hbase ⟨a, n, r, b, rfl, ha⟩

theorem advanceOne_run (side : AcceptSide) (src : HelperSources) {base : Tree} {t : Option Tree}
    {es : List (Path × Option TreeEntry)} {p : Path} {m : ConflictMeta}
    (h : Tree.EditedAll base es (t.getD .nil)) (hp : p ≠ [])
    (hapart : ∀ x ∈ es, ¬ x.1 <+: p ∧ ¬ p <+: x.1) (hbase : ¬ Tree.BlobAbove base p)
    (hthere : m.remoteResolution = some .deleted → base.at p ≠ none) :
    ∃ t', advanceOne t (resolvingOf side src m p) = .ok t' ∧
      Tree.EditedAll base (es ++ ((editOf m).map fun o => (p, o)).toList) (t'.getD .nil) := by
  have hclear := not_blobAbove_of_edited h hapart hbase
  have hsplice : ∀ e : TreeEntry, e.isTree = false → ∃ t', Tree.spliceEntry t p e = .ok t' ∧
      Tree.EditedAll base (es ++ [(p, some e)]) t' := by
    intro e he
    obtain ⟨t', ht'⟩ := Tree.spliceEntry_isOk hp hclear e
    refine ⟨t', ht', h.snoc (Tree.edited_of_spliceEntry ht') hapart ?_⟩
    rintro e' heq
    exact Option.some.inj heq ▸ he
  have hres : (resolvingOf side src m p).record.bind ConflictMeta.remoteResolution =
      m.remoteResolution := rfl
  unfold advanceOne editOf
  rw [hres]
  cases hm : m.remoteResolution with
  | none => exact ⟨t, rfl, by simpa using h⟩
  | some r =>
      cases r with
      | unrecorded => exact ⟨t, rfl, by simpa using h⟩
      | blob b =>
          obtain ⟨t', ht', hed⟩ := hsplice (.blob b) rfl
          exact ⟨some t', by simp only [show (resolvingOf side src m p).path = p from rfl, ht']; rfl, hed⟩
      | symlink l =>
          obtain ⟨t', ht', hed⟩ := hsplice (.symlink l) rfl
          exact ⟨some t', by simp only [show (resolvingOf side src m p).path = p from rfl, ht']; rfl, hed⟩
      | deleted =>
          have hat : (t.getD .nil).at p ≠ none := by
            rw [h.beside p hapart]
            exact hthere hm
          cases t with
          | none =>
              obtain ⟨n, r, rfl⟩ := List.exists_cons_of_ne_nil hp
              exact absurd (Tree.nil_at_cons n r) hat
          | some t =>
              obtain ⟨o, ho, hfound⟩ := Tree.removeEntry_isOk hp hclear
              obtain ⟨t', rfl⟩ := Option.ne_none_iff_exists'.mp (hfound hat)
              refine ⟨some t', ?_, h.snoc (Tree.edited_of_removeEntry ho).1 hapart nofun⟩
              simp only [show (resolvingOf side src m p).path = p from rfl]
              rw [show t.removeEntry p = .ok (some t') from ho]
              rfl

/-- **`advance_run`** — the edits of paths none of which lies above another all go through. -/
theorem advance_run (side : AcceptSide) (src : Path → HelperSources) {base : Tree} {t : Option Tree}
    {es : List (Path × Option TreeEntry)} (h : Tree.EditedAll base es (t.getD .nil)) (hnil : ∀ p ∈ ps, p ≠ [])
    (hdone : ∀ p ∈ ps, ∀ x ∈ es, ¬ x.1 <+: p ∧ ¬ p <+: x.1)
    (hapart : ps.Pairwise fun p q => ¬ p <+: q ∧ ¬ q <+: p)
    (hbase : ∀ p ∈ ps, ¬ Tree.BlobAbove base p)
    (hthere : ∀ p ∈ ps, (m p).remoteResolution = some .deleted → base.at p ≠ none) :
    ∃ t', advance t (ps.map fun p => resolvingOf side (src p) (m p) p) = .ok t' ∧
      Tree.EditedAll base (es ++ editsOf m ps) (t'.getD .nil) := by
  induction ps generalizing t es with
  | nil => exact ⟨t, rfl, by simpa [editsOf] using h⟩
  | cons p ps ih =>
      obtain ⟨hp, hnil⟩ := List.forall_mem_cons.mp hnil
      obtain ⟨hdp, hdone⟩ := List.forall_mem_cons.mp hdone
      obtain ⟨hap, hapart⟩ := List.pairwise_cons.mp hapart
      obtain ⟨hbp, hbase⟩ := List.forall_mem_cons.mp hbase
      obtain ⟨htp, hthere⟩ := List.forall_mem_cons.mp hthere
      obtain ⟨t₁, hrun₁, hed₁⟩ := advanceOne_run side (src p) h hp hdp hbp htp
      have hdone₁ : ∀ q ∈ ps, ∀ x ∈ es ++ ((editOf (m p)).map fun o => (p, o)).toList,
          ¬ x.1 <+: q ∧ ¬ q <+: x.1 := by
        intro q hq x hx
        rcases List.mem_append.mp hx with hx | hx
        · exact hdone q hq x hx
        · obtain ⟨o, -, rfl⟩ := Option.map_eq_some_iff.mp (Option.mem_toList.mp hx)
          exact hap q hq
      obtain ⟨t₂, hrun₂, hed₂⟩ := ih hed₁ hnil hdone₁ hapart hbase hthere
      refine ⟨t₂, ?_, ?_⟩
      · rw [List.map_cons, advance, hrun₁]
        exact hrun₂
      · have hlist : es ++ editsOf m (p :: ps) =
            es ++ ((editOf (m p)).map fun o => (p, o)).toList ++ editsOf m ps := by
          rw [editsOf, List.filterMap_cons, List.append_assoc]
          cases editOf (m p) <;> rfl
        rw [hlist]
        exact hed₂

theorem advance_wf {t t' : Option Tree} {xs : List Resolving} (ht : (t.getD .nil).Wf)
    (hblob : ∀ x ∈ xs, ∀ b, x.record.bind ConflictMeta.remoteResolution = some (.blob b) →
      (TreeEntry.blob b).Wf)
    (h : advance t xs = .ok t') : (t'.getD .nil).Wf := by
  induction xs generalizing t with
  | nil =>
      cases h
      exact ht
  | cons x xs ih =>
      obtain ⟨hx, hxs⟩ := List.forall_mem_cons.mp hblob
      obtain ⟨t₁, h₁, h⟩ := bind_eq_ok.mp h
      refine ih ?_ hxs h
      unfold advanceOne at h₁
      split at h₁
      · rename_i b hb
        obtain ⟨t', ht', rfl⟩ := map_eq_ok.mp h₁
        exact Tree.spliceEntry_wf ht (hx b hb) ht'
      · rename_i l hl
        obtain ⟨t', ht', rfl⟩ := map_eq_ok.mp h₁
        have hwf : (TreeEntry.symlink l).Wf := trivial
        exact Tree.spliceEntry_wf ht hwf ht'
      · split at h₁
        · cases h₁
          trivial
        · obtain ⟨o, ho, rfl⟩ := map_eq_ok.mp h₁
          cases o with
          | none => exact ht
          | some t' => exact Tree.removeEntry_wf ht ho
      · cases h₁
        exact ht

end Loops

/-! ## Cleaning up -/

section CleanUp

variable {ps : List Path} {d d' d'' : WorkDir} {p : Path}

/-- Files and symlinks are what they were, but for artifacts, and nothing has come to a path of `ps`. -/
structure Cleaned (ps : List Path) (d d' : WorkDir) : Prop where
  leaf : ∀ q, ¬ IsArtifactOf ps q → ∀ x, d'.get q = some (.leaf x) ↔ d.get q = some (.leaf x)
  gone : ∀ p ∈ ps, d.get p = none → d'.get p = none

theorem Cleaned.refl (ps : List Path) (d : WorkDir) : Cleaned ps d d :=
  ⟨fun _ _ _ => Iff.rfl, fun _ _ h => h⟩

theorem Cleaned.trans (h : Cleaned ps d d') (h' : Cleaned ps d' d'') : Cleaned ps d d'' where
  leaf q hq x := (h'.leaf q hq x).trans (h.leaf q hq x)
  gone p hp hnone := h'.gone p hp (h.gone p hp hnone)

theorem Cleaned.openWay (h : Cleaned ps d d') (hp : ∀ n ∈ p, ValidName n) (hway : OpenWay d p) :
    OpenWay d' p := by
  intro a ha hne x hx
  exact hway a ha hne x ((h.leaf a (not_artifact_of_le hp ha) x).mp hx)

/-- Conflicts none of whose paths lies above another. -/
structure Unnested (ps : List Path) : Prop where
  ne_nil : ∀ p ∈ ps, p ≠ []
  valid : ∀ p ∈ ps, ∀ n ∈ p, ValidName n
  apart : ∀ p ∈ ps, ∀ q ∈ ps, p <+: q → p = q

theorem removeAll_cleaned (hps : Unnested ps) (hp : p ∈ ps) (hok : ∀ q ∈ ps, Writable d q) :
    ∃ d', removeAllConflictArtifacts p d = .ok ⟨⟩ d' ∧ Cleaned ps d d' ∧ ∀ q ∈ ps, Writable d' q := by
  obtain ⟨parent, n, rfl⟩ := (List.eq_nil_or_concat' p).resolve_left (hps.ne_nil p hp)
  obtain ⟨⟨⟩, d', hrun, hputs⟩ := (removeAll_effect d parent n).succeeds (hok _ hp)
  have hway := openWay_concat.mp (hok _ hp).1
  have hbeside : ∀ q, (∀ s ∈ conflictArtifactSuffixes, q ≠ artifactPath (parent ++ [n]) s) →
      ¬ q <+: parent → d'.get q = d.get q := by
    intro q hq hpre
    apply hputs.beside q _ hpre
    intro x hx
    obtain ⟨s, hs, rfl⟩ := List.mem_map.mp hx
    rw [← artifactPath_concat]
    exact hq s hs
  have hclean : Cleaned ps d d' := by
    refine ⟨fun q hq x => ?_, fun q hq hnone => ?_⟩
    · by_cases hpre : q <+: parent
      · exact iff_of_false (hputs.above hway q hpre x) (hway q hpre x)
      · rw [hbeside q (fun s hs heq => hq ⟨_, hp, s, hs, heq⟩) hpre]
    · rw [hbeside q, hnone]
      · rintro s hs rfl
        exact not_artifact_prefix hs (hps.valid _ hq) List.prefix_rfl
      · intro hpre
        have heq := hps.apart q hq _ hp (hpre.trans (List.prefix_append parent [n]))
        exact not_concat_le parent n (heq ▸ hpre)
  refine ⟨d', hrun, hclean, fun q hq => ⟨hclean.openWay (hps.valid q hq) (hok q hq).1, fun s hs => ?_⟩⟩
  by_cases hqp : q = parent ++ [n]
  · subst hqp
    rw [artifactPath_concat, hputs.there (n ++ s, none) (List.mem_map.mpr ⟨s, hs, rfl⟩)]
    exact nofun
  · rw [hbeside]
    · exact (hok q hq).2 s hs
    · intro t ht heq
      exact hqp (artifactPath_inj (hps.ne_nil q hq) (hps.ne_nil _ hp) hs ht heq).1
    · intro hpre
      exact not_artifact_prefix hs (hps.valid _ hp) (hpre.trans (List.prefix_append parent [n]))

theorem removeAlls_cleaned (hps : Unnested ps) {xs : List Resolving} (hxs : ∀ x ∈ xs, x.path ∈ ps)
    (hok : ∀ q ∈ ps, Writable d q) :
    ∃ d', (xs.forM fun x => removeAllConflictArtifacts x.path) d = .ok ⟨⟩ d' ∧ Cleaned ps d d' ∧
      ∀ q ∈ ps, Writable d' q := by
  induction xs generalizing d with
  | nil => exact ⟨d, rfl, Cleaned.refl ps d, hok⟩
  | cons x xs ih =>
      obtain ⟨hx, hxs⟩ := List.forall_mem_cons.mp hxs
      obtain ⟨d₁, hrun₁, hclean₁, hok₁⟩ := removeAll_cleaned hps hx hok
      obtain ⟨d₂, hrun₂, hclean₂, hok₂⟩ := ih hxs hok₁
      refine ⟨d₂, ?_, hclean₁.trans hclean₂, hok₂⟩
      show (removeAllConflictArtifacts x.path >>= fun _ =>
        xs.forM fun x => removeAllConflictArtifacts x.path) d = _
      rw [bind_eq_of_ok hrun₁]
      exact hrun₂

/-- Directories may be gone, and nothing else has changed. -/
def OnlyPruned (d d' : WorkDir) : Prop := ∀ q, d'.get q = d.get q ∨ d.get q = some .dir ∧ d'.get q = none

theorem OnlyPruned.trans (h : OnlyPruned d d') (h' : OnlyPruned d' d'') : OnlyPruned d d'' := by
  intro q
  rcases h q with heq | ⟨hdir, hnone⟩
  · rcases h' q with heq' | ⟨hdir', hnone'⟩
    · exact .inl (heq'.trans heq)
    · exact .inr ⟨heq ▸ hdir', hnone'⟩
  · rcases h' q with heq' | ⟨hdir', -⟩
    · exact .inr ⟨hdir, heq'.trans hnone⟩
    · rw [hnone] at hdir'
      cases hdir'

theorem OnlyPruned.cleaned (h : OnlyPruned d d') (ps : List Path) : Cleaned ps d d' where
  leaf q _ x := by
    rcases h q with heq | ⟨hdir, hnone⟩
    · rw [heq]
    · simp [hdir, hnone]
  gone p _ hp := by
    rcases h p with heq | ⟨hdir, -⟩
    · rw [heq, hp]
    · rw [hp] at hdir
      cases hdir

/-- With no file or symlink on the way a directory is removed or left. -/
theorem removeDirIfEmpty_run {a : Path} (hway : ∀ b, b <+: a → ∀ x, d.get b ≠ some (.leaf x)) :
    ∃ r d', removeDirIfEmpty a d = .ok r d' ∧ OnlyPruned d d' := by
  rcases List.eq_nil_or_concat' a with rfl | ⟨parent, n, rfl⟩
  · exact ⟨false, d, rfl, fun _ => .inl rfl⟩
  have hne : ¬ parent ++ [n] = [] := by simp
  unfold removeDirIfEmpty
  rw [if_neg hne, openLeaf_concat]
  obtain ⟨hdir, hrun⟩ | ⟨-, -, hrun⟩ | ⟨⟨a, x, ha, hleaf⟩, -⟩ :=
    resolveDir_open (DirTree.get_nil d) parent
  · rw [hrun]
    cases hk : d.get (parent ++ [n]) with
    | none => exact ⟨false, d, by simp only [hk], fun _ => .inl rfl⟩
    | some k =>
        cases k with
        | leaf x => exact absurd hk (hway _ List.prefix_rfl x)
        | dir =>
            simp only [hk]
            obtain ⟨s, hs⟩ := DirTree.get_eq_dir_iff.mp hk
            cases s with
            | nil =>
                obtain ⟨d', hrm, hget⟩ := DirTree.rmdir_of_empty hs
                refine ⟨true, d', by simp only [hrm], fun q => ?_⟩
                rw [hget]
                split_ifs with hq
                · exact .inr ⟨hq ▸ hk, rfl⟩
                · exact .inl rfl
            | leaf m x rest =>
                exact ⟨false, d, by simp only [DirTree.rmdir, hs], fun _ => .inl rfl⟩
            | sub m s rest =>
                exact ⟨false, d, by simp only [DirTree.rmdir, hs], fun _ => .inl rfl⟩
  · exact ⟨false, d, by rw [hrun], fun _ => .inl rfl⟩
  · exact absurd hleaf (hway a (ha.trans (List.prefix_append parent [n])) x)

theorem pruneUp_run {as : List Path} (hway : ∀ a ∈ as, ∀ b, b <+: a → ∀ x, d.get b ≠ some (.leaf x)) :
    ∃ d', pruneUp as d = .ok ⟨⟩ d' ∧ OnlyPruned d d' := by
  induction as generalizing d with
  | nil => exact ⟨d, rfl, fun _ => .inl rfl⟩
  | cons a as ih =>
      obtain ⟨ha, has⟩ := List.forall_mem_cons.mp hway
      obtain ⟨r, d₁, hrun₁, hpruned₁⟩ := removeDirIfEmpty_run ha
      have hstep : pruneUp (a :: as) d = (if r then pruneUp as else pure ⟨⟩) d₁ := by
        rw [pruneUp, bind_eq_of_ok hrun₁]
      rw [hstep]
      cases r with
      | false => exact ⟨d₁, rfl, hpruned₁⟩
      | true =>
          have hway₁ : ∀ a ∈ as, ∀ b, b <+: a → ∀ x, d₁.get b ≠ some (.leaf x) := by
            intro a ha b hb x hx
            rcases hpruned₁ b with heq | ⟨-, hnone⟩
            · exact has a ha b hb x (heq ▸ hx)
            · rw [hnone] at hx
              cases hx
          obtain ⟨d₂, hrun₂, hpruned₂⟩ := ih hway₁
          exact ⟨d₂, hrun₂, hpruned₁.trans hpruned₂⟩

theorem way_of_parents (hway : OpenWay d p) {a : Path} (ha : a ∈ parentsOf p) :
    ∀ b, b <+: a → ∀ x, d.get b ≠ some (.leaf x) := by
  intro b hb
  rw [parentsOf, List.mem_reverse, List.mem_filter, List.mem_inits] at ha
  obtain ⟨hpre, hne⟩ := ha
  have hle : b <+: p.dropLast := hb.trans hpre
  apply hway b (hle.trans (List.dropLast_prefix p))
  rintro rfl
  have hlen := hle.length_le
  rw [List.length_dropLast] at hlen
  have hpos : 0 < a.length := List.length_pos_iff.mpr (by simpa using hne)
  have hba := hb.length_le
  have hap := hpre.length_le
  rw [List.length_dropLast] at hap
  omega

theorem prunes_run {xs : List Resolving} (hps : Unnested ps) (hxs : ∀ x ∈ xs, x.path ∈ ps)
    (hway : ∀ q ∈ ps, OpenWay d q) :
    ∃ d', (xs.forM fun x => pruneUp (parentsOf x.path)) d = .ok ⟨⟩ d' ∧ Cleaned ps d d' := by
  induction xs generalizing d with
  | nil => exact ⟨d, rfl, Cleaned.refl ps d⟩
  | cons x xs ih =>
      obtain ⟨hx, hxs⟩ := List.forall_mem_cons.mp hxs
      obtain ⟨d₁, hrun₁, hpruned₁⟩ := pruneUp_run fun a ha => way_of_parents (hway _ hx) ha
      have hclean₁ := hpruned₁.cleaned ps
      obtain ⟨d₂, hrun₂, hclean₂⟩ := ih hxs fun q hq => hclean₁.openWay (hps.valid q hq) (hway q hq)
      refine ⟨d₂, ?_, hclean₁.trans hclean₂⟩
      show (pruneUp (parentsOf x.path) >>= fun _ =>
        xs.forM fun x => pruneUp (parentsOf x.path)) d = _
      rw [bind_eq_of_ok hrun₁]
      exact hrun₂

/-- **`cleanUp_run`** — the artifacts are removed, and no file or symlink besides. -/
theorem cleanUp_run (hps : Unnested ps) {xs : List Resolving} (hxs : ∀ x ∈ xs, x.path ∈ ps)
    (hok : ∀ q ∈ ps, Writable d q) : ∃ d', cleanUp xs d = .ok ⟨⟩ d' ∧ Cleaned ps d d' := by
  obtain ⟨d₁, hrun₁, hclean₁, hok₁⟩ := removeAlls_cleaned hps hxs hok
  obtain ⟨d₂, hrun₂, hclean₂⟩ := prunes_run hps
    (fun x (hx : x ∈ xs.filter isDeleted) => hxs x (List.mem_of_mem_filter hx)) fun q hq => (hok₁ q hq).1
  refine ⟨d₂, ?_, hclean₁.trans hclean₂⟩
  unfold cleanUp
  rw [bind_eq_of_ok hrun₁]
  exact hrun₂

end CleanUp

/-! ## The whole command -/

section Command

variable {linked : Linked} {side : AcceptSide} {src : Path → HelperSources} {m : Path → ConflictMeta}
  {d : WorkDir} {p q : Path}

theorem mem_collectConflictingRecursive {dir : Path} {d : WorkDir}
    (h : q ∈ collectConflictingRecursive dir d) : ∃ n r, q = dir ++ n :: r := by
  induction d generalizing dir with
  | nil => cases h
  | leaf name x rest ih =>
      rw [collectConflictingRecursive, List.mem_append] at h
      rcases h with h | h
      · split_ifs at h
        · cases h
        · obtain ⟨base, -, rfl⟩ := Option.map_eq_some_iff.mp (Option.mem_toList.mp h)
          exact ⟨base, [], rfl⟩
      · exact ih h
  | sub name s rest ihs ih =>
      rw [collectConflictingRecursive, List.mem_append] at h
      rcases h with h | h
      · split_ifs at h
        · cases h
        · obtain ⟨n, r, rfl⟩ := ihs h
          exact ⟨name, n :: r, by simp⟩
      · exact ih h

/-- A path is found by its helpers, or below a directory. -/
theorem mem_collectScope (h : q ∈ collectScope linked d p) :
    q = p ∧ d.get p ≠ some .dir ∧ baseHasConflictHelpers linked d p = true ∨
      ∃ n r, q = p ++ n :: r := by
  unfold collectScope at h
  split at h
  · exact .inr (mem_collectConflictingRecursive h)
  · rename_i hnot
    split_ifs at h with hhelpers
    · refine .inl ⟨List.mem_singleton.mp h, fun hdir => ?_, hhelpers⟩
      obtain ⟨s, hs⟩ := DirTree.get_eq_dir_iff.mp hdir
      exact hnot s hs
    · cases h

theorem collectScope_of_helpers (hdir : d.get p ≠ some .dir)
    (h : baseHasConflictHelpers linked d p = true) : collectScope linked d p = [p] := by
  unfold collectScope
  split
  · rename_i s hs
    exact absurd (DirTree.get_eq_dir_iff.mpr ⟨s, hs⟩) hdir
  · rw [if_pos h]

theorem Ready.hasHelpers (h : Ready src m d p) :
    baseHasConflictHelpers linked d p = true ↔ ∃ side, ((src p).get side).isSome := by
  obtain ⟨parent, n, rfl⟩ := (List.eq_nil_or_concat' p).resolve_left h.ne_nil
  exact h.artifacts.hasHelpers

theorem Ready.resolves (h : Ready src m d p) (linked : Linked) (side : AcceptSide) :
    ConflictMeta.read linked d p = some (writtenMeta (src p) (m p)) ∧
      resolveSide linked d side p (some (writtenMeta (src p) (m p))) =
        some (resolutionOf side (src p) (m p)) := by
  obtain ⟨parent, n, rfl⟩ := (List.eq_nil_or_concat' p).resolve_left h.ne_nil
  exact ⟨h.artifacts.read, h.artifacts.resolveSide_eq side⟩

theorem resolveAll_run {ps : List Path} (h : ∀ p ∈ ps, Ready src m d p) :
    resolveAll linked d side ps = .ok (ps.map fun p => resolvingOf side (src p) (m p) p) := by
  have hfilter : (ps.filter fun p =>
      (resolveSide linked d side p (ConflictMeta.read linked d p)).isNone) = [] := by
    rw [List.filter_eq_nil_iff]
    intro p hp
    obtain ⟨hread, hres⟩ := (h p hp).resolves linked side
    rw [hread, hres]
    exact nofun
  have hmap : (ps.filterMap fun p => (resolveSide linked d side p (ConflictMeta.read linked d p)).map
      fun r => (⟨p, ConflictMeta.read linked d p, r⟩ : Resolving)) =
        ps.map fun p => resolvingOf side (src p) (m p) p := by
    rw [← List.filterMap_eq_map]
    apply List.filterMap_congr
    intro p hp
    obtain ⟨hread, hres⟩ := (h p hp).resolves linked side
    rw [hread, hres]
    rfl
  unfold resolveAll
  simp only [hfilter, hmap]

theorem outcome_paths {sorted : List Path → List Path} {scopes : List Path} {s : PullState}
    {l : List Path} (h : (runAccept linked sorted side scopes s).outcome = .ok l) :
    l = sorted (scopes.flatMap (collectScope linked s.fs)) := by
  unfold runAccept at h
  simp only at h
  split_ifs at h
  split at h
  · cases h
  · split at h
    · cases h
    · split at h
      · cases h
      · split at h
        · cases h
        · exact (Except.ok.inj h).symm

/-- What an accept that goes through leaves. -/
structure Accepted (side : AcceptSide) (base : Tree) (src : Path → HelperSources)
    (m : Path → ConflictMeta) (s : PullState) (ps : List Path) (r : AcceptResult) : Prop where
  outcome : r.outcome = .ok ps
  edited : Tree.EditedAll base (editsOf m ps) (r.state.cloneRoot.getD .nil)
  cleaned : ∃ d, (∀ q, d.get q = if q ∈ ps then (takenAt side src m s.fs q).map Kind.leaf
    else s.fs.get q) ∧ Cleaned ps d r.state.fs
  wf : base.Wf → (∀ p ∈ ps, ∀ b, (m p).remoteResolution = some (.blob b) → (TreeEntry.blob b).Wf) →
    (r.state.cloneRoot.getD .nil).Wf

/-- **`runAccept_run`** — with every conflict ready and none above another the command goes through. -/
theorem runAccept_run {sorted : List Path → List Path} {scopes ps : List Path} {s : PullState}
    (hps : ps = sorted (scopes.flatMap (collectScope linked s.fs))) (hne : ps ≠ []) (hnd : ps.Nodup)
    (hready : ∀ p ∈ ps, Ready src m s.fs p) (hunnested : Unnested ps)
    (hclear : ∀ p ∈ ps, ¬ Tree.BlobAbove (s.cloneRoot.getD .nil) p)
    (hthere : ∀ p ∈ ps, (m p).remoteResolution = some .deleted → (s.cloneRoot.getD .nil).at p ≠ none) :
    Accepted side (s.cloneRoot.getD .nil) src m s ps (runAccept linked sorted side scopes s) := by
  have hapart : ps.Pairwise fun p q => ¬ p <+: q ∧ ¬ q <+: p := by
    apply hnd.imp_of_mem
    intro p q hp hq hpq
    exact ⟨fun hpre => hpq (hunnested.apart p hp q hq hpre),
      fun hpre => hpq (hunnested.apart q hq p hp hpre).symm⟩
  obtain ⟨t, hadvance, hedited⟩ := advance_run side src
    (Tree.EditedAll.refl (s.cloneRoot.getD .nil)) hunnested.ne_nil (fun _ _ _ hx => nomatch hx) hapart
    hclear hthere
  obtain ⟨d₁, hrun₁, hget₁⟩ := acceptPaths_run side hready hnd
  have hout : ∀ q, q ∉ ps → d₁.get q = s.fs.get q := fun q hq => by rw [hget₁, if_neg hq]
  have hartifact : ∀ p ∈ ps, ∀ s ∈ conflictArtifactSuffixes, artifactPath p s ∉ ps := fun p _ s hs hq =>
    not_artifact_prefix hs (hunnested.valid _ hq) List.prefix_rfl
  have hok : ∀ p ∈ ps, Writable d₁ p := by
    intro p hp
    constructor
    · intro a ha hap x
      rw [hout a fun hmem => hap (hunnested.apart a hmem p hp ha)]
      exact (hready p hp).openWay a ha hap x
    · intro s hs
      rw [hout _ (hartifact p hp s hs)]
      rcases suffix_cases hs with ⟨side, rfl⟩ | rfl
      · rw [(hready p hp).artifacts.helper side]
        cases (src p).get side <;> exact nofun
      · rw [(hready p hp).artifacts.sidecar]
        exact nofun
  have hxs : ∀ x ∈ ps.map fun p => resolvingOf side (src p) (m p) p, x.path ∈ ps := by
    intro x hx
    obtain ⟨p, hp, rfl⟩ := List.mem_map.mp hx
    exact hp
  obtain ⟨d₂, hrun₂, hclean₂⟩ := cleanUp_run hunnested hxs hok
  have hempty : ps.isEmpty = false := by
    cases ps with
    | nil => exact absurd rfl hne
    | cons p ps => rfl
  have hrun : runAccept linked sorted side scopes s = ⟨.ok ps, ⟨d₂, t⟩⟩ := by
    unfold runAccept
    simp only [← hps, hempty, resolveAll_run hready, hadvance, hrun₁, hrun₂]
    rfl
  rw [hrun]
  refine ⟨rfl, hedited, ⟨d₁, hget₁, hclean₂⟩, fun hwf hblob => advance_wf hwf ?_ hadvance⟩
  intro x hx b hb
  obtain ⟨p, hp, rfl⟩ := List.mem_map.mp hx
  exact hblob p hp b hb

end Command

end Omemfs.Sync
