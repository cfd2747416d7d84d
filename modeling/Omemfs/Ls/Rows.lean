/-
# Omemfs.Ls.Rows — the rows of `ls`.

The rows come from three places: a walk of the clone root, with a mark where the diff has one for just
that path; the diff, for what is new and for the directories above a change; and what only the remote
has.  A row is known by what it prints, the path with a slash after a directory's, and what is printed
already is not added again.

Ignored paths, stubs and conflicts, which have rows and marks of their own, are left out, and so are the
columns that no mark depends on.
-/
import Omemfs.Ls.Diff

namespace Omemfs.Ls

open Omemfs Sync

/-- A column of `ls`. -/
inductive Mark where
  | blank
  | added
  | modified
  | deleted
  deriving DecidableEq

structure Row where
  path : Path
  /-- printed with a slash at its end -/
  slash : Bool
  /-- the `X` column -/
  status : Mark
  /-- the `R` column -/
  remoteStatus : Mark
  deriving DecidableEq

def Row.key (r : Row) : Path × Bool := (r.path, r.slash)

/-- What a listing is made from. -/
structure Listing where
  recursive : Bool
  /-- `--working`: the working tree goes before the remote's new paths -/
  working : Bool
  /-- the tree objects of the local store -/
  present : Tree → Bool
  diffMap : List (Path × DiffRow)
  remoteStatus : List ((Path × Bool) × Mark)
  /-- what only the remote has -/
  remoteAdded : List ((Path × Bool) × TreeEntry)

namespace Listing

variable (l : Listing)

def remoteMark (key : Path × Bool) : Mark := (l.remoteStatus.lookup key).getD .blank

def statusChar (p : Path) : Mark :=
  match l.diffMap.lookup p with
  | some .modified => .modified
  | some .deleted => .deleted
  | some .added => .added
  | some .addedEmptyDir => .added
  | none => .blank

/-! ## The walk of a tree -/

def leafRow (force : Option Mark) (p : Path) : Row :=
  ⟨p, false, force.getD (l.statusChar p), l.remoteMark (p, false)⟩

def dirRow (force : Option Mark) (p : Path) : Row :=
  ⟨p, true, force.getD .blank, l.remoteMark (p, true)⟩

def collectTreeRows (force : Option Mark) : Tree → Path → List Row
  | .nil, _ => []
  | .blob n _ rest, pfx => l.leafRow force (pfx ++ [n]) :: collectTreeRows force rest pfx
  | .tree n t _ rest, pfx =>
      l.dirRow force (pfx ++ [n]) ::
        ((if l.recursive && l.present t then collectTreeRows force t (pfx ++ [n]) else []) ++
          collectTreeRows force rest pfx)
  | .symlink n _ rest, pfx => l.leafRow force (pfx ++ [n]) :: collectTreeRows force rest pfx

/-! ## A requested path -/

/-- The directory of the remote, or the file. -/
def lookupRemoteAdded (p : Path) : Option TreeEntry :=
  (l.remoteAdded.lookup (p, true)).or (l.remoteAdded.lookup (p, false))

/-- An error on the way counts as nothing. -/
def navigateWorking (workingRoot : Tree) (p : Path) : Option TreeEntry :=
  match workingRoot.navigateEntry p with
  | .ok o => o
  | .error _ => none

/-- The entry of a requested path, and whether it is the clone root's. -/
def resolveTarget (root workingRoot : Tree) (p : Path) : Except Error (TreeEntry × Bool) :=
  root.navigateEntry p >>= fun cloneEntry =>
  match cloneEntry with
  | some e => .ok (e, true)
  | none =>
      let entry :=
        if l.working then (navigateWorking workingRoot p).or (l.lookupRemoteAdded p)
        else (l.lookupRemoteAdded p).or (navigateWorking workingRoot p)
      match entry with
      | some e => .ok (e, false)
      | none => .error (.other ("path not found: " ++ "/".intercalate p))

/-- A change strictly below the path. -/
def changesBelow (p : Path) : Bool := l.diffMap.any fun x => p.isPrefixOf x.1 && x.1 != p

def rootRow : Row :=
  ⟨[], false, if l.diffMap.isEmpty then .blank else .modified,
    if l.remoteStatus.isEmpty then .blank else .modified⟩

def selfRow (force : Option Mark) (p : Path) : Row :=
  ⟨p, true, force.getD (if l.changesBelow p then .modified else .blank), l.remoteMark (p, true)⟩

def entryRows (e : TreeEntry) (force : Option Mark) (p : Path) : List Row :=
  match e with
  | .tree t _ =>
      l.selfRow force p :: (if l.present t then l.collectTreeRows force t p else [])
  | _ => [l.leafRow force p]

def targetRows (root workingRoot : Tree) (p : Path) : Except Error (List Row) :=
  if p = [] then .ok (l.rootRow :: (if l.present root then l.collectTreeRows none root [] else []))
  else
    l.resolveTarget root workingRoot p >>= fun x =>
    .ok (l.entryRows x.1 (if x.2 then none else some .added) p)

/-! ## The diff -/

def isDirectChild (p root : Path) : Bool := root.isPrefixOf p && p.length == root.length + 1

/-- The first requested path that the path belongs to. -/
def scopeRoot (scopes : List Path) (p : Path) : Path :=
  (scopes.find? fun s => s.isPrefixOf p).getD []

/-- The directory right below the requested path that a deeper change shows at: the first component of
what is left of the path without the requested one. -/
def shownDir (root p : Path) : Option Path :=
  let remainder := if root.isPrefixOf p && root != p then p.drop root.length else p
  remainder.head?.map fun n => root ++ [n]

def pushRow (rows : List Row) (r : Row) : List Row :=
  if r.key ∈ rows.map Row.key then rows else rows ++ [r]

/-- The last row of the directory becomes modified, if it is blank. -/
def markModified (p : Path) : List Row → List Row
  | [] => []
  | r :: rows =>
      if (p, true) ∈ rows.map Row.key then r :: markModified p rows
      else if r.key = (p, true) ∧ r.status = .blank then { r with status := .modified } :: rows
      else r :: rows

def isAddition : DiffRow → Bool
  | .added => true
  | .addedEmptyDir => true
  | .modified => false
  | .deleted => false

/-- The rows, and the directories that have been seen to. -/
abbrev Shown := List Row × List Path

/-- An entry of the diff that is to have a row of its own. -/
def showDirect (p : Path) (row : DiffRow) (rows : List Row) : List Row :=
  match row with
  | .added => pushRow rows ⟨p, false, .added, .blank⟩
  | .addedEmptyDir => pushRow rows ⟨p, true, .added, .blank⟩
  | .modified => rows
  | .deleted => rows

/-- A deeper entry shows at a directory. -/
def showBelow (dir : Path) (row : DiffRow) (st : Shown) : Shown :=
  if dir ∈ st.2 then st
  else if (dir, true) ∈ st.1.map Row.key then (markModified dir st.1, dir :: st.2)
  else if isAddition row then (st.1 ++ [⟨dir, true, .added, .blank⟩], dir :: st.2)
  else (st.1, dir :: st.2)

def showChange (scopes : List Path) (st : Shown) (x : Path × DiffRow) : Shown :=
  let root := scopeRoot scopes x.1
  if l.recursive || isDirectChild x.1 root then (showDirect x.1 x.2 st.1, st.2)
  else
    match shownDir root x.1 with
    | some dir => showBelow dir x.2 st
    | none => st

theorem showChange_of_deeper {scopes : List Path} {st : Shown} {x : Path × DiffRow}
    (h : ¬ (l.recursive || isDirectChild x.1 (scopeRoot scopes x.1)) = true) :
    l.showChange scopes st x =
      (shownDir (scopeRoot scopes x.1) x.1).elim st fun dir => showBelow dir x.2 st := by
  refine (if_neg h).trans ?_
  cases shownDir (scopeRoot scopes x.1) x.1 <;> rfl

/-! ## What only the remote has -/

def showRemote (scopes : List Path) (rows : List Row) (x : (Path × Bool) × TreeEntry) : List Row :=
  if l.recursive || isDirectChild x.1.1 (scopeRoot scopes x.1.1) then
    pushRow rows ⟨x.1.1, x.1.2, .blank, .added⟩
  else rows

/-! ## The whole listing -/

/-- `changes` and `news` are the diff and what only the remote has, sorted. -/
def run (root workingRoot : Tree) (scopes : List Path) (changes : List (Path × DiffRow))
    (news : List ((Path × Bool) × TreeEntry)) : Except Error (List Row) :=
  scopes.mapM (l.targetRows root workingRoot) >>= fun targets =>
  let shown := changes.foldl (l.showChange scopes) (targets.flatten, [])
  .ok (news.foldl (l.showRemote scopes) shown.1)

end Listing

/-! ## The scan -/

/-- `lstat_path`: nothing is reached through a file or a symlink. -/
def lstatPath (working : Tree) (p : Path) : Except Error (Option TreeEntry) :=
  match p.inits.find? fun a => a ≠ p ∧ isLeaf (working.at a) with
  | some a => .error (.symlinkEscape ("/".intercalate a))
  | none => .ok (working.at p)

/-- A requested path is scanned, and put in the place of what the clone root has there. -/
def spliceScanned (working root : Tree) (p : Path) : Except Error Tree :=
  lstatPath working p >>= fun observed =>
  match observed with
  | some e => Tree.spliceEntry (some root) p e
  | none => root.removeEntry p >>= fun removed => .ok (removed.getD root)

/-- The working root that the listing is made from. -/
def scanScopedForLs (working root : Tree) (paths : List Path) : Except Error Tree :=
  if paths = [] then .ok working else paths.foldlM (spliceScanned working) root

/-- The root among the requested paths is dropped. -/
def anchored (requested : List Path) : List Path := requested.filter fun p => p ≠ []

/-- Where no path is left the whole tree is listed. -/
def scopesOf (paths : List Path) : List Path := if paths = [] then [[]] else paths

/-! ## The command -/

/-- A list put in order. -/
structure Sorting (α : Type) where
  sort : List α → List α
  perm : ∀ l, (sort l).Perm l

structure LsOptions where
  recursive : Bool
  working : Bool
  present : Tree → Bool
  changes : Sorting (Path × DiffRow)
  news : Sorting ((Path × Bool) × TreeEntry)

/-- What the remote has to say: nothing, if it is not asked, cannot be reached or has the clone root. -/
structure RemoteChanges where
  status : List ((Path × Bool) × Mark)
  added : List ((Path × Bool) × TreeEntry)

def RemoteChanges.none : RemoteChanges := ⟨[], []⟩

def listing (opts : LsOptions) (remote : RemoteChanges) (root workingRoot : Tree)
    (scopes : List Path) : Listing where
  recursive := opts.recursive
  working := opts.working
  present := opts.present
  diffMap := diffTrees (some root) workingRoot scopes
  remoteStatus := remote.status
  remoteAdded := remote.added

/-- `ls` in a repository with a clone root; `remote` depends on the requested paths. -/
def ls (opts : LsOptions) (remote : List Path → RemoteChanges) (root working : Tree)
    (requested : List Path) : Except Error (List Row) :=
  let scopes := scopesOf (anchored requested)
  scanScopedForLs working root (anchored requested) >>= fun workingRoot =>
  let l := listing opts (remote scopes) root workingRoot scopes
  l.run root workingRoot scopes (opts.changes.sort l.diffMap) (opts.news.sort l.remoteAdded)

def dirtyRow (x : Path × DiffRow) : Row :=
  match x.2 with
  | .added => ⟨x.1, false, .added, .blank⟩
  | .addedEmptyDir => ⟨x.1, true, .added, .blank⟩
  | .modified => ⟨x.1, false, .modified, .blank⟩
  | .deleted => ⟨x.1, false, .deleted, .blank⟩

/-- `ls --dirty`. -/
def lsDirty (root working : Tree) (requested : List Path) : Except Error (List Row) :=
  scanScopedForLs working root (anchored requested) >>= fun workingRoot =>
  if workingRoot = root then .ok []
  else .ok ((diffTrees (some root) workingRoot (scopesOf (anchored requested))).map dirtyRow)

end Omemfs.Ls
