/-
# Omemfs.Sync.Diff — what changed between two trees, path by path.

`diffTrees` walks both trees side by side and fills a map with one entry for each changed path.  Its
meaning is `nodeDiff`: what is reported at a path depends only on the two entries there and, for a
large new directory, on whether it lies in a Git working tree (`get_diffTrees`).  With no stub
threshold nothing else plays a part, and the diff is `nodeDiff` at every path
(`get_diffTrees_zero`).

The map has one entry for each path, so a kind change that needs two keeps the later one: a file
that became an empty directory is reported as the new directory alone.
-/
import Omemfs.Lib.KeyMap
import Omemfs.Sync.TreeOps

namespace Omemfs.Sync

open Omemfs Lib

inductive DiffEntry where
  | added (b : Blob)
  | modified (b : Blob)
  | deleted
  | addedEmptyDir
  /-- a new tree at or above the stub threshold, not descended into -/
  | addedTree (t : Tree) (m : TreeMeta)
  | symlink (l : Symlink) (wasPresent : Bool)
  deriving DecidableEq

/-- Changes by path.  The order of the entries is not the order of an iteration. -/
abbrev DiffMap := KeyMap Path DiffEntry

/-! ## The walk -/

/-- The tree has a directory named `.git`. -/
def treeContainsGitDir (t : Tree) : Bool :=
  t.entries.any fun x => x.2.isTree && x.1 == ".git"

/-- Every blob and symlink of the tree is deleted; its directories are not mentioned. -/
def markDeletedTree : Tree → Path → DiffMap → DiffMap
  | .nil, _, acc => acc
  | .blob n _ rest, pfx, acc => markDeletedTree rest pfx (acc.insert (pfx ++ [n]) .deleted)
  | .tree n t _ rest, pfx, acc => markDeletedTree rest pfx (markDeletedTree t (pfx ++ [n]) acc)
  | .symlink n _ rest, pfx, acc => markDeletedTree rest pfx (acc.insert (pfx ++ [n]) .deleted)

/-- Base entries without an entry of that name in the target. -/
def diffGone (target : Tree) : Tree → Path → DiffMap → DiffMap
  | .nil, _, acc => acc
  | .blob n _ rest, pfx, acc =>
      diffGone target rest pfx
        (if n ∈ target.names then acc else acc.insert (pfx ++ [n]) .deleted)
  | .tree n t _ rest, pfx, acc =>
      diffGone target rest pfx
        (if n ∈ target.names then acc else markDeletedTree t (pfx ++ [n]) acc)
  | .symlink n _ rest, pfx, acc =>
      diffGone target rest pfx
        (if n ∈ target.names then acc else acc.insert (pfx ++ [n]) .deleted)

/-- The directory is inside a Git working tree, is one, or is its `.git`. -/
def childInGit (inGit : Bool) (name : String) (t : Tree) : Bool :=
  inGit || name == ".git" || treeContainsGitDir t

/-- A new tree becomes a stub as a whole. -/
def shouldStub (stubThreshold : Nat) (inGit : Bool) (m : TreeMeta) : Bool :=
  decide (0 < stubThreshold) && decide (stubThreshold ≤ m.size) && !inGit

/-- The tree on the base side of a name, and the map with a leaf on that side deleted. -/
def baseTree (b : Option TreeEntry) (path : Path) (acc : DiffMap) : Option Tree × DiffMap :=
  match b with
  | some (.tree s _) => (some s, acc)
  | some _ => (none, acc.insert path .deleted)
  | none => (none, acc)

/-- The loop over the target's entries.  A subtree is walked like the root (`diffRecursive`). -/
def diffTarget (stubThreshold : Nat) (base : Option Tree) :
    Tree → Path → Bool → DiffMap → DiffMap
  | .nil, _, _, acc => acc
  | .blob n x rest, pfx, inGit, acc =>
      diffTarget stubThreshold base rest pfx inGit <|
        match (base.getD .nil).find? n with
        | some (.blob y) =>
            if y.hash ≠ x.hash ∨ y.mode ≠ x.mode then acc.insert (pfx ++ [n]) (.modified x) else acc
        | some (.tree s _) => (markDeletedTree s (pfx ++ [n]) acc).insert (pfx ++ [n]) (.added x)
        | some (.symlink _) => acc.insert (pfx ++ [n]) (.added x)
        | none => acc.insert (pfx ++ [n]) (.added x)
  | .tree n t m rest, pfx, inGit, acc =>
      diffTarget stubThreshold base rest pfx inGit <|
        match baseTree ((base.getD .nil).find? n) (pfx ++ [n]) acc with
        | (baseTree, acc) =>
            if baseTree.isNone && shouldStub stubThreshold inGit m then
              acc.insert (pfx ++ [n]) (.addedTree t m)
            else
              let acc' :=
                if baseTree = some t then acc
                else diffGone t (baseTree.getD .nil) (pfx ++ [n])
                  (diffTarget stubThreshold baseTree t (pfx ++ [n]) (childInGit inGit n t) acc)
              if baseTree.isNone && acc'.size == acc.size then
                acc'.insert (pfx ++ [n]) .addedEmptyDir
              else acc'
  | .symlink n x rest, pfx, inGit, acc =>
      diffTarget stubThreshold base rest pfx inGit <|
        match (base.getD .nil).find? n with
        | some (.symlink y) =>
            if y.target ≠ x.target then acc.insert (pfx ++ [n]) (.symlink x true) else acc
        | some (.tree s _) =>
            (markDeletedTree s (pfx ++ [n]) acc).insert (pfx ++ [n]) (.symlink x true)
        | some (.blob _) => acc.insert (pfx ++ [n]) (.symlink x true)
        | none => acc.insert (pfx ++ [n]) (.symlink x false)

/-- Equal trees are not descended into. -/
def diffRecursive (stubThreshold : Nat) (base : Option Tree) (target : Tree) (pfx : Path)
    (inGit : Bool) (acc : DiffMap) : DiffMap :=
  if base = some target then acc
  else diffGone target (base.getD .nil) pfx (diffTarget stubThreshold base target pfx inGit acc)

def diffTrees (base target : Option Tree) (stubThreshold : Nat) : DiffMap :=
  match target with
  | some t => diffRecursive stubThreshold base t [] false .empty
  | none =>
      match base with
      | some b => markDeletedTree b [] .empty
      | none => .empty

/-! ## Its meaning at one path -/

/-- What is reported where the two sides have these entries. -/
def nodeDiff (stubThreshold : Nat) (inGit : Bool) (b t : Option TreeEntry) : Option DiffEntry :=
  match t, b with
  | some (.blob x), some (.blob y) =>
      if y.hash ≠ x.hash ∨ y.mode ≠ x.mode then some (.modified x) else none
  | some (.blob x), _ => some (.added x)
  | some (.symlink x), some (.symlink y) =>
      if y.target ≠ x.target then some (.symlink x true) else none
  | some (.symlink x), b => some (.symlink x b.isSome)
  | some (.tree _ _), some (.tree _ _) => none
  | some (.tree s m), b =>
      if shouldStub stubThreshold inGit m then some (.addedTree s m)
      else if s = .nil then some .addedEmptyDir
      else b.map fun _ => .deleted
  | none, some (.tree _ _) => none
  | none, b => b.map fun _ => .deleted

/-- What is reported below a name where the two sides have these entries. -/
def pathDiff (stubThreshold : Nat) (inGit : Bool) (b t : Option TreeEntry) (name : String) :
    Path → Option DiffEntry
  | [] => nodeDiff stubThreshold inGit b t
  | m :: r =>
      match t with
      | some (.tree s tm) =>
          if !(b.map TreeEntry.isTree).getD false && shouldStub stubThreshold inGit tm then none
          else
            pathDiff stubThreshold (childInGit inGit name s)
              (b.bind fun e => e.children.find? m) (s.find? m) m r
      | _ => pathDiff stubThreshold false (b.bind fun e => e.children.find? m) none m r

/-- What is reported below two directories. -/
def treeDiff (stubThreshold : Nat) (inGit : Bool) (base target : Tree) : Path → Option DiffEntry
  | [] => none
  | m :: r => pathDiff stubThreshold inGit (base.find? m) (target.find? m) m r

/-! ## Deleted trees -/

/-- A blob or a symlink. -/
def isLeaf : Option TreeEntry → Bool
  | some (.blob _) => true
  | some (.symlink _) => true
  | _ => false

@[simp]
theorem isLeaf_none : isLeaf none = false := rfl

/-- What `markDeletedTree` does with one entry. -/
def markDeletedEntry (e : TreeEntry) (path : Path) (acc : DiffMap) : DiffMap :=
  match e with
  | .tree t _ => markDeletedTree t path acc
  | _ => acc.insert path .deleted

theorem markDeletedTree_cons (n : String) (e : TreeEntry) (rest : Tree) (pfx : Path)
    (acc : DiffMap) :
    markDeletedTree (.cons n e rest) pfx acc =
      markDeletedTree rest pfx (markDeletedEntry e (pfx ++ [n]) acc) := by
  cases e <;> rfl

theorem diffGone_cons (target : Tree) (n : String) (e : TreeEntry) (rest : Tree) (pfx : Path)
    (acc : DiffMap) :
    diffGone target (.cons n e rest) pfx acc =
      diffGone target rest pfx
        (if n ∈ target.names then acc else markDeletedEntry e (pfx ++ [n]) acc) := by
  cases e <;> rfl

/-- A key under one name is not under another. -/
theorem key_ne {pfx : Path} {n m : String} (h : n ≠ m) (r r' : Path) :
    pfx ++ n :: r ≠ (pfx ++ [m]) ++ r' := by
  intro heq
  rw [List.append_assoc, List.append_cancel_left_eq] at heq
  exact h (List.cons.inj heq).1

theorem get_leaf_insert {e : TreeEntry} (he : e.isTree = false) (path r : Path) (acc : DiffMap) :
    (acc.insert path .deleted).get (path ++ r) =
      if isLeaf (e.at r) then some .deleted else acc.get (path ++ r) := by
  cases r with
  | nil => cases e <;> simp_all [isLeaf, TreeEntry.isTree]
  | cons n r => rw [TreeEntry.at_cons_of_not_tree he, KeyMap.get_insert_ne] <;> simp

/-- **`get_markDeletedTree`** — exactly the leaves below become deleted. -/
theorem get_markDeletedTree {t : Tree} (hwf : t.Wf) (pfx : Path) (acc : DiffMap) :
    (∀ n r, (markDeletedTree t pfx acc).get (pfx ++ n :: r) =
      if isLeaf (t.at (n :: r)) then some .deleted else acc.get (pfx ++ n :: r)) ∧
    ∀ q, (∀ n r, q ≠ pfx ++ n :: r) → (markDeletedTree t pfx acc).get q = acc.get q := by
  induction t using Tree.induction_cons generalizing pfx acc with
  | nil => exact ⟨fun n r => rfl, fun q _ => rfl⟩
  | cons m e rest ihe ih =>
      obtain ⟨hm, hwe, hwr⟩ := Tree.wf_cons.mp hwf
      -- what the first entry adds
      have hbelow : ∀ r, (markDeletedEntry e (pfx ++ [m]) acc).get ((pfx ++ [m]) ++ r) =
          if isLeaf (e.at r) then some .deleted else acc.get ((pfx ++ [m]) ++ r) := by
        intro r
        cases e with
        | tree s tm =>
            obtain ⟨hin, hoff⟩ := ihe hwe (pfx ++ [m]) acc
            cases r with
            | nil => exact hoff ((pfx ++ [m]) ++ []) fun n r h => by simp at h
            | cons x r => exact hin x r
        | blob b => exact get_leaf_insert rfl _ r acc
        | symlink l => exact get_leaf_insert rfl _ r acc
      have hbeside : ∀ q, (∀ r, q ≠ (pfx ++ [m]) ++ r) →
          (markDeletedEntry e (pfx ++ [m]) acc).get q = acc.get q := by
        intro q hq
        cases e with
        | tree s tm => exact (ihe hwe (pfx ++ [m]) acc).2 q fun n r => hq (n :: r)
        | blob b => exact KeyMap.get_insert_ne _ _ (by simpa using hq [])
        | symlink l => exact KeyMap.get_insert_ne _ _ (by simpa using hq [])
      obtain ⟨hin, hoff⟩ := ih hwr pfx (markDeletedEntry e (pfx ++ [m]) acc)
      rw [markDeletedTree_cons]
      constructor
      · intro n r
        rw [hin, Tree.cons_at_cons]
        by_cases hn : n = m
        · subst hn
          have hnone := Tree.at_cons_of_not_mem hm r
          simpa [hnone] using hbelow r
        · rw [if_neg hn, hbeside _ fun r' => key_ne hn r r']
      · intro q hq
        rw [hoff q hq, hbeside q fun r => by simpa using hq m r]

theorem get_markDeletedEntry {e : TreeEntry} (hwf : e.Wf) (path r : Path) (acc : DiffMap) :
    (markDeletedEntry e path acc).get (path ++ r) =
      if isLeaf (e.at r) then some .deleted else acc.get (path ++ r) := by
  cases e with
  | tree s tm =>
      obtain ⟨hin, hoff⟩ := get_markDeletedTree hwf path acc
      cases r with
      | nil => exact hoff (path ++ []) fun n r h => by simp at h
      | cons x r => exact hin x r
  | blob b => exact get_leaf_insert rfl path r acc
  | symlink l => exact get_leaf_insert rfl path r acc

theorem get_markDeletedEntry_off {e : TreeEntry} (hwf : e.Wf) {path q : Path}
    (hq : ∀ r, q ≠ path ++ r) (acc : DiffMap) :
    (markDeletedEntry e path acc).get q = acc.get q := by
  cases e with
  | tree s tm => exact (get_markDeletedTree hwf path acc).2 q fun n r => hq (n :: r)
  | blob b => exact KeyMap.get_insert_ne _ _ (by simpa using hq [])
  | symlink l => exact KeyMap.get_insert_ne _ _ (by simpa using hq [])

/-- The second pass deletes the leaves under the names the target has not got. -/
theorem get_diffGone {target base : Tree} (hwf : base.Wf) (pfx : Path) (acc : DiffMap) :
    (∀ n r, (diffGone target base pfx acc).get (pfx ++ n :: r) =
      if n ∉ target.names ∧ isLeaf (base.at (n :: r)) then some .deleted
      else acc.get (pfx ++ n :: r)) ∧
    ∀ q, (∀ n r, q ≠ pfx ++ n :: r) → (diffGone target base pfx acc).get q = acc.get q := by
  induction base using Tree.induction_cons generalizing acc with
  | nil => exact ⟨fun n r => by simp [diffGone, isLeaf], fun q _ => rfl⟩
  | cons m e rest _ ih =>
      obtain ⟨hm, hwe, hwr⟩ := Tree.wf_cons.mp hwf
      rw [diffGone_cons]
      obtain ⟨hin, hoff⟩ := ih hwr
        (if m ∈ target.names then acc else markDeletedEntry e (pfx ++ [m]) acc)
      constructor
      · intro n r
        rw [hin, Tree.cons_at_cons]
        by_cases hn : n = m
        · subst hn
          have hnone := Tree.at_cons_of_not_mem hm r
          have hone := get_markDeletedEntry hwe (pfx ++ [n]) r acc
          by_cases ht : n ∈ target.names
          · simp [ht]
          · simpa [ht, hnone] using hone
        · have hne : ∀ r', pfx ++ n :: r ≠ (pfx ++ [m]) ++ r' := fun r' => key_ne hn r r'
          have hone := get_markDeletedEntry_off hwe hne acc
          by_cases ht : m ∈ target.names <;> simp [ht, hn, hone]
      · intro q hq
        have hne : ∀ r, q ≠ (pfx ++ [m]) ++ r := fun r => by simpa using hq m r
        have hone := get_markDeletedEntry_off hwe hne acc
        rw [hoff q hq]
        split_ifs
        · rfl
        · exact hone

/-! ## The loop over the target -/

theorem pathDiff_none (thr : Nat) (g : Bool) (b : Option TreeEntry) (n : String) (r : Path) :
    pathDiff thr g b none n r =
      if isLeaf (b.bind fun e => e.at r) then some .deleted else none := by
  induction r generalizing g b n with
  | nil =>
      cases b with
      | none => rfl
      | some e => cases e <;> rfl
  | cons m r ih =>
      show pathDiff thr false (b.bind fun e => e.children.find? m) none m r = _
      rw [ih]
      cases b <;> rfl

/-- Nothing is reported below one and the same entry. -/
theorem pathDiff_self (thr : Nat) (g : Bool) (e : TreeEntry) (n : String) (r : Path) :
    pathDiff thr g (some e) (some e) n r = none := by
  induction r generalizing g e n with
  | nil => cases e <;> simp [pathDiff, nodeDiff]
  | cons m r ih =>
      cases e with
      | tree s tm =>
          show pathDiff thr (childInGit g n s) (s.find? m) (s.find? m) m r = none
          cases h : s.find? m with
          | none => rw [pathDiff_none]; rfl
          | some c => exact ih _ c m
      | blob b =>
          show pathDiff thr false none none m r = none
          rw [pathDiff_none]
          rfl
      | symlink l =>
          show pathDiff thr false none none m r = none
          rw [pathDiff_none]
          rfl

/-- What the loop does with one entry of the target. -/
def diffEntry (stubThreshold : Nat) (b : Option TreeEntry) (n : String) (e : TreeEntry)
    (path : Path) (inGit : Bool) (acc : DiffMap) : DiffMap :=
  match e with
  | .blob x =>
      match b with
      | some (.blob y) =>
          if y.hash ≠ x.hash ∨ y.mode ≠ x.mode then acc.insert path (.modified x) else acc
      | some (.tree s _) => (markDeletedTree s path acc).insert path (.added x)
      | some (.symlink _) => acc.insert path (.added x)
      | none => acc.insert path (.added x)
  | .tree t m =>
      match baseTree b path acc with
      | (bt, acc) =>
          if bt.isNone && shouldStub stubThreshold inGit m then acc.insert path (.addedTree t m)
          else
            let acc' := diffRecursive stubThreshold bt t path (childInGit inGit n t) acc
            if bt.isNone && acc'.size == acc.size then acc'.insert path .addedEmptyDir else acc'
  | .symlink x =>
      match b with
      | some (.symlink y) =>
          if y.target ≠ x.target then acc.insert path (.symlink x true) else acc
      | some (.tree s _) => (markDeletedTree s path acc).insert path (.symlink x true)
      | some (.blob _) => acc.insert path (.symlink x true)
      | none => acc.insert path (.symlink x false)

theorem diffTarget_cons (thr : Nat) (base : Option Tree) (n : String) (e : TreeEntry)
    (rest : Tree) (pfx : Path) (g : Bool) (acc : DiffMap) :
    diffTarget thr base (.cons n e rest) pfx g acc =
      diffTarget thr base rest pfx g
        (diffEntry thr ((base.getD .nil).find? n) n e (pfx ++ [n]) g acc) := by
  cases e <;> rfl

/-- Against nothing the second pass has nothing to do. -/
theorem diffRecursive_none (thr : Nat) (t : Tree) (pfx : Path) (g : Bool) (acc : DiffMap) :
    diffRecursive thr none t pfx g acc = diffTarget thr none t pfx g acc := by
  unfold diffRecursive
  rw [if_neg (by simp)]
  rfl

theorem size_diffEntry_none (thr : Nat) (n : String) (e : TreeEntry) (path : Path) (g : Bool)
    (acc : DiffMap)
    (ih : ∀ pfx g' (acc' : DiffMap), acc'.size ≤ (diffTarget thr none e.children pfx g' acc').size) :
    acc.size ≤ (diffEntry thr none n e path g acc).size := by
  cases e with
  | blob x => exact KeyMap.size_le_insert acc _ _
  | symlink x => exact KeyMap.size_le_insert acc _ _
  | tree t m =>
      have hrec := ih path (childInGit g n t) acc
      simp only [diffEntry, baseTree, diffRecursive_none]
      split_ifs
      · exact KeyMap.size_le_insert acc _ _
      · exact le_trans hrec (KeyMap.size_le_insert _ _ _)
      · exact hrec

theorem size_diffTarget_none (thr : Nat) (t : Tree) (pfx : Path) (g : Bool) (acc : DiffMap) :
    acc.size ≤ (diffTarget thr none t pfx g acc).size := by
  induction t using Tree.induction_cons generalizing pfx g acc with
  | nil => exact le_refl _
  | cons n e rest ihe ih =>
      rw [diffTarget_cons]
      have hone := size_diffEntry_none thr n e (pfx ++ [n]) g acc ihe
      exact le_trans hone (ih ..)

/-- **`size_diffTarget_lt`** — a new tree that has any entry is reported by at least one key, so an
unchanged size tells an empty one. -/
theorem size_diffTarget_lt (thr : Nat) {t : Tree} (ht : t ≠ .nil) (pfx : Path) (g : Bool)
    (acc : DiffMap) (hfresh : ∀ n r, acc.get (pfx ++ n :: r) = none) :
    acc.size < (diffTarget thr none t pfx g acc).size := by
  induction t using Tree.induction_cons generalizing pfx g acc with
  | nil => exact absurd rfl ht
  | cons n e rest ihe _ =>
      rw [diffTarget_cons]
      refine lt_of_lt_of_le ?_ (size_diffTarget_none thr rest pfx g _)
      have hkey : acc.get (pfx ++ [n]) = none := hfresh n []
      cases e with
      | blob x =>
          have := KeyMap.size_insert_of_get_none hkey (.added x)
          simp only [diffEntry, Option.getD_none, Tree.find?_nil]
          omega
      | symlink x =>
          have := KeyMap.size_insert_of_get_none hkey (.symlink x false)
          simp only [diffEntry, Option.getD_none, Tree.find?_nil]
          omega
      | tree s m =>
          simp only [diffEntry, baseTree, diffRecursive_none, Option.getD_none, Tree.find?_nil]
          have hnew := fun a => KeyMap.size_insert_of_get_none hkey a
          by_cases hs : s = .nil
          · subst hs
            split_ifs <;> simp_all [diffTarget]
          · have hrec := ihe hs (pfx ++ [n]) (childInGit g n s) acc fun m r => by
              simpa using hfresh n (m :: r)
            split_ifs with h1 h2
            · rw [hnew]
              omega
            · exact lt_of_lt_of_le hrec (KeyMap.size_le_insert _ _ _)
            · exact hrec

/-- What the loop over `t` leaves in the map: its own names are compared, other keys stay. -/
def DiffTargetSpec (thr : Nat) (t : Tree) : Prop :=
  ∀ (base : Option Tree) (pfx : Path) (g : Bool) (acc : DiffMap), (base.getD .nil).Wf →
    (∀ n ∈ t.names, ∀ r, acc.get (pfx ++ n :: r) = none) →
    (∀ n ∈ t.names, ∀ r, (diffTarget thr base t pfx g acc).get (pfx ++ n :: r) =
      pathDiff thr g ((base.getD .nil).find? n) (t.find? n) n r) ∧
    ∀ q, (∀ n ∈ t.names, ∀ r, q ≠ pfx ++ n :: r) →
      (diffTarget thr base t pfx g acc).get q = acc.get q

/-- Both passes together compare two directories at every path below. -/
theorem get_diffRecursive_of_spec {thr : Nat} {t : Tree} (hspec : DiffTargetSpec thr t)
    (base : Option Tree) (hb : (base.getD .nil).Wf) (pfx : Path) (g : Bool) {acc : DiffMap}
    (hfresh : ∀ n r, acc.get (pfx ++ n :: r) = none) :
    (∀ n r, (diffRecursive thr base t pfx g acc).get (pfx ++ n :: r) =
      pathDiff thr g ((base.getD .nil).find? n) (t.find? n) n r) ∧
    ∀ q, (∀ n r, q ≠ pfx ++ n :: r) → (diffRecursive thr base t pfx g acc).get q = acc.get q := by
  unfold diffRecursive
  split_ifs with heq
  · subst heq
    refine ⟨fun n r => ?_, fun q _ => rfl⟩
    rw [hfresh, Option.getD_some]
    cases h : t.find? n with
    | none => rw [pathDiff_none]; rfl
    | some e => exact (pathDiff_self thr g e n r).symm
  · obtain ⟨hin, hoff⟩ := hspec base pfx g acc hb fun n _ => hfresh n
    obtain ⟨hgone, hbeside⟩ := @get_diffGone t _ hb pfx (diffTarget thr base t pfx g acc)
    constructor
    · intro n r
      rw [hgone]
      by_cases hn : n ∈ t.names
      · rw [if_neg fun h => h.1 hn, hin n hn]
      · have hsame := hoff (pfx ++ n :: r) fun m hm r' h => by
          rw [List.append_cancel_left_eq] at h
          exact hn ((List.cons.inj h).1 ▸ hm)
        rw [hsame, hfresh, Tree.find?_eq_none_iff.mpr hn, pathDiff_none]
        simp [hn, Tree.at_cons]
    · intro q hq
      rw [hbeside q hq]
      exact hoff q fun n _ => hq n

/-- Below a blob or symlink of the target only deletions are reported. -/
theorem pathDiff_cons_of_not_tree {thr : Nat} {g : Bool} {b : Option TreeEntry} {e : TreeEntry}
    (he : e.isTree = false) (n m : String) (r : Path) :
    pathDiff thr g b (some e) n (m :: r) =
      if isLeaf (b.bind fun b => b.at (m :: r)) then some .deleted else none := by
  have hnone := pathDiff_none thr false (b.bind fun b => b.children.find? m) m r
  cases e with
  | tree s tm => cases he
  | blob x => cases b <;> exact hnone
  | symlink x => cases b <;> exact hnone

/-- A leaf of the target, put over what was deleted below its path. -/
theorem get_insert_over {thr : Nat} {g : Bool} {b : Option TreeEntry} {e : TreeEntry}
    {d : DiffEntry} {path : Path} {acc del : DiffMap} (he : e.isTree = false) (n : String)
    (hd : nodeDiff thr g b (some e) = some d)
    (hdel : ∀ m r, del.get (path ++ m :: r) =
      if isLeaf (b.bind fun b => b.at (m :: r)) then some .deleted else none)
    (hoff : ∀ q, (∀ r, q ≠ path ++ r) → del.get q = acc.get q) :
    (∀ r, (del.insert path d).get (path ++ r) = pathDiff thr g b (some e) n r) ∧
    ∀ q, (∀ r, q ≠ path ++ r) → (del.insert path d).get q = acc.get q := by
  constructor
  · intro r
    cases r with
    | nil => rw [List.append_nil, KeyMap.get_insert_self]; exact hd.symm
    | cons m r => rw [pathDiff_cons_of_not_tree he, KeyMap.get_insert_ne _ _ (by simp), hdel]
  · intro q hq
    rw [KeyMap.get_insert_ne _ _ (by simpa using hq []), hoff q hq]

/-- A leaf of the target over a leaf of its kind, unchanged. -/
theorem get_unchanged {thr : Nat} {g : Bool} {b : Option TreeEntry} {e : TreeEntry} {path : Path}
    {acc : DiffMap} (he : e.isTree = false) (n : String) (hd : nodeDiff thr g b (some e) = none)
    (hb : ∀ m r, isLeaf (b.bind fun b => b.at (m :: r)) = false)
    (hfresh : ∀ r, acc.get (path ++ r) = none) (r : Path) :
    acc.get (path ++ r) = pathDiff thr g b (some e) n r := by
  cases r with
  | nil => rw [hfresh]; exact hd.symm
  | cons m r => rw [pathDiff_cons_of_not_tree he, hfresh, hb]; rfl

section Entry

variable {thr : Nat} {g : Bool} {b : Option TreeEntry} {path : Path} {acc : DiffMap}

theorem get_diffEntry_blob (hb : ∀ e, b = some e → e.Wf) (n : String) (x : Blob)
    (hfresh : ∀ r, acc.get (path ++ r) = none) :
    (∀ r, (diffEntry thr b n (.blob x) path g acc).get (path ++ r) =
      pathDiff thr g b (some (.blob x)) n r) ∧
    ∀ q, (∀ r, q ≠ path ++ r) → (diffEntry thr b n (.blob x) path g acc).get q = acc.get q := by
  have hleaf : ∀ m r, acc.get (path ++ m :: r) = none := fun m r => hfresh (m :: r)
  cases b with
  | none => exact get_insert_over rfl n rfl (fun m r => hleaf m r) fun q _ => rfl
  | some c =>
      cases c with
      | symlink l => exact get_insert_over rfl n rfl (fun m r => hleaf m r) fun q _ => rfl
      | tree s tm =>
          have hwf : (TreeEntry.tree s tm).Wf := hb _ rfl
          refine get_insert_over rfl n rfl (fun m r => ?_)
            fun q hq => get_markDeletedEntry_off hwf hq acc
          have hdel := get_markDeletedEntry hwf path (m :: r) acc
          rw [hleaf] at hdel
          exact hdel
      | blob y =>
          simp only [diffEntry]
          split_ifs with hne
          · refine get_insert_over rfl n ?_ (fun m r => hleaf m r) fun q _ => rfl
            simp only [nodeDiff]
            rw [if_pos hne]
          · refine ⟨get_unchanged rfl n ?_ (fun m r => rfl) hfresh, fun q _ => rfl⟩
            simp only [nodeDiff]
            rw [if_neg hne]

theorem get_diffEntry_symlink (hb : ∀ e, b = some e → e.Wf) (n : String) (x : Symlink)
    (hfresh : ∀ r, acc.get (path ++ r) = none) :
    (∀ r, (diffEntry thr b n (.symlink x) path g acc).get (path ++ r) =
      pathDiff thr g b (some (.symlink x)) n r) ∧
    ∀ q, (∀ r, q ≠ path ++ r) →
      (diffEntry thr b n (.symlink x) path g acc).get q = acc.get q := by
  have hleaf : ∀ m r, acc.get (path ++ m :: r) = none := fun m r => hfresh (m :: r)
  cases b with
  | none => exact get_insert_over rfl n rfl (fun m r => hleaf m r) fun q _ => rfl
  | some c =>
      cases c with
      | blob y => exact get_insert_over rfl n rfl (fun m r => hleaf m r) fun q _ => rfl
      | tree s tm =>
          have hwf : (TreeEntry.tree s tm).Wf := hb _ rfl
          refine get_insert_over rfl n rfl (fun m r => ?_)
            fun q hq => get_markDeletedEntry_off hwf hq acc
          have hdel := get_markDeletedEntry hwf path (m :: r) acc
          rw [hleaf] at hdel
          exact hdel
      | symlink y =>
          simp only [diffEntry]
          split_ifs with hne
          · refine get_insert_over rfl n ?_ (fun m r => hleaf m r) fun q _ => rfl
            simp only [nodeDiff]
            rw [if_pos hne]
          · refine ⟨get_unchanged rfl n ?_ (fun m r => rfl) hfresh, fun q _ => rfl⟩
            simp only [nodeDiff]
            rw [if_neg hne]

/-- A directory of the target where the base has none: it becomes a stub, is walked, or is
reported empty. -/
theorem get_newTree {t : Tree} (hspec : DiffTargetSpec thr t) {m : TreeMeta}
    (hb : (b.map TreeEntry.isTree).getD false = false) (n : String) {acc₁ : DiffMap}
    (hat : acc₁.get path = b.map fun _ => .deleted)
    (hbelow : ∀ x r, acc₁.get (path ++ x :: r) = none)
    (hoff : ∀ q, (∀ r, q ≠ path ++ r) → acc₁.get q = acc.get q) :
    let res := if shouldStub thr g m then acc₁.insert path (.addedTree t m)
      else
        let acc' := diffRecursive thr none t path (childInGit g n t) acc₁
        if acc'.size == acc₁.size then acc'.insert path .addedEmptyDir else acc'
    (∀ r, res.get (path ++ r) = pathDiff thr g b (some (.tree t m)) n r) ∧
    ∀ q, (∀ r, q ≠ path ++ r) → res.get q = acc.get q := by
  intro res
  obtain ⟨hin, hout⟩ :=
    get_diffRecursive_of_spec hspec none trivial path (childInGit g n t) hbelow
  have hself : nodeDiff thr g b (some (.tree t m)) =
      if shouldStub thr g m then some (.addedTree t m)
      else if t = .nil then some .addedEmptyDir else b.map fun _ => .deleted := by
    cases b with
    | none => rfl
    | some e => cases e <;> first | rfl | cases hb
  have hdeep : ∀ x r, pathDiff thr g b (some (.tree t m)) n (x :: r) =
      if shouldStub thr g m then none
      else pathDiff thr (childInGit g n t) none (t.find? x) x r := by
    intro x r
    simp only [pathDiff, hb, Bool.not_false, Bool.true_and]
    cases b with
    | none => rfl
    | some e => cases e <;> first | rfl | cases hb
  -- the map grew exactly if the new tree has an entry
  have hgrow : (diffRecursive thr none t path (childInGit g n t) acc₁).size = acc₁.size ↔
      t = .nil := by
    rw [diffRecursive_none]
    constructor
    · intro hsize
      by_contra hne
      have := size_diffTarget_lt thr hne path (childInGit g n t) acc₁ hbelow
      omega
    · rintro rfl
      rfl
  have hstay : (diffRecursive thr none t path (childInGit g n t) acc₁).get path =
      b.map fun _ => .deleted := by
    rw [hout path fun x r h => by simpa using congrArg List.length h, hat]
  simp only [res]
  split_ifs with hstub hsize
  · constructor
    · intro r
      cases r with
      | nil => simp [pathDiff, hself, hstub]
      | cons x r => rw [hdeep, if_pos hstub, KeyMap.get_insert_ne _ _ (by simp), hbelow]
    · intro q hq
      rw [KeyMap.get_insert_ne _ _ (by simpa using hq []), hoff q hq]
  · have hnil : t = .nil := hgrow.mp (by simpa using hsize)
    constructor
    · intro r
      cases r with
      | nil =>
          rw [List.append_nil, KeyMap.get_insert_self]
          show _ = nodeDiff thr g b (some (.tree t m))
          rw [hself, if_neg hstub, if_pos hnil]
      | cons x r =>
          rw [hdeep, if_neg hstub, KeyMap.get_insert_ne _ _ (by simp), hin]
          rfl
    · intro q hq
      rw [KeyMap.get_insert_ne _ _ (by simpa using hq []), hout q fun x r => hq (x :: r), hoff q hq]
  · have hnil : t ≠ .nil := fun h => hsize (by simpa using hgrow.mpr h)
    constructor
    · intro r
      cases r with
      | nil => simp [pathDiff, hself, hstub, hnil, hstay]
      | cons x r =>
          rw [hdeep, if_neg hstub, hin]
          rfl
    · intro q hq
      rw [hout q fun x r => hq (x :: r), hoff q hq]

theorem get_diffEntry_tree {t : Tree} (hspec : DiffTargetSpec thr t) (m : TreeMeta)
    (hb : ∀ e, b = some e → e.Wf) (n : String) (hfresh : ∀ r, acc.get (path ++ r) = none) :
    (∀ r, (diffEntry thr b n (.tree t m) path g acc).get (path ++ r) =
      pathDiff thr g b (some (.tree t m)) n r) ∧
    ∀ q, (∀ r, q ≠ path ++ r) →
      (diffEntry thr b n (.tree t m) path g acc).get q = acc.get q := by
  have hat : acc.get path = none := by simpa using hfresh []
  have hbelow : ∀ x r, acc.get (path ++ x :: r) = none := fun x r => hfresh (x :: r)
  have hins : ∀ x r, (acc.insert path .deleted).get (path ++ x :: r) = none := fun x r => by
    rw [KeyMap.get_insert_ne _ _ (by simp), hbelow]
  have hbeside : ∀ q, (∀ r, q ≠ path ++ r) → (acc.insert path .deleted).get q = acc.get q :=
    fun q hq => KeyMap.get_insert_ne _ _ (by simpa using hq [])
  cases b with
  | none => exact get_newTree hspec rfl n hat hbelow fun q _ => rfl
  | some e =>
      cases e with
      | blob x => exact get_newTree hspec rfl n (by simp) hins hbeside
      | symlink l => exact get_newTree hspec rfl n (by simp) hins hbeside
      | tree s tm =>
          have hwf : (TreeEntry.tree s tm).Wf := hb _ rfl
          obtain ⟨hin, hout⟩ := get_diffRecursive_of_spec hspec (some s) hwf path
            (childInGit g n t) hbelow
          constructor
          · intro r
            cases r with
            | nil =>
                have hstay := hout path fun x r h => by simpa using congrArg List.length h
                rw [List.append_nil]
                exact hstay.trans hat
            | cons x r => exact hin x r
          · exact fun q hq => hout q fun x r => hq (x :: r)

end Entry

/-- **`diffTarget_spec`** — the loop over the target compares every name it meets. -/
theorem diffTarget_spec (thr : Nat) {t : Tree} (hwf : t.Wf) : DiffTargetSpec thr t := by
  induction t using Tree.induction_cons with
  | nil =>
      intro base pfx g acc _ _
      exact ⟨fun n hn => absurd hn (by simp [Tree.names, Tree.entries]), fun q _ => rfl⟩
  | cons n e rest ihe ih =>
      intro base pfx g acc hb hfresh
      obtain ⟨hn, hwe, hwr⟩ := Tree.wf_cons.mp hwf
      have hnames : (Tree.cons n e rest).names = n :: rest.names := by simp [Tree.names]
      have hfirst : ∀ r, acc.get ((pfx ++ [n]) ++ r) = none := fun r => by
        simpa using hfresh n (by simp [hnames]) r
      have hbe : ∀ c, (base.getD .nil).find? n = some c → c.Wf :=
        fun c hc => hb.of_find? hc
      have hone : (∀ r, (diffEntry thr ((base.getD .nil).find? n) n e (pfx ++ [n]) g acc).get
            ((pfx ++ [n]) ++ r) = pathDiff thr g ((base.getD .nil).find? n) (some e) n r) ∧
          ∀ q, (∀ r, q ≠ (pfx ++ [n]) ++ r) →
            (diffEntry thr ((base.getD .nil).find? n) n e (pfx ++ [n]) g acc).get q = acc.get q := by
        cases e with
        | blob x => exact get_diffEntry_blob hbe n x hfirst
        | symlink x => exact get_diffEntry_symlink hbe n x hfirst
        | tree s tm => exact get_diffEntry_tree (ihe hwe) tm hbe n hfirst
      have hrest : ∀ m ∈ rest.names, ∀ r,
          (diffEntry thr ((base.getD .nil).find? n) n e (pfx ++ [n]) g acc).get (pfx ++ m :: r) =
            none := by
        intro m hm r
        have hmn : m ≠ n := fun h => hn (h ▸ hm)
        rw [hone.2 _ fun r' => key_ne hmn r r']
        exact hfresh m (by simp [hnames, hm]) r
      obtain ⟨hin, hoff⟩ := ih hwr base pfx g _ hb hrest
      rw [diffTarget_cons]
      constructor
      · intro m hm r
        rw [Tree.find?_cons]
        by_cases hmn : m = n
        · subst hmn
          rw [if_pos rfl, hoff _ fun x hx r' h => by
            rw [List.append_cancel_left_eq] at h
            exact hn ((List.cons.inj h).1 ▸ hx)]
          simpa using hone.1 r
        · rw [if_neg hmn]
          have hmr : m ∈ rest.names := by simpa [hnames, hmn] using hm
          exact hin m hmr r
      · intro q hq
        rw [hoff q fun m hm => hq m (by simp [hnames, hm])]
        exact hone.2 q fun r => by simpa using hq n (by simp [hnames]) r

/-! ## The diff of two trees -/

/-- **`get_diffTrees`** — the map says at each path what the two sides have there. -/
theorem get_diffTrees {base target : Option Tree} (hb : (base.getD .nil).Wf)
    (ht : (target.getD .nil).Wf) (thr : Nat) (q : Path) :
    (diffTrees base target thr).get q =
      treeDiff thr false (base.getD .nil) (target.getD .nil) q := by
  cases target with
  | some t =>
      have hfresh : ∀ n r, (KeyMap.empty : DiffMap).get ([] ++ n :: r) = none := fun n r =>
        KeyMap.get_empty _
      obtain ⟨hin, hoff⟩ :=
        get_diffRecursive_of_spec (diffTarget_spec thr ht) base hb [] false hfresh
      cases q with
      | nil => exact (hoff [] fun n r h => nomatch h).trans (KeyMap.get_empty _)
      | cons m r => exact hin m r
  | none =>
      cases base with
      | none =>
          cases q with
          | nil => exact KeyMap.get_empty _
          | cons m r =>
              show KeyMap.empty.get _ = pathDiff thr false none none m r
              rw [pathDiff_none, KeyMap.get_empty]
              rfl
      | some b =>
          obtain ⟨hin, hoff⟩ := get_markDeletedTree (t := b) hb [] .empty
          cases q with
          | nil => exact (hoff [] fun n r h => nomatch h).trans (KeyMap.get_empty _)
          | cons m r =>
              show _ = pathDiff thr false (b.find? m) none m r
              rw [pathDiff_none, ← Tree.at_cons]
              exact (hin m r).trans (by rw [KeyMap.get_empty])

@[simp]
theorem shouldStub_zero (g : Bool) (m : TreeMeta) : shouldStub 0 g m = false := rfl

theorem pathDiff_zero (g : Bool) (b t : Option TreeEntry) (n : String) (r : Path) :
    pathDiff 0 g b t n r =
      nodeDiff 0 false (b.bind fun e => e.at r) (t.bind fun e => e.at r) := by
  induction r generalizing g b t n with
  | nil => cases b <;> cases t <;> rfl
  | cons m r ih =>
      have hstep : ∀ g', pathDiff 0 g' (b.bind fun e => e.children.find? m)
          (t.bind fun e => e.children.find? m) m r =
            nodeDiff 0 false (b.bind fun e => e.at (m :: r)) (t.bind fun e => e.at (m :: r)) := by
        intro g'
        rw [ih]
        cases b <;> cases t <;> rfl
      cases t with
      | none => exact hstep false
      | some e =>
          cases e with
          | tree s tm =>
              simp only [pathDiff, shouldStub_zero, Bool.and_false, Bool.false_eq_true, if_false]
              exact hstep _
          | blob x => exact hstep false
          | symlink x => exact hstep false

/-- **`get_diffTrees_zero`** — without a stub threshold only the two entries at a path count. -/
theorem get_diffTrees_zero {base target : Option Tree} (hb : (base.getD .nil).Wf)
    (ht : (target.getD .nil).Wf) (q : Path) :
    (diffTrees base target 0).get q =
      nodeDiff 0 false ((base.getD .nil).at q) ((target.getD .nil).at q) := by
  rw [get_diffTrees hb ht]
  cases q with
  | nil => rfl
  | cons m r => exact pathDiff_zero false _ _ m r

end Omemfs.Sync
