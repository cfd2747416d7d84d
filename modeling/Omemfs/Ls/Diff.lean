/-
# Omemfs.Ls.Diff — what `ls` compares before it lists anything.

`ls` has a diff of its own between the clone root and the scanned working tree.  It goes down where a
requested path may lie, and notes files and symlinks, and a directory only if it is new and empty.  So a
directory that is gone shows by its files alone, and one that has become a file by the file alone:
`mem_diffTrees` says at which paths there is an entry.
-/
import Omemfs.Sync.Apply

namespace Omemfs.Ls

open Omemfs Sync

/-! ## The requested paths -/

/-- Requested paths; the root alone stands for everything. -/
abbrev ScopeFilter := List Path

namespace ScopeFilter

/-- The path is a requested one or below one. -/
def inScope (scope : ScopeFilter) (p : Path) : Bool := scope.any fun s => s.isPrefixOf p

/-- There may be something in scope below the directory. -/
def shouldDescend (scope : ScopeFilter) (p : Path) : Bool :=
  scope.any fun s => s.isPrefixOf p || p.isPrefixOf s

variable {scope : ScopeFilter} {p : Path}

theorem inScope_iff : scope.inScope p = true ↔ ∃ s ∈ scope, s <+: p := by
  simp [inScope, List.any_eq_true]

theorem shouldDescend_iff : scope.shouldDescend p = true ↔ ∃ s ∈ scope, s <+: p ∨ p <+: s := by
  simp [shouldDescend, List.any_eq_true]

theorem shouldDescend_of_inScope {r : Path} (h : scope.inScope (p ++ r) = true) :
    scope.shouldDescend p = true := by
  obtain ⟨s, hs, hpre⟩ := inScope_iff.mp h
  exact shouldDescend_iff.mpr
    ⟨s, hs, List.prefix_or_prefix_of_prefix hpre (List.prefix_append p r)⟩

theorem inScope_append (h : scope.inScope p = true) (r : Path) : scope.inScope (p ++ r) = true := by
  obtain ⟨s, hs, hpre⟩ := inScope_iff.mp h
  exact inScope_iff.mpr ⟨s, hs, hpre.trans (List.prefix_append p r)⟩

end ScopeFilter

/-! ## The walk -/

inductive DiffRow where
  | added
  | addedEmptyDir
  | modified
  | deleted
  deriving DecidableEq

/-- An entry, if its path is in scope. -/
def insertRow (scope : ScopeFilter) (p : Path) : Option DiffRow → List (Path × DiffRow)
  | some row => if scope.inScope p then [(p, row)] else []
  | none => []

def blobRow (x : Blob) : Option TreeEntry → Option DiffRow
  | some (.blob y) => if y.hash ≠ x.hash ∨ y.mode ≠ x.mode then some .modified else none
  | some _ => some .modified
  | none => some .added

def symlinkRow (x : Symlink) : Option TreeEntry → Option DiffRow
  | some (.symlink y) => if y.target ≠ x.target then some .modified else none
  | some _ => some .modified
  | none => some .added

def markDeleted (scope : ScopeFilter) : Tree → Path → List (Path × DiffRow)
  | .nil, _ => []
  | .blob n _ rest, pfx => insertRow scope (pfx ++ [n]) (some .deleted) ++ markDeleted scope rest pfx
  | .tree n t _ rest, pfx =>
      (if scope.shouldDescend (pfx ++ [n]) then markDeleted scope t (pfx ++ [n]) else []) ++
        markDeleted scope rest pfx
  | .symlink n _ rest, pfx => insertRow scope (pfx ++ [n]) (some .deleted) ++ markDeleted scope rest pfx

/-- Base entries without an entry of that name in the target. -/
def diffGone (scope : ScopeFilter) (targetNames : List String) : Tree → Path → List (Path × DiffRow)
  | .nil, _ => []
  | .blob n _ rest, pfx =>
      (if n ∈ targetNames then [] else insertRow scope (pfx ++ [n]) (some .deleted)) ++
        diffGone scope targetNames rest pfx
  | .tree n t _ rest, pfx =>
      (if n ∉ targetNames ∧ scope.shouldDescend (pfx ++ [n]) then markDeleted scope t (pfx ++ [n])
        else []) ++ diffGone scope targetNames rest pfx
  | .symlink n _ rest, pfx =>
      (if n ∈ targetNames then [] else insertRow scope (pfx ++ [n]) (some .deleted)) ++
        diffGone scope targetNames rest pfx

/-- The tree of a base entry, if it is one. -/
def baseTreeOf : Option TreeEntry → Option Tree
  | some (.tree s _) => some s
  | _ => none

/-- A new directory under which nothing was noted is an empty one. -/
def withEmptyDir (scope : ScopeFilter) (isNew : Bool) (p : Path) (below : List (Path × DiffRow)) :
    List (Path × DiffRow) :=
  if isNew && below.isEmpty then insertRow scope p (some .addedEmptyDir) else below

/-- The loop over the target's entries; the entries are those that the loop puts in the map. -/
def diffTarget (scope : ScopeFilter) (base : Option Tree) : Tree → Path → List (Path × DiffRow)
  | .nil, _ => []
  | .blob n x rest, pfx =>
      insertRow scope (pfx ++ [n]) (blobRow x ((base.getD .nil).find? n)) ++
        diffTarget scope base rest pfx
  | .tree n t _ rest, pfx =>
      (if scope.shouldDescend (pfx ++ [n]) then
        let baseTree := baseTreeOf ((base.getD .nil).find? n)
        withEmptyDir scope baseTree.isNone (pfx ++ [n]) <|
          if baseTree = some t then []
          else diffTarget scope baseTree t (pfx ++ [n]) ++
            diffGone scope t.names (baseTree.getD .nil) (pfx ++ [n])
      else []) ++ diffTarget scope base rest pfx
  | .symlink n x rest, pfx =>
      insertRow scope (pfx ++ [n]) (symlinkRow x ((base.getD .nil).find? n)) ++
        diffTarget scope base rest pfx

/-- Equal trees are not descended into. -/
def diffRecursive (scope : ScopeFilter) (base : Option Tree) (target : Tree) (pfx : Path) :
    List (Path × DiffRow) :=
  if base = some target then []
  else diffTarget scope base target pfx ++ diffGone scope target.names (base.getD .nil) pfx

def diffTrees (base : Option Tree) (target : Tree) (scope : ScopeFilter) : List (Path × DiffRow) :=
  diffRecursive scope base target []

/-! ## What is noted at one path -/

/-- The entry for these two. -/
def nodeRow (b : Option TreeEntry) : Option TreeEntry → Option DiffRow
  | some (.blob x) => blobRow x b
  | some (.symlink x) => symlinkRow x b
  | some (.tree s _) => if (baseTreeOf b).isNone ∧ s = .nil then some .addedEmptyDir else none
  | none => if isLeaf b then some .deleted else none

/-- A file or symlink lies above the path. -/
def LeafAbove (t : Tree) (q : Path) : Prop := ∃ a n r, q = a ++ n :: r ∧ isLeaf (t.at a) = true

/-- The diff has an entry for the path, but for its scope. -/
def Notes (base target : Tree) (q : Path) (row : DiffRow) : Prop :=
  ¬ LeafAbove target q ∧ nodeRow (base.at q) (target.at q) = some row

theorem isLeaf_of_not_isTree {e : TreeEntry} (h : e.isTree = false) : isLeaf (some e) = true := by
  cases e with
  | blob b => rfl
  | tree t m => cases h
  | symlink l => rfl

/-- Above something there are only directories. -/
theorem not_leafAbove_of_at {t : Tree} {q : Path} (h : t.at q ≠ none) : ¬ LeafAbove t q := by
  rintro ⟨a, n, r, rfl, hleaf⟩
  obtain ⟨s, m, hs⟩ := Tree.isTree_of_at_append (List.cons_ne_nil n r) h
  rw [hs] at hleaf
  cases hleaf

theorem not_leafAbove_singleton {t : Tree} {n : String} : ¬ LeafAbove t [n] := by
  rintro ⟨a, m, r, heq, hleaf⟩
  cases a with
  | nil => cases hleaf
  | cons x a => simp at heq

/-- Below an entry of the root. -/
theorem leafAbove_cons {t : Tree} {n m : String} {r : Path} :
    LeafAbove t (n :: m :: r) ↔ isLeaf (t.find? n) = true ∨
      ∃ s k, t.find? n = some (.tree s k) ∧ LeafAbove s (m :: r) := by
  constructor
  · rintro ⟨a, k, r', heq, hleaf⟩
    cases a with
    | nil => cases hleaf
    | cons x a =>
        obtain ⟨rfl, hr⟩ := List.cons.inj heq
        rw [Tree.at_cons] at hleaf
        cases hf : t.find? n with
        | none =>
            rw [hf] at hleaf
            cases hleaf
        | some e =>
            rw [hf, Option.bind_some] at hleaf
            cases e with
            | blob b => exact .inl rfl
            | symlink l => exact .inl rfl
            | tree s k' => exact .inr ⟨s, k', rfl, a, k, r', hr, by cases a <;> exact hleaf⟩
  · rintro (hleaf | ⟨s, k, hs, a, k', r', hr, hleaf⟩)
    · exact ⟨[n], m, r, rfl, by rwa [Tree.at_singleton]⟩
    · refine ⟨n :: a, k', r', by rw [hr]; rfl, ?_⟩
      rw [Tree.at_cons, hs]
      cases a <;> exact hleaf

theorem mem_insertRow {scope : ScopeFilter} {p q : Path} {o : Option DiffRow} {row : DiffRow} :
    (q, row) ∈ insertRow scope p o ↔ scope.inScope p = true ∧ q = p ∧ o = some row := by
  cases o with
  | none => simp [insertRow]
  | some a =>
      unfold insertRow
      split_ifs with h
      · simp [h, eq_comm]
      · simp [h]

/-! ## Membership -/

variable {scope : ScopeFilter}

/-- What `markDeleted` does with one entry. -/
def markDeletedEntry (scope : ScopeFilter) (e : TreeEntry) (p : Path) : List (Path × DiffRow) :=
  match e with
  | .tree t _ => if scope.shouldDescend p then markDeleted scope t p else []
  | _ => insertRow scope p (some .deleted)

theorem markDeleted_cons (n : String) (e : TreeEntry) (rest : Tree) (pfx : Path) :
    markDeleted scope (.cons n e rest) pfx =
      markDeletedEntry scope e (pfx ++ [n]) ++ markDeleted scope rest pfx := by
  cases e <;> rfl

theorem diffGone_cons (names : List String) (n : String) (e : TreeEntry) (rest : Tree) (pfx : Path) :
    diffGone scope names (.cons n e rest) pfx =
      (if n ∈ names then [] else markDeletedEntry scope e (pfx ++ [n])) ++
        diffGone scope names rest pfx := by
  cases e with
  | blob b => rfl
  | symlink l => rfl
  | tree t m =>
      show (if n ∉ names ∧ _ then _ else []) ++ _ = _
      by_cases hn : n ∈ names
      · simp [hn]
      · simp [hn, markDeletedEntry]

theorem mem_markDeletedEntry {e : TreeEntry} (p q : Path) (row : DiffRow)
    (ih : ∀ pfx, (q, row) ∈ markDeleted scope e.children pfx ↔ row = .deleted ∧
      scope.inScope q = true ∧ ∃ n r, q = pfx ++ n :: r ∧ isLeaf (e.children.at (n :: r)) = true) :
    (q, row) ∈ markDeletedEntry scope e p ↔
      row = .deleted ∧ scope.inScope q = true ∧ ∃ r, q = p ++ r ∧ isLeaf (e.at r) = true := by
  have hleaf : e.isTree = false → ((q, row) ∈ insertRow scope p (some .deleted) ↔
      row = .deleted ∧ scope.inScope q = true ∧ ∃ r, q = p ++ r ∧ isLeaf (e.at r) = true) := by
    intro he
    rw [mem_insertRow]
    constructor
    · rintro ⟨hp, rfl, hrow⟩
      refine ⟨(Option.some.inj hrow).symm, hp, [], (List.append_nil q).symm, ?_⟩
      exact isLeaf_of_not_isTree he
    · rintro ⟨rfl, hq, r, rfl, hr⟩
      cases r with
      | nil =>
          rw [List.append_nil] at hq ⊢
          exact ⟨hq, rfl, rfl⟩
      | cons n r =>
          rw [TreeEntry.at_cons_of_not_tree he] at hr
          cases hr
  cases e with
  | blob b => exact hleaf rfl
  | symlink l => exact hleaf rfl
  | tree t m =>
      show (q, row) ∈ (if scope.shouldDescend p then markDeleted scope t p else []) ↔ _
      have hin := ih p
      constructor
      · intro hmem
        split_ifs at hmem with hd
        · obtain ⟨hrow, hq, n, r, heq, hr⟩ := hin.mp hmem
          exact ⟨hrow, hq, n :: r, heq, hr⟩
        · cases hmem
      · rintro ⟨hrow, hq, r, rfl, hr⟩
        rw [if_pos (ScopeFilter.shouldDescend_of_inScope hq)]
        cases r with
        | nil => cases hr
        | cons n r => exact hin.mpr ⟨hrow, hq, n, r, rfl, hr⟩

/-- **`mem_markDeleted`** — every file and symlink in scope, and nothing else. -/
theorem mem_markDeleted {t : Tree} (hwf : t.Wf) {pfx q : Path} {row : DiffRow} :
    (q, row) ∈ markDeleted scope t pfx ↔ row = .deleted ∧ scope.inScope q = true ∧
      ∃ n r, q = pfx ++ n :: r ∧ isLeaf (t.at (n :: r)) = true := by
  induction t using Tree.induction_cons generalizing pfx with
  | nil => simp [markDeleted, isLeaf]
  | cons m e rest ihe ih =>
      obtain ⟨hm, hwe, hwr⟩ := Tree.wf_cons.mp hwf
      rw [markDeleted_cons, List.mem_append,
        mem_markDeletedEntry (pfx ++ [m]) q row fun pfx => ihe hwe.children, ih hwr]
      constructor
      · rintro (⟨hrow, hq, r, heq, hr⟩ | ⟨hrow, hq, n, r, heq, hr⟩)
        · exact ⟨hrow, hq, m, r, by simpa using heq, by rwa [Tree.cons_at_cons, if_pos rfl]⟩
        · refine ⟨hrow, hq, n, r, heq, ?_⟩
          rw [Tree.cons_at_cons, if_neg, hr]
          rintro rfl
          rw [Tree.at_cons_of_not_mem hm] at hr
          cases hr
      · rintro ⟨hrow, hq, n, r, heq, hr⟩
        rw [Tree.cons_at_cons] at hr
        split_ifs at hr with hn
        · subst hn
          exact .inl ⟨hrow, hq, r, by simpa using heq, hr⟩
        · exact .inr ⟨hrow, hq, n, r, heq, hr⟩

/-- The second pass. -/
theorem mem_diffGone {names : List String} {base : Tree} (hwf : base.Wf) {pfx q : Path}
    {row : DiffRow} :
    (q, row) ∈ diffGone scope names base pfx ↔ row = .deleted ∧ scope.inScope q = true ∧
      ∃ n r, q = pfx ++ n :: r ∧ n ∉ names ∧ isLeaf (base.at (n :: r)) = true := by
  induction base using Tree.induction_cons with
  | nil => simp [diffGone, isLeaf]
  | cons m e rest _ ih =>
      obtain ⟨hm, hwe, hwr⟩ := Tree.wf_cons.mp hwf
      have hone := @mem_markDeletedEntry scope e (pfx ++ [m]) q row
        fun pfx => mem_markDeleted hwe.children
      rw [diffGone_cons, List.mem_append, ih hwr]
      constructor
      · rintro (hmem | ⟨hrow, hq, n, r, heq, hnew, hr⟩)
        · split_ifs at hmem with hin
          · cases hmem
          · obtain ⟨hrow, hq, r, heq, hr⟩ := hone.mp hmem
            exact ⟨hrow, hq, m, r, by simpa using heq, hin, by rwa [Tree.cons_at_cons, if_pos rfl]⟩
        · refine ⟨hrow, hq, n, r, heq, hnew, ?_⟩
          rw [Tree.cons_at_cons, if_neg, hr]
          rintro rfl
          rw [Tree.at_cons_of_not_mem hm] at hr
          cases hr
      · rintro ⟨hrow, hq, n, r, heq, hnew, hr⟩
        rw [Tree.cons_at_cons] at hr
        split_ifs at hr with hn
        · subst hn
          rw [if_neg hnew]
          exact .inl (hone.mpr ⟨hrow, hq, r, by simpa using heq, hr⟩)
        · exact .inr ⟨hrow, hq, n, r, heq, hnew, hr⟩

/-- What the loop over the target notes for one entry. -/
def entryRows (scope : ScopeFilter) (b : Option TreeEntry) (e : TreeEntry) (p : Path) :
    List (Path × DiffRow) :=
  match e with
  | .blob x => insertRow scope p (blobRow x b)
  | .symlink x => insertRow scope p (symlinkRow x b)
  | .tree t _ =>
      if scope.shouldDescend p then
        withEmptyDir scope (baseTreeOf b).isNone p (diffRecursive scope (baseTreeOf b) t p)
      else []

theorem diffTarget_cons (base : Option Tree) (n : String) (e : TreeEntry) (rest : Tree) (pfx : Path) :
    diffTarget scope base (.cons n e rest) pfx =
      entryRows scope ((base.getD .nil).find? n) e (pfx ++ [n]) ++ diffTarget scope base rest pfx := by
  cases e <;> rfl

theorem at_baseTreeOf (b : Option TreeEntry) (n : String) (r : Path) :
    ((baseTreeOf b).getD .nil).at (n :: r) = b.bind fun e => e.at (n :: r) := by
  cases b with
  | none => rfl
  | some e => cases e <;> rfl

theorem nodeRow_self (b : Option TreeEntry) : nodeRow b b = none := by
  cases b with
  | none => rfl
  | some e => cases e <;> simp [nodeRow, blobRow, symlinkRow, baseTreeOf]

theorem nodeRow_tree_of_ne {b : Option TreeEntry} {s : Tree} {m : TreeMeta} (hs : s ≠ .nil) :
    nodeRow b (some (.tree s m)) = none := by
  simp [nodeRow, hs]

/-- In a new tree that is not empty there is something to note. -/
theorem exists_notes_of_ne_nil {t : Tree} (ht : t ≠ .nil) :
    ∃ n r row, Notes .nil t (n :: r) row := by
  induction t using Tree.induction_cons with
  | nil => exact absurd rfl ht
  | cons n e rest ihe _ =>
      have hfind : (Tree.cons n e rest).find? n = some e := by rw [Tree.find?_cons, if_pos rfl]
      have hhere : ∀ row, nodeRow none (some e) = some row →
          Notes .nil (Tree.cons n e rest) [n] row := by
        intro row hrow
        refine ⟨not_leafAbove_singleton, ?_⟩
        rwa [Tree.at_singleton, Tree.at_singleton, hfind]
      cases e with
      | blob b => exact ⟨n, [], .added, hhere _ rfl⟩
      | symlink l => exact ⟨n, [], .added, hhere _ rfl⟩
      | tree s k =>
          by_cases hs : s = .nil
          · exact ⟨n, [], .addedEmptyDir, hhere _ (by simp [nodeRow, baseTreeOf, hs])⟩
          · obtain ⟨m, r, row, hno, hrow⟩ := ihe hs
            refine ⟨n, m :: r, row, ?_, ?_⟩
            · rw [leafAbove_cons, hfind]
              rintro (hleaf | ⟨s', k', hs', habove⟩)
              · cases hleaf
              · cases hs'
                exact hno habove
            · rw [Tree.cons_at_cons, if_pos rfl]
              exact hrow

/-- What the walk of `t` notes, by whatever base. -/
def TargetSpec (scope : ScopeFilter) (t : Tree) : Prop :=
  ∀ (base : Option Tree), (base.getD .nil).Wf → ∀ (pfx q : Path) (row : DiffRow),
    (q, row) ∈ diffTarget scope base t pfx ↔ scope.inScope q = true ∧
      ∃ n r, n ∈ t.names ∧ q = pfx ++ n :: r ∧ Notes (base.getD .nil) t (n :: r) row

/-- Both passes together. -/
theorem mem_diffRecursive_of_spec {t : Tree} (hspec : TargetSpec scope t) {base : Option Tree}
    (hb : (base.getD .nil).Wf) {pfx q : Path} {row : DiffRow} :
    (q, row) ∈ diffRecursive scope base t pfx ↔ scope.inScope q = true ∧
      ∃ n r, q = pfx ++ n :: r ∧ Notes (base.getD .nil) t (n :: r) row := by
  unfold diffRecursive
  split_ifs with heq
  · subst heq
    simp [Notes, nodeRow_self]
  · rw [List.mem_append, hspec base hb, mem_diffGone hb]
    constructor
    · rintro (⟨hq, n, r, -, heq, hrow⟩ | ⟨rfl, hq, n, r, heq, hnew, hleaf⟩)
      · exact ⟨hq, n, r, heq, hrow⟩
      · have hnone := Tree.at_cons_of_not_mem hnew r
        refine ⟨hq, n, r, heq, ?_, by rw [hnone, nodeRow, if_pos hleaf]⟩
        -- the target has nothing of that name
        cases r with
        | nil => exact not_leafAbove_singleton
        | cons m r =>
            rw [leafAbove_cons, Tree.find?_eq_none_iff.mpr hnew]
            rintro (hl | ⟨s, k, hs, -⟩)
            · cases hl
            · cases hs
    · rintro ⟨hq, n, r, heq, hno, hrow⟩
      by_cases hn : n ∈ t.names
      · exact .inl ⟨hq, n, r, hn, heq, hno, hrow⟩
      · rw [Tree.at_cons_of_not_mem hn, nodeRow] at hrow
        split_ifs at hrow with hleaf
        exact .inr ⟨(Option.some.inj hrow).symm, hq, n, r, heq, hn, hleaf⟩

theorem mem_entryRows {b : Option TreeEntry} {e : TreeEntry} (hb : ∀ c, b = some c → c.Wf)
    (hspec : TargetSpec scope e.children) {p q : Path} {row : DiffRow} :
    (q, row) ∈ entryRows scope b e p ↔ scope.inScope q = true ∧
      ((q = p ∧ nodeRow b (some e) = some row) ∨ ∃ n r t m, q = p ++ n :: r ∧ e = .tree t m ∧
        Notes ((baseTreeOf b).getD .nil) t (n :: r) row) := by
  have hleaf : ∀ o, (q, row) ∈ insertRow scope p o ↔
      scope.inScope q = true ∧ (q = p ∧ o = some row) := by
    intro o
    rw [mem_insertRow]
    constructor
    · rintro ⟨hp, rfl, ho⟩
      exact ⟨hp, rfl, ho⟩
    · rintro ⟨hq, rfl, ho⟩
      exact ⟨hq, rfl, ho⟩
  cases e with
  | blob x => simp [entryRows, hleaf, nodeRow]
  | symlink x => simp [entryRows, hleaf, nodeRow]
  | tree t m =>
      have hwf : ((baseTreeOf b).getD .nil).Wf := by
        cases b with
        | none => trivial
        | some c => cases c <;> first | trivial | exact (hb _ rfl).children
      have hbelow := @mem_diffRecursive_of_spec scope t hspec (baseTreeOf b) hwf p q row
      have hright : ∀ n r t' m', TreeEntry.tree t m = .tree t' m' →
          Notes ((baseTreeOf b).getD .nil) t' (n :: r) row →
            Notes ((baseTreeOf b).getD .nil) t (n :: r) row := by
        intro n r t' m' heq hnotes
        cases heq
        exact hnotes
      show (q, row) ∈ (if scope.shouldDescend p then _ else []) ↔ _
      constructor
      · intro hmem
        split_ifs at hmem with hdescend
        swap
        · cases hmem
        unfold withEmptyDir at hmem
        split_ifs at hmem with hempty
        · obtain ⟨hq, rfl, hrow⟩ := (hleaf _).mp hmem
          rw [Bool.and_eq_true, List.isEmpty_iff] at hempty
          refine ⟨hq, .inl ⟨rfl, ?_⟩⟩
          -- nothing below, and in scope: the tree is empty
          have hnil : t = .nil := by
            by_contra hne
            obtain ⟨n, r, row', hnotes⟩ := exists_notes_of_ne_nil hne
            have hbase : baseTreeOf b = none := Option.isNone_iff_eq_none.mp hempty.1
            have hin := (@mem_diffRecursive_of_spec scope t hspec (baseTreeOf b) hwf q
              (q ++ n :: r) row').mpr ⟨ScopeFilter.inScope_append hq _, n, r, rfl, by rwa [hbase]⟩
            rw [hempty.2] at hin
            cases hin
          rw [nodeRow, if_pos ⟨hempty.1, hnil⟩]
          exact hrow
        · obtain ⟨hq, n, r, heq, hnotes⟩ := hbelow.mp hmem
          exact ⟨hq, .inr ⟨n, r, t, m, heq, rfl, hnotes⟩⟩
      · rintro ⟨hq, ⟨rfl, hrow⟩ | ⟨n, r, t', m', rfl, heq, hnotes⟩⟩
        · rw [if_pos (ScopeFilter.shouldDescend_of_inScope (r := []) (by rwa [List.append_nil]))]
          rw [nodeRow] at hrow
          split_ifs at hrow with hnew
          obtain ⟨hnone, rfl⟩ := hnew
          have hempty : diffRecursive scope (baseTreeOf b) .nil q = [] := by
            rw [Option.isNone_iff_eq_none.mp hnone]
            rfl
          rw [hnone, hempty]
          exact (hleaf _).mpr ⟨hq, rfl, hrow⟩
        · rw [if_pos (ScopeFilter.shouldDescend_of_inScope hq)]
          have hin := hbelow.mpr ⟨hq, n, r, rfl, hright n r t' m' heq hnotes⟩
          unfold withEmptyDir
          rw [if_neg]
          · exact hin
          · rw [Bool.and_eq_true, List.isEmpty_iff]
            rintro ⟨-, hno⟩
            rw [hno] at hin
            cases hin

theorem targetSpec (scope : ScopeFilter) (t : Tree) (ht : t.Wf) : TargetSpec scope t := by
  induction t using Tree.induction_cons with
  | nil => intro base hb pfx q row; simp [diffTarget, Tree.names, Tree.entries]
  | cons m e rest ihe ih =>
      obtain ⟨hm, hwe, hwr⟩ := Tree.wf_cons.mp ht
      intro base hb pfx q row
      have hone := @mem_entryRows scope ((base.getD .nil).find? m) e (fun c hc => hb.of_find? hc)
        (ihe hwe.children) (pfx ++ [m]) q row
      rw [diffTarget_cons, List.mem_append, hone, ih hwr base hb]
      have hhead : ∀ r, (Tree.cons m e rest).at (m :: r) = e.at r := fun r => by
        rw [Tree.cons_at_cons, if_pos rfl]
      have hfind : (Tree.cons m e rest).find? m = some e := by rw [Tree.find?_cons, if_pos rfl]
      have hrest : ∀ n r, n ∈ rest.names → (Notes (base.getD .nil) (Tree.cons m e rest) (n :: r) row ↔
          Notes (base.getD .nil) rest (n :: r) row) := by
        intro n r hn
        have hne : n ≠ m := fun h => hm (h ▸ hn)
        have hf : (Tree.cons m e rest).find? n = rest.find? n := by rw [Tree.find?_cons, if_neg hne]
        unfold Notes
        rw [Tree.cons_at_cons, if_neg hne]
        cases r with
        | nil => simp [not_leafAbove_singleton]
        | cons k r => rw [leafAbove_cons, leafAbove_cons, hf]
      constructor
      · rintro (⟨hq, ⟨rfl, hrow⟩ | ⟨n, r, t, k, rfl, rfl, hno, hrow⟩⟩ | ⟨hq, n, r, hn, heq, hnotes⟩)
        · refine ⟨hq, m, [], by simp [Tree.names], by simp, not_leafAbove_singleton, ?_⟩
          rw [hhead, Tree.at_singleton]
          exact hrow
        · refine ⟨hq, m, n :: r, by simp [Tree.names], by simp, ?_, ?_⟩
          · rw [leafAbove_cons, hfind]
            rintro (hl | ⟨s, k', hs, habove⟩)
            · cases hl
            · cases hs
              exact hno habove
          · rw [hhead, Tree.at_cons, ← at_baseTreeOf]
            exact hrow
        · have hmem : n ∈ (Tree.cons m e rest).names := by
            rw [Tree.names, Tree.entries_cons]
            exact List.mem_cons_of_mem _ hn
          exact ⟨hq, n, r, hmem, heq, (hrest n r hn).mpr hnotes⟩
      · rintro ⟨hq, n, r, hn, heq, hnotes⟩
        by_cases hnm : n = m
        · subst hnm
          refine .inl ⟨hq, ?_⟩
          obtain ⟨hno, hrow⟩ := hnotes
          rw [hhead] at hrow
          cases r with
          | nil =>
              rw [Tree.at_singleton] at hrow
              exact .inl ⟨by simpa using heq, hrow⟩
          | cons k r =>
              rw [leafAbove_cons, hfind, not_or] at hno
              cases e with
              | blob b => exact absurd rfl hno.1
              | symlink l => exact absurd rfl hno.1
              | tree t k' =>
                  refine .inr ⟨k, r, t, k', by simpa using heq, rfl, ?_, ?_⟩
                  · exact fun habove => hno.2 ⟨t, k', rfl, habove⟩
                  · rw [at_baseTreeOf, ← Tree.at_cons]
                    exact hrow
        · have hn' : n ∈ rest.names := by
            rw [Tree.names, Tree.entries_cons, List.map_cons, List.mem_cons] at hn
            exact hn.resolve_left hnm
          exact .inr ⟨hq, n, r, hn', heq, (hrest n r hn').mp hnotes⟩

/-- **`mem_diffTrees`** — the diff has an entry at a path in scope according to the two entries there,
except below a file or symlink of the working tree. -/
theorem mem_diffTrees {base : Option Tree} {target : Tree} (hb : (base.getD .nil).Wf)
    (ht : target.Wf) {q : Path} {row : DiffRow} :
    (q, row) ∈ diffTrees base target scope ↔
      scope.inScope q = true ∧ q ≠ [] ∧ Notes (base.getD .nil) target q row := by
  rw [diffTrees, mem_diffRecursive_of_spec (targetSpec scope target ht) hb]
  refine and_congr_right fun _ => ⟨?_, ?_⟩
  · rintro ⟨n, r, rfl, hnotes⟩
    exact ⟨List.cons_ne_nil n r, hnotes⟩
  · rintro ⟨hne, hnotes⟩
    obtain ⟨n, r, rfl⟩ := List.exists_cons_of_ne_nil hne
    exact ⟨n, r, rfl, hnotes⟩

end Omemfs.Ls
