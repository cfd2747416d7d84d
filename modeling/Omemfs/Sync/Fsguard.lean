/-
# Omemfs.Sync.Fsguard — the working-tree write boundary.

Every write below the working directory goes down to the parent of its path one component at a time
and never through a symlink: `resolveDir` opens the directories on the way, creating the missing ones
where the caller wants them, and refuses anything else that stands there.  A path is taken from the
working directory; what the operations leave is told by `get` at every path, as an `Effect`.

A file is written under a temporary name and renamed into place; the temporary name is nowhere else
used, so the model shows the rename alone.
-/
import Omemfs.Lib.DirTree
import Omemfs.Lib.Effect
import Omemfs.Lib.Footprint
import Omemfs.Sync.TreeOps

namespace Omemfs.Fsguard

open Omemfs Lib

inductive GuardError where
  | io (e : Errno)
  | symlinkEscape (p : Path)
  | invalidComponent (name : String)
  deriving DecidableEq

/-- An operation on the working tree, which it leaves changed also where it fails half-way. -/
abbrev Guarded (α β : Type) := EStateM GuardError (DirTree String α) β

variable {α : Type}

def syscall (call : DirTree String α → Except Errno (DirTree String α)) : Guarded α PUnit :=
  fun d =>
    match call d with
    | .ok d' => .ok ⟨⟩ d'
    | .error e => .error (.io e) d

/-- Open the directory `name` in the open directory `parent`. -/
def descend (create : Bool) (parent : Path) (name : String) : Guarded α Path := fun d =>
  match d.get (parent ++ [name]) with
  | some .dir => .ok (parent ++ [name]) d
  | some (.leaf _) => .error (.symlinkEscape (parent ++ [name])) d
  | none =>
      if create then
        (syscall (fun d => d.mkdir (parent ++ [name])) >>= fun _ => pure (parent ++ [name])) d
      else .error (.io .enoent) d

def resolveDir (create : Bool) : Path → Path → Guarded α Path
  | parent, [] => pure parent
  | parent, n :: rel => descend create parent n >>= fun d => resolveDir create d rel

/-- Open the parent directory of a path. -/
def openLeaf (createParents : Bool) (p : Path) : Guarded α Path :=
  match p.getLast? with
  | none => throw (.invalidComponent "")
  | some _ => resolveDir createParents [] p.dropLast

def createDirAll (p : Path) : Guarded α PUnit :=
  resolveDir true [] p >>= fun _ => pure ⟨⟩

/-- Write a file under a temporary name beside its place and rename it. -/
def atomicWrite (p : Path) (a : α) : Guarded α PUnit :=
  openLeaf true p >>= fun _ => syscall fun d => d.rename p a

/-- Remove a directory if it is empty; failing is no error. -/
def tryRmdir (p : Path) : Guarded α PUnit := fun d =>
  match d.rmdir p with
  | .ok d' => .ok ⟨⟩ d'
  | .error _ => .ok ⟨⟩ d

/-- An empty directory in the way is removed, as far as that works; then the link is renamed into
place. -/
def replaceSymlink (p : Path) (a : α) : Guarded α PUnit :=
  openLeaf true p >>= fun _ =>
  tryRmdir p >>= fun _ => syscall fun d => d.rename p a

/-- A path that does not exist, or has no parent, is as good as removed. -/
def removeFileTolerant (p : Path) : Guarded α PUnit := fun d =>
  match openLeaf false p d with
  | .ok _ d =>
      match d.unlink p with
      | .ok d' => .ok ⟨⟩ d'
      | .error .enoent => .ok ⟨⟩ d
      | .error e => .error (.io e) d
  | .error (.io .enoent) d => .ok ⟨⟩ d
  | .error e d => .error e d

/-! ## The way down -/

/-- No file or symlink stands above the path. -/
def OpenWay (d : DirTree String α) (p : Path) : Prop :=
  ∀ a, a <+: p → a ≠ p → ∀ x, d.get a ≠ some (.leaf x)

theorem syscall_ok {call : DirTree String α → Except Errno (DirTree String α)}
    {d d' : DirTree String α} (h : call d = .ok d') : syscall call d = .ok ⟨⟩ d' := by
  simp only [syscall, h]

theorem syscall_error {call : DirTree String α → Except Errno (DirTree String α)}
    {d : DirTree String α} {e : Errno} (h : call d = .error e) :
    syscall call d = .error (.io e) d := by
  simp only [syscall, h]

/-- A missing directory is created on the way. -/
theorem descend_create {d : DirTree String α} {parent : Path} (hdir : d.get parent = some .dir)
    (n : String) :
    Effect (descend true parent n) d (∀ x, d.get (parent ++ [n]) ≠ some (.leaf x)) fun p d' =>
      p = parent ++ [n] ∧ ∀ q, d'.get q = if q = parent ++ [n] then some .dir else d.get q := by
  cases hk : d.get (parent ++ [n]) with
  | none =>
      obtain ⟨e, hmk, hget⟩ := DirTree.mkdir_of_none hdir hk
      have hrun : descend true parent n d = .ok (parent ++ [n]) e := by
        simp only [descend, hk, if_true]
        show EStateM.bind _ _ d = _
        have hcall : syscall (fun d => d.mkdir (parent ++ [n])) d = .ok ⟨⟩ e := syscall_ok hmk
        simp only [EStateM.bind, hcall]
        rfl
      exact Effect.of_eq_ok hrun (by simp) ⟨rfl, hget⟩
  | some k =>
      cases k with
      | dir =>
          have hrun : descend true parent n d = .ok (parent ++ [n]) d := by
            simp only [descend, hk]
          refine Effect.of_eq_ok hrun (by simp) ⟨rfl, fun q => ?_⟩
          split_ifs with hq
          · rw [hq, hk]
          · rfl
      | leaf a =>
          have hrun : descend true parent n d = .error (.symlinkEscape (parent ++ [n])) d := by
            simp only [descend, hk]
          exact Effect.of_eq_error hrun (by simp)

/-- Between `parent` and a path below `parent ++ [n]` lie `parent` and what is below
`parent ++ [n]`. -/
theorem prefix_between {parent rel q : Path} {n : String} :
    parent <+: q ∧ q <+: parent ++ n :: rel ↔
      q = parent ∨ (parent ++ [n] <+: q ∧ q <+: (parent ++ [n]) ++ rel) := by
  have hassoc : (parent ++ [n]) ++ rel = parent ++ n :: rel := by simp
  rw [hassoc]
  constructor
  · rintro ⟨⟨r, rfl⟩, hr⟩
    cases r with
    | nil => exact Or.inl (by simp)
    | cons m r =>
        refine Or.inr ⟨?_, hr⟩
        rw [List.prefix_append_right_inj] at hr
        obtain ⟨rfl, -⟩ := List.cons_prefix_cons.mp hr
        simp
  · rintro (rfl | ⟨h1, h2⟩)
    · exact ⟨List.prefix_rfl, List.prefix_append _ _⟩
    · exact ⟨(List.prefix_append _ _).trans h1, h2⟩

/-- The way to something that exists is open. -/
theorem openWay_of_get {d : DirTree String α} {p : Path} (h : d.get p ≠ none) : OpenWay d p := by
  rintro a ⟨r, rfl⟩ hne x hx
  cases r with
  | nil => simp at hne
  | cons n r =>
      rw [DirTree.get_of_append h] at hx
      cases hx

/-- Only paths between `parent` and `parent ++ rel` become directories. -/
theorem resolveDir_create {d : DirTree String α} {parent : Path} (hdir : d.get parent = some .dir)
    (rel : Path) :
    Effect (resolveDir true parent rel) d
      (∀ a, a <+: rel → ∀ x, d.get (parent ++ a) ≠ some (.leaf x))
      fun p d' => p = parent ++ rel ∧
        ∀ q, d'.get q = if parent <+: q ∧ q <+: parent ++ rel then some .dir else d.get q := by
  induction rel generalizing parent d with
  | nil =>
      refine (Effect.pure parent d).congr (by simp [hdir]) ?_
      rintro - p t ⟨rfl, rfl⟩
      refine ⟨by simp, fun q => ?_⟩
      split_ifs with h
      · rw [List.append_nil] at h
        rw [← h.1.eq_of_length_le h.2.length_le, hdir]
      · rfl
  | cons n rel ih =>
      have hall : Effect (descend true parent n >>= fun p => resolveDir true p rel) d
          ((∀ x, d.get (parent ++ [n]) ≠ some (.leaf x)) ∧
            ∀ a, a <+: rel → ∀ x, d.get ((parent ++ [n]) ++ a) ≠ some (.leaf x))
          fun p d' => p = parent ++ n :: rel ∧ ∀ q, d'.get q =
            if parent <+: q ∧ q <+: parent ++ n :: rel then some .dir else d.get q := by
        apply (descend_create hdir n).bind
        rintro _ e hopen ⟨rfl, hget⟩
        have he : e.get (parent ++ [n]) = some .dir := by rw [hget, if_pos rfl]
        refine (ih he).congr ?_ ?_
        · apply forall₂_congr
          intro a _
          rw [hget]
          split_ifs with ha
          · simp [ha, hopen]
          · rfl
        · rintro - p t ⟨rfl, hgt⟩
          refine ⟨by simp, fun q => ?_⟩
          rw [hgt, if_congr prefix_between rfl rfl, hget]
          by_cases hq : q = parent
          · have hne : ¬ (parent ++ [n] <+: parent) := fun h => by simpa using h.length_le
            simp [hq, hne, hdir]
          · by_cases hn : q = parent ++ [n]
            · simp [hn]
            · simp [hq, hn]
      refine hall.congr ?_ fun _ _ _ h => h
      constructor
      · rintro ⟨h1, h2⟩ a ha
        cases a with
        | nil => simp [hdir]
        | cons m a =>
            obtain ⟨rfl, hrest⟩ := List.cons_prefix_cons.mp ha
            simpa using h2 a hrest
      · intro h
        refine ⟨h [n] (by simp), fun a ha => ?_⟩
        simpa using h (n :: a) (by simpa using ha)

/-- Without creating anything the way ends in the directory, at something missing, or at a file or
symlink. -/
theorem resolveDir_open {d : DirTree String α} {parent : Path} (hdir : d.get parent = some .dir)
    (rel : Path) :
    (d.get (parent ++ rel) = some .dir ∧
      resolveDir false parent rel d = .ok (parent ++ rel) d) ∨
    ((∀ a, a <+: rel → ∀ x, d.get (parent ++ a) ≠ some (.leaf x)) ∧
      d.get (parent ++ rel) = none ∧ resolveDir false parent rel d = .error (.io .enoent) d) ∨
    ((∃ a x, a <+: rel ∧ d.get (parent ++ a) = some (.leaf x)) ∧
      ∃ p, resolveDir false parent rel d = .error (.symlinkEscape p) d) := by
  induction rel generalizing parent with
  | nil => exact Or.inl ⟨by simpa using hdir, by simp [resolveDir, pure, EStateM.pure]⟩
  | cons n rel ih =>
      have hassoc : ∀ a, parent ++ n :: a = (parent ++ [n]) ++ a := by simp
      have hbind : resolveDir false parent (n :: rel) d =
          (descend false parent n >>= fun p => resolveDir false p rel) d := rfl
      rw [hbind, hassoc]
      show _ ∨ _ ∨ _ ∧ ∃ p, EStateM.bind _ _ d = _
      cases hk : d.get (parent ++ [n]) with
      | none =>
          have hrun : descend false parent n d = .error (.io .enoent) d := by
            simp [descend, hk]
          refine Or.inr (Or.inl ⟨fun a ha x => ?_, ?_, ?_⟩)
          · cases a with
            | nil => simp [hdir]
            | cons m a =>
                obtain ⟨rfl, -⟩ := List.cons_prefix_cons.mp ha
                cases a with
                | nil => simp [hk]
                | cons k a =>
                    rw [hassoc, DirTree.get_append_of_not_dir (by simp [hk])]
                    rintro ⟨⟩
          · cases rel with
            | nil => simpa using hk
            | cons k rel => exact DirTree.get_append_of_not_dir (by simp [hk]) k rel
          · show EStateM.bind _ _ d = _
            simp only [EStateM.bind, hrun]
      | some k =>
          cases k with
          | leaf a =>
              have hrun : descend false parent n d = .error (.symlinkEscape (parent ++ [n])) d := by
                simp [descend, hk]
              refine Or.inr (Or.inr ⟨⟨[n], a, by simp, hk⟩, parent ++ [n], ?_⟩)
              simp only [EStateM.bind, hrun]
          | dir =>
              have hrun : descend false parent n d = .ok (parent ++ [n]) d := by
                simp [descend, hk]
              have hgo : EStateM.bind (descend false parent n) (fun p => resolveDir false p rel) d =
                  resolveDir false (parent ++ [n]) rel d := by
                simp only [EStateM.bind, hrun]
              obtain h | ⟨hway, hnone, herr⟩ | ⟨⟨a, x, ha, hleaf⟩, herr⟩ := ih hk
              · exact Or.inl ⟨h.1, hgo.trans h.2⟩
              · refine Or.inr (Or.inl ⟨fun a ha x => ?_, hnone, hgo.trans herr⟩)
                cases a with
                | nil => simp [hdir]
                | cons m a =>
                    obtain ⟨rfl, hrest⟩ := List.cons_prefix_cons.mp ha
                    rw [hassoc]
                    exact hway a hrest x
              · refine Or.inr (Or.inr ⟨⟨n :: a, x, by simpa using ha, by rw [hassoc]; exact hleaf⟩, ?_⟩)
                exact herr.imp fun p hp => hgo.trans hp

/-! ## The operations -/

theorem openLeaf_concat (create : Bool) (p : Path) (n : String) :
    (openLeaf create (p ++ [n]) : Guarded α Path) = resolveDir create [] p := by
  simp [openLeaf]

/-- The way to an entry is open when the way to its parent ends there. -/
theorem openWay_concat {d : DirTree String α} {p : Path} {n : String} :
    OpenWay d (p ++ [n]) ↔ ∀ a, a <+: p → ∀ x, d.get a ≠ some (.leaf x) := by
  constructor
  · intro h a ha
    apply h a (ha.trans (List.prefix_append _ _))
    rintro rfl
    simpa using ha.length_le
  · intro h a ha hne
    rw [List.prefix_concat_iff] at ha
    exact h a (ha.resolve_left hne)

theorem createDirAll_effect (d : DirTree String α) (p : Path) :
    Effect (createDirAll p) d (∀ a, a <+: p → ∀ x, d.get a ≠ some (.leaf x))
      fun _ d' => ∀ q, d'.get q = if q <+: p then some .dir else d.get q := by
  have hrest : ∀ e : DirTree String α, (∀ q, e.get q = if q <+: p then some .dir else d.get q) →
      Effect (pure ⟨⟩ : Guarded α PUnit) e True
        fun _ d' => ∀ q, d'.get q = if q <+: p then some .dir else d.get q := by
    intro e hget
    refine (Effect.pure PUnit.unit e).congr Iff.rfl ?_
    rintro - _ t ⟨-, rfl⟩
    exact hget
  have h := (resolveDir_create (DirTree.get_nil d) p).bind fun _ e _ he =>
    hrest e fun q => by simpa using he.2 q
  exact h.congr (by simp) fun _ _ _ hpost => hpost

/-- Opening the parent of an entry to be written creates what is missing above it. -/
theorem openLeaf_effect (d : DirTree String α) (p : Path) (n : String) :
    Effect (openLeaf true (p ++ [n])) d (OpenWay d (p ++ [n])) fun _ d' =>
      d'.get p = some .dir ∧ ∀ q, d'.get q = if q <+: p then some .dir else d.get q := by
  rw [openLeaf_concat]
  refine (resolveDir_create (DirTree.get_nil d) p).congr ?_ ?_
  · rw [openWay_concat]
    simp
  · rintro - _ e ⟨-, hget⟩
    have hview : ∀ q, e.get q = if q <+: p then some .dir else d.get q := fun q => by
      simpa using hget q
    exact ⟨by rw [hview, if_pos List.prefix_rfl], hview⟩

/-- What was above the entry, and what the rename puts there. -/
theorem get_write {d e e' : DirTree String α} {p : Path} {n : String} {x : α}
    (hopen : ∀ q, e.get q = if q <+: p then some .dir else d.get q)
    (hwrite : ∀ q, e'.get q = if q = p ++ [n] then some (.leaf x) else e.get q) (q : Path) :
    e'.get q = if q = p ++ [n] then some (.leaf x)
      else if q <+: p ++ [n] then some .dir else d.get q := by
  rw [hwrite]
  split_ifs with h1 h2
  · rfl
  · rw [hopen, if_pos ((List.prefix_concat_iff.mp h2).resolve_left h1)]
  · rw [hopen, if_neg fun h => h2 (h.trans (List.prefix_append _ _))]

theorem not_prefix_parent (p : Path) (n : String) (r : Path) : ¬ p ++ n :: r <+: p := by
  intro h
  simpa using h.length_le

/-- The parents are created, and the leaf takes the place of whatever is no directory. -/
theorem atomicWrite_effect (d : DirTree String α) {p : Path} (hp : p ≠ []) (x : α) :
    Effect (atomicWrite p x) d (OpenWay d p ∧ d.get p ≠ some .dir)
      fun _ d' => ∀ q, d'.get q =
        if q = p then some (.leaf x) else if q <+: p then some .dir else d.get q := by
  obtain ⟨p, n, rfl⟩ := (List.eq_nil_or_concat' p).resolve_left hp
  apply (openLeaf_effect d p n).bind
  rintro _ e - ⟨hdir, hopen⟩
  have hat : e.get (p ++ [n]) = d.get (p ++ [n]) := by
    rw [hopen, if_neg (not_prefix_parent p n [])]
  by_cases hk : d.get (p ++ [n]) = some .dir
  · have hcall : e.rename (p ++ [n]) x = .error .eisdir :=
      DirTree.rename_of_dir (hat.trans hk) x
    exact Effect.of_eq_error (syscall_error hcall) (by simp [hk])
  · obtain ⟨e', hcall, hwrite⟩ := DirTree.rename_of_not_dir hdir (hat ▸ hk) x
    exact Effect.of_eq_ok (syscall_ok hcall) hk (get_write hopen hwrite)

theorem tryRmdir_of_empty {d : DirTree String α} {p : Path} {n : String}
    (h : d.at (p ++ [n]) = some (.sub .nil)) :
    ∃ d', tryRmdir (p ++ [n]) d = .ok ⟨⟩ d' ∧
      ∀ q, d'.get q = if q = p ++ [n] then none else d.get q := by
  obtain ⟨d', hrm, hget⟩ := DirTree.rmdir_of_empty h
  exact ⟨d', by simp only [tryRmdir, hrm], hget⟩

theorem tryRmdir_of_not_empty {d : DirTree String α} {p : Path} (h : d.at p ≠ some (.sub .nil)) :
    tryRmdir p d = .ok ⟨⟩ d := by
  unfold tryRmdir DirTree.rmdir
  cases hp : d.at p with
  | none => rfl
  | some y =>
      cases y with
      | leaf a => rfl
      | sub s =>
          cases s with
          | nil => exact absurd hp h
          | leaf m a rest => rfl
          | sub m s rest => rfl

/-- An empty directory makes way for a link as well. -/
theorem replaceSymlink_effect (d : DirTree String α) {p : Path} (hp : p ≠ []) (x : α) :
    Effect (replaceSymlink p x) d
      (OpenWay d p ∧ (d.get p = some .dir → ∀ m, d.get (p ++ [m]) = none))
      fun _ d' => ∀ q, d'.get q =
        if q = p then some (.leaf x) else if q <+: p then some .dir else d.get q := by
  obtain ⟨p, n, rfl⟩ := (List.eq_nil_or_concat' p).resolve_left hp
  apply (openLeaf_effect d p n).bind
  rintro _ e - ⟨hdir, hopen⟩
  have hsame : ∀ r, e.get (p ++ n :: r) = d.get (p ++ n :: r) := fun r => by
    rw [hopen, if_neg (not_prefix_parent p n r)]
  have hempty : e.at (p ++ [n]) = some (.sub .nil) ↔
      d.get (p ++ [n]) = some .dir ∧ ∀ m, d.get (p ++ [n] ++ [m]) = none := by
    simp [DirTree.at_eq_empty_iff, hsame]
  by_cases hat : e.at (p ++ [n]) = some (.sub .nil)
  · -- the directory goes, and the link is put in its place
    obtain ⟨e₁, hrm, hgone⟩ := tryRmdir_of_empty hat
    have hdir₁ : e₁.get p = some .dir := by rw [hgone, if_neg (by simp), hdir]
    obtain ⟨e₂, hcall, hwrite⟩ :=
      DirTree.rename_of_not_dir (n := n) hdir₁ (by simp [hgone]) x
    refine Effect.of_eq_ok (a := ⟨⟩) (t := e₂) ?_ (fun _ => (hempty.mp hat).2)
      (get_write hopen fun q => ?_)
    · exact (bind_eq_of_ok hrm _).trans (syscall_ok hcall)
    · rw [hwrite, hgone]
      split_ifs <;> rfl
  · have hrm : tryRmdir (p ++ [n]) e = .ok ⟨⟩ e := tryRmdir_of_not_empty hat
    by_cases hk : d.get (p ++ [n]) = some .dir
    · have hcall : e.rename (p ++ [n]) x = .error .eisdir :=
        DirTree.rename_of_dir ((hsame []).trans hk) x
      refine Effect.of_eq_error ((bind_eq_of_ok hrm _).trans (syscall_error hcall)) fun h => ?_
      exact hat (hempty.mpr ⟨hk, h hk⟩)
    · obtain ⟨e', hcall, hwrite⟩ :=
        DirTree.rename_of_not_dir hdir (fun h => hk ((hsame []).symm.trans h)) x
      refine Effect.of_eq_ok ((bind_eq_of_ok hrm _).trans (syscall_ok hcall)) (fun h => absurd h hk)
        (get_write hopen hwrite)

/-- Nothing but the path itself goes, and it may be missing. -/
theorem removeFileTolerant_effect (d : DirTree String α) {p : Path} (hp : p ≠ []) :
    Effect (removeFileTolerant p) d (OpenWay d p ∧ d.get p ≠ some .dir)
      fun _ d' => ∀ q, d'.get q = if q = p then none else d.get q := by
  obtain ⟨p, n, rfl⟩ := (List.eq_nil_or_concat' p).resolve_left hp
  have hgone : d.get (p ++ [n]) = none → ∀ q, d.get q = if q = p ++ [n] then none else d.get q := by
    intro hnone q
    split_ifs with hq
    · rw [hq, hnone]
    · rfl
  rw [openWay_concat]
  obtain ⟨hdir, hrun⟩ | ⟨hway, hnone, hrun⟩ | ⟨⟨a, x, ha, hleaf⟩, err, hrun⟩ :=
    resolveDir_open (DirTree.get_nil d) p
  · have hway : ∀ a, a <+: p → ∀ x, d.get a ≠ some (.leaf x) := by
      intro a ha x
      rw [DirTree.dir_of_prefix hdir ha]
      rintro ⟨⟩
    cases hk : d.get (p ++ [n]) with
    | none =>
        have hcall : d.unlink (p ++ [n]) = .error .enoent := by simp [DirTree.unlink, hk]
        refine Effect.of_eq_ok (a := ⟨⟩) (t := d) ?_ ⟨hway, by simp⟩ (hgone hk)
        simp only [removeFileTolerant, openLeaf_concat, hrun, hcall]
    | some k =>
        cases k with
        | dir =>
            have hcall : d.unlink (p ++ [n]) = .error .eisdir := by simp [DirTree.unlink, hk]
            refine Effect.of_eq_error (e := .io .eisdir) (t := d) ?_ (by simp)
            simp only [removeFileTolerant, openLeaf_concat, hrun, hcall]
        | leaf x =>
            obtain ⟨d', hcall, hget⟩ := DirTree.unlink_of_leaf hk
            refine Effect.of_eq_ok (a := ⟨⟩) (t := d') ?_ ⟨hway, by simp⟩ hget
            simp only [removeFileTolerant, openLeaf_concat, hrun, hcall]
  · have hnone' : d.get (p ++ [n]) = none :=
      DirTree.get_append_of_not_dir (fun h => by cases hnone.symm.trans h) n []
    refine Effect.of_eq_ok (a := ⟨⟩) (t := d) ?_ ⟨hway, by simp [hnone']⟩ (hgone hnone')
    simp only [removeFileTolerant, openLeaf_concat, hrun]
  · refine Effect.of_eq_error (e := .symlinkEscape err) (t := d) ?_ fun h => h.1 a ha x hleaf
    simp only [removeFileTolerant, openLeaf_concat, hrun]

/-! ## Inside a directory that is there -/

theorem resolveDir_of_dir {d : DirTree String α} (create : Bool) {parent rel : Path}
    (h : d.get (parent ++ rel) = some .dir) :
    resolveDir create parent rel d = .ok (parent ++ rel) d := by
  induction rel generalizing parent with
  | nil => simp [resolveDir, pure, EStateM.pure]
  | cons n rel ih =>
      have hassoc : parent ++ n :: rel = (parent ++ [n]) ++ rel := by simp
      rw [hassoc] at h ⊢
      have hn : d.get (parent ++ [n]) = some .dir := DirTree.dir_of_prefix h (List.prefix_append _ _)
      have hrun : descend create parent n d = .ok (parent ++ [n]) d := by simp only [descend, hn]
      exact (bind_eq_of_ok hrun _).trans (ih h)

theorem resolveDir_append (create : Bool) (parent rel rel' : Path) :
    (resolveDir create parent (rel ++ rel') : Guarded α Path) =
      (resolveDir create parent rel >>= fun p => resolveDir create p rel') := by
  induction rel generalizing parent with
  | nil => rfl
  | cons n rel ih =>
      simp only [List.cons_append, resolveDir, ih]
      funext d
      show EStateM.bind _ _ d = EStateM.bind (EStateM.bind _ _) _ d
      simp only [EStateM.bind]
      cases descend create parent n d <;> rfl

theorem openLeaf_of_dir {d : DirTree String α} (create : Bool) {dir : Path} (n : String)
    (h : d.get dir = some .dir) : openLeaf create (dir ++ [n]) d = .ok dir d := by
  rw [openLeaf_concat]
  exact resolveDir_of_dir create h

theorem atomicWrite_footprint {d : DirTree String α} {dir : Path} (hdir : d.get dir = some .dir)
    (n : String) (x : α) :
    Footprint (atomicWrite (dir ++ [n]) x) d (· = dir ++ [n]) (d.get (dir ++ [n]) ≠ some .dir)
      (∃ k, d.get (dir ++ [n]) = some (.leaf k) ∧ k ≠ x)
      fun d' => ∀ q, d'.get q = if q = dir ++ [n] then some (.leaf x) else d.get q := by
  have hrun : atomicWrite (dir ++ [n]) x d = syscall (fun d => d.rename (dir ++ [n]) x) d :=
    bind_eq_of_ok (openLeaf_of_dir true n hdir) _
  by_cases hk : d.get (dir ++ [n]) = some .dir
  · have herr := hrun.trans (syscall_error (DirTree.rename_of_dir hk x))
    exact (Footprint.of_error herr).congr (fun _ h => h.elim) (by simp [hk]) (by simp [hk])
      fun _ h => h.elim
  · obtain ⟨d', hcall, hget⟩ := DirTree.rename_of_not_dir hdir hk x
    refine (Footprint.of_put (hrun.trans (syscall_ok hcall)) hget).congr (fun _ h => h) (by simp [hk])
      ?_ fun _ _ h => h
    constructor
    · rintro ⟨k, hk', hne⟩
      cases k with
      | dir => exact absurd hk' hk
      | leaf a => exact ⟨a, hk', fun h => hne (congrArg Kind.leaf h)⟩
    · rintro ⟨a, ha, hne⟩
      exact ⟨.leaf a, ha, fun h => hne (Kind.leaf.inj h)⟩

theorem replaceSymlink_footprint {d : DirTree String α} {dir : Path} (hdir : d.get dir = some .dir)
    (n : String) (x : α) :
    Footprint (replaceSymlink (dir ++ [n]) x) d (· = dir ++ [n])
      (d.get (dir ++ [n]) = some .dir → ∀ m, d.get (dir ++ [n] ++ [m]) = none)
      ((∃ k, d.get (dir ++ [n]) = some (.leaf k) ∧ k ≠ x) ∨
        (d.get (dir ++ [n]) = some .dir ∧ ∀ m, d.get (dir ++ [n] ++ [m]) = none))
      fun d' => ∀ q, d'.get q = if q = dir ++ [n] then some (.leaf x) else d.get q := by
  have hrun : replaceSymlink (dir ++ [n]) x d =
      (tryRmdir (dir ++ [n]) >>= fun _ => syscall fun d => d.rename (dir ++ [n]) x) d :=
    bind_eq_of_ok (openLeaf_of_dir true n hdir) _
  by_cases hat : d.at (dir ++ [n]) = some (.sub .nil)
  · obtain ⟨hk, hempty⟩ := DirTree.at_eq_empty_iff.mp hat
    obtain ⟨e, hrm, hgone⟩ := tryRmdir_of_empty hat
    have hdir' : e.get dir = some .dir := by rw [hgone, if_neg (by simp), hdir]
    obtain ⟨d', hcall, hwrite⟩ := DirTree.rename_of_not_dir (n := n) hdir' (by simp [hgone]) x
    have hok : replaceSymlink (dir ++ [n]) x d = .ok ⟨⟩ d' :=
      hrun.trans ((bind_eq_of_ok hrm _).trans (syscall_ok hcall))
    have hget : ∀ q, d'.get q = if q = dir ++ [n] then some (.leaf x) else d.get q := by
      intro q
      rw [hwrite, hgone]
      split_ifs <;> rfl
    refine (Footprint.of_put hok hget).congr (fun _ h => h) ?_ ?_ fun _ _ h => h
    · exact ⟨fun _ _ => hempty, fun _ => trivial⟩
    · exact ⟨fun _ => .inr ⟨hk, hempty⟩, fun _ => ⟨.dir, hk, fun h => by cases h⟩⟩
  · have hrm : tryRmdir (dir ++ [n]) d = .ok ⟨⟩ d := tryRmdir_of_not_empty hat
    have hfull : ¬ (d.get (dir ++ [n]) = some .dir ∧ ∀ m, d.get (dir ++ [n] ++ [m]) = none) :=
      fun h => hat (DirTree.at_eq_empty_iff.mpr h)
    have hplain : atomicWrite (dir ++ [n]) x d = syscall (fun d => d.rename (dir ++ [n]) x) d :=
      bind_eq_of_ok (openLeaf_of_dir true n hdir) _
    have hwrite : replaceSymlink (dir ++ [n]) x d = atomicWrite (dir ++ [n]) x d := by
      rw [hrun, bind_eq_of_ok hrm, hplain]
    refine ((atomicWrite_footprint hdir n x).of_run hwrite).congr (fun _ h => h) ?_
      (or_iff_left hfull).symm fun _ _ h => h
    constructor
    · exact fun hne hk => absurd hk hne
    · exact fun hne hk => hfull ⟨hk, hne hk⟩

theorem createDirAll_footprint {d : DirTree String α} {dir : Path} (hdir : d.get dir = some .dir)
    (n : String) :
    Footprint (createDirAll (dir ++ [n])) d (· = dir ++ [n])
      (∀ x, d.get (dir ++ [n]) ≠ some (.leaf x)) False
      fun d' => ∀ q, d'.get q = if q = dir ++ [n] then some .dir else d.get q := by
  have heff := createDirAll_effect d (dir ++ [n])
  have hway : (∀ a, a <+: dir ++ [n] → ∀ x, d.get a ≠ some (.leaf x)) ↔
      ∀ x, d.get (dir ++ [n]) ≠ some (.leaf x) := by
    constructor
    · exact fun h => h _ List.prefix_rfl
    · intro h a ha x
      rcases List.prefix_concat_iff.mp ha with rfl | ha
      · exact h x
      · rw [DirTree.dir_of_prefix hdir ha]
        exact fun h => nomatch h
  rw [hway] at heff
  by_cases hok : ∀ x, d.get (dir ++ [n]) ≠ some (.leaf x)
  · obtain ⟨⟨⟩, d', hrun, hget⟩ := heff.succeeds hok
    have hput : ∀ q, d'.get q = if q = dir ++ [n] then some .dir else d.get q := by
      intro q
      rw [hget]
      by_cases hq : q = dir ++ [n]
      · simp [hq]
      · rw [if_neg hq]
        split_ifs with hp
        · have hp' := (List.prefix_concat_iff.mp hp).resolve_left hq
          rw [DirTree.dir_of_prefix hdir hp']
        · rfl
    refine (Footprint.of_put hrun hput).congr (fun _ h => h) (by simp [hok]) ?_ fun _ _ h => h
    simp only [iff_false, not_exists, not_and, not_not]
    intro k hk
    cases k with
    | dir => rfl
    | leaf x => exact absurd hk (hok x)
  · obtain ⟨x, hx⟩ := not_forall_not.mp hok
    have hrun : createDirAll (dir ++ [n]) d = .error (.symlinkEscape (dir ++ [n])) d := by
      have hresolve : resolveDir true [] (dir ++ [n]) d = .error (.symlinkEscape (dir ++ [n])) d := by
        rw [resolveDir_append, bind_eq_of_ok (resolveDir_of_dir true hdir)]
        show EStateM.bind (descend true ([] ++ dir) n) _ d = _
        have hstep : descend true ([] ++ dir) n d = .error (.symlinkEscape (dir ++ [n])) d := by
          simp only [descend, List.nil_append, hx]
        simp only [EStateM.bind, hstep]
      show EStateM.bind (resolveDir true [] (dir ++ [n])) _ d = _
      simp only [EStateM.bind, hresolve]
    exact (Footprint.of_error hrun).congr (fun _ h => h.elim) (by simp [hx]) Iff.rfl fun _ h => h.elim

/-! ## Files and symlinks an operation leaves alone

However an operation ends, and whatever it has done before it failed. -/

/-- Outside `S` every file and symlink is there afterwards. -/
def SparesLeaves {β : Type} (S : Path → Prop) (m : Guarded α β) : Prop :=
  ∀ d q x, ¬ S q → d.get q = some (.leaf x) → (after m d).get q = some (.leaf x)

namespace SparesLeaves

variable {β γ : Type} {S S' : Path → Prop}

theorem mono {m : Guarded α β} (h : SparesLeaves S m) (hS : ∀ q, S q → S' q) :
    SparesLeaves S' m :=
  fun d q x hq hx => h d q x (fun hs => hq (hS q hs)) hx

theorem of_pure (b : β) : SparesLeaves S (pure b : Guarded α β) := fun _ _ _ _ hx => hx

theorem bind {m : Guarded α β} {f : β → Guarded α γ} (h : SparesLeaves S m)
    (hf : ∀ b, SparesLeaves S (f b)) : SparesLeaves S (m >>= f) := by
  intro d q x hq hx
  have hm := h d q x hq hx
  cases hrun : m d with
  | ok b d' =>
      rw [after_of_ok hrun] at hm
      have hbind : after (m >>= f) d = after (f b) d' := by
        rw [after, after, bind_eq_of_ok hrun]
      rw [hbind]
      exact hf b d' q x hq hm
  | error e d' =>
      rw [after_of_error hrun] at hm
      have hbind : (m >>= f) d = .error e d' := by
        show EStateM.bind m f d = _
        simp only [EStateM.bind, hrun]
      rw [after_of_error hbind]
      exact hm

theorem of_syscall {call : DirTree String α → Except Errno (DirTree String α)}
    (h : ∀ d d' q x, ¬ S q → call d = .ok d' → d.get q = some (.leaf x) →
      d'.get q = some (.leaf x)) : SparesLeaves S (syscall call) := by
  intro d q x hq hx
  cases hrun : call d with
  | ok d' =>
      rw [after_of_ok (syscall_ok hrun)]
      exact h d d' q x hq hrun hx
  | error e =>
      rw [after_of_error (syscall_error hrun)]
      exact hx

end SparesLeaves

/-- A change of something that is not a directory with entries does not reach another leaf. -/
theorem get_alter_of_leaf {f : Option (Item String α) → Option (Item String α)}
    {d : DirTree String α} {p q : Path} {x : α} (hp : ∀ n r, d.get (p ++ n :: r) = none)
    (hq : d.get q = some (.leaf x)) (hne : q ≠ p) :
    (DirTree.alter f p d).get q = some (.leaf x) := by
  rw [DirTree.get_alter_of_apart f _ d, hq]
  rintro ⟨r, rfl⟩
  cases r with
  | nil => exact hne (List.append_nil p)
  | cons n r =>
      rw [hp] at hq
      cases hq

theorem spares_mkdir (p : Path) : SparesLeaves (α := α) (fun _ => False) (syscall fun d => d.mkdir p) := by
  apply SparesLeaves.of_syscall
  intro d d' q x _ hcall hx
  unfold DirTree.mkdir at hcall
  split at hcall
  · cases hcall
  · rename_i hnone
    cases hcall
    apply get_alter_of_leaf _ hx
    · rintro rfl
      rw [hnone] at hx
      cases hx
    · exact fun n r => DirTree.get_append_of_not_dir (by simp [hnone]) n r

theorem spares_rename (p : Path) (a : α) : SparesLeaves (· = p) (syscall fun d => d.rename p a) := by
  apply SparesLeaves.of_syscall
  intro d d' q x hq hcall hx
  unfold DirTree.rename at hcall
  split at hcall
  · cases hcall
  · rename_i hne
    cases hcall
    exact get_alter_of_leaf (fun n r => DirTree.get_append_of_not_dir hne n r) hx hq

theorem spares_tryRmdir (p : Path) : SparesLeaves (α := α) (fun _ => False) (tryRmdir p) := by
  intro d q x _ hx
  unfold after tryRmdir DirTree.rmdir
  split
  · rename_i hrun
    split at hrun
    · rename_i hrm
      split at hrm
      · rename_i hempty
        cases hrm
        cases hrun
        obtain ⟨hdir, hnone⟩ := DirTree.at_eq_empty_iff.mp hempty
        apply get_alter_of_leaf _ hx
        · rintro rfl
          rw [hdir] at hx
          cases hx
        · intro n r
          cases r with
          | nil => exact hnone n
          | cons m r =>
              have h := DirTree.get_append_of_not_dir (d := d) (p := p ++ [n]) (by simp [hnone]) m r
              simpa using h
      all_goals cases hrm
    · cases hrun
      exact hx
  · rename_i hrun
    split at hrun
    all_goals cases hrun

theorem spares_descend (create : Bool) (parent : Path) (n : String) :
    SparesLeaves (α := α) (fun _ => False) (descend create parent n) := by
  intro d q x hq hx
  unfold after descend
  split
  · rename_i hrun
    split at hrun
    · cases hrun
      exact hx
    · cases hrun
    · split_ifs at hrun
      have h := SparesLeaves.bind (spares_mkdir (α := α) (parent ++ [n]))
        (fun _ => SparesLeaves.of_pure (parent ++ [n])) d q x hq hx
      rw [after_of_ok hrun] at h
      exact h
  · rename_i hrun
    split at hrun
    · cases hrun
    · cases hrun
      exact hx
    · split_ifs at hrun
      · have h := SparesLeaves.bind (spares_mkdir (α := α) (parent ++ [n]))
          (fun _ => SparesLeaves.of_pure (parent ++ [n])) d q x hq hx
        rw [after_of_error hrun] at h
        exact h
      · cases hrun
        exact hx

theorem spares_resolveDir (create : Bool) (parent rel : Path) :
    SparesLeaves (α := α) (fun _ => False) (resolveDir create parent rel) := by
  induction rel generalizing parent with
  | nil => exact SparesLeaves.of_pure parent
  | cons n rel ih => exact (spares_descend create parent n).bind fun d => ih d

theorem spares_openLeaf (create : Bool) (p : Path) :
    SparesLeaves (α := α) (fun _ => False) (openLeaf create p) := by
  unfold openLeaf
  split
  · exact fun _ _ _ _ hx => hx
  · exact spares_resolveDir create [] p.dropLast

theorem spares_createDirAll (p : Path) :
    SparesLeaves (α := α) (fun _ => False) (createDirAll p) :=
  (spares_resolveDir true [] p).bind fun _ => SparesLeaves.of_pure _

theorem spares_atomicWrite (p : Path) (a : α) : SparesLeaves (· = p) (atomicWrite p a) :=
  ((spares_openLeaf true p).mono fun _ h => h.elim).bind fun _ => spares_rename p a

theorem spares_replaceSymlink (p : Path) (a : α) : SparesLeaves (· = p) (replaceSymlink p a) :=
  ((spares_openLeaf true p).mono fun _ h => h.elim).bind fun _ =>
    ((spares_tryRmdir p).mono fun _ h => h.elim).bind fun _ => spares_rename p a

theorem spares_removeFileTolerant (p : Path) :
    SparesLeaves (α := α) (· = p) (removeFileTolerant p) := by
  intro d q x hq hx
  have hopen := spares_openLeaf (α := α) false p d q x id hx
  cases hrun : openLeaf false p d with
  | ok a e =>
      rw [after_of_ok hrun] at hopen
      unfold after removeFileTolerant
      rw [hrun]
      cases hcall : e.unlink p with
      | ok e' =>
          obtain ⟨-, hget⟩ := DirTree.get_unlink hcall
          simp only [hcall]
          rw [hget, if_neg hq, hopen]
      | error err =>
          simp only [hcall]
          cases err <;> exact hopen
  | error err e =>
      rw [after_of_error hrun] at hopen
      have hafter : after (removeFileTolerant p) d = e := by
        unfold after removeFileTolerant
        rw [hrun]
        cases err with
        | io errno => cases errno <;> rfl
        | symlinkEscape a => rfl
        | invalidComponent n => rfl
      rw [hafter]
      exact hopen

end Omemfs.Fsguard
