/-
# Omemfs.Sync.TreeOps — looking into trees and splicing entries into them.

A path is the list of its components.  `TreeEntry.at` follows a path from an entry; it is the
meaning of a tree on which everything about `push` and `pull` is stated.  `navigateEntry`,
`removeEntry` and `spliceEntry` are the program's own walks, which rebuild the trees along the path:
each changes what its path leads to and nothing beside it (`edited_of_spliceEntry`,
`edited_of_removeEntry`).  A symlink on the way has no hash, so the walks take it for a missing
directory; a blob on the way is an error.
-/
import Mathlib.Data.List.Infix
import Omemfs.Lib.Fallible
import Omemfs.Tree

namespace Omemfs

open Lib

/-- The components of a path from the root. -/
abbrev Path := List String

instance instLawfulBEqPath : LawfulBEq Path := inferInstance

/-! ## Entries of a tree -/

namespace Tree

def cons (name : String) (e : TreeEntry) (rest : Tree) : Tree :=
  match e with
  | .blob b => .blob name b rest
  | .tree t m => .tree name t m rest
  | .symlink l => .symlink name l rest

/-- The entries with their names, first entry first. -/
def entries : Tree → List (String × TreeEntry)
  | .nil => []
  | .blob n b rest => (n, .blob b) :: rest.entries
  | .tree n t m rest => (n, .tree t m) :: rest.entries
  | .symlink n l rest => (n, .symlink l) :: rest.entries

def ofEntries : List (String × TreeEntry) → Tree
  | [] => .nil
  | (n, e) :: rest => cons n e (ofEntries rest)

def names (t : Tree) : List String := t.entries.map Prod.fst

/-- The entry of this name. -/
def find? (t : Tree) (name : String) : Option TreeEntry := t.entries.lookup name

@[simp]
theorem entries_cons (n : String) (e : TreeEntry) (rest : Tree) :
    (cons n e rest).entries = (n, e) :: rest.entries := by
  cases e <;> rfl

@[simp]
theorem entries_ofEntries (l : List (String × TreeEntry)) : (ofEntries l).entries = l := by
  induction l with
  | nil => rfl
  | cons x l ih => simp [ofEntries, ih]

theorem lookup_cons_ite (n m : String) (e : TreeEntry) (l : List (String × TreeEntry)) :
    List.lookup m ((n, e) :: l) = if m = n then some e else l.lookup m := by
  rw [List.lookup_cons]
  by_cases h : m = n
  · simp [h]
  · have hne : (m == n) = false := by simpa using h
    simp [h, hne]

@[simp]
theorem find?_nil (n : String) : nil.find? n = none := rfl

theorem find?_cons (n m : String) (e : TreeEntry) (rest : Tree) :
    (cons n e rest).find? m = if m = n then some e else rest.find? m := by
  unfold find?
  rw [entries_cons, lookup_cons_ite]

theorem find?_ofEntries (l : List (String × TreeEntry)) (n : String) :
    (ofEntries l).find? n = l.lookup n := by
  rw [find?, entries_ofEntries]

theorem lookup_eq_none_iff {l : List (String × TreeEntry)} {n : String} :
    l.lookup n = none ↔ n ∉ l.map Prod.fst := by
  induction l with
  | nil => simp
  | cons x l ih =>
      rw [lookup_cons_ite, List.map_cons, List.mem_cons, not_or, ← ih]
      by_cases h : n = x.1 <;> simp [h]

theorem find?_eq_none_iff {t : Tree} {n : String} : t.find? n = none ↔ n ∉ t.names :=
  lookup_eq_none_iff

/-- Names are distinct in every tree object, and a mode is the one a scan records. -/
def Wf : Tree → Prop
  | .nil => True
  | .blob n b rest => n ∉ rest.names ∧ (b.mode = none ∨ b.mode = some "755") ∧ rest.Wf
  | .tree n t _ rest => n ∉ rest.names ∧ t.Wf ∧ rest.Wf
  | .symlink n _ rest => n ∉ rest.names ∧ rest.Wf

end Tree

def TreeEntry.Wf : TreeEntry → Prop
  | .blob b => b.mode = none ∨ b.mode = some "755"
  | .tree t _ => t.Wf
  | .symlink _ => True

theorem Tree.wf_cons {n : String} {e : TreeEntry} {rest : Tree} :
    (Tree.cons n e rest).Wf ↔ n ∉ rest.names ∧ e.Wf ∧ rest.Wf := by
  cases e with
  | blob b => exact Iff.rfl
  | tree t m => exact Iff.rfl
  | symlink l => simp [Tree.cons, Tree.Wf, TreeEntry.Wf]

/-- The subtree an entry names. -/
def TreeEntry.children : TreeEntry → Tree
  | .tree t _ => t
  | _ => .nil

def TreeEntry.isTree : TreeEntry → Bool
  | .tree .. => true
  | _ => false

/-- What a path leads to from an entry. -/
def TreeEntry.at (e : TreeEntry) : Path → Option TreeEntry
  | [] => some e
  | n :: p => (e.children.find? n).bind fun c => c.at p

/-- Every tree is empty or has a first entry. -/
theorem Tree.induction_cons {motive : Tree → Prop} (nil : motive .nil)
    (cons : ∀ n e rest, motive e.children → motive rest → motive (Tree.cons n e rest))
    (t : Tree) : motive t := by
  induction t with
  | nil => exact nil
  | blob n b rest ih => exact cons n (.blob b) rest nil ih
  | tree n s m rest ihs ih => exact cons n (.tree s m) rest ihs ih
  | symlink n l rest ih => exact cons n (.symlink l) rest nil ih

theorem Tree.Wf.of_find? {t : Tree} (hwf : t.Wf) {n : String} {e : TreeEntry}
    (h : t.find? n = some e) : e.Wf := by
  induction t using Tree.induction_cons with
  | nil => cases h
  | cons m c rest _ ih =>
      obtain ⟨-, hc, hr⟩ := Tree.wf_cons.mp hwf
      rw [Tree.find?_cons] at h
      split_ifs at h with hm
      · exact Option.some.inj h ▸ hc
      · exact ih hr h

theorem TreeEntry.Wf.children {e : TreeEntry} (h : e.Wf) : e.children.Wf := by
  cases e with
  | tree t m => exact h
  | blob b => trivial
  | symlink l => trivial

/-- Everything in a well-formed tree is. -/
theorem TreeEntry.Wf.of_at {e c : TreeEntry} (hwf : e.Wf) {p : Path} (h : e.at p = some c) :
    c.Wf := by
  induction p generalizing e with
  | nil => exact Option.some.inj h ▸ hwf
  | cons n p ih =>
      obtain ⟨d, hd, hc⟩ := Option.bind_eq_some_iff.mp h
      exact ih (hwf.children.of_find? hd) hc

/-- A tree as the entry of a directory nothing is recorded of. -/
def Tree.root (t : Tree) : TreeEntry := .tree t ⟨none, 0, 0⟩

/-- What a path leads to from the root of a tree. -/
def Tree.at (t : Tree) (p : Path) : Option TreeEntry := t.root.at p

namespace TreeEntry

@[simp]
theorem at_nil (e : TreeEntry) : e.at [] = some e := rfl

theorem at_cons (e : TreeEntry) (n : String) (p : Path) : e.at (n :: p) = e.children.at (n :: p) := rfl

theorem at_append (e : TreeEntry) (p q : Path) : e.at (p ++ q) = (e.at p).bind fun c => c.at q := by
  induction p generalizing e with
  | nil => rfl
  | cons n p ih =>
      show (e.children.find? n).bind (fun c => c.at (p ++ q)) = _
      cases h : e.children.find? n with
      | none => simp [TreeEntry.at, h]
      | some c => simp [TreeEntry.at, h, ih]

/-- Nothing lies below a blob or a symlink. -/
theorem at_cons_of_not_tree {e : TreeEntry} (h : e.isTree = false) (n : String) (p : Path) :
    e.at (n :: p) = none := by
  cases e with
  | tree t m => cases h
  | blob b => rfl
  | symlink l => rfl

end TreeEntry

namespace Tree

@[simp]
theorem at_nil (t : Tree) : t.at [] = some t.root := rfl

theorem at_cons (t : Tree) (n : String) (p : Path) :
    t.at (n :: p) = (t.find? n).bind fun c => c.at p := rfl

theorem at_singleton (t : Tree) (n : String) : t.at [n] = t.find? n := by
  rw [at_cons]
  cases t.find? n <;> rfl

theorem cons_at_cons (n m : String) (e : TreeEntry) (rest : Tree) (p : Path) :
    (cons n e rest).at (m :: p) = if m = n then e.at p else rest.at (m :: p) := by
  rw [at_cons, find?_cons]
  split_ifs <;> rfl

/-- Nothing is found under a name the tree does not have. -/
theorem at_cons_of_not_mem {t : Tree} {n : String} (h : n ∉ t.names) (p : Path) :
    t.at (n :: p) = none := by
  rw [at_cons, find?_eq_none_iff.mpr h]
  rfl

theorem at_append (t : Tree) (p q : Path) : t.at (p ++ q) = (t.at p).bind fun c => c.at q :=
  t.root.at_append p q

@[simp]
theorem nil_at_cons (n : String) (p : Path) : nil.at (n :: p) = none := rfl

/-- What lies above something is a directory. -/
theorem isTree_of_at_append {t : Tree} {p q : Path} (hq : q ≠ []) (h : t.at (p ++ q) ≠ none) :
    ∃ s m, t.at p = some (.tree s m) := by
  rw [at_append] at h
  cases hp : t.at p with
  | none => simp [hp] at h
  | some e =>
      cases e with
      | tree s m => exact ⟨s, m, rfl⟩
      | blob b =>
          obtain ⟨n, q, rfl⟩ := List.exists_cons_of_ne_nil hq
          simp [hp, TreeEntry.at_cons_of_not_tree (e := .blob b) rfl] at h
      | symlink l =>
          obtain ⟨n, q, rfl⟩ := List.exists_cons_of_ne_nil hq
          simp [hp, TreeEntry.at_cons_of_not_tree (e := .symlink l) rfl] at h

end Tree

/-! ## Building a tree object -/

namespace Tree

/-- Put an entry before the first one whose name is not smaller. -/
def insertByName (x : String × TreeEntry) : List (String × TreeEntry) → List (String × TreeEntry)
  | [] => [x]
  | y :: l => if x.1 ≤ y.1 then x :: y :: l else y :: insertByName x l

/-- Entries in the order of their names. -/
def sortedEntries (l : List (String × TreeEntry)) : List (String × TreeEntry) :=
  l.foldr insertByName []

def buildAndStore (l : List (String × TreeEntry)) : Tree := ofEntries (sortedEntries l)

/-- Replace the first entry of this name, or append a new one. -/
def setEntry (n : String) (e : TreeEntry) : List (String × TreeEntry) → List (String × TreeEntry)
  | [] => [(n, e)]
  | x :: l => if x.1 = n then (n, e) :: l else x :: setEntry n e l

theorem lookup_insertByName (x : String × TreeEntry) (l : List (String × TreeEntry))
    (m : String) :
    (insertByName x l).lookup m = if m = x.1 then some x.2 else l.lookup m := by
  induction l with
  | nil => exact lookup_cons_ite x.1 m x.2 []
  | cons y l ih =>
      unfold insertByName
      split_ifs with hle hm hm
      · rw [lookup_cons_ite, if_pos hm]
      · rw [lookup_cons_ite, if_neg hm]
      · rw [lookup_cons_ite, ih, if_pos hm, if_neg]
        -- the new entry passes only smaller names
        rintro rfl
        exact hle (hm ▸ String.le_refl _)
      · rw [lookup_cons_ite, ih, if_neg hm, lookup_cons_ite]

theorem lookup_sortedEntries (l : List (String × TreeEntry)) (m : String) :
    (sortedEntries l).lookup m = l.lookup m := by
  induction l with
  | nil => rfl
  | cons x l ih =>
      show (insertByName x (sortedEntries l)).lookup m = _
      rw [lookup_insertByName, ih, lookup_cons_ite]

@[simp]
theorem find?_buildAndStore (l : List (String × TreeEntry)) (m : String) :
    (buildAndStore l).find? m = l.lookup m := by
  rw [buildAndStore, find?_ofEntries, lookup_sortedEntries]

theorem lookup_setEntry (n : String) (e : TreeEntry) (l : List (String × TreeEntry))
    (m : String) : (setEntry n e l).lookup m = if m = n then some e else l.lookup m := by
  induction l with
  | nil => exact lookup_cons_ite n m e []
  | cons x l ih =>
      unfold setEntry
      split_ifs with hx hm hm
      · rw [lookup_cons_ite, if_pos hm]
      · rw [lookup_cons_ite, if_neg hm, lookup_cons_ite, if_neg (hx ▸ hm)]
      · have hmx : m ≠ x.1 := fun h => hx (h.symm.trans hm)
        rw [lookup_cons_ite, ih, if_pos hm, if_neg hmx]
      · rw [lookup_cons_ite, ih, if_neg hm, lookup_cons_ite]

theorem lookup_filter_ne (n : String) (l : List (String × TreeEntry)) (m : String) :
    (l.filter fun x => x.1 ≠ n).lookup m = if m = n then none else l.lookup m := by
  induction l with
  | nil => simp
  | cons x l ih =>
      rw [List.filter_cons, lookup_cons_ite]
      by_cases hx : x.1 = n
      · rw [if_neg (by simpa using hx), ih, hx]
        split_ifs <;> rfl
      · rw [if_pos (by simpa using hx), lookup_cons_ite, ih]
        by_cases hm : m = n
        · simp [hm, Ne.symm hx]
        · simp [hm]

/-- The aggregates recorded of a subtree. -/
def treeMeta (t : Tree) : TreeMeta where
  mtime := (t.entries.filterMap fun x => match x.2 with
    | .blob b => b.mtime
    | .tree _ m => m.mtime
    | .symlink l => l.mtime).max?
  size := (t.entries.map fun x => match x.2 with
    | .blob b => b.size
    | .tree _ m => m.size
    | .symlink _ => 0).sum
  blobCount := (t.entries.map fun x => match x.2 with
    | .blob _ => 1
    | .tree _ m => m.blobCount
    | .symlink _ => 1).sum

end Tree

/-! ## The walks -/

/-- Loading the tree an entry names: a blob is none, and a symlink names nothing. -/
def TreeEntry.loadChild : TreeEntry → Except Error (Option Tree)
  | .blob _ => .error (.invalidObject "not a tree object")
  | .tree t _ => .ok (some t)
  | .symlink _ => .ok none

/-- What the entry's hash names. -/
def TreeEntry.object : TreeEntry → Option TreeEntry
  | .symlink _ => none
  | e => some e

namespace Tree

/-- The entry at a path. -/
def navigateEntry (t : Tree) : Path → Except Error (Option TreeEntry)
  | [] => .ok none
  | [n] => .ok (t.find? n)
  | n :: m :: p =>
      match t.find? n with
      | none => .ok none
      | some e => e.loadChild >>= fun child =>
          match child with
          | none => .ok none
          | some s => navigateEntry s (m :: p)

/-- Replace or add the entry at a path; everything missing on the way is created. -/
def spliceEntry (base : Option Tree) : Path → TreeEntry → Except Error Tree
  | [], _ => .error (.other "path_components must be non-empty")
  | [n], e => .ok (buildAndStore (setEntry n e (base.getD .nil).entries))
  | n :: m :: p, e =>
      (match (base.getD .nil).find? n with
        | none => .ok none
        | some c => c.loadChild) >>= fun child =>
      spliceEntry child (m :: p) e >>= fun s =>
      .ok (buildAndStore (setEntry n (.tree s (treeMeta s)) (base.getD .nil).entries))

/-- Remove the entry at a path, or say that there is none.  Emptied trees stay. -/
def removeEntry (t : Tree) : Path → Except Error (Option Tree)
  | [] => .error (.other "path_components must be non-empty")
  | [n] =>
      let kept := t.entries.filter fun x => x.1 ≠ n
      if kept.length = t.entries.length then .ok none else .ok (some (buildAndStore kept))
  | n :: m :: p =>
      match t.find? n with
      | none => .ok none
      | some c => c.loadChild >>= fun child =>
          match child with
          | none => .ok none
          | some s => removeEntry s (m :: p) >>= fun s' =>
              match s' with
              | none => .ok none
              | some s' =>
                  .ok (some (buildAndStore (setEntry n (.tree s' (treeMeta s')) t.entries)))

theorem navigateEntry_cons (t : Tree) (n m : String) (p : Path) :
    t.navigateEntry (n :: m :: p) = match t.find? n with
      | none => .ok none
      | some e => e.loadChild >>= fun child =>
          match child with
          | none => .ok none
          | some s => navigateEntry s (m :: p) := rfl

/-- **`at_of_navigateEntry`** — a walk that succeeds finds what the path leads to. -/
theorem at_of_navigateEntry {t : Tree} {p : Path} (hp : p ≠ []) {o : Option TreeEntry}
    (h : t.navigateEntry p = .ok o) : t.at p = o := by
  induction p generalizing t with
  | nil => exact absurd rfl hp
  | cons n p ih =>
      cases p with
      | nil =>
          cases h
          exact at_singleton t n
      | cons m p =>
          rw [navigateEntry_cons] at h
          rw [at_cons]
          cases hf : t.find? n with
          | none =>
              rw [hf] at h
              cases h
              rfl
          | some e =>
              rw [hf] at h
              cases e with
              | blob b => cases h
              | tree s k => exact ih (List.cons_ne_nil _ _) h
              | symlink l =>
                  cases h
                  rfl

/-- The object a path leads to; a symlink names none. -/
def navigate (t : Tree) : Path → Except Error (Option TreeEntry)
  | [] => .ok (some t.root)
  | n :: p =>
      match t.find? n with
      | none => .ok none
      | some (.symlink _) => .ok none
      | some (.blob b) =>
          match p with
          | [] => .ok (some (.blob b))
          | _ :: _ => .error (.invalidObject "not a tree object")
      | some (.tree s m) =>
          match p with
          | [] => .ok (some (.tree s m))
          | _ :: _ => navigate s p

/-- A blob lies strictly above the path. -/
def BlobAbove (t : Tree) (p : Path) : Prop :=
  ∃ a n r b, p = a ++ n :: r ∧ t.at a = some (.blob b)

theorem blobAbove_cons {t : Tree} {n m : String} {p : Path} :
    BlobAbove t (n :: m :: p) ↔
      (∃ b, t.find? n = some (.blob b)) ∨ ∃ s k, t.find? n = some (.tree s k) ∧ BlobAbove s (m :: p) := by
  constructor
  · rintro ⟨a, k, r, b, heq, ha⟩
    cases a with
    | nil => cases ha
    | cons x a =>
        obtain ⟨rfl, hp⟩ := List.cons.inj heq
        rw [at_cons] at ha
        cases hf : t.find? n with
        | none =>
            rw [hf] at ha
            cases ha
        | some e =>
            rw [hf, Option.bind_some] at ha
            cases e with
            | blob b' => exact .inl ⟨b', rfl⟩
            | tree s k' =>
                refine .inr ⟨s, k', rfl, a, k, r, b, hp, ?_⟩
                cases a with
                | nil => cases ha
                | cons y a => exact ha
            | symlink l =>
                cases a with
                | nil => cases ha
                | cons y a => cases ha
  · rintro (⟨b, hb⟩ | ⟨s, k, hs, a, x, r, b, hp, ha⟩)
    · exact ⟨[n], m, p, b, rfl, by rw [at_singleton, hb]⟩
    · refine ⟨n :: a, x, r, b, by rw [hp]; rfl, ?_⟩
      rw [at_cons, hs]
      cases a with
      | nil => cases ha
      | cons y a => exact ha

theorem not_blobAbove_singleton {t : Tree} {n : String} : ¬ BlobAbove t [n] := by
  rintro ⟨a, k, r, b, heq, ha⟩
  cases a with
  | nil => cases ha
  | cons x a => simp at heq

/-- **`navigateEntry_eq_ok_iff`** — the walk fails at a blob, and only there. -/
theorem navigateEntry_eq_ok_iff {t : Tree} {p : Path} (hp : p ≠ []) :
    (∃ o, t.navigateEntry p = .ok o) ↔ ¬ BlobAbove t p := by
  induction p generalizing t with
  | nil => exact absurd rfl hp
  | cons n p ih =>
      cases p with
      | nil => exact iff_of_true ⟨_, rfl⟩ not_blobAbove_singleton
      | cons m p =>
          rw [navigateEntry_cons, blobAbove_cons]
          cases hf : t.find? n with
          | none => exact iff_of_true ⟨none, rfl⟩ (by simp)
          | some e =>
              cases e with
              | blob b => exact iff_of_false (fun ⟨_, h⟩ => nomatch h) fun h => h (.inl ⟨b, rfl⟩)
              | tree s k =>
                  show (∃ o, s.navigateEntry (m :: p) = .ok o) ↔ _
                  rw [ih (List.cons_ne_nil _ _)]
                  simp
              | symlink l => exact iff_of_true ⟨none, rfl⟩ (by simp)

theorem navigate_eq {t : Tree} {p : Path} (hp : p ≠ []) :
    t.navigate p = (t.navigateEntry p).map fun o => o.bind TreeEntry.object := by
  induction p generalizing t with
  | nil => exact absurd rfl hp
  | cons n p ih =>
      cases p with
      | nil =>
          show _ = Except.ok _
          simp only [navigate]
          cases hf : t.find? n with
          | none => rfl
          | some e => cases e <;> rfl
      | cons m p =>
          rw [navigateEntry_cons]
          simp only [navigate]
          cases hf : t.find? n with
          | none => rfl
          | some e =>
              cases e with
              | blob b => rfl
              | symlink l => rfl
              | tree s k => exact ih (List.cons_ne_nil _ _)

/-- `t` is `base` with `o` in the place of whatever was at `p`, the directories above it rebuilt. -/
structure Edited (base : Tree) (p : Path) (o : Option TreeEntry) (t : Tree) : Prop where
  below : ∀ r, t.at (p ++ r) = o.bind fun e => e.at r
  beside : ∀ q, ¬ p <+: q → ¬ q <+: p → t.at q = base.at q
  above : ∀ q n r, p = q ++ n :: r → ∃ s m, t.at q = some (.tree s m)
  not_blob : ∀ q n r, p = q ++ n :: r → ∀ b, base.at q ≠ some (.blob b)

namespace Edited

variable {base t s : Tree} {n : String} {p : Path} {o : Option TreeEntry}

/-- The last component: the entry itself is replaced or removed. -/
theorem leaf (ht : ∀ m, t.find? m = if m = n then o else base.find? m) : Edited base [n] o t where
  below := fun r => by
    rw [List.singleton_append, at_cons, ht, if_pos rfl]
  beside := by
    intro q hpq hqp
    cases q with
    | nil => exact absurd List.nil_prefix hqp
    | cons m q =>
        rw [at_cons, at_cons, ht, if_neg]
        rintro rfl
        exact hpq ⟨q, rfl⟩
  above := by
    intro q m r hq
    cases q with
    | nil => exact ⟨t, _, rfl⟩
    | cons a q => simp at hq
  not_blob := by
    intro q m r hq b
    cases q with
    | nil => exact fun h => nomatch h
    | cons a q => simp at hq

/-- A component on the way: the entry there becomes the rebuilt tree. -/
theorem step {m : String} {k : TreeMeta} (hblob : ∀ b, base.find? n ≠ some (.blob b))
    (hs : Edited (((base.find? n).map TreeEntry.children).getD .nil) (m :: p) o s)
    (ht : ∀ a, t.find? a = if a = n then some (.tree s k) else base.find? a) :
    Edited base (n :: m :: p) o t := by
  have hchild : ∀ a r, base.at (n :: a :: r) =
      (((base.find? n).map TreeEntry.children).getD .nil).at (a :: r) := by
    intro a r
    rw [at_cons]
    cases base.find? n with
    | none => rfl
    | some e => exact e.at_cons a r
  have hnew : ∀ a r, t.at (n :: a :: r) = s.at (a :: r) := by
    intro a r
    rw [at_cons, ht, if_pos rfl]
    rfl
  refine ⟨fun r => ?_, ?_, ?_, ?_⟩
  · rw [List.cons_append, List.cons_append, hnew]
    exact hs.below r
  · intro q hpq hqp
    cases q with
    | nil => exact absurd List.nil_prefix hqp
    | cons a q =>
        by_cases ha : a = n
        · subst ha
          cases q with
          | nil => exact absurd (List.prefix_append [a] (m :: p)) hqp
          | cons c q =>
              rw [hnew, hchild]
              apply hs.beside
              · exact fun h => hpq ((List.prefix_cons_inj a).mpr h)
              · exact fun h => hqp ((List.prefix_cons_inj a).mpr h)
        · rw [at_cons, at_cons, ht, if_neg ha]
  · intro q c r hq
    cases q with
    | nil => exact ⟨t, _, rfl⟩
    | cons a q =>
        obtain ⟨rfl, htail⟩ := List.cons.inj hq
        cases q with
        | nil => exact ⟨s, k, by rw [at_singleton, ht, if_pos rfl]⟩
        | cons b q =>
            rw [hnew]
            exact hs.above (b :: q) c r htail
  · intro q c r hq x
    cases q with
    | nil => exact fun h => nomatch h
    | cons a q =>
        obtain ⟨rfl, htail⟩ := List.cons.inj hq
        cases q with
        | nil =>
            rw [at_singleton]
            exact hblob x
        | cons b q =>
            rw [hchild]
            exact hs.not_blob (b :: q) c r htail x

end Edited

theorem spliceEntry_cons (base : Option Tree) (n m : String) (p : Path) (e : TreeEntry) :
    spliceEntry base (n :: m :: p) e =
      (match (base.getD .nil).find? n with
        | none => .ok none
        | some c => c.loadChild) >>= fun child =>
      spliceEntry child (m :: p) e >>= fun s =>
      .ok (buildAndStore (setEntry n (.tree s (treeMeta s)) (base.getD .nil).entries)) := rfl

/-- **`edited_of_spliceEntry`** — a splice puts the entry at its path and changes nothing beside it. -/
theorem edited_of_spliceEntry {base : Option Tree} {p : Path} {e : TreeEntry} {t : Tree}
    (h : spliceEntry base p e = .ok t) : Edited (base.getD .nil) p (some e) t := by
  induction p generalizing base t with
  | nil => cases h
  | cons n p ih =>
      cases p with
      | nil =>
          cases h
          apply Edited.leaf
          intro m
          rw [find?_buildAndStore, lookup_setEntry, find?]
      | cons m p =>
          rw [spliceEntry_cons] at h
          obtain ⟨child, hchild, h⟩ := bind_eq_ok.mp h
          obtain ⟨s, hs, h⟩ := bind_eq_ok.mp h
          cases h
          have hbase : child.getD .nil =
              (((base.getD .nil).find? n).map TreeEntry.children).getD .nil := by
            cases hf : (base.getD .nil).find? n with
            | none =>
                rw [hf] at hchild
                cases hchild
                rfl
            | some c =>
                rw [hf] at hchild
                cases c with
                | blob b => cases hchild
                | tree s k =>
                    cases hchild
                    rfl
                | symlink l =>
                    cases hchild
                    rfl
          apply Edited.step (k := treeMeta s)
          · intro b hb
            rw [hb] at hchild
            cases hchild
          · exact hbase ▸ ih hs
          · intro a
            rw [find?_buildAndStore, lookup_setEntry, find?]

theorem removeEntry_cons (t : Tree) (n m : String) (p : Path) :
    t.removeEntry (n :: m :: p) = match t.find? n with
      | none => .ok none
      | some c => c.loadChild >>= fun child =>
          match child with
          | none => .ok none
          | some s => removeEntry s (m :: p) >>= fun s' =>
              match s' with
              | none => .ok none
              | some s' =>
                  .ok (some (buildAndStore (setEntry n (.tree s' (treeMeta s')) t.entries))) := rfl

/-- **`edited_of_removeEntry`** — a removal that finds something leaves nothing at its path and
changes nothing beside it. -/
theorem edited_of_removeEntry {t t' : Tree} {p : Path} (h : t.removeEntry p = .ok (some t')) :
    Edited t p none t' ∧ t.at p ≠ none := by
  induction p generalizing t t' with
  | nil => cases h
  | cons n p ih =>
      cases p with
      | nil =>
          unfold removeEntry at h
          simp only at h
          split_ifs at h with hlen
          · cases h
          have ht : buildAndStore (t.entries.filter fun x => x.1 ≠ n) = t' :=
            Option.some.inj (Except.ok.inj h)
          subst ht
          have hfind : ∀ m, (buildAndStore (t.entries.filter fun x => x.1 ≠ n)).find? m =
              if m = n then none else t.find? m := by
            intro m
            rw [find?_buildAndStore, lookup_filter_ne, find?]
          refine ⟨Edited.leaf hfind, fun hnone => hlen ?_⟩
          rw [at_singleton, find?_eq_none_iff] at hnone
          rw [List.filter_eq_self.mpr]
          intro x hx
          apply decide_eq_true
          rintro rfl
          exact hnone (List.mem_map_of_mem hx)
      | cons m p =>
          rw [removeEntry_cons] at h
          split at h
          · cases h
          · rename_i c hf
            cases c with
            | blob b => cases h
            | symlink l => cases h
            | tree s k =>
                obtain ⟨s', hs', h⟩ := bind_eq_ok.mp (show (removeEntry s (m :: p) >>= _) = _ from h)
                cases s' with
                | none => cases h
                | some s' =>
                    cases h
                    obtain ⟨hed, hne⟩ := ih hs'
                    constructor
                    · apply Edited.step (k := treeMeta s')
                      · simp [hf]
                      · rw [hf]
                        exact hed
                      · intro a
                        rw [find?_buildAndStore, lookup_setEntry, find?]
                    · rw [at_cons, hf]
                      exact hne

/-- **`spliceEntry_isOk`** — only a blob above the path stops a splice. -/
theorem spliceEntry_isOk {base : Option Tree} {p : Path} (hp : p ≠ [])
    (h : ¬ BlobAbove (base.getD .nil) p) (e : TreeEntry) : ∃ t, spliceEntry base p e = .ok t := by
  induction p generalizing base with
  | nil => exact absurd rfl hp
  | cons n p ih =>
      cases p with
      | nil => exact ⟨_, rfl⟩
      | cons m p =>
          rw [blobAbove_cons, not_or] at h
          obtain ⟨hblob, htree⟩ := h
          have hrest : ∀ child : Option Tree, ¬ BlobAbove (child.getD .nil) (m :: p) →
              ∃ t, (spliceEntry child (m :: p) e >>= fun s => .ok (buildAndStore
                (setEntry n (.tree s (treeMeta s)) (base.getD .nil).entries))) = .ok t := by
            intro child hchild
            obtain ⟨s, hs⟩ := ih (List.cons_ne_nil m p) hchild
            exact ⟨_, by rw [hs]; rfl⟩
          have hnil : ¬ BlobAbove .nil (m :: p) := by
            rintro ⟨a, k, r, b, -, ha⟩
            cases a <;> cases ha
          rw [spliceEntry_cons]
          cases hf : (base.getD .nil).find? n with
          | none => exact hrest none hnil
          | some c =>
              cases c with
              | blob b => exact absurd ⟨b, hf⟩ hblob
              | tree s k => exact hrest (some s) fun habove => htree ⟨s, k, hf, habove⟩
              | symlink l => exact hrest none hnil

/-- **`removeEntry_isOk`** — nor does anything else stop a removal, and what is there is found. -/
theorem removeEntry_isOk {t : Tree} {p : Path} (hp : p ≠ []) (h : ¬ BlobAbove t p) :
    ∃ o, t.removeEntry p = .ok o ∧ (t.at p ≠ none → o ≠ none) := by
  induction p generalizing t with
  | nil => exact absurd rfl hp
  | cons n p ih =>
      cases p with
      | nil =>
          unfold removeEntry
          simp only
          split_ifs with hlen
          · refine ⟨none, rfl, fun hat => ?_⟩
            rw [at_singleton, ne_eq, find?_eq_none_iff, not_not] at hat
            obtain ⟨x, hx, rfl⟩ := List.mem_map.mp hat
            have hall := List.length_filter_eq_length_iff.mp hlen x hx
            simp at hall
          · exact ⟨_, rfl, fun _ => nofun⟩
      | cons m p =>
          rw [blobAbove_cons, not_or] at h
          obtain ⟨hblob, htree⟩ := h
          rw [removeEntry_cons, at_cons]
          cases hf : t.find? n with
          | none => exact ⟨none, rfl, fun h => absurd rfl h⟩
          | some c =>
              cases c with
              | blob b => exact absurd ⟨b, hf⟩ hblob
              | symlink l => exact ⟨none, rfl, fun h => absurd rfl h⟩
              | tree s k =>
                  obtain ⟨o, ho, hfound⟩ := ih (List.cons_ne_nil m p) fun habove => htree ⟨s, k, hf, habove⟩
                  show ∃ o, (s.removeEntry (m :: p) >>= _) = Except.ok o ∧ (s.at (m :: p) ≠ none → o ≠ none)
                  rw [ho]
                  cases o with
                  | none => exact ⟨none, rfl, hfound⟩
                  | some s' => exact ⟨_, rfl, fun _ => nofun⟩

/-! ## Several edits -/

/-- `t` is `base` with each of the entries `es` in its place. -/
structure EditedAll (base : Tree) (es : List (Path × Option TreeEntry)) (t : Tree) : Prop where
  there : ∀ x ∈ es, t.at x.1 = x.2
  beside : ∀ q, (∀ x ∈ es, ¬ x.1 <+: q ∧ ¬ q <+: x.1) → t.at q = base.at q
  near : ∀ q, (∀ x ∈ es, q ≠ x.1) → (∃ x ∈ es, x.1 <+: q ∨ q <+: x.1) →
    ∀ e, t.at q = some e → e.isTree = true

namespace EditedAll

variable {base t t' : Tree} {es : List (Path × Option TreeEntry)} {p : Path} {o : Option TreeEntry}

theorem refl (t : Tree) : EditedAll t [] t :=
  ⟨nofun, fun _ _ => rfl, fun _ _ ⟨_, hx, _⟩ => nomatch hx⟩

/-- One more edit, beside the others, of an entry that is no tree. -/
theorem snoc (h : EditedAll base es t) (hed : Edited t p o t')
    (hapart : ∀ x ∈ es, ¬ x.1 <+: p ∧ ¬ p <+: x.1) (ho : ∀ e, o = some e → e.isTree = false) :
    EditedAll base (es ++ [(p, o)]) t' where
  there := by
    intro x hx
    rcases List.mem_append.mp hx with hx | hx
    · rw [hed.beside x.1 (hapart x hx).2 (hapart x hx).1]
      exact h.there x hx
    · rw [List.mem_singleton.mp hx]
      have hat := hed.below []
      rw [List.append_nil] at hat
      rw [hat]
      cases o <;> rfl
  beside := by
    intro q hq
    obtain ⟨hpq, hqp⟩ := hq (p, o) (by simp)
    rw [hed.beside q hpq hqp]
    exact h.beside q fun x hx => hq x (List.mem_append_left _ hx)
  near := by
    intro q hne hnear e he
    by_cases hpq : p <+: q
    · -- below the new entry, which is no tree, there is nothing
      obtain ⟨r, rfl⟩ := hpq
      rw [hed.below] at he
      obtain ⟨e', he', hr⟩ := Option.bind_eq_some_iff.mp he
      cases r with
      | nil => exact absurd (by simp) (hne (p, o) (by simp))
      | cons n r =>
          rw [TreeEntry.at_cons_of_not_tree (ho e' he')] at hr
          cases hr
    · by_cases hqp : q <+: p
      · obtain ⟨r, rfl⟩ := hqp
        cases r with
        | nil => exact absurd (by simp) (hne (q ++ [], o) (by simp))
        | cons n r =>
            obtain ⟨s, m, hs⟩ := hed.above q n r rfl
            rw [hs] at he
            cases he
            rfl
      · rw [hed.beside q hpq hqp] at he
        refine h.near q (fun x hx => hne x (List.mem_append_left _ hx)) ?_ e he
        obtain ⟨x, hx, hcmp⟩ := hnear
        rcases List.mem_append.mp hx with hx | hx
        · exact ⟨x, hx, hcmp⟩
        · rw [List.mem_singleton.mp hx] at hcmp
          exact absurd hcmp (not_or.mpr ⟨hpq, hqp⟩)

end EditedAll

/-! ## Edits of a well-formed tree -/

theorem wf_iff {t : Tree} : t.Wf ↔ t.names.Nodup ∧ ∀ x ∈ t.entries, x.2.Wf := by
  induction t using Tree.induction_cons with
  | nil => simp [Wf, names, entries]
  | cons n e rest _ ih =>
      have hnames : (cons n e rest).names = n :: rest.names := by
        rw [names, entries_cons]
        rfl
      rw [wf_cons, ih, hnames, entries_cons, List.nodup_cons, List.forall_mem_cons]
      constructor
      · exact fun ⟨hn, he, hnd, hrest⟩ => ⟨⟨hn, hnd⟩, he, hrest⟩
      · exact fun ⟨⟨hn, hnd⟩, he, hrest⟩ => ⟨hn, he, hnd, hrest⟩

theorem insertByName_perm (x : String × TreeEntry) (l : List (String × TreeEntry)) :
    (insertByName x l).Perm (x :: l) := by
  induction l with
  | nil => exact .refl _
  | cons y l ih =>
      unfold insertByName
      split_ifs
      · exact .refl _
      · exact (ih.cons y).trans (.swap x y l)

theorem sortedEntries_perm (l : List (String × TreeEntry)) : (sortedEntries l).Perm l := by
  induction l with
  | nil => exact .refl _
  | cons x l ih => exact (insertByName_perm x _).trans (ih.cons x)

theorem wf_buildAndStore {l : List (String × TreeEntry)} :
    (buildAndStore l).Wf ↔ (l.map Prod.fst).Nodup ∧ ∀ x ∈ l, x.2.Wf := by
  have hperm := sortedEntries_perm l
  rw [wf_iff, names, buildAndStore, entries_ofEntries, (hperm.map Prod.fst).nodup_iff]
  apply and_congr_right
  intro _
  apply forall_congr'
  intro x
  rw [hperm.mem_iff]

theorem mem_setEntry {n : String} {e : TreeEntry} {l : List (String × TreeEntry)}
    {x : String × TreeEntry} (h : x ∈ setEntry n e l) : x = (n, e) ∨ x ∈ l := by
  induction l with
  | nil => exact .inl (List.mem_singleton.mp h)
  | cons y l ih =>
      unfold setEntry at h
      split_ifs at h
      · exact (List.mem_cons.mp h).imp_right (List.mem_cons_of_mem y)
      · rcases List.mem_cons.mp h with rfl | h
        · exact .inr List.mem_cons_self
        · exact (ih h).imp_right (List.mem_cons_of_mem y)

theorem nodup_setEntry (n : String) (e : TreeEntry) {l : List (String × TreeEntry)}
    (h : (l.map Prod.fst).Nodup) : ((setEntry n e l).map Prod.fst).Nodup := by
  induction l with
  | nil => simp [setEntry]
  | cons y l ih =>
      obtain ⟨hy, hl⟩ := List.nodup_cons.mp h
      unfold setEntry
      split_ifs with hyn
      · rw [← hyn]
        exact h
      · refine List.nodup_cons.mpr ⟨fun hmem => ?_, ih hl⟩
        obtain ⟨x, hx, hxy⟩ := List.mem_map.mp hmem
        rcases mem_setEntry hx with rfl | hx
        · exact hyn hxy.symm
        · exact hy (List.mem_map.mpr ⟨x, hx, hxy⟩)

/-- An entry set in a well-formed tree. -/
theorem wf_setEntry {t : Tree} (ht : t.Wf) (n : String) {e : TreeEntry} (he : e.Wf) :
    (buildAndStore (setEntry n e t.entries)).Wf := by
  obtain ⟨hnd, hall⟩ := wf_iff.mp ht
  refine wf_buildAndStore.mpr ⟨nodup_setEntry n e hnd, fun x hx => ?_⟩
  rcases mem_setEntry hx with rfl | hx
  · exact he
  · exact hall x hx

theorem spliceEntry_wf {base : Option Tree} (hb : (base.getD .nil).Wf) {p : Path} {e : TreeEntry}
    (he : e.Wf) {t : Tree} (h : spliceEntry base p e = .ok t) : t.Wf := by
  induction p generalizing base t with
  | nil => cases h
  | cons n p ih =>
      cases p with
      | nil =>
          cases h
          exact wf_setEntry hb n he
      | cons m p =>
          rw [spliceEntry_cons] at h
          obtain ⟨child, hchild, h⟩ := bind_eq_ok.mp h
          obtain ⟨s, hs, h⟩ := bind_eq_ok.mp h
          cases h
          have hwf : (child.getD .nil).Wf := by
            cases hf : (base.getD .nil).find? n with
            | none =>
                rw [hf] at hchild
                cases hchild
                trivial
            | some c =>
                rw [hf] at hchild
                have hc : c.Wf := hb.of_find? hf
                cases c with
                | blob b => cases hchild
                | tree s k =>
                    cases hchild
                    exact hc
                | symlink l =>
                    cases hchild
                    trivial
          have hsub : s.Wf := ih hwf hs
          exact wf_setEntry hb n (e := .tree s (treeMeta s)) hsub

theorem removeEntry_wf {t t' : Tree} (ht : t.Wf) {p : Path} (h : t.removeEntry p = .ok (some t')) :
    t'.Wf := by
  induction p generalizing t t' with
  | nil => cases h
  | cons n p ih =>
      cases p with
      | nil =>
          unfold removeEntry at h
          simp only at h
          split_ifs at h
          · cases h
          obtain ⟨hnd, hall⟩ := wf_iff.mp ht
          have hkept : buildAndStore (t.entries.filter fun x => x.1 ≠ n) = t' :=
            Option.some.inj (Except.ok.inj h)
          rw [← hkept]
          refine wf_buildAndStore.mpr ⟨?_, fun x hx => hall x (List.mem_of_mem_filter hx)⟩
          exact hnd.sublist (List.filter_sublist.map Prod.fst)
      | cons m p =>
          rw [removeEntry_cons] at h
          split at h
          · cases h
          · rename_i c hf
            have hc : c.Wf := ht.of_find? hf
            cases c with
            | blob b => cases h
            | symlink l => cases h
            | tree s k =>
                obtain ⟨s', hs', h⟩ := bind_eq_ok.mp (show (removeEntry s (m :: p) >>= _) = _ from h)
                cases s' with
                | none => cases h
                | some s' =>
                    cases h
                    have hsub : s'.Wf := ih hc hs'
                    exact wf_setEntry ht n (e := .tree s' (treeMeta s')) hsub

end Tree

end Omemfs
