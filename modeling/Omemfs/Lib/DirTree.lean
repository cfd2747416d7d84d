/-
# Omemfs.Lib.DirTree — a directory tree and the POSIX operations on it.

A directory lists its entries by name: leaves, which carry whatever the client wants to know of a
file, and directories.  What a path leads to is `at`; what an `lstat` of it says is `get`, a map from
paths to kinds in which everything above something is a directory.  Every operation is one `alter` at
one path, and its spec lemma says of `get` that this path changed and no other.

The operations take the path of an entry whose parent is an open directory: they fail as the system
calls do that take a directory descriptor and one name.
-/
import Mathlib.Data.List.Infix
import Mathlib.Tactic.SplitIfs

namespace Omemfs.Lib

/-- The entries of a directory, in the order a listing gives them. -/
inductive DirTree (ν α : Type) where
  | nil
  | leaf (name : ν) (a : α) (rest : DirTree ν α)
  | sub (name : ν) (dir : DirTree ν α) (rest : DirTree ν α)
  deriving DecidableEq

/-- One entry, without its name. -/
inductive Item (ν α : Type) where
  | leaf (a : α)
  | sub (d : DirTree ν α)
  deriving DecidableEq

/-- What `lstat` tells of an entry. -/
inductive Kind (α : Type) where
  | dir
  | leaf (a : α)
  deriving DecidableEq

inductive Errno where
  | enoent
  | enotdir
  | eisdir
  | eexist
  | enotempty
  deriving DecidableEq, Repr

variable {ν α : Type}

def Item.kind : Item ν α → Kind α
  | .leaf a => .leaf a
  | .sub _ => .dir

/-- The directory an entry is. -/
def Item.children : Item ν α → DirTree ν α
  | .leaf _ => .nil
  | .sub d => d

namespace DirTree

def cons (name : ν) (x : Item ν α) (rest : DirTree ν α) : DirTree ν α :=
  match x with
  | .leaf a => .leaf name a rest
  | .sub d => .sub name d rest

/-- The names of a listing. -/
def names : DirTree ν α → List ν
  | .nil => []
  | .leaf n _ rest => n :: rest.names
  | .sub n _ rest => n :: rest.names

/-- Names are distinct in every directory. -/
def Wf : DirTree ν α → Prop
  | .nil => True
  | .leaf n _ rest => n ∉ rest.names ∧ rest.Wf
  | .sub n d rest => n ∉ rest.names ∧ d.Wf ∧ rest.Wf

/-- Every directory is empty or has a first entry. -/
theorem induction_cons {motive : DirTree ν α → Prop} (nil : motive .nil)
    (cons : ∀ n x rest, motive x.children → motive rest → motive (DirTree.cons n x rest))
    (d : DirTree ν α) : motive d := by
  induction d with
  | nil => exact nil
  | leaf n a rest ih => exact cons n (.leaf a) rest nil ih
  | sub n s rest ihs ih => exact cons n (.sub s) rest ihs ih

theorem wf_cons {n : ν} {x : Item ν α} {rest : DirTree ν α} :
    (cons n x rest).Wf ↔ n ∉ rest.names ∧ x.children.Wf ∧ rest.Wf := by
  cases x with
  | leaf a => exact ⟨fun h => ⟨h.1, trivial, h.2⟩, fun h => ⟨h.1, h.2.2⟩⟩
  | sub s => exact Iff.rfl

variable [DecidableEq ν]

/-- The entry of this name. -/
def find? (n : ν) : DirTree ν α → Option (Item ν α)
  | .nil => none
  | .leaf m a rest => if n = m then some (.leaf a) else rest.find? n
  | .sub m d rest => if n = m then some (.sub d) else rest.find? n

/-- Replace the entry of this name, or add one. -/
def put (n : ν) (x : Item ν α) : DirTree ν α → DirTree ν α
  | .nil => cons n x .nil
  | .leaf m a rest => if n = m then cons n x rest else .leaf m a (rest.put n x)
  | .sub m d rest => if n = m then cons n x rest else .sub m d (rest.put n x)

/-- Take the entry of this name out. -/
def drop (n : ν) : DirTree ν α → DirTree ν α
  | .nil => .nil
  | .leaf m a rest => if n = m then rest.drop n else .leaf m a (rest.drop n)
  | .sub m d rest => if n = m then rest.drop n else .sub m d (rest.drop n)

/-! ## One directory -/

@[simp]
theorem find?_nil (n : ν) : (nil : DirTree ν α).find? n = none := rfl

theorem find?_cons (n m : ν) (x : Item ν α) (rest : DirTree ν α) :
    (cons m x rest).find? n = if n = m then some x else rest.find? n := by
  cases x <;> rfl

theorem put_cons (n m : ν) (x y : Item ν α) (rest : DirTree ν α) :
    (cons m y rest).put n x = if n = m then cons n x rest else cons m y (rest.put n x) := by
  cases y <;> rfl

theorem drop_cons (n m : ν) (y : Item ν α) (rest : DirTree ν α) :
    (cons m y rest).drop n = if n = m then rest.drop n else cons m y (rest.drop n) := by
  cases y <;> rfl

theorem find?_put (n m : ν) (x : Item ν α) (d : DirTree ν α) :
    (d.put n x).find? m = if m = n then some x else d.find? m := by
  induction d using induction_cons with
  | nil => exact find?_cons m n x .nil
  | cons k y rest _ ih =>
      rw [put_cons]
      split_ifs with hk hm hm
      · rw [find?_cons, if_pos hm]
      · rw [find?_cons, if_neg hm, find?_cons, if_neg (hk ▸ hm)]
      · rw [find?_cons, ih, if_pos hm, if_neg (hm ▸ hk)]
      · rw [find?_cons, ih, if_neg hm, find?_cons]

theorem find?_drop (n m : ν) (d : DirTree ν α) :
    (d.drop n).find? m = if m = n then none else d.find? m := by
  induction d using induction_cons with
  | nil => simp [drop]
  | cons k y rest _ ih =>
      rw [drop_cons]
      split_ifs with hk hm hm
      · rw [ih, if_pos hm]
      · rw [ih, if_neg hm, find?_cons, if_neg (hk ▸ hm)]
      · rw [find?_cons, ih, if_pos hm, if_neg (hm ▸ hk)]
      · rw [find?_cons, ih, if_neg hm, find?_cons]

/-- What holds of a directory when it holds of those in it holds of every directory. -/
theorem induction_find {motive : DirTree ν α → Prop}
    (step : ∀ d, (∀ n s, d.find? n = some (.sub s) → motive s) → motive d) (d : DirTree ν α) :
    motive d := by
  have hall : motive d ∧ ∀ n s, d.find? n = some (.sub s) → motive s := by
    induction d using induction_cons with
    | nil =>
        have hfind : ∀ n s, (nil : DirTree ν α).find? n = some (.sub s) → motive s := nofun
        exact ⟨step _ hfind, hfind⟩
    | cons m x rest ihx ihr =>
        have hfind : ∀ n s, (cons m x rest).find? n = some (.sub s) → motive s := by
          intro n s hs
          rw [find?_cons] at hs
          split_ifs at hs
          · cases hs
            exact ihx.1
          · exact ihr.2 n s hs
        exact ⟨step _ hfind, hfind⟩
  exact hall.1

/-- A directory without entries. -/
theorem eq_nil_iff {d : DirTree ν α} : d = .nil ↔ ∀ n, d.find? n = none := by
  induction d using induction_cons with
  | nil => simp
  | cons n x rest _ _ =>
      constructor
      · intro h
        cases x <;> cases h
      · intro h
        simpa [find?_cons] using h n

theorem find?_eq_none_iff {d : DirTree ν α} {n : ν} : d.find? n = none ↔ n ∉ d.names := by
  induction d with
  | nil => simp [names]
  | leaf m a rest ih =>
      by_cases h : n = m <;> simp [find?, names, h, ih]
  | sub m s rest _ ih =>
      by_cases h : n = m <;> simp [find?, names, h, ih]

/-! ## Paths -/

end DirTree

variable [DecidableEq ν]

/-- What a path leads to from an entry; links are not followed. -/
def Item.at (x : Item ν α) : List ν → Option (Item ν α)
  | [] => some x
  | n :: p => (x.children.find? n).bind fun y => y.at p

@[simp]
theorem Item.at_nil (x : Item ν α) : x.at [] = some x := rfl

theorem Item.at_cons (x : Item ν α) (n : ν) (p : List ν) :
    x.at (n :: p) = (x.children.find? n).bind fun y => y.at p := rfl

theorem Item.at_append (x : Item ν α) (p q : List ν) :
    x.at (p ++ q) = (x.at p).bind fun y => y.at q := by
  induction p generalizing x with
  | nil => rfl
  | cons n p ih =>
      rw [List.cons_append, Item.at_cons, Item.at_cons]
      cases x.children.find? n with
      | none => rfl
      | some y => exact ih y

/-- What a path leads to from a directory. -/
def DirTree.at (d : DirTree ν α) (p : List ν) : Option (Item ν α) := (Item.sub d).at p

namespace DirTree

/-- `lstat`. -/
def get (d : DirTree ν α) (p : List ν) : Option (Kind α) := (d.at p).map Item.kind

@[simp]
theorem at_nil (d : DirTree ν α) : d.at [] = some (.sub d) := rfl

theorem at_cons (d : DirTree ν α) (n : ν) (p : List ν) :
    d.at (n :: p) = (d.find? n).bind fun y => y.at p := rfl

theorem at_singleton (d : DirTree ν α) (n : ν) : d.at [n] = d.find? n := by
  rw [at_cons]
  cases d.find? n <;> rfl

theorem at_append (d : DirTree ν α) (p q : List ν) :
    d.at (p ++ q) = (d.at p).bind fun y => y.at q := (Item.sub d).at_append p q

@[simp]
theorem get_nil (d : DirTree ν α) : d.get [] = some .dir := rfl

@[simp]
theorem nil_get_cons (n : ν) (p : List ν) : (nil : DirTree ν α).get (n :: p) = none := rfl

theorem get_cons_of_none {d : DirTree ν α} {n : ν} (h : d.find? n = none) (p : List ν) :
    d.get (n :: p) = none := by
  rw [get, at_cons, h]
  rfl

theorem get_cons_of_sub {d s : DirTree ν α} {n : ν} (h : d.find? n = some (.sub s)) (p : List ν) :
    d.get (n :: p) = s.get p := by
  rw [get, at_cons, h]
  rfl

theorem get_cons_of_leaf {d : DirTree ν α} {n : ν} {a : α} (h : d.find? n = some (.leaf a))
    (p : List ν) : d.get (n :: p) = if p = [] then some (.leaf a) else none := by
  rw [get, at_cons, h]
  cases p <;> rfl

theorem get_eq_dir_iff {d : DirTree ν α} {p : List ν} :
    d.get p = some .dir ↔ ∃ s, d.at p = some (.sub s) := by
  unfold get
  cases d.at p with
  | none => simp
  | some x => cases x <;> simp [Item.kind]

theorem get_eq_leaf_iff {d : DirTree ν α} {p : List ν} {a : α} :
    d.get p = some (.leaf a) ↔ d.at p = some (.leaf a) := by
  unfold get
  cases d.at p with
  | none => simp
  | some x => cases x <;> simp [Item.kind]

theorem get_eq_none_iff {d : DirTree ν α} {p : List ν} : d.get p = none ↔ d.at p = none := by
  simp [get]

theorem get_leaf_cons (m : ν) (a : α) (rest : DirTree ν α) (n : ν) (p : List ν) :
    (leaf m a rest).get (n :: p) =
      if n = m then if p = [] then some (.leaf a) else none else rest.get (n :: p) := by
  by_cases h : n = m
  · subst h
    rw [if_pos rfl, get_cons_of_leaf (by rw [find?, if_pos rfl])]
  · simp only [get, at_cons, find?, if_neg h]

theorem get_sub_cons (m : ν) (d rest : DirTree ν α) (n : ν) (p : List ν) :
    (sub m d rest).get (n :: p) = if n = m then d.get p else rest.get (n :: p) := by
  by_cases h : n = m
  · subst h
    rw [if_pos rfl, get_cons_of_sub (by rw [find?, if_pos rfl])]
  · simp only [get, at_cons, find?, if_neg h]

/-- What is found in a directory is found in its first entry or in the others. -/
theorem exists_get_leaf_iff {m : ν} {a : α} {rest : DirTree ν α} (hm : m ∉ rest.names)
    {P : ν → List ν → Kind α → Prop} :
    (∃ n p k, (leaf m a rest).get (n :: p) = some k ∧ P n p k) ↔
      P m [] (.leaf a) ∨ ∃ n p k, rest.get (n :: p) = some k ∧ P n p k := by
  constructor
  · rintro ⟨n, p, k, hk, h⟩
    rw [get_leaf_cons] at hk
    split_ifs at hk with hn hp
    · cases hk
      exact .inl (by rwa [hn, hp] at h)
    · exact .inr ⟨n, p, k, hk, h⟩
  · rintro (h | ⟨n, p, k, hk, h⟩)
    · exact ⟨m, [], _, by rw [get_leaf_cons, if_pos rfl, if_pos rfl], h⟩
    · have hn : n ≠ m := by
        rintro rfl
        rw [get_cons_of_none (find?_eq_none_iff.mpr hm)] at hk
        cases hk
      exact ⟨n, p, k, by rw [get_leaf_cons, if_neg hn, hk], h⟩

theorem exists_get_sub_iff {m : ν} {d rest : DirTree ν α} (hm : m ∉ rest.names)
    {P : ν → List ν → Kind α → Prop} :
    (∃ n p k, (sub m d rest).get (n :: p) = some k ∧ P n p k) ↔
      (∃ p k, d.get p = some k ∧ P m p k) ∨ ∃ n p k, rest.get (n :: p) = some k ∧ P n p k := by
  constructor
  · rintro ⟨n, p, k, hk, h⟩
    rw [get_sub_cons] at hk
    split_ifs at hk with hn
    · exact .inl ⟨p, k, hk, by rwa [hn] at h⟩
    · exact .inr ⟨n, p, k, hk, h⟩
  · rintro (⟨p, k, hk, h⟩ | ⟨n, p, k, hk, h⟩)
    · exact ⟨m, p, k, by rw [get_sub_cons, if_pos rfl, hk], h⟩
    · have hn : n ≠ m := by
        rintro rfl
        rw [get_cons_of_none (find?_eq_none_iff.mpr hm)] at hk
        cases hk
      exact ⟨n, p, k, by rw [get_sub_cons, if_neg hn, hk], h⟩

/-- The entry itself or something below it. -/
theorem exists_get_iff {d : DirTree ν α} {P : List ν → Kind α → Prop} :
    (∃ p k, d.get p = some k ∧ P p k) ↔
      P [] .dir ∨ ∃ n p k, d.get (n :: p) = some k ∧ P (n :: p) k := by
  constructor
  · rintro ⟨_ | ⟨n, p⟩, k, hk, h⟩
    · cases hk
      exact .inl h
    · exact .inr ⟨n, p, k, hk, h⟩
  · rintro (h | ⟨n, p, k, hk, h⟩)
    · exact ⟨[], .dir, get_nil d, h⟩
    · exact ⟨n :: p, k, hk, h⟩
/-- **`get_of_append`** — what lies above something is a directory. -/
theorem get_of_append {d : DirTree ν α} {p : List ν} {n : ν} {q : List ν}
    (h : d.get (p ++ n :: q) ≠ none) : d.get p = some .dir := by
  rw [ne_eq, get_eq_none_iff, at_append] at h
  rw [get_eq_dir_iff]
  cases hp : d.at p with
  | none => simp [hp] at h
  | some x =>
      cases x with
      | sub s => exact ⟨s, rfl⟩
      | leaf a => simp [hp, Item.at_cons, Item.children] at h

/-- Everything above a directory is one. -/
theorem dir_of_prefix {d : DirTree ν α} {p a : List ν} (h : d.get p = some .dir) (ha : a <+: p) :
    d.get a = some .dir := by
  obtain ⟨r, rfl⟩ := ha
  cases r with
  | nil => simpa using h
  | cons n r => exact get_of_append (n := n) (q := r) (by simp [h])

/-- Nothing lies below what is not a directory. -/
theorem get_append_of_not_dir {d : DirTree ν α} {p : List ν} (h : d.get p ≠ some .dir) (n : ν)
    (q : List ν) : d.get (p ++ n :: q) = none := by
  by_contra hne
  exact h (get_of_append hne)

/-- An empty directory. -/
theorem at_eq_empty_iff {d : DirTree ν α} {p : List ν} :
    d.at p = some (.sub .nil) ↔ d.get p = some .dir ∧ ∀ n, d.get (p ++ [n]) = none := by
  constructor
  · intro h
    refine ⟨get_eq_dir_iff.mpr ⟨_, h⟩, fun n => ?_⟩
    rw [get_eq_none_iff, at_append, h]
    rfl
  · rintro ⟨hdir, hnone⟩
    obtain ⟨s, hs⟩ := get_eq_dir_iff.mp hdir
    have hnil : s = .nil := eq_nil_iff.mpr fun n => by
      have h := hnone n
      rw [get_eq_none_iff, at_append, hs] at h
      exact (at_singleton s n).symm.trans h
    rw [hs, hnil]

/-! ## Changing one path -/

/-- Put in place of what is at a path whatever `f` makes of it.  Without the directory above,
nothing happens. -/
def alter (f : Option (Item ν α) → Option (Item ν α)) : List ν → DirTree ν α → DirTree ν α
  | [], d => d
  | [n], d =>
      match f (d.find? n) with
      | some x => d.put n x
      | none => d.drop n
  | n :: m :: p, d =>
      match d.find? n with
      | some (.sub s) => d.put n (.sub (alter f (m :: p) s))
      | _ => d

theorem find?_alter_singleton (f : Option (Item ν α) → Option (Item ν α)) (n m : ν)
    (d : DirTree ν α) :
    (alter f [n] d).find? m = if m = n then f (d.find? n) else d.find? m := by
  unfold alter
  cases h : f (d.find? n) with
  | none => exact find?_drop n m d
  | some x => exact find?_put n m x d

/-- At the path itself and below. -/
theorem at_alter_append (f : Option (Item ν α) → Option (Item ν α)) {d : DirTree ν α} {p : List ν}
    {n : ν} (hdir : d.get p = some .dir) (q : List ν) :
    (alter f (p ++ [n]) d).at (p ++ n :: q) = (f (d.at (p ++ [n]))).bind fun y => y.at q := by
  induction p generalizing d with
  | nil =>
      rw [List.nil_append, List.nil_append, at_cons, find?_alter_singleton, if_pos rfl,
        at_singleton]
  | cons m p ih =>
      obtain ⟨s, hs⟩ := get_eq_dir_iff.mp hdir
      rw [at_cons] at hs
      obtain ⟨y, hy, hys⟩ := Option.bind_eq_some_iff.mp hs
      cases y with
      | leaf a =>
          cases p with
          | nil => cases hys
          | cons k p => cases hys
      | sub t =>
          have hdt : t.get p = some .dir := get_eq_dir_iff.mpr ⟨s, hys⟩
          have hstep : alter f (m :: p ++ [n]) d = d.put m (.sub (alter f (p ++ [n]) t)) := by
            cases p <;> simp [alter, hy]
          rw [hstep, List.cons_append, at_cons, find?_put, if_pos rfl, List.cons_append, at_cons, hy]
          exact ih hdt

/-- A path that is not below the changed one leads to the same kind of entry. -/
theorem get_alter_of_apart (f : Option (Item ν α) → Option (Item ν α)) {p q : List ν}
    (h : ¬ p <+: q) (d : DirTree ν α) : (alter f p d).get q = d.get q := by
  induction p generalizing d q with
  | nil => exact absurd (List.nil_prefix) h
  | cons n p ih =>
      cases q with
      | nil => rfl
      | cons m q =>
          unfold get
          rw [at_cons, at_cons]
          cases p with
          | nil =>
              have hmn : m ≠ n := fun hm => h (by simp [hm])
              rw [find?_alter_singleton, if_neg hmn]
          | cons k p =>
              unfold alter
              cases hf : d.find? n with
              | none => rfl
              | some y =>
                  cases y with
                  | leaf a => rfl
                  | sub s =>
                      simp only [find?_put]
                      by_cases hm : m = n
                      · subst hm
                        rw [if_pos rfl, hf]
                        exact ih (fun hp => h (by simpa using hp)) s
                      · rw [if_neg hm]

/-- **`get_alter`** — an entry without anything below it, replaced by such an entry or by nothing,
changes one path. -/
theorem get_alter {f : Option (Item ν α) → Option (Item ν α)} {d : DirTree ν α} {p : List ν} {n : ν}
    (hdir : d.get p = some .dir) (hbelow : ∀ m r, d.get (p ++ n :: m :: r) = none)
    (hf : ∀ y, f (d.at (p ++ [n])) = some y → y.children = .nil) (q : List ν) :
    (alter f (p ++ [n]) d).get q =
      if q = p ++ [n] then (f (d.at (p ++ [n]))).map Item.kind else d.get q := by
  by_cases hq : p ++ [n] <+: q
  · obtain ⟨r, rfl⟩ := hq
    have hsplit : p ++ [n] ++ r = p ++ n :: r := by simp
    have hat := at_alter_append f (n := n) hdir r
    unfold get
    rw [hsplit, hat]
    cases r with
    | nil =>
        rw [if_pos rfl]
        cases f (d.at (p ++ [n])) <;> rfl
    | cons m r =>
        rw [if_neg (by simp)]
        have hnone := get_eq_none_iff.mp (hbelow m r)
        rw [hnone]
        cases hfy : f (d.at (p ++ [n])) with
        | none => rfl
        | some y => simp [Item.at_cons, hf y hfy]
  · rw [get_alter_of_apart f hq, if_neg]
    rintro rfl
    exact hq List.prefix_rfl

/-! ## Distinct names -/

theorem Wf.put {d : DirTree ν α} (hd : d.Wf) {n : ν} {x : Item ν α} (hx : x.children.Wf) :
    (d.put n x).Wf := by
  induction d using induction_cons with
  | nil => exact wf_cons.mpr ⟨List.not_mem_nil, hx, trivial⟩
  | cons m y rest _ ih =>
      obtain ⟨hm, hy, hrest⟩ := wf_cons.mp hd
      rw [put_cons]
      split_ifs with hnm
      · exact wf_cons.mpr ⟨hnm ▸ hm, hx, hrest⟩
      · refine wf_cons.mpr ⟨?_, hy, ih hrest⟩
        rw [← find?_eq_none_iff, find?_put, if_neg (Ne.symm hnm), find?_eq_none_iff]
        exact hm

theorem Wf.drop {d : DirTree ν α} (hd : d.Wf) (n : ν) : (d.drop n).Wf := by
  induction d using induction_cons with
  | nil => exact trivial
  | cons m y rest _ ih =>
      obtain ⟨hm, hy, hrest⟩ := wf_cons.mp hd
      rw [drop_cons]
      split_ifs with hnm
      · exact ih hrest
      · refine wf_cons.mpr ⟨?_, hy, ih hrest⟩
        rw [← find?_eq_none_iff, find?_drop, if_neg (Ne.symm hnm), find?_eq_none_iff]
        exact hm

theorem Wf.of_find? {d : DirTree ν α} (hd : d.Wf) {n : ν} {x : Item ν α} (h : d.find? n = some x) :
    x.children.Wf := by
  induction d using induction_cons with
  | nil => cases h
  | cons m y rest _ ih =>
      obtain ⟨-, hy, hrest⟩ := wf_cons.mp hd
      rw [find?_cons] at h
      split_ifs at h with hnm
      · cases h
        exact hy
      · exact ih hrest h

/-- Names stay distinct when one entry is put, replaced or taken out. -/
theorem Wf.alter {f : Option (Item ν α) → Option (Item ν α)}
    (hf : ∀ x y, f x = some y → y.children.Wf) {d : DirTree ν α} (hd : d.Wf) (p : List ν) :
    (alter f p d).Wf := by
  induction p generalizing d with
  | nil => exact hd
  | cons n p ih =>
      cases p with
      | nil =>
          rw [DirTree.alter]
          cases hx : f (d.find? n) with
          | some y => exact hd.put (hf _ _ hx)
          | none => exact hd.drop n
      | cons m p =>
          rw [DirTree.alter]
          rcases hx : d.find? n with _ | a | s
          · exact hd
          · exact hd
          · have hs : s.Wf := hd.of_find? hx
            exact hd.put (ih hs)

/-! ## System calls -/

/-- `unlinkat`. -/
def unlink (d : DirTree ν α) (p : List ν) : Except Errno (DirTree ν α) :=
  match d.get p with
  | some (.leaf _) => .ok (alter (fun _ => none) p d)
  | some .dir => .error .eisdir
  | none => .error .enoent

/-- `unlinkat` with `AT_REMOVEDIR`. -/
def rmdir (d : DirTree ν α) (p : List ν) : Except Errno (DirTree ν α) :=
  match d.at p with
  | some (.sub .nil) => .ok (alter (fun _ => none) p d)
  | some (.sub _) => .error .enotempty
  | some (.leaf _) => .error .enotdir
  | none => .error .enoent

/-- `mkdirat`. -/
def mkdir (d : DirTree ν α) (p : List ν) : Except Errno (DirTree ν α) :=
  match d.get p with
  | some _ => .error .eexist
  | none => .ok (alter (fun _ => some (.sub .nil)) p d)

/-- `renameat` of a new leaf onto a name: what is not a directory is replaced. -/
def rename (d : DirTree ν α) (p : List ν) (a : α) : Except Errno (DirTree ν α) :=
  match d.get p with
  | some .dir => .error .eisdir
  | _ => .ok (alter (fun _ => some (.leaf a)) p d)

/-- The path of a leaf has a last name, and its parent is a directory. -/
theorem parent_of_leaf {d : DirTree ν α} {p : List ν} {a : α} (h : d.get p = some (.leaf a)) :
    ∃ q n, p = q ++ [n] ∧ d.get q = some .dir := by
  induction p using List.reverseRecOn with
  | nil => cases h
  | append_singleton q n _ => exact ⟨q, n, rfl, get_of_append (n := n) (q := []) (by simp [h])⟩

theorem unlink_of_leaf {d : DirTree ν α} {p : List ν} {a : α} (h : d.get p = some (.leaf a)) :
    ∃ d', d.unlink p = .ok d' ∧ ∀ q, d'.get q = if q = p then none else d.get q := by
  obtain ⟨q, n, rfl, hdir⟩ := parent_of_leaf h
  refine ⟨alter (fun _ => none) (q ++ [n]) d, by simp [unlink, h], fun r => ?_⟩
  apply get_alter hdir
  · intro m r
    have := get_append_of_not_dir (d := d) (p := q ++ [n]) (by simp [h]) m r
    simpa using this
  · exact fun y hy => nomatch hy

theorem get_unlink {d d' : DirTree ν α} {p : List ν} (h : d.unlink p = .ok d') :
    (∃ a, d.get p = some (.leaf a)) ∧ ∀ q, d'.get q = if q = p then none else d.get q := by
  cases hp : d.get p with
  | none => simp [unlink, hp] at h
  | some k =>
      cases k with
      | dir => simp [unlink, hp] at h
      | leaf a =>
          obtain ⟨e, he, hget⟩ := unlink_of_leaf hp
          rw [he] at h
          cases h
          exact ⟨⟨a, rfl⟩, hget⟩

theorem rmdir_of_empty {d : DirTree ν α} {p : List ν} {n : ν}
    (h : d.at (p ++ [n]) = some (.sub .nil)) :
    ∃ d', d.rmdir (p ++ [n]) = .ok d' ∧
      ∀ q, d'.get q = if q = p ++ [n] then none else d.get q := by
  obtain ⟨hdir, hnone⟩ := at_eq_empty_iff.mp h
  have hparent : d.get p = some .dir := get_of_append (n := n) (q := []) (by simp [hdir])
  refine ⟨alter (fun _ => none) (p ++ [n]) d, by simp [rmdir, h], fun r => ?_⟩
  apply get_alter hparent
  · intro m r
    rw [get_eq_none_iff, show p ++ n :: m :: r = (p ++ [n]) ++ m :: r by simp, at_append, h]
    rfl
  · exact fun y hy => nomatch hy

theorem get_rmdir {d d' : DirTree ν α} {p : List ν} {n : ν} (h : d.rmdir (p ++ [n]) = .ok d') :
    d.at (p ++ [n]) = some (.sub .nil) ∧ ∀ q, d'.get q = if q = p ++ [n] then none else d.get q := by
  have hat : d.at (p ++ [n]) = some (.sub .nil) := by
    rcases hx : d.at (p ++ [n]) with _ | a | s
    · simp [rmdir, hx] at h
    · simp [rmdir, hx] at h
    · cases s with
      | nil => rfl
      | leaf m a rest => simp [rmdir, hx] at h
      | sub m t rest => simp [rmdir, hx] at h
  obtain ⟨e, he, hget⟩ := rmdir_of_empty hat
  rw [he] at h
  cases h
  exact ⟨hat, hget⟩

theorem Wf.unlink {d d' : DirTree ν α} (hd : d.Wf) {p : List ν} (h : d.unlink p = .ok d') : d'.Wf := by
  rcases hp : d.get p with _ | _ | a
  · simp [DirTree.unlink, hp] at h
  · simp [DirTree.unlink, hp] at h
  · simp only [DirTree.unlink, hp, Except.ok.injEq] at h
    exact h ▸ hd.alter (by rintro x y ⟨⟩) p

theorem Wf.rmdir {d d' : DirTree ν α} (hd : d.Wf) {p : List ν} (h : d.rmdir p = .ok d') : d'.Wf := by
  rcases hp : d.at p with _ | a | s
  · simp [DirTree.rmdir, hp] at h
  · simp [DirTree.rmdir, hp] at h
  · cases s with
    | nil =>
        simp only [DirTree.rmdir, hp, Except.ok.injEq] at h
        exact h ▸ hd.alter (by rintro x y ⟨⟩) p
    | leaf m a rest => simp [DirTree.rmdir, hp] at h
    | sub m t rest => simp [DirTree.rmdir, hp] at h

theorem Wf.mkdir {d d' : DirTree ν α} (hd : d.Wf) {p : List ν} (h : d.mkdir p = .ok d') : d'.Wf := by
  rcases hp : d.get p with _ | _ | a
  · simp only [DirTree.mkdir, hp, Except.ok.injEq] at h
    exact h ▸ hd.alter (by rintro x y ⟨⟩; exact trivial) p
  · simp [DirTree.mkdir, hp] at h
  · simp [DirTree.mkdir, hp] at h

theorem Wf.rename {d d' : DirTree ν α} (hd : d.Wf) {p : List ν} {a : α} (h : d.rename p a = .ok d') :
    d'.Wf := by
  have halter : (DirTree.alter (fun _ => some (.leaf a)) p d).Wf :=
    hd.alter (by rintro x y ⟨⟩; exact trivial) p
  rcases hp : d.get p with _ | _ | b
  · simp only [DirTree.rename, hp, Except.ok.injEq] at h
    exact h ▸ halter
  · simp [DirTree.rename, hp] at h
  · simp only [DirTree.rename, hp, Except.ok.injEq] at h
    exact h ▸ halter

theorem mkdir_of_none {d : DirTree ν α} {p : List ν} {n : ν} (hdir : d.get p = some .dir)
    (h : d.get (p ++ [n]) = none) :
    ∃ d', d.mkdir (p ++ [n]) = .ok d' ∧
      ∀ q, d'.get q = if q = p ++ [n] then some .dir else d.get q := by
  refine ⟨alter (fun _ => some (.sub .nil)) (p ++ [n]) d, by simp [mkdir, h], fun r => ?_⟩
  apply get_alter hdir
  · intro m r
    have := get_append_of_not_dir (d := d) (p := p ++ [n]) (by simp [h]) m r
    simpa using this
  · intro y hy
    cases hy
    rfl

theorem rename_of_not_dir {d : DirTree ν α} {p : List ν} {n : ν} (hdir : d.get p = some .dir)
    (h : d.get (p ++ [n]) ≠ some .dir) (a : α) :
    ∃ d', d.rename (p ++ [n]) a = .ok d' ∧
      ∀ q, d'.get q = if q = p ++ [n] then some (.leaf a) else d.get q := by
  refine ⟨alter (fun _ => some (.leaf a)) (p ++ [n]) d, ?_, fun r => ?_⟩
  · unfold rename
    cases hk : d.get (p ++ [n]) with
    | none => rfl
    | some k =>
        cases k with
        | dir => exact absurd hk h
        | leaf b => rfl
  apply get_alter hdir
  · intro m r
    simpa using get_append_of_not_dir h m r
  · intro y hy
    cases hy
    rfl

theorem rename_of_dir {d : DirTree ν α} {p : List ν} (h : d.get p = some .dir) (a : α) :
    d.rename p a = .error .eisdir := by
  simp [rename, h]

end DirTree

end Omemfs.Lib
