/-
# Omemfs.Scan.Settings — what a scan is given besides the working tree.

A scan of the whole working tree gets every STAT_CACHE entry and every recorded entry of `clone_root`;
a scan of one directory gets those at and below it (`readScoped`, `flattenTreeEntriesScoped`).  Strictly
below the directory both are given the same (`settings_agree`).

A tree object may not be in the local store.  `ls` then does without the recorded entries, `push` keeps
the entry of a tree that is not there and does not look into it.
-/
import Omemfs.Scan.Scope

namespace Omemfs.Scan

open Lib

/-- Entries by path. -/
abbrev PathMap (α : Type) := List (Path × α)

/-! ## Recorded entries -/

/-- Every entry below a tree whose object is `held`; `push` keeps those of the trees, too. -/
def flattenInto (forPush : Bool) (held : Tree → Bool) : Tree → Path → Option (PathMap TreeEntry)
  | .nil, _ => some []
  | .blob n b rest, pfx =>
      (flattenInto forPush held rest pfx).map fun l => (pfx ++ [n], .blob b) :: l
  | .symlink n x rest, pfx =>
      (flattenInto forPush held rest pfx).map fun l => (pfx ++ [n], .symlink x) :: l
  | .tree n t m rest, pfx =>
      (if held t then flattenInto forPush held t (pfx ++ [n])
        else if forPush then some [] else none).bind fun sub =>
      (flattenInto forPush held rest pfx).map fun l =>
        (if forPush then [(pfx ++ [n], .tree t m)] else []) ++ sub ++ l

def flattenRoot (forPush : Bool) (held : Tree → Bool) (root : Tree) : Option (PathMap TreeEntry) :=
  if held root then flattenInto forPush held root [] else none

/-- `navigate_entry` over the local store; `none` when an object cannot be loaded. -/
def navigateHeld (held : Tree → Bool) : Tree → Path → Option (Option TreeEntry)
  | _, [] => some none
  | t, [n] => if held t then some (t.find? n) else none
  | t, n :: m :: p =>
      if held t then
        match t.find? n with
        | some (.tree s _) => navigateHeld held s (m :: p)
        | some (.blob _) => none
        | some (.symlink _) => some none
        | none => some none
      else none

/-- The part of the recorded entries at and below a path. -/
def flattenScoped (forPush : Bool) (held : Tree → Bool) (root : Tree) (rel : Path) :
    Option (PathMap TreeEntry) :=
  (navigateHeld held root rel).bind fun found =>
  match found with
  | none => some []
  | some (.tree t m) =>
      (if held t then flattenInto forPush held t rel
        else if forPush then some [] else none).map fun sub =>
      (if forPush then [(rel, .tree t m)] else []) ++ sub
  | some e => some [(rel, e)]

def flattenTreeEntries (held : Tree → Bool) (root : Tree) : Option (PathMap TreeEntry) :=
  flattenRoot false held root

def flattenTreeEntriesForPush (held : Tree → Bool) (root : Tree) : Option (PathMap TreeEntry) :=
  flattenRoot true held root

def flattenTreeEntriesScoped (held : Tree → Bool) (root : Tree) (rel : Path) :
    Option (PathMap TreeEntry) :=
  flattenScoped false held root rel

def flattenTreeEntriesScopedForPush (held : Tree → Bool) (root : Tree) (rel : Path) :
    Option (PathMap TreeEntry) :=
  flattenScoped true held root rel

/-- The recorded entries directly in a directory. -/
def childrenIn (map : PathMap TreeEntry) (dir : Path) : List (String × TreeEntry) :=
  map.filterMap fun x =>
    if x.1.dropLast = dir then x.1.getLast?.map fun n => (n, x.2) else none

section Flatten

variable {forPush : Bool} {held : Tree → Bool}

/-- The entries of one name of a tree. -/
def flattenName (forPush : Bool) (held : Tree → Bool) (e : TreeEntry) (path : Path) :
    Option (PathMap TreeEntry) :=
  match e with
  | .tree t m =>
      (if held t then flattenInto forPush held t path
        else if forPush then some [] else none).map fun sub =>
      (if forPush then [(path, .tree t m)] else []) ++ sub
  | e => some [(path, e)]

theorem flattenInto_cons (n : String) (e : TreeEntry) (rest : Tree) (pfx : Path) :
    flattenInto forPush held (Tree.cons n e rest) pfx =
      (flattenName forPush held e (pfx ++ [n])).bind fun own =>
        (flattenInto forPush held rest pfx).map fun l => own ++ l := by
  cases e with
  | blob b => rfl
  | symlink l => rfl
  | tree t m =>
      rw [Tree.cons, flattenInto, flattenName]
      generalize (if held t = true then flattenInto forPush held t (pfx ++ [n])
        else if forPush = true then some [] else none) = sub
      cases sub <;> rfl

theorem flattenScoped_eq (root : Tree) (rel : Path) :
    flattenScoped forPush held root rel = (navigateHeld held root rel).bind fun found =>
      match found with
      | none => some []
      | some e => flattenName forPush held e rel := by
  unfold flattenScoped flattenName
  congr 1
  funext found
  rcases found with - | (b | ⟨t, m⟩ | l) <;> rfl

/-- What is flattened lies in the directory it is flattened at. -/
theorem flattenInto_paths {t : Tree} {pfx : Path} {l : PathMap TreeEntry}
    (h : flattenInto forPush held t pfx = some l) : ∀ x ∈ l, ∃ n ∈ t.names, pfx ++ [n] <+: x.1 := by
  induction t using Tree.induction_cons generalizing pfx l with
  | nil =>
      cases h
      exact fun x hx => (nomatch hx)
  | cons n e rest ihe ihr =>
      rw [flattenInto_cons] at h
      obtain ⟨own, hown, h⟩ := Option.bind_eq_some_iff.mp h
      obtain ⟨after, hafter, rfl⟩ := Option.map_eq_some_iff.mp h
      have hname : ∀ x ∈ own, pfx ++ [n] <+: x.1 := by
        intro x hx
        cases e with
        | blob b =>
            cases hown
            simp_all
        | symlink l =>
            cases hown
            simp_all
        | tree t m =>
            obtain ⟨sub, hsub, rfl⟩ := Option.map_eq_some_iff.mp hown
            rcases List.mem_append.mp hx with hx | hx
            · split_ifs at hx with hp
              · rw [List.mem_singleton.mp hx]
              · cases hx
            · split_ifs at hsub
              · obtain ⟨m, -, hm⟩ := ihe hsub x hx
                exact (List.prefix_append _ _).trans hm
              · cases hsub
                cases hx
      intro x hx
      simp only [Tree.names, Tree.entries_cons, List.map_cons, List.mem_cons]
      rcases List.mem_append.mp hx with hx | hx
      · exact ⟨n, .inl rfl, hname x hx⟩
      · obtain ⟨m, hm, hx⟩ := ihr hafter x hx
        exact ⟨m, .inr hm, hx⟩

theorem flattenName_paths {e : TreeEntry} {path : Path} {l : PathMap TreeEntry}
    (h : flattenName forPush held e path = some l) : ∀ x ∈ l, path <+: x.1 := by
  unfold flattenName at h
  cases e with
  | blob b =>
      cases h
      simp
  | symlink l =>
      cases h
      simp
  | tree t m =>
      obtain ⟨sub, hsub, rfl⟩ := Option.map_eq_some_iff.mp h
      refine List.forall_mem_append.mpr ⟨?_, fun x hx => ?_⟩
      · split_ifs <;> simp
      · split_ifs at hsub
        · obtain ⟨m, -, hm⟩ := flattenInto_paths hsub x hx
          exact (List.prefix_append _ _).trans hm
        · cases hsub
          cases hx

theorem belowIn_eq_nil {α : Type} {d p : Path} {l : PathMap α} (h : ∀ x ∈ l, p <+: x.1)
    (hno : ∀ q, p <+: q → ¬ Below d q) : belowIn d l = [] :=
  List.filter_eq_nil_iff.mpr fun x hx => by simpa using hno x.1 (h x hx)

/-- **`belowIn_flattenInto`** — below a name, a flattened tree has what flattening that name gives. -/
theorem belowIn_flattenInto {t : Tree} (hwf : t.Wf) {pfx d : Path} {n : String}
    (hd : pfx ++ [n] <+: d) {l : PathMap TreeEntry} (h : flattenInto forPush held t pfx = some l) :
    match t.find? n with
    | none => belowIn d l = []
    | some e => ∃ own, flattenName forPush held e (pfx ++ [n]) = some own ∧
        belowIn d l = belowIn d own := by
  have hother : ∀ {m : String} {own : PathMap TreeEntry}, m ≠ n →
      (∀ x ∈ own, pfx ++ [m] <+: x.1) → belowIn d own = [] := by
    intro m own hne hown
    exact belowIn_eq_nil hown fun q hq hb => hne (concat_prefix_inj hq (hd.trans hb.1))
  induction t using Tree.induction_cons generalizing l with
  | nil =>
      cases h
      rfl
  | cons m e rest _ ih =>
      obtain ⟨hm, he, hrest⟩ := Tree.wf_cons.mp hwf
      rw [flattenInto_cons] at h
      obtain ⟨own, hown, h⟩ := Option.bind_eq_some_iff.mp h
      obtain ⟨after, hafter, rfl⟩ := Option.map_eq_some_iff.mp h
      rw [Tree.find?_cons]
      by_cases hn : n = m
      · subst hn
        have hnone : belowIn d after = [] := by
          refine List.filter_eq_nil_iff.mpr fun x hx => ?_
          obtain ⟨k, hk, hkx⟩ := flattenInto_paths hafter x hx
          have hkn : k ≠ n := fun hkn => hm (hkn ▸ hk)
          simpa using fun hb : Below d x.1 => hkn (concat_prefix_inj hkx (hd.trans hb.1))
        rw [if_pos rfl]
        exact ⟨own, hown, by rw [belowIn_append, hnone, List.append_nil]⟩
      · rw [if_neg hn]
        have hnone := hother (Ne.symm hn) (flattenName_paths hown)
        have hrec := ih hrest hafter
        rw [belowIn_append, hnone, List.nil_append]
        exact hrec

/-- **`belowIn_flattenScoped`** — below a path, the scoped entries are those of the whole. -/
theorem belowIn_flattenScoped {t : Tree} (hwf : t.Wf) (hheld : held t = true) {pfx d : Path}
    (hd : d ≠ []) {l : PathMap TreeEntry} (h : flattenInto forPush held t pfx = some l) :
    belowIn (pfx ++ d) l = belowIn (pfx ++ d) (((navigateHeld held t d).bind fun found =>
      match found with
      | none => some []
      | some e => flattenName forPush held e (pfx ++ d)).getD []) := by
  induction d generalizing t pfx l with
  | nil => exact absurd rfl hd
  | cons n d ih =>
      have hpre : pfx ++ [n] <+: pfx ++ n :: d := by simp
      have hlevel := belowIn_flattenInto hwf hpre h
      cases d with
      | nil =>
          rw [navigateHeld, if_pos hheld]
          cases hf : t.find? n with
          | none =>
              rw [hf] at hlevel
              exact hlevel
          | some e =>
              rw [hf] at hlevel
              obtain ⟨own, hown, heq⟩ := hlevel
              rw [heq]
              show _ = belowIn _ ((flattenName forPush held e (pfx ++ [n])).getD [])
              rw [hown]
              rfl
      | cons m d =>
          rw [navigateHeld, if_pos hheld]
          cases hf : t.find? n with
          | none =>
              rw [hf] at hlevel
              exact hlevel
          | some e =>
              rw [hf] at hlevel
              obtain ⟨own, hown, heq⟩ := hlevel
              rw [heq]
              -- nothing is recorded below a leaf
              have hleaf : ∀ e' : TreeEntry, belowIn (pfx ++ n :: m :: d) [(pfx ++ [n], e')] = [] := by
                intro e'
                refine List.filter_eq_nil_iff.mpr fun x hx => ?_
                rw [List.mem_singleton.mp hx]
                have hlen : ¬ pfx ++ n :: m :: d <+: pfx ++ [n] := fun h => by
                  simpa using h.length_le
                simpa using fun hb : Below _ (pfx ++ [n]) => hlen hb.1
              cases e with
              | blob b =>
                  cases hown
                  exact hleaf _
              | symlink x =>
                  cases hown
                  exact hleaf _
              | tree s k =>
                  obtain ⟨sub, hsub, rfl⟩ := Option.map_eq_some_iff.mp hown
                  have htree : belowIn (pfx ++ n :: m :: d)
                      (if forPush then [(pfx ++ [n], TreeEntry.tree s k)] else []) = [] := by
                    split_ifs
                    · exact hleaf _
                    · rfl
                  rw [belowIn_append, htree, List.nil_append]
                  have hassoc : pfx ++ n :: m :: d = pfx ++ [n] ++ m :: d := by simp
                  cases hs : held s with
                  | true =>
                      rw [hs, if_pos rfl] at hsub
                      rw [hassoc]
                      exact ih (hwf.of_find? hf) hs (List.cons_ne_nil _ _) hsub
                  | false =>
                      rw [hs, if_neg Bool.false_ne_true] at hsub
                      have hnil : sub = [] := by
                        split_ifs at hsub
                        exact (Option.some.inj hsub).symm
                      have hnav : navigateHeld held s (m :: d) = none := by
                        cases d <;> simp [navigateHeld, hs]
                      show _ = belowIn _ (((navigateHeld held s (m :: d)).bind _).getD [])
                      rw [hnil, hnav]
                      rfl

end Flatten

/-! ## The STAT_CACHE -/

/-- The entries at and below the scope. -/
def readScoped (cache : PathMap StatCacheEntry) (scope : Path) : PathMap StatCacheEntry :=
  cache.filter fun x => scope <+: x.1

/-! ## What a scan is given -/

/-- What does not depend on the scope. -/
structure ScanEnv where
  now : Time
  writeBlobs : Bool
  tolerateUnresolvedStubs : Bool
  sealsTrusted : Bool
  blobFullyCached : Hash → Bool
  loadRecorded : Tree → Except ScanError Unit
  treeHash : Tree → Hash

def scanConfig (env : ScanEnv) (filters : FilterSet) (cache : PathMap StatCacheEntry)
    (map : PathMap TreeEntry) : ScanConfig where
  isIgnored := filters.isIgnored
  previous := fun path => map.lookup path
  childrenOf := childrenIn map
  fileJob := fun path =>
    { writeBlobs := env.writeBlobs
      now := env.now
      statCache := cache.lookup path
      sealsTrusted := env.sealsTrusted
      cloneRootEntry := map.lookup path
      blobFullyCached := env.blobFullyCached }
  writeBlobs := env.writeBlobs
  tolerateUnresolvedStubs := env.tolerateUnresolvedStubs
  loadRecorded := env.loadRecorded
  treeHash := env.treeHash

theorem lookup_filter_of {α : Type} (p : Path → Bool) {q : Path} (hq : p q = true)
    (l : PathMap α) : (l.filter fun x => p x.1).lookup q = l.lookup q := by
  induction l with
  | nil => rfl
  | cons x l ih =>
      obtain ⟨k, v⟩ := x
      rw [List.filter_cons]
      by_cases hk : q = k
      · subst hk
        simp [hq]
      · have hne : (q == k) = false := by simpa using hk
        rw [List.lookup_cons, hne]
        split_ifs
        · rw [List.lookup_cons, hne]
          exact ih
        · exact ih

theorem lookup_belowIn {α : Type} {d q : Path} (hq : Below d q) (l : PathMap α) :
    (belowIn d l).lookup q = l.lookup q :=
  lookup_filter_of (fun q => decide (Below d q)) (decide_eq_true hq) l

theorem lookup_readScoped {d q : Path} (hq : d <+: q) (cache : PathMap StatCacheEntry) :
    (readScoped cache d).lookup q = cache.lookup q :=
  lookup_filter_of (fun q => decide (d <+: q)) (decide_eq_true hq) cache

theorem childrenIn_belowIn {d q : Path} (hq : d <+: q) (map : PathMap TreeEntry) :
    childrenIn (belowIn d map) q = childrenIn map q := by
  unfold childrenIn belowIn
  rw [List.filterMap_filter]
  congr 1
  funext x
  by_cases hb : Below d x.1
  · simp [hb]
  · rw [if_neg (by simpa using hb)]
    split_ifs with hx
    · rcases List.eq_nil_or_concat x.1 with hnil | ⟨p, n, hp⟩
      · simp [hnil]
      · refine absurd ?_ hb
        have hpq : p = q := by simpa [hp] using hx
        rw [hp, hpq, List.concat_eq_append]
        exact (below_concat q n).of_above hq
    · rfl

/-- **`settings_agree`** — below a directory, its own settings are those of the whole. -/
theorem settings_agree {env : ScanEnv} {filters filters' : FilterSet}
    {cache : PathMap StatCacheEntry} {map map' : PathMap TreeEntry} {d : Path}
    (hfilters : ∀ q, Below d q → filters'.isIgnored q = filters.isIgnored q)
    (hmap : belowIn d map = belowIn d map') :
    AgreeBelow d (scanConfig env filters cache map)
      (scanConfig env filters' (readScoped cache d) map') := by
  have hlookup : ∀ q, Below d q → map.lookup q = map'.lookup q := fun q hq => by
    rw [← lookup_belowIn hq, hmap, lookup_belowIn hq]
  refine ⟨fun q hq => (hfilters q hq).symm, hlookup, fun q hq => ?_, fun q hq => ?_, rfl, rfl, rfl, rfl⟩
  · show childrenIn map q = childrenIn map' q
    rw [← childrenIn_belowIn hq, hmap, childrenIn_belowIn hq]
  · simp only [scanConfig, hlookup q hq, lookup_readScoped hq.1]

end Omemfs.Scan
