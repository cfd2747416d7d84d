/-
# Omemfs.Ls.Remote — what `ls` compares with the remote.

A walk of the remote's tree beside the clone root's.  A directory of the clone root whose tree object is
not in the local store is taken for an empty one.  Directories are entered with a slash after their path,
everything else without, and what the remote no longer has is entered without, whatever it was:
`mem_remoteDiff` says what is entered for a path.
-/
import Omemfs.Ls.Listed

namespace Omemfs.Ls

open Omemfs Sync

/-! ## The walk -/

/-- What differs at the remote. -/
structure RemoteRow where
  path : Path
  /-- entered with a slash at its end -/
  slash : Bool
  mark : Mark
  /-- what the remote has -/
  entry : Option TreeEntry

/-- An entry, if its path is in scope. -/
def insertRemote (scope : ScopeFilter) (p : Path) (slash : Bool) (entry : Option TreeEntry) :
    Option Mark → List RemoteRow
  | some m => if scope.inScope p then [⟨p, slash, m, entry⟩] else []
  | none => []

def remoteBlobMark (x : Blob) : Option TreeEntry → Option Mark
  | some (.blob y) => if y.hash ≠ x.hash ∨ y.mode ≠ x.mode then some .modified else none
  | some _ => some .modified
  | none => some .added

def remoteSymlinkMark (x : Symlink) : Option TreeEntry → Option Mark
  | some (.symlink y) => if y.target ≠ x.target then some .modified else none
  | some _ => some .modified
  | none => some .added

def remoteDirMark (cloneEntry : Option TreeEntry) : Mark :=
  if cloneEntry.isNone then .added else .modified

/-- The entries of a directory of the clone root; `cached` is whether its tree object is in the local
store when the walk gets there. -/
def cloneEntries (cached : Path → Bool) (clone : Option Tree) (p : Path) : Tree :=
  if cached p then clone.getD .nil else .nil

/-- Names that the remote does not have. -/
def remoteGone (scope : ScopeFilter) (remoteNames : List String) (clone : Tree) (pfx : Path) :
    List RemoteRow :=
  (clone.names.filter fun n => n ∉ remoteNames).flatMap fun n =>
    insertRemote scope (pfx ++ [n]) false none (some .deleted)

/-- The loop over the remote's entries. -/
def remoteTarget (cached : Path → Bool) (scope : ScopeFilter) (clone : Tree) :
    Tree → Path → List RemoteRow
  | .nil, _ => []
  | .blob n x rest, pfx =>
      insertRemote scope (pfx ++ [n]) false (some (.blob x)) (remoteBlobMark x (clone.find? n)) ++
        remoteTarget cached scope clone rest pfx
  | .tree n t m rest, pfx =>
      let cloneEntry := clone.find? n
      let cloneChild := baseTreeOf cloneEntry
      (if cloneChild = some t then []
        else if scope.shouldDescend (pfx ++ [n]) then
          insertRemote scope (pfx ++ [n]) true (some (.tree t m)) (some (remoteDirMark cloneEntry)) ++
            (remoteTarget cached scope (cloneEntries cached cloneChild (pfx ++ [n])) t (pfx ++ [n]) ++
              remoteGone scope t.names (cloneEntries cached cloneChild (pfx ++ [n])) (pfx ++ [n]))
        else []) ++ remoteTarget cached scope clone rest pfx
  | .symlink n x rest, pfx =>
      insertRemote scope (pfx ++ [n]) false (some (.symlink x))
          (remoteSymlinkMark x (clone.find? n)) ++
        remoteTarget cached scope clone rest pfx

/-- Equal trees are not descended into. -/
def remoteDiffRecursive (cached : Path → Bool) (scope : ScopeFilter) (clone : Option Tree)
    (remote : Tree) (pfx : Path) : List RemoteRow :=
  if clone = some remote then []
  else
    remoteTarget cached scope (cloneEntries cached clone pfx) remote pfx ++
      remoteGone scope remote.names (cloneEntries cached clone pfx) pfx

/-- `added_entries` is what has been entered as added. -/
def RemoteRow.news (x : RemoteRow) : Option ((Path × Bool) × TreeEntry) :=
  if x.mark = .added then x.entry.map fun e => ((x.path, x.slash), e) else none

def fetchRemoteStatusMap (cached : Path → Bool) (clone remote : Tree) (scope : ScopeFilter) :
    RemoteChanges :=
  if remote = clone then .none
  else
    let rows := remoteDiffRecursive cached scope (some clone) remote []
    ⟨rows.map fun x => ((x.path, x.slash), x.mark), rows.filterMap RemoteRow.news⟩

/-! ## What is entered for one path -/

/-- The entry for these two, by what the clone root is taken to have. -/
def remoteMarkOf (b : Option TreeEntry) : Option TreeEntry → Option (Bool × Mark)
  | some (.blob x) => (remoteBlobMark x b).map fun m => (false, m)
  | some (.symlink x) => (remoteSymlinkMark x b).map fun m => (false, m)
  | some (.tree t _) => if baseTreeOf b = some t then none else some (true, remoteDirMark b)
  | none => if b.isSome then some (false, .deleted) else none

theorem remoteMarkOf_self (b : Option TreeEntry) : remoteMarkOf b b = none := by
  cases b with
  | none => rfl
  | some e => cases e <;> simp [remoteMarkOf, remoteBlobMark, remoteSymlinkMark, baseTreeOf]

/-- The walk enters the row, somewhere below a directory whose entries these are. -/
def Entered (cached : Path → Bool) : Tree → Tree → Path → Path → RemoteRow → Prop
  | _, _, _, [], _ => False
  | clone, remote, _, [n], x =>
      remoteMarkOf (clone.find? n) (remote.find? n) = some (x.slash, x.mark) ∧
        x.entry = remote.find? n
  | clone, remote, pfx, n :: m :: r, x =>
      ∃ t k, remote.find? n = some (.tree t k) ∧ baseTreeOf (clone.find? n) ≠ some t ∧
        Entered cached (cloneEntries cached (baseTreeOf (clone.find? n)) (pfx ++ [n])) t (pfx ++ [n])
          (m :: r) x

variable {cached : Path → Bool} {scope : ScopeFilter}

theorem mem_insertRemote {p : Path} {slash : Bool} {entry : Option TreeEntry} {o : Option Mark}
    {x : RemoteRow} : x ∈ insertRemote scope p slash entry o ↔
      scope.inScope p = true ∧ x.path = p ∧ x.entry = entry ∧
        (o.map fun m => (slash, m)) = some (x.slash, x.mark) := by
  obtain ⟨q, s, m, e⟩ := x
  cases o with
  | none => simp [insertRemote]
  | some a =>
      unfold insertRemote
      split_ifs with h
      · simp only [List.mem_singleton, RemoteRow.mk.injEq, Option.map_some, Option.some.injEq,
          Prod.mk.injEq, h, true_and]
        tauto
      · simp [h]

theorem mem_remoteGone {names : List String} {clone : Tree} {pfx : Path} {x : RemoteRow} :
    x ∈ remoteGone scope names clone pfx ↔ scope.inScope x.path = true ∧
      ∃ n, n ∉ names ∧ x.path = pfx ++ [n] ∧ clone.find? n ≠ none ∧ x.slash = false ∧
        x.mark = .deleted ∧ x.entry = none := by
  unfold remoteGone
  simp only [List.mem_flatMap, List.mem_filter, decide_eq_true_eq, mem_insertRemote,
    Option.map_some, Option.some.injEq, Prod.mk.injEq, ne_eq, Tree.find?_eq_none_iff, not_not]
  constructor
  · rintro ⟨n, ⟨hn, hgone⟩, hin, hp, he, hs, hm⟩
    exact ⟨hp ▸ hin, n, hgone, hp, hn, hs.symm, hm.symm, he⟩
  · rintro ⟨hin, n, hgone, hp, hn, hs, hm, he⟩
    exact ⟨n, ⟨hn, hgone⟩, hp ▸ hin, hp, he, hs.symm, hm.symm⟩

/-- What the loop does with one entry of the remote. -/
def remoteEntryRows (cached : Path → Bool) (scope : ScopeFilter) (b : Option TreeEntry)
    (e : TreeEntry) (p : Path) : List RemoteRow :=
  match e with
  | .blob x => insertRemote scope p false (some (.blob x)) (remoteBlobMark x b)
  | .symlink x => insertRemote scope p false (some (.symlink x)) (remoteSymlinkMark x b)
  | .tree t m =>
      if baseTreeOf b = some t then []
      else if scope.shouldDescend p then
        insertRemote scope p true (some (.tree t m)) (some (remoteDirMark b)) ++
          (remoteTarget cached scope (cloneEntries cached (baseTreeOf b) p) t p ++
            remoteGone scope t.names (cloneEntries cached (baseTreeOf b) p) p)
      else []

theorem remoteTarget_cons (clone : Tree) (n : String) (e : TreeEntry) (rest : Tree) (pfx : Path) :
    remoteTarget cached scope clone (.cons n e rest) pfx =
      remoteEntryRows cached scope (clone.find? n) e (pfx ++ [n]) ++
        remoteTarget cached scope clone rest pfx := by
  cases e <;> rfl

/-- What the walk of `t` enters, by whatever entries of the clone root. -/
def EnteredSpec (cached : Path → Bool) (scope : ScopeFilter) (t : Tree) : Prop :=
  ∀ (clone : Tree) (pfx : Path) (x : RemoteRow), x ∈ remoteTarget cached scope clone t pfx ↔
    scope.inScope x.path = true ∧ ∃ n r, n ∈ t.names ∧ x.path = pfx ++ n :: r ∧
      Entered cached clone t pfx (n :: r) x

/-- Both passes together. -/
theorem mem_both_of_spec {t : Tree} (hspec : EnteredSpec cached scope t) {clone : Tree} {pfx : Path}
    {x : RemoteRow} :
    x ∈ remoteTarget cached scope clone t pfx ++ remoteGone scope t.names clone pfx ↔
      scope.inScope x.path = true ∧
        ∃ n r, x.path = pfx ++ n :: r ∧ Entered cached clone t pfx (n :: r) x := by
  rw [List.mem_append, hspec, mem_remoteGone]
  constructor
  · rintro (⟨hin, n, r, -, hp, hent⟩ | ⟨hin, n, hn, hp, hc, hs, hm, he⟩)
    · exact ⟨hin, n, r, hp, hent⟩
    · have hnone := Tree.find?_eq_none_iff.mpr hn
      refine ⟨hin, n, [], hp, ?_, he.trans hnone.symm⟩
      rw [hnone, remoteMarkOf, if_pos (Option.isSome_iff_ne_none.mpr hc), hs, hm]
  · rintro ⟨hin, n, r, hp, hent⟩
    by_cases hn : n ∈ t.names
    · exact .inl ⟨hin, n, r, hn, hp, hent⟩
    · have hnone := Tree.find?_eq_none_iff.mpr hn
      cases r with
      | cons m r =>
          obtain ⟨s, k, hs, -⟩ := hent
          rw [hnone] at hs
          cases hs
      | nil =>
          obtain ⟨hmark, he⟩ := hent
          rw [hnone, remoteMarkOf] at hmark
          split_ifs at hmark with hc
          obtain ⟨hs, hm⟩ := Prod.mk.inj (Option.some.inj hmark)
          exact .inr ⟨hin, n, hn, hp, Option.isSome_iff_ne_none.mp hc, hs.symm, hm.symm,
            he.trans hnone⟩

theorem mem_remoteEntryRows {b : Option TreeEntry} {e : TreeEntry}
    (hspec : EnteredSpec cached scope e.children) {p : Path} {x : RemoteRow} :
    x ∈ remoteEntryRows cached scope b e p ↔ scope.inScope x.path = true ∧
      ((x.path = p ∧ remoteMarkOf b (some e) = some (x.slash, x.mark) ∧ x.entry = some e) ∨
        ∃ n r t k, x.path = p ++ n :: r ∧ e = .tree t k ∧ baseTreeOf b ≠ some t ∧
          Entered cached (cloneEntries cached (baseTreeOf b) p) t p (n :: r) x) := by
  have hone : ∀ slash (o : Option Mark), x ∈ insertRemote scope p slash (some e) o ↔
      scope.inScope x.path = true ∧
        (x.path = p ∧ (o.map fun m => (slash, m)) = some (x.slash, x.mark) ∧ x.entry = some e) := by
    intro slash o
    rw [mem_insertRemote]
    constructor
    · rintro ⟨hin, rfl, he, ho⟩
      exact ⟨hin, rfl, ho, he⟩
    · rintro ⟨hin, rfl, ho, he⟩
      exact ⟨hin, rfl, he, ho⟩
  cases e with
  | blob y => simp [remoteEntryRows, hone, remoteMarkOf]
  | symlink y => simp [remoteEntryRows, hone, remoteMarkOf]
  | tree t k =>
      have hbelow := @mem_both_of_spec cached scope t hspec
        (cloneEntries cached (baseTreeOf b) p) p x
      by_cases heq : baseTreeOf b = some t
      · have hno : remoteEntryRows cached scope b (.tree t k) p = [] := if_pos heq
        rw [hno]
        refine iff_of_false nofun ?_
        rintro ⟨-, ⟨-, hmark, -⟩ | ⟨n, r, t', k', -, htree, hne, -⟩⟩
        · rw [remoteMarkOf, if_pos heq] at hmark
          cases hmark
        · cases htree
          exact hne heq
      · have hrow : remoteMarkOf b (some (.tree t k)) = some (true, remoteDirMark b) := if_neg heq
        have hunfold : remoteEntryRows cached scope b (.tree t k) p =
            if scope.shouldDescend p then
              insertRemote scope p true (some (.tree t k)) (some (remoteDirMark b)) ++
                (remoteTarget cached scope (cloneEntries cached (baseTreeOf b) p) t p ++
                  remoteGone scope t.names (cloneEntries cached (baseTreeOf b) p) p)
            else [] := if_neg heq
        rw [hunfold]
        constructor
        · intro hmem
          split_ifs at hmem with hdescend
          · rcases List.mem_append.mp hmem with hself | hmem
            · obtain ⟨hin, hp, hmark, he⟩ := (hone _ _).mp hself
              exact ⟨hin, .inl ⟨hp, hrow.trans hmark, he⟩⟩
            · obtain ⟨hin, n, r, hp, hent⟩ := hbelow.mp hmem
              exact ⟨hin, .inr ⟨n, r, t, k, hp, rfl, heq, hent⟩⟩
          · cases hmem
        · rintro ⟨hin, ⟨hp, hmark, he⟩ | ⟨n, r, t', k', hp, htree, -, hent⟩⟩
          · have hdescend : scope.shouldDescend p = true := by
              refine ScopeFilter.shouldDescend_of_inScope (r := []) ?_
              rwa [List.append_nil, ← hp]
            rw [if_pos hdescend]
            exact List.mem_append_left _ ((hone _ _).mpr ⟨hin, hp, hrow.symm.trans hmark, he⟩)
          · cases htree
            have hdescend : scope.shouldDescend p = true :=
              ScopeFilter.shouldDescend_of_inScope (hp ▸ hin)
            rw [if_pos hdescend]
            exact List.mem_append_right _ (hbelow.mpr ⟨hin, n, r, hp, hent⟩)

theorem enteredSpec (cached : Path → Bool) (scope : ScopeFilter) (t : Tree) (ht : t.Wf) :
    EnteredSpec cached scope t := by
  induction t using Tree.induction_cons with
  | nil => intro clone pfx x; simp [remoteTarget, Tree.names, Tree.entries]
  | cons a e rest ihe ih =>
      obtain ⟨ha, hwe, hwr⟩ := Tree.wf_cons.mp ht
      intro clone pfx x
      have hfind : (Tree.cons a e rest).find? a = some e := by rw [Tree.find?_cons, if_pos rfl]
      have hrest : ∀ n r, n ∈ rest.names →
          (Entered cached clone (Tree.cons a e rest) pfx (n :: r) x ↔
            Entered cached clone rest pfx (n :: r) x) := by
        intro n r hn
        have hne : n ≠ a := fun h => ha (h ▸ hn)
        have hf : (Tree.cons a e rest).find? n = rest.find? n := by rw [Tree.find?_cons, if_neg hne]
        cases r <;> simp only [Entered, hf]
      rw [remoteTarget_cons, List.mem_append, mem_remoteEntryRows (ihe hwe.children), ih hwr clone]
      constructor
      · rintro (⟨hin, ⟨hp, hmark, he⟩ | ⟨n, r, t, k, hp, rfl, hne, hent⟩⟩ | ⟨hin, n, r, hn, hp, hent⟩)
        · exact ⟨hin, a, [], by simp [Tree.names], hp, by rw [hfind]; exact hmark,
            by rw [hfind]; exact he⟩
        · exact ⟨hin, a, n :: r, by simp [Tree.names], by rw [hp]; simp, t, k, hfind, hne, hent⟩
        · refine ⟨hin, n, r, ?_, hp, (hrest n r hn).mpr hent⟩
          rw [Tree.names, Tree.entries_cons]
          exact List.mem_cons_of_mem _ hn
      · rintro ⟨hin, n, r, hn, hp, hent⟩
        by_cases hna : n = a
        · subst hna
          refine .inl ⟨hin, ?_⟩
          cases r with
          | nil =>
              obtain ⟨hmark, he⟩ := hent
              rw [hfind] at hmark he
              exact .inl ⟨hp, hmark, he⟩
          | cons m r =>
              obtain ⟨t, k, ht, hne, hent⟩ := hent
              rw [hfind] at ht
              exact .inr ⟨m, r, t, k, by rw [hp]; simp, Option.some.inj ht, hne, hent⟩
        · have hn' : n ∈ rest.names := by
            rw [Tree.names, Tree.entries_cons, List.map_cons, List.mem_cons] at hn
            exact hn.resolve_left hna
          exact .inr ⟨hin, n, r, hn', hp, (hrest n r hn').mp hent⟩

/-! ## By the two roots -/

/-- The path lies below a directory that has changed at the remote and whose tree object is not in the
local store. -/
def Hidden (cached : Path → Bool) (C R : Tree) (q : Path) : Prop :=
  ∃ a n r, q = a ++ n :: r ∧ cached a = false ∧
    ∃ t m t' m', C.at a = some (.tree t m) ∧ R.at a = some (.tree t' m') ∧ t ≠ t'

open Classical in
/-- What the walk takes the clone root to have at the path. -/
noncomputable def known (cached : Path → Bool) (C R : Tree) (q : Path) : Option TreeEntry :=
  if Hidden cached C R q then none else C.at q

variable {C R : Tree} {p q : Path} {n : String}

theorem known_of_hidden (h : Hidden cached C R q) : known cached C R q = none := if_pos h

theorem known_of_not_hidden (h : ¬ Hidden cached C R q) : known cached C R q = C.at q := if_neg h

theorem known_of_none (h : C.at q = none) : known cached C R q = none := by
  by_cases hq : Hidden cached C R q
  · exact known_of_hidden hq
  · rw [known_of_not_hidden hq, h]

theorem hidden_snoc : Hidden cached C R (p ++ [n]) ↔ Hidden cached C R p ∨
    (cached p = false ∧
      ∃ t m t' m', C.at p = some (.tree t m) ∧ R.at p = some (.tree t' m') ∧ t ≠ t') := by
  constructor
  · rintro ⟨a, k, r, heq, hc, hdirs⟩
    rcases List.eq_nil_or_concat r with rfl | ⟨r', x, rfl⟩
    · obtain ⟨rfl, -⟩ := List.append_inj' heq rfl
      exact .inr ⟨hc, hdirs⟩
    · have hsplit : p = a ++ k :: r' := by
        have heq' : p ++ [n] = (a ++ k :: r') ++ [x] := by rw [heq]; simp
        exact (List.append_inj' heq' rfl).1
      exact .inl ⟨a, k, r', hsplit, hc, hdirs⟩
  · rintro (⟨a, k, r, rfl, hc, hdirs⟩ | ⟨hc, hdirs⟩)
    · exact ⟨a, k, r ++ [n], by simp, hc, hdirs⟩
    · exact ⟨p, n, [], rfl, hc, hdirs⟩

theorem hidden_append {r : Path} (h : Hidden cached C R p) : Hidden cached C R (p ++ r) := by
  obtain ⟨a, k, r', rfl, hc, hdirs⟩ := h
  exact ⟨a, k, r' ++ r, by simp, hc, hdirs⟩

/-- The entries that the walk takes a directory of the clone root to have. -/
theorem find?_cloneEntries {t : Tree} {m : TreeMeta} (hR : R.at p = some (.tree t m))
    (hne : baseTreeOf (known cached C R p) ≠ some t) (k : String) :
    (cloneEntries cached (baseTreeOf (known cached C R p)) p).find? k =
      known cached C R (p ++ [k]) := by
  have hnil : ∀ b : Bool, (if b then ((none : Option Tree).getD .nil) else .nil).find? k = none := by
    intro b
    cases b <;> rfl
  unfold cloneEntries
  by_cases hp : Hidden cached C R p
  · rw [known_of_hidden hp, known_of_hidden (hidden_append hp)]
    exact hnil _
  · rw [known_of_not_hidden hp] at hne ⊢
    have hsnoc := @hidden_snoc cached C R p k
    cases hC : C.at p with
    | none =>
        rw [known_of_none (by rw [Tree.at_append, hC]; rfl)]
        exact hnil _
    | some e =>
        cases e with
        | blob b =>
            rw [known_of_none (at_below_none (by
              rintro ⟨u, j, hu⟩
              rw [hC] at hu
              cases hu) k [])]
            exact hnil _
        | symlink b =>
            rw [known_of_none (at_below_none (by
              rintro ⟨u, j, hu⟩
              rw [hC] at hu
              cases hu) k [])]
            exact hnil _
        | tree u j =>
            rw [hC] at hne
            have hdirs : ∃ t m t' m', C.at p = some (.tree t m) ∧ R.at p = some (.tree t' m') ∧
                t ≠ t' := ⟨u, j, t, m, hC, hR, fun heq => hne (congrArg some heq)⟩
            cases hc : cached p with
            | false =>
                rw [known_of_hidden (hsnoc.mpr (.inr ⟨hc, hdirs⟩))]
                rfl
            | true =>
                rw [known_of_not_hidden fun hk => ?_]
                · rw [Tree.at_append, hC]
                  exact (Tree.at_singleton u k).symm
                · rcases hsnoc.mp hk with hk | ⟨hk, -⟩
                  · exact hp hk
                  · rw [hc] at hk
                    cases hk

/-- Below equal directories nothing differs. -/
theorem remoteMarkOf_below {t : Tree} {m m' : TreeMeta} (hC : C.at p = some (.tree t m))
    (hR : R.at p = some (.tree t m')) (hp : ¬ Hidden cached C R p) (r : Path) :
    remoteMarkOf (known cached C R (p ++ n :: r)) (R.at (p ++ n :: r)) = none := by
  have hsame : ∀ r : Path, r ≠ [] → C.at (p ++ r) = R.at (p ++ r) := by
    intro r hr
    obtain ⟨k, r, rfl⟩ := List.exists_cons_of_ne_nil hr
    rw [Tree.at_append, Tree.at_append, hC, hR]
    rfl
  have hno : ¬ Hidden cached C R (p ++ n :: r) := by
    rintro ⟨a, k, r', heq, hc, u, j, u', j', hCa, hRa, hne⟩
    rcases List.prefix_or_prefix_of_prefix (⟨k :: r', heq.symm⟩ : a <+: p ++ n :: r)
      (List.prefix_append p (n :: r)) with hap | hpa
    · obtain ⟨b, rfl⟩ := hap
      cases b with
      | nil =>
          rw [List.append_nil] at hC hR
          rw [hCa] at hC
          rw [hRa] at hR
          cases hC
          cases hR
          exact hne rfl
      | cons x b => exact hp ⟨a, x, b, rfl, hc, u, j, u', j', hCa, hRa, hne⟩
    · obtain ⟨b, rfl⟩ := hpa
      cases b with
      | nil =>
          rw [List.append_nil] at hCa hRa
          rw [hC] at hCa
          rw [hR] at hRa
          cases hCa
          cases hRa
          exact hne rfl
      | cons x b =>
          have heq := hsame (x :: b) (List.cons_ne_nil x b)
          rw [hCa, hRa] at heq
          cases heq
          exact hne rfl
  rw [known_of_not_hidden hno, hsame (n :: r) (List.cons_ne_nil n r), remoteMarkOf_self]

/-- The remote has a directory that the path is in. -/
def InDir (R : Tree) (q : Path) : Prop := ∃ p n, q = p ++ [n] ∧ IsDir R p

theorem inDir_of_at {e : TreeEntry} (h : R.at q = some e) (hq : q ≠ []) : InDir R q := by
  rcases List.eq_nil_or_concat q with rfl | ⟨p, n, rfl⟩
  · exact absurd rfl hq
  · rw [List.concat_eq_append] at h ⊢
    exact ⟨p, n, rfl, Tree.isTree_of_at_append (List.cons_ne_nil n []) (by rw [h]; exact nofun)⟩

theorem entered_iff {r : Path} {clone t : Tree} {m : TreeMeta} {x : RemoteRow}
    (hR : R.at p = some (.tree t m)) (hclone : ∀ k, clone.find? k = known cached C R (p ++ [k]))
    (hr : r ≠ []) : Entered cached clone t p r x ↔ InDir R (p ++ r) ∧
      remoteMarkOf (known cached C R (p ++ r)) (R.at (p ++ r)) = some (x.slash, x.mark) ∧
        x.entry = R.at (p ++ r) := by
  have hfind : ∀ k, t.find? k = R.at (p ++ [k]) := fun k => by
    rw [Tree.at_append, hR]
    exact (Tree.at_singleton t k).symm
  induction r generalizing p clone t m with
  | nil => exact absurd rfl hr
  | cons k r ih =>
      cases r with
      | nil =>
          rw [Entered, hclone, hfind]
          exact (and_iff_right ⟨p, k, rfl, t, m, hR⟩).symm
      | cons j r =>
          have hsplit : p ++ k :: j :: r = (p ++ [k]) ++ j :: r := by simp
          rw [Entered, hclone, hfind, hsplit]
          constructor
          · rintro ⟨s, i, hs, hne, hent⟩
            exact (ih hs (find?_cloneEntries hs hne) (List.cons_ne_nil j r)
              fun k' => by rw [Tree.at_append, hs]; exact (Tree.at_singleton s k').symm).mp hent
          · rintro ⟨hdir, hmark, he⟩
            obtain ⟨s, i, hs⟩ : IsDir R (p ++ [k]) := by
              obtain ⟨a, y, heq, u, i, hu⟩ := hdir
              rcases List.eq_nil_or_concat (j :: r) with hnil | ⟨r', z, hz⟩
              · cases hnil
              · rw [hz, List.concat_eq_append, ← List.append_assoc] at heq
                obtain ⟨rfl, -⟩ := List.append_inj' heq rfl
                cases r' with
                | nil => exact ⟨u, i, by simpa using hu⟩
                | cons w r' =>
                    exact Tree.isTree_of_at_append (List.cons_ne_nil w r') (by rw [hu]; exact nofun)
            have hne : baseTreeOf (known cached C R (p ++ [k])) ≠ some s := by
              intro heq
              have hno : ¬ Hidden cached C R (p ++ [k]) := by
                intro hh
                rw [known_of_hidden hh] at heq
                cases heq
              rw [known_of_not_hidden hno] at heq
              obtain ⟨i', hC⟩ : ∃ i', C.at (p ++ [k]) = some (.tree s i') := by
                cases hC : C.at (p ++ [k]) with
                | none =>
                    rw [hC] at heq
                    cases heq
                | some c =>
                    rw [hC] at heq
                    cases c <;> cases heq
                    exact ⟨_, rfl⟩
              rw [remoteMarkOf_below hC hs hno] at hmark
              cases hmark
            refine ⟨s, i, hs, hne, ?_⟩
            exact (ih hs (find?_cloneEntries hs hne) (List.cons_ne_nil j r)
              fun k' => by rw [Tree.at_append, hs]; exact (Tree.at_singleton s k').symm).mpr
                ⟨hdir, hmark, he⟩

/-- **`mem_remoteDiff`** — what is entered for a path in scope, by the two roots there, and whether its
directory is one of the remote's. -/
theorem mem_remoteDiff (hR : R.Wf) {x : RemoteRow} :
    x ∈ remoteDiffRecursive cached scope (some C) R [] ↔
      scope.inScope x.path = true ∧ InDir R x.path ∧
        remoteMarkOf (known cached C R x.path) (R.at x.path) = some (x.slash, x.mark) ∧
          x.entry = R.at x.path := by
  have hroot : ∀ t : Tree, ∃ m, t.at [] = some (.tree t m) := fun t => ⟨_, rfl⟩
  obtain ⟨mc, hmc⟩ := hroot C
  obtain ⟨mr, hmr⟩ := hroot R
  have hopen : ¬ Hidden cached C R [] := by
    rintro ⟨a, n, r, heq, -⟩
    simp at heq
  have hne : ∀ {q : Path}, InDir R q → q ≠ [] := by
    rintro q ⟨p, n, rfl, -⟩
    simp
  unfold remoteDiffRecursive
  split_ifs with heq
  · obtain rfl := Option.some.inj heq
    refine iff_of_false nofun ?_
    rintro ⟨-, hdir, hmark, -⟩
    obtain ⟨n, r, hq⟩ := List.exists_cons_of_ne_nil (hne hdir)
    have hbelow := @remoteMarkOf_below cached C C [] n C mc mc hmc hmc hopen r
    rw [List.nil_append, ← hq, hmark] at hbelow
    cases hbelow
  · have hknown : known cached C R [] = C.at [] := known_of_not_hidden hopen
    have hentries := @find?_cloneEntries cached C R [] R mr hmr (by
      rw [hknown, hmc]
      exact heq)
    rw [hknown, hmc] at hentries
    rw [mem_both_of_spec (enteredSpec cached scope R hR)]
    constructor
    · rintro ⟨hin, n, r, hp, hent⟩
      have hspec := (entered_iff hmr hentries (List.cons_ne_nil n r)).mp hent
      rw [← hp] at hspec
      exact ⟨hin, hspec⟩
    · rintro ⟨hin, hspec⟩
      obtain ⟨n, r, hq⟩ := List.exists_cons_of_ne_nil (hne hspec.1)
      rw [hq] at hspec
      exact ⟨hin, n, r, hq, (entered_iff hmr hentries (List.cons_ne_nil n r)).mpr hspec⟩

end Omemfs.Ls
