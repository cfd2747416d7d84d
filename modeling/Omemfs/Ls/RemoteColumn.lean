/-
# Omemfs.Ls.RemoteColumn — when the `R` column of `ls` is right.

A row of the clone root is right if the remote has a file or symlink for a file or symlink and a
directory for a directory, or has lost a file or symlink out of a directory that it still has, and if no
directory above has changed at the remote while its tree object is missing from the local store.  A
directory that the remote has lost is entered under a key that no row looks up, and so is everything that
has turned into a directory or from one.  What the working tree alone brings has no mark, whatever the
remote has there (`ls_remote_exact_iff`).
-/
import Omemfs.Ls.Marks
import Omemfs.Ls.Status

namespace Omemfs.Ls

open Omemfs Lib Fsguard Sync

/-! ## The right mark -/

/-- Equal kind and content, by hash, executable bit or link target. -/
def sameEntry : TreeEntry → TreeEntry → Bool
  | .blob x, .blob y => x.hash = y.hash ∧ x.mode = y.mode
  | .symlink x, .symlink y => x.target = y.target
  | .tree s _, .tree t _ => s = t
  | _, _ => false

/-- What the remote has, compared with what the clone root has. -/
def rightMark : Option TreeEntry → Option TreeEntry → Mark
  | none, none => .blank
  | none, some _ => .added
  | some _, none => .deleted
  | some c, some e => if sameEntry c e then .blank else .modified

/-- Whether what differs is entered with a slash. -/
def slashOf (e : Option TreeEntry) : Bool := (e.map TreeEntry.isTree).getD false

theorem remoteMarkOf_eq (b e : Option TreeEntry) : remoteMarkOf b e =
    if rightMark b e = .blank then none else some (slashOf e, rightMark b e) := by
  cases e with
  | none => cases b <;> rfl
  | some e =>
      cases b with
      | none => cases e <;> rfl
      | some c =>
          cases e with
          | blob x =>
              cases c with
              | blob y =>
                  by_cases h : y.hash = x.hash ∧ y.mode = x.mode
                  · simp [remoteMarkOf, remoteBlobMark, rightMark, sameEntry, h.1, h.2]
                  · have hne : y.hash ≠ x.hash ∨ y.mode ≠ x.mode := not_and_or.mp h
                    simp [remoteMarkOf, remoteBlobMark, rightMark, sameEntry, h, hne, slashOf,
                      TreeEntry.isTree]
              | symlink y => rfl
              | tree t m => rfl
          | symlink x =>
              cases c with
              | symlink y =>
                  by_cases h : y.target = x.target
                  · simp [remoteMarkOf, remoteSymlinkMark, rightMark, sameEntry, h]
                  · simp [remoteMarkOf, remoteSymlinkMark, rightMark, sameEntry, h, slashOf,
                      TreeEntry.isTree]
              | blob y => rfl
              | tree t m => rfl
          | tree t m =>
              cases c with
              | tree s k =>
                  by_cases h : s = t
                  · simp [remoteMarkOf, baseTreeOf, rightMark, sameEntry, h]
                  · simp [remoteMarkOf, baseTreeOf, rightMark, sameEntry, h, slashOf,
                      TreeEntry.isTree, remoteDirMark]
              | blob y => rfl
              | symlink y => rfl

theorem isTree_of_sameEntry {c e : TreeEntry} (h : sameEntry c e = true) : c.isTree = e.isTree := by
  cases c <;> cases e <;> first | rfl | cases h

/-! ## The remote's lists -/

variable {cached : Path → Bool} {C R : Tree} {scopes : ScopeFilter} {q : Path}

theorem mem_status (hR : R.Wf) {slash : Bool} {m : Mark} :
    ((q, slash), m) ∈ (fetchRemoteStatusMap cached C R scopes).status ↔
      scopes.inScope q = true ∧ InDir R q ∧ m ≠ .blank ∧ slash = slashOf (R.at q) ∧
        m = rightMark (known cached C R q) (R.at q) := by
  have hrow : ∀ b e, remoteMarkOf b e = some (slash, m) ↔
      m ≠ .blank ∧ slash = slashOf e ∧ m = rightMark b e := by
    intro b e
    rw [remoteMarkOf_eq]
    split_ifs with hblank
    · refine iff_of_false nofun ?_
      rintro ⟨hne, -, rfl⟩
      exact hne hblank
    · rw [Option.some.injEq, Prod.mk.injEq]
      constructor
      · rintro ⟨rfl, rfl⟩
        exact ⟨hblank, rfl, rfl⟩
      · rintro ⟨-, rfl, rfl⟩
        exact ⟨rfl, rfl⟩
  have hmem : (∃ x ∈ remoteDiffRecursive cached scopes (some C) R [],
      ((x.path, x.slash), x.mark) = ((q, slash), m)) ↔ scopes.inScope q = true ∧ InDir R q ∧
        m ≠ .blank ∧ slash = slashOf (R.at q) ∧ m = rightMark (known cached C R q) (R.at q) := by
    rw [← hrow]
    constructor
    · rintro ⟨x, hx, heq⟩
      obtain ⟨hkey, rfl⟩ := Prod.mk.inj heq
      obtain ⟨rfl, rfl⟩ := Prod.mk.inj hkey
      obtain ⟨hin, hdir, hmark, -⟩ := (mem_remoteDiff hR).mp hx
      exact ⟨hin, hdir, hmark⟩
    · rintro ⟨hin, hdir, hmark⟩
      exact ⟨⟨q, slash, m, R.at q⟩, (mem_remoteDiff hR).mpr ⟨hin, hdir, hmark, rfl⟩, rfl⟩
  unfold fetchRemoteStatusMap
  split_ifs with heq
  · subst heq
    rw [← hmem]
    refine iff_of_false nofun ?_
    rintro ⟨x, hx, -⟩
    rw [remoteDiffRecursive, if_pos rfl] at hx
    cases hx
  · rw [List.mem_map, hmem]

theorem mem_added (hR : R.Wf) {slash : Bool} {e : TreeEntry} :
    ((q, slash), e) ∈ (fetchRemoteStatusMap cached C R scopes).added ↔
      scopes.inScope q = true ∧ q ≠ [] ∧ R.at q = some e ∧ slash = e.isTree ∧
        known cached C R q = none := by
  have hadded : ∀ b e, rightMark b e = .added ↔ b = none ∧ e ≠ none := by
    intro b e
    cases b with
    | none => cases e <;> simp [rightMark]
    | some c =>
        cases e with
        | none => simp [rightMark]
        | some e =>
            simp only [rightMark]
            split_ifs <;> simp
  have hmem : (∃ x ∈ remoteDiffRecursive cached scopes (some C) R [],
      x.news = some ((q, slash), e)) ↔ scopes.inScope q = true ∧ q ≠ [] ∧ R.at q = some e ∧
        slash = e.isTree ∧ known cached C R q = none := by
    constructor
    · rintro ⟨x, hx, hnews⟩
      obtain ⟨hin, hdir, hmark, he⟩ := (mem_remoteDiff hR).mp hx
      unfold RemoteRow.news at hnews
      split_ifs at hnews with hm
      obtain ⟨e', he', heq⟩ := Option.map_eq_some_iff.mp hnews
      obtain ⟨hkey, rfl⟩ := Prod.mk.inj heq
      obtain ⟨rfl, rfl⟩ := Prod.mk.inj hkey
      rw [remoteMarkOf_eq, hm] at hmark
      split_ifs at hmark
      obtain ⟨hslash, hright⟩ := Prod.mk.inj (Option.some.inj hmark)
      rw [he] at he'
      refine ⟨hin, ?_, he', ?_, ((hadded _ _).mp hright).1⟩
      · obtain ⟨p, n, hp, -⟩ := hdir
        rw [hp]
        simp
      · rw [← hslash, he']
        rfl
    · rintro ⟨hin, hne, he, rfl, hknown⟩
      refine ⟨⟨q, e.isTree, .added, some e⟩, (mem_remoteDiff hR).mpr
        ⟨hin, inDir_of_at he hne, ?_, he.symm⟩, rfl⟩
      rw [remoteMarkOf_eq, hknown, he]
      rfl
  unfold fetchRemoteStatusMap
  split_ifs with heq
  · subst heq
    rw [← hmem]
    refine iff_of_false nofun ?_
    rintro ⟨x, hx, -⟩
    rw [remoteDiffRecursive, if_pos rfl] at hx
    cases hx
  · rw [List.mem_filterMap, hmem]

/-! ## The condition -/

/-- What a requested path leads to. -/
def leadsTo (working : Bool) (C R T : Tree) (s : Path) : Option TreeEntry :=
  (C.at s).or (if working then (Listing.navigateWorking T s).or (R.at s)
    else (R.at s).or (Listing.navigateWorking T s))

/-- A row of the walk at the path, with or without a slash. -/
def InWalk (l : Listing) (C R T : Tree) (scopes : List Path) (k : Path × Bool) : Prop :=
  ∃ s ∈ scopes, ∃ e c, leadsTo l.working C R T s = some e ∧ l.Walks e s k.1 c ∧ k.2 = c.isTree

/-- A row that the diff brings. -/
def Fresh (l : Listing) (C R T : Tree) (scopes : List Path) (p : Path) : Prop :=
  ∃ q row r, (∃ s ∈ scopes, s <+: q) ∧ q ≠ [] ∧ Notes C T q row ∧
    l.newRow scopes (q, row) = some r ∧ r.path = p ∧ ¬ InWalk l C R T scopes r.key

/-- What has to hold for the `R` column to be right. -/
structure RemoteShows (l : Listing) (cached : Path → Bool) (C R T : Tree) (scopes : List Path) :
    Prop where
  /-- the root differs in more than times -/
  root : [] ∈ scopes → C ≠ R → ∃ n, rightMark (known cached C R [n]) (R.at [n]) ≠ .blank
  /-- what is listed of the clone root: the kinds agree, or a file or symlink is gone from a directory -/
  cloned : ∀ s ∈ scopes, ∀ e, C.at s = some e → ∀ q c, l.Walks e s q c → ¬ Hidden cached C R q ∧
    (R.at q = none → c.isTree = false ∧ InDir R q) ∧ ∀ e', R.at q = some e' → e'.isTree = c.isTree
  /-- a requested path that the clone root does not have -/
  uncloned : ∀ s ∈ scopes, C.at s = none → ∀ e, leadsTo l.working C R T s = some e →
    ∀ q c, l.Walks e s q c → ∀ e', R.at q = some e' → e'.isTree = c.isTree
  /-- what is listed since the working tree has something new there or below -/
  fresh : ∀ p, Fresh l C R T scopes p → rightMark (C.at p) (R.at p) = .blank
  /-- nothing of the clone root is taken for new -/
  shown : ∀ q, scopes.any (fun s => s.isPrefixOf q) = true → l.Displayed scopes q → C.at q ≠ none →
    R.at q ≠ none → ¬ Hidden cached C R q
  /-- what only the remote has is listed -/
  listed : ∀ q, InScope l.recursive scopes q → C.at q = none → R.at q ≠ none →
    l.Displayed scopes q ∨ (∃ slash, InWalk l C R T scopes (q, slash)) ∨ Fresh l C R T scopes q

/-- The rows say what the remote has, and each name that only the remote has in scope has a row. -/
structure RemoteExact (C R : Tree) (recursive : Bool) (scopes : List Path) (rows : List Row) :
    Prop where
  right : ∀ r ∈ rows, r.remoteStatus = rightMark (C.at r.path) (R.at r.path)
  news : ∀ q, InScope recursive scopes q → C.at q = none → R.at q ≠ none → ∃ r ∈ rows, r.path = q

/-! ## The marks of the rows -/

section Column

variable {l : Listing} {T : Tree} {changes : List (Path × DiffRow)}
  {news : List ((Path × Bool) × TreeEntry)}

/-- A listing of the clone root `C` beside the remote's root `R`, with a working root `T`. -/
structure Beside (l : Listing) (cached : Path → Bool) (C R T : Tree) (scopes : List Path)
    (changes : List (Path × DiffRow)) (news : List ((Path × Bool) × TreeEntry)) : Prop where
  root_wf : C.Wf
  remote_wf : R.Wf
  working_wf : T.Wf
  status : l.remoteStatus = (fetchRemoteStatusMap cached C R scopes).status
  added : l.remoteAdded = (fetchRemoteStatusMap cached C R scopes).added
  changes : ∀ x, x ∈ changes ↔ (∃ s ∈ scopes, s <+: x.1) ∧ x.1 ≠ [] ∧ Notes C T x.1 x.2
  news : ∀ x, x ∈ news ↔ x ∈ l.remoteAdded
  /-- a requested directory in which something is noted has been read -/
  read : ∀ s ∈ scopes, ∀ t m, C.at s = some (.tree t m) → ∀ n r row, Notes C T (s ++ n :: r) row →
    l.present t = true

namespace Beside

variable {s : Path} {slash : Bool}

theorem remoteMark_eq (h : Beside l cached C R T scopes changes news) (hin : scopes.inScope q = true) :
    (InDir R q ∧ slash = slashOf (R.at q) →
      l.remoteMark (q, slash) = rightMark (known cached C R q) (R.at q)) ∧
    (¬ (InDir R q ∧ slash = slashOf (R.at q)) → l.remoteMark (q, slash) = .blank) := by
  have hmem : ∀ m, ((q, slash), m) ∈ l.remoteStatus ↔ m ≠ .blank ∧ (InDir R q ∧
      slash = slashOf (R.at q)) ∧ m = rightMark (known cached C R q) (R.at q) := by
    intro m
    rw [h.status, mem_status h.remote_wf]
    constructor
    · rintro ⟨-, hdir, hne, hslash, hm⟩
      exact ⟨hne, ⟨hdir, hslash⟩, hm⟩
    · rintro ⟨hne, ⟨hdir, hslash⟩, hm⟩
      exact ⟨hin, hdir, hne, hslash, hm⟩
  unfold Listing.remoteMark
  cases hl : l.remoteStatus.lookup (q, slash) with
  | none =>
      refine ⟨fun hdir => ?_, fun _ => rfl⟩
      by_contra hne
      have hin' := (hmem _).mpr ⟨fun heq => hne (by rw [heq]; rfl), hdir, rfl⟩
      have hno := List.lookup_eq_none_iff.mp hl _ hin'
      simp at hno
  | some m =>
      obtain ⟨l₁, l₂, hsplit, -⟩ := List.lookup_eq_some_iff.mp hl
      obtain ⟨-, hdir, hm⟩ := (hmem m).mp (by simp [hsplit])
      exact ⟨fun _ => hm, fun hno => absurd hdir hno⟩

/-- A row of a path that the clone root has. -/
theorem right_cloned_iff (h : Beside l cached C R T scopes changes news)
    (hin : scopes.inScope q = true) {c : TreeEntry} (hC : C.at q = some c) (hq : q ≠ []) :
    l.remoteMark (q, c.isTree) = rightMark (C.at q) (R.at q) ↔ ¬ Hidden cached C R q ∧
      (R.at q = none → c.isTree = false ∧ InDir R q) ∧
        ∀ e', R.at q = some e' → e'.isTree = c.isTree := by
  obtain ⟨hyes, hno⟩ := @remoteMark_eq cached C R scopes q l T changes news c.isTree h hin
  rw [hC]
  by_cases hhid : Hidden cached C R q
  · -- taken for an entry that the clone root does not have
    refine iff_of_false (fun heq => ?_) fun hright => hright.1 hhid
    by_cases hkey : InDir R q ∧ c.isTree = slashOf (R.at q)
    · rw [hyes hkey, known_of_hidden hhid] at heq
      cases hR : R.at q with
      | none =>
          rw [hR] at heq
          cases heq
      | some e =>
          rw [hR] at heq
          simp only [rightMark] at heq
          split_ifs at heq
    · rw [hno hkey] at heq
      cases hR : R.at q with
      | none =>
          rw [hR] at heq
          cases heq
      | some e =>
          rw [hR, rightMark] at heq
          split_ifs at heq with hsame
          refine hkey ⟨inDir_of_at hR hq, ?_⟩
          rw [hR, isTree_of_sameEntry hsame]
          rfl
  · rw [known_of_not_hidden hhid, hC] at hyes
    have hiff : l.remoteMark (q, c.isTree) = rightMark (some c) (R.at q) ↔
        (InDir R q ∧ c.isTree = slashOf (R.at q)) := by
      refine ⟨fun heq => ?_, hyes⟩
      by_contra hkey
      rw [hno hkey] at heq
      cases hR : R.at q with
      | none =>
          rw [hR] at heq
          cases heq
      | some e =>
          rw [hR, rightMark] at heq
          split_ifs at heq with hsame
          refine hkey ⟨inDir_of_at hR hq, ?_⟩
          rw [hR, isTree_of_sameEntry hsame]
          rfl
    rw [hiff]
    cases hR : R.at q with
    | none =>
        constructor
        · rintro ⟨hdir, hslash⟩
          exact ⟨hhid, fun _ => ⟨hslash, hdir⟩, nofun⟩
        · rintro ⟨-, hgone, -⟩
          exact ⟨(hgone rfl).2, (hgone rfl).1⟩
    | some e =>
        constructor
        · rintro ⟨-, hslash⟩
          refine ⟨hhid, nofun, fun e' he' => ?_⟩
          rw [← Option.some.inj he', hslash]
          rfl
        · rintro ⟨-, -, hkind⟩
          exact ⟨inDir_of_at hR hq, (hkind e rfl).symm⟩

/-- A row of a path that the clone root does not have. -/
theorem right_uncloned_iff (h : Beside l cached C R T scopes changes news)
    (hin : scopes.inScope q = true) (hC : C.at q = none) (hq : q ≠ []) :
    l.remoteMark (q, slash) = rightMark (C.at q) (R.at q) ↔
      ∀ e', R.at q = some e' → e'.isTree = slash := by
  obtain ⟨hyes, hno⟩ := @remoteMark_eq cached C R scopes q l T changes news slash h hin
  rw [known_of_none hC] at hyes
  rw [hC]
  cases hR : R.at q with
  | none =>
      refine iff_of_true ?_ nofun
      rw [hR] at hyes hno
      by_cases hkey : InDir R q ∧ slash = slashOf none
      · exact hyes hkey
      · exact hno hkey
  | some e =>
      rw [hR] at hyes hno
      constructor
      · intro heq e' he'
        obtain rfl := Option.some.inj he'
        by_contra hne
        rw [hno fun hkey => hne hkey.2.symm] at heq
        cases heq
      · intro hkind
        exact hyes ⟨inDir_of_at hR hq, (hkind e rfl).symm⟩

/-! ## Where the rows come from -/

theorem inScope_of_mem (hs : s ∈ scopes) (hsq : s <+: q) : scopes.inScope q = true :=
  ScopeFilter.inScope_iff.mpr ⟨s, hs, hsq⟩

theorem lookupRemoteAdded_eq (h : Beside l cached C R T scopes changes news) (hs : s ∈ scopes)
    (hne : s ≠ []) (hC : C.at s = none) : l.lookupRemoteAdded s = R.at s := by
  have hmem : ∀ slash e, ((s, slash), e) ∈ l.remoteAdded ↔ R.at s = some e ∧ slash = e.isTree := by
    intro slash e
    rw [h.added, mem_added h.remote_wf]
    constructor
    · rintro ⟨-, -, he, hslash, -⟩
      exact ⟨he, hslash⟩
    · rintro ⟨he, hslash⟩
      exact ⟨inScope_of_mem hs List.prefix_rfl, hne, he, hslash, known_of_none hC⟩
  have hlookup : ∀ slash, l.remoteAdded.lookup (s, slash) =
      (R.at s).bind fun e => if slash = e.isTree then some e else none := by
    intro slash
    cases hl : l.remoteAdded.lookup (s, slash) with
    | none =>
        have hno := List.lookup_eq_none_iff.mp hl
        cases hR : R.at s with
        | none => rfl
        | some e =>
            rw [Option.bind_some, if_neg]
            intro hslash
            have hfresh := hno _ ((hmem slash e).mpr ⟨hR, hslash⟩)
            simp at hfresh
    | some e =>
        obtain ⟨l₁, l₂, hsplit, -⟩ := List.lookup_eq_some_iff.mp hl
        obtain ⟨hR, hslash⟩ := (hmem slash e).mp (by simp [hsplit])
        rw [hR, Option.bind_some, if_pos hslash]
  unfold Listing.lookupRemoteAdded
  rw [hlookup, hlookup]
  cases hR : R.at s with
  | none => rfl
  | some e => cases e <;> rfl

theorem targetOf_eq (h : Beside l cached C R T scopes changes news) (hs : s ∈ scopes) :
    (Listing.targetOf l C T s).map Prod.fst = leadsTo l.working C R T s := by
  unfold Listing.targetOf leadsTo
  cases hC : C.at s with
  | some e => rfl
  | none =>
      have hne : s ≠ [] := by
        rintro rfl
        cases hC
      rw [h.lookupRemoteAdded_eq hs hne hC, Option.none_or, Option.map_map]
      cases l.working <;> simp [Function.comp_def]

theorem exists_targets (h : Beside l cached C R T scopes changes news) {e : TreeEntry} :
    (∃ force, l.Targets C T scopes s e force) ↔ s ∈ scopes ∧ leadsTo l.working C R T s = some e := by
  constructor
  · rintro ⟨force, hs, he⟩
    refine ⟨hs, ?_⟩
    rw [← h.targetOf_eq hs, he]
    rfl
  · rintro ⟨hs, he⟩
    rw [← h.targetOf_eq hs] at he
    obtain ⟨⟨e', force⟩, hx, rfl⟩ := Option.map_eq_some_iff.mp he
    exact ⟨force, hs, hx⟩

theorem targets_wf (h : Beside l cached C R T scopes changes news) (s : Path) (e : TreeEntry)
    (force : Option Mark) (he : l.Targets C T scopes s e force) : e.Wf := by
  have hroot : ∀ {t : Tree}, t.Wf → t.root.Wf := fun ht => ht
  have hR : ∀ {e}, R.at s = some e → e.Wf := fun he => (hroot h.remote_wf).of_at he
  have hnav : ∀ {e}, s ≠ [] → Listing.navigateWorking T s = some e → e.Wf := by
    intro e hne he
    unfold Listing.navigateWorking at he
    split at he
    · next o ho =>
        subst he
        exact (hroot h.working_wf).of_at (Tree.at_of_navigateEntry hne ho)
    · cases he
  have hlead := (h.exists_targets.mp ⟨force, he⟩).2
  unfold leadsTo at hlead
  cases hC : C.at s with
  | some c =>
      rw [hC] at hlead
      exact Option.some.inj hlead ▸ (hroot h.root_wf).of_at hC
  | none =>
      have hne : s ≠ [] := by
        rintro rfl
        cases hC
      rw [hC, Option.none_or] at hlead
      split_ifs at hlead
      · rcases Option.or_eq_some_iff.mp hlead with hw | ⟨-, hr⟩
        · exact hnav hne hw
        · exact hR hr
      · rcases Option.or_eq_some_iff.mp hlead with hr | ⟨-, hw⟩
        · exact hR hr
        · exact hnav hne hw

theorem isBase_iff (h : Beside l cached C R T scopes changes news) {k : Path × Bool} {m : Mark} :
    l.IsBase C T scopes k m ↔ ([] ∈ scopes ∧ k = ([], false) ∧ m = l.rootRow.remoteStatus) ∨
      (InWalk l C R T scopes k ∧ m = l.remoteMark k) := by
  unfold Listing.IsBase
  refine or_congr_right ?_
  constructor
  · rintro ⟨s, e, force, c, htarget, hwalk, hslash, hm⟩
    obtain ⟨hs, he⟩ := h.exists_targets.mp ⟨force, htarget⟩
    exact ⟨⟨s, hs, e, c, he, hwalk, hslash⟩, hm⟩
  · rintro ⟨⟨s, hs, e, c, he, hwalk, hslash⟩, hm⟩
    obtain ⟨force, htarget⟩ := h.exists_targets.mpr ⟨hs, he⟩
    exact ⟨s, e, force, c, htarget, hwalk, hslash, hm⟩

/-- What the walk comes to is in scope. -/
theorem inScope_of_inWalk {k : Path × Bool} (hk : InWalk l C R T scopes k) :
    k.1 ≠ [] ∧ scopes.inScope k.1 = true := by
  obtain ⟨s, hs, e, c, -, hwalk, -⟩ := hk
  obtain ⟨r, hq, -⟩ := hwalk.at_eq
  exact ⟨hwalk.ne_nil, inScope_of_mem hs (hq ▸ List.prefix_append s r)⟩

theorem root_status_eq (h : Beside l cached C R T scopes changes news) (hroot : [] ∈ scopes) :
    l.rootRow.remoteStatus = rightMark (C.at []) (R.at []) ↔
      (C ≠ R → ∃ n, rightMark (known cached C R [n]) (R.at [n]) ≠ .blank) := by
  have hright : rightMark (C.at []) (R.at []) = if C = R then .blank else .modified := by
    have hsame : rightMark (C.at []) (R.at []) =
        if (decide (C = R)) = true then .blank else .modified := rfl
    rw [hsame]
    simp only [decide_eq_true_eq]
  have hin : ∀ q, scopes.inScope q = true := fun q => inScope_of_mem hroot List.nil_prefix
  have hempty : l.remoteStatus = [] ↔
      ∀ q, InDir R q → rightMark (known cached C R q) (R.at q) = .blank := by
    rw [h.status, List.eq_nil_iff_forall_not_mem]
    constructor
    · intro hno q hdir
      by_contra hne
      exact hno _ ((mem_status h.remote_wf).mpr ⟨hin q, hdir, hne, rfl, rfl⟩)
    · rintro hall ⟨⟨q, slash⟩, m⟩ hx
      obtain ⟨-, hdir, hne, -, rfl⟩ := (mem_status h.remote_wf).mp hx
      exact hne (hall q hdir)
  -- what differs below a name makes the name differ
  have htop : ∀ q, InDir R q → rightMark (known cached C R q) (R.at q) ≠ .blank →
      ∃ n, rightMark (known cached C R [n]) (R.at [n]) ≠ .blank := by
    rintro q hdir hne
    cases q with
    | nil =>
        obtain ⟨p, n, heq, -⟩ := hdir
        simp at heq
    | cons n r =>
        refine ⟨n, fun hblank => ?_⟩
        cases r with
        | nil => exact hne hblank
        | cons m r =>
            obtain ⟨t, k, ht⟩ : IsDir R [n] := by
              obtain ⟨p, x, heq, u, j, hu⟩ := hdir
              cases p with
              | nil => simp at heq
              | cons y p =>
                  obtain ⟨rfl, -⟩ := List.cons.inj heq
                  cases p with
                  | nil => exact ⟨u, j, hu⟩
                  | cons z p =>
                      have hsplit : n :: z :: p = [n] ++ z :: p := rfl
                      rw [hsplit] at hu
                      exact Tree.isTree_of_at_append (List.cons_ne_nil z p) (by rw [hu]; exact nofun)
            have hno : ¬ Hidden cached C R [n] := by
              intro hhid
              rw [known_of_hidden hhid, ht] at hblank
              cases hblank
            rw [known_of_not_hidden hno, ht] at hblank
            cases hc : C.at [n] with
            | none =>
                rw [hc] at hblank
                cases hblank
            | some c =>
                rw [hc, rightMark] at hblank
                split_ifs at hblank with hsame
                cases c with
                | blob y => cases hsame
                | symlink y => cases hsame
                | tree u j =>
                    obtain rfl : u = t := of_decide_eq_true hsame
                    have hbelow := @remoteMarkOf_below cached C R [n] m u j k hc ht hno r
                    rw [remoteMarkOf_eq] at hbelow
                    split_ifs at hbelow with hb
                    exact hne hb
  have hrow : l.rootRow.remoteStatus = if l.remoteStatus.isEmpty then .blank else .modified := rfl
  rw [hrow, hright]
  by_cases heq : C = R
  · have hnil : l.remoteStatus = [] := by
      rw [h.status, fetchRemoteStatusMap, if_pos heq.symm]
      rfl
    rw [if_pos heq, hnil]
    exact iff_of_true rfl fun hne => absurd heq hne
  · rw [if_neg heq]
    constructor
    · intro hm _
      have hne : l.remoteStatus ≠ [] := by
        intro hnil
        rw [hnil] at hm
        cases hm
      rw [ne_eq, hempty, not_forall] at hne
      obtain ⟨q, hq⟩ := hne
      obtain ⟨hdir, hblank⟩ := Classical.not_imp.mp hq
      exact htop q hdir hblank
    · intro hex
      obtain ⟨n, hn⟩ := hex heq
      rw [if_neg]
      rw [List.isEmpty_iff, hempty]
      exact fun hall => hn (hall [n] ⟨[], n, rfl, R, _, rfl⟩)

/-- A directory of the clone root that a change shows at has a row of the walk. -/
theorem inWalk_of_deeper (h : Beside l cached C R T scopes changes news) {x : Path × DiffRow}
    (hx : x ∈ changes) {dir : Path} (hd : l.deeper scopes x = some dir) (hdir : IsDir C dir) :
    InWalk l C R T scopes (dir, true) ∨ Listing.isAddition x.2 = false := by
  obtain ⟨hin, -, hnotes⟩ := (h.changes x).mp hx
  obtain ⟨hs, hsx⟩ := Listing.scopeRoot_spec hin
  obtain ⟨u, m, hu⟩ := hdir
  obtain ⟨-, ⟨n, k, r, hp, rfl⟩ | ⟨hp, n, r, -, rfl⟩⟩ := (Listing.deeper_iff_of_root rfl hsx).mp hd
  · refine .inl ?_
    obtain ⟨t, j, ht⟩ := Tree.isTree_of_at_append (p := Listing.scopeRoot scopes x.1)
      (List.cons_ne_nil n []) (by rw [hu]; exact nofun)
    rw [hp] at hnotes
    refine ⟨_, hs, .tree t j, .tree u m, by rw [leadsTo, ht]; rfl, .inr ⟨rfl, ?_, [n], rfl, trivial, ?_⟩,
      rfl⟩
    · exact h.read _ hs t j ht n (k :: r) x.2 hnotes
    · rw [Tree.at_append, ht] at hu
      exact hu
  · refine .inr ?_
    have hdirs : IsDir C (Listing.scopeRoot scopes x.1) :=
      Tree.isTree_of_at_append (List.cons_ne_nil n []) (by rw [hu]; exact nofun)
    rw [← hp] at hdirs
    rw [(hnotes.of_isDir hdirs).2]
    rfl

theorem unmixed (h : Beside l cached C R T scopes changes news) {base : List Row}
    (hbase : ∀ k, InWalk l C R T scopes k → k ∈ base.map Row.key) :
    l.Unmixed scopes base changes := by
  intro x hx y hy dir hxd hyd hno
  have hnodir : ∀ {z : Path × DiffRow}, z ∈ changes → l.deeper scopes z = some dir →
      IsDir C dir → Listing.isAddition z.2 = false := fun hz hzd hdir =>
    (h.inWalk_of_deeper hz hzd hdir).resolve_left fun hin => hno (hbase _ hin)
  by_cases hdir : IsDir C dir
  · rw [hnodir hx hxd hdir, hnodir hy hyd hdir]
  · -- nothing of the clone root is at the directory: what is below is new
    obtain ⟨hinx, -, hnx⟩ := (h.changes x).mp hx
    obtain ⟨hiny, -, hny⟩ := (h.changes y).mp hy
    obtain ⟨-, hsx⟩ := Listing.scopeRoot_spec hinx
    obtain ⟨-, hsy⟩ := Listing.scopeRoot_spec hiny
    have hbelow : ∀ {q : Path} {n : String} {r : Path} {row : DiffRow}, q = dir →
        Notes C T (q ++ n :: r) row → Listing.isAddition row = true := by
      rintro q n r row rfl hnotes
      exact (hnotes.of_none (at_below_none hdir n r)).1
    obtain ⟨-, hxc⟩ := (Listing.deeper_iff_of_root rfl hsx).mp hxd
    obtain ⟨-, hyc⟩ := (Listing.deeper_iff_of_root rfl hsy).mp hyd
    rcases hxc with ⟨n, k, r, hxp, hxdir⟩ | ⟨hxp, n, r, -, hxdir⟩
    · rcases hyc with ⟨n', k', r', hyp, hydir⟩ | ⟨hyp, n', r', -, hydir⟩
      · rw [hxp, List.append_cons] at hnx
        rw [hyp, List.append_cons] at hny
        rw [hbelow hxdir.symm hnx, hbelow hydir.symm hny]
      · have hroots := (List.append_inj' (hxdir.symm.trans hydir) rfl).1
        rw [hxp] at hnx
        rw [hyp, ← hroots] at hny
        exact (hny.not_below hnx).elim
    · rcases hyc with ⟨n', k', r', hyp, hydir⟩ | ⟨hyp, n', r', -, hydir⟩
      · have hroots := (List.append_inj' (hxdir.symm.trans hydir) rfl).1
        rw [hxp, hroots] at hnx
        rw [hyp] at hny
        exact (hnx.not_below hny).elim
      · have hroots := (List.append_inj' (hxdir.symm.trans hydir) rfl).1
        rw [hxp, hroots] at hnx
        rw [hyp] at hny
        rw [notes_unique hnx hny]

/-- A row that the diff brings is of a path that the clone root lacks, or of a directory where the clone
root has a file or symlink. -/
theorem newRow_cases (h : Beside l cached C R T scopes changes news) {x : Path × DiffRow}
    (hx : x ∈ changes) {r : Row} (hr : l.newRow scopes x = some r)
    (hno : ¬ InWalk l C R T scopes r.key) :
    r.path ≠ [] ∧ (C.at r.path = none ∨ (r.slash = true ∧ ¬ IsDir C r.path)) := by
  obtain ⟨hin, hne, hnotes⟩ := (h.changes x).mp hx
  obtain ⟨hs, hsx⟩ := Listing.scopeRoot_spec hin
  rcases (Listing.newRow_iff_of_root rfl hsx).mp hr with ⟨-, hown⟩ | ⟨dir, hd, hadd, rfl⟩
  · obtain ⟨p, row⟩ := x
    have hrow := hnotes.2
    cases row with
    | added =>
        obtain rfl := Option.some.inj hown
        refine ⟨hne, .inl ?_⟩
        show C.at p = none
        cases hC : C.at p with
        | none => rfl
        | some c =>
            rw [hC] at hrow
            cases hT : T.at p with
            | none =>
                rw [hT, nodeRow] at hrow
                split_ifs at hrow
                cases hrow
            | some e =>
                rw [hT] at hrow
                cases e with
                | blob y =>
                    cases c <;> simp only [nodeRow, blobRow] at hrow <;> try split_ifs at hrow
                    all_goals cases hrow
                | symlink y =>
                    cases c <;> simp only [nodeRow, symlinkRow] at hrow <;> try split_ifs at hrow
                    all_goals cases hrow
                | tree u m =>
                    rw [nodeRow] at hrow
                    split_ifs at hrow
                    cases hrow
    | addedEmptyDir =>
        obtain rfl := Option.some.inj hown
        refine ⟨hne, .inr ⟨rfl, fun hdir => ?_⟩⟩
        have hmod := (hnotes.of_isDir hdir).2
        cases hmod
    | modified => cases hown
    | deleted => cases hown
  · refine ⟨?_, .inr ⟨rfl, fun hdir => ?_⟩⟩
    · obtain ⟨-, ⟨n, k, r, -, rfl⟩ | ⟨-, n, r, -, rfl⟩⟩ := (Listing.deeper_iff_of_root rfl hsx).mp hd <;>
        simp
    · rcases h.inWalk_of_deeper hx hd hdir with hin | hfalse
      · exact hno hin
      · rw [hadd] at hfalse
        cases hfalse

/-- The rows of the whole listing, by where they come from. -/
structure RowsSpec (l : Listing) (C R T : Tree) (scopes : List Path)
    (news : List ((Path × Bool) × TreeEntry)) (rows : List Row) : Prop where
  sound : ∀ r ∈ rows,
    ([] ∈ scopes ∧ r.path = [] ∧ r.remoteStatus = l.rootRow.remoteStatus) ∨
    (InWalk l C R T scopes r.key ∧ r.remoteStatus = l.remoteMark r.key) ∨
    (r.remoteStatus = .blank ∧ Fresh l C R T scopes r.path ∧ r.path ≠ [] ∧
      (C.at r.path = none ∨ (r.slash = true ∧ ¬ IsDir C r.path))) ∨
    (r.remoteStatus = .added ∧ ∃ x ∈ news, l.Displayed scopes x.1.1 ∧ r.key = x.1)
  root : [] ∈ scopes → ∃ r ∈ rows, r.path = [] ∧ r.remoteStatus = l.rootRow.remoteStatus
  walk : ∀ k, InWalk l C R T scopes k → ∃ r ∈ rows, r.key = k ∧ r.remoteStatus = l.remoteMark k
  fresh : ∀ p, Fresh l C R T scopes p → ∃ r ∈ rows, r.path = p ∧ r.remoteStatus = .blank
  shown : ∀ x ∈ news, l.Displayed scopes x.1.1 → ∃ r ∈ rows, r.key = x.1

theorem rowsSpec (h : Beside l cached C R T scopes changes news) {rows : List Row}
    (hrun : l.run C T scopes changes news = .ok rows) : RowsSpec l C R T scopes news rows := by
  obtain ⟨targets, htargets, hrows⟩ := bind_eq_ok.mp hrun
  obtain rfl := Except.ok.inj hrows
  have hbase : ∀ b ∈ targets.flatten, _ := fun b hb =>
    h.isBase_iff.mp (Listing.isBase_of_mem h.targets_wf htargets hb)
  have hwalk : ∀ k, InWalk l C R T scopes k →
      ∃ b ∈ targets.flatten, b.key = k ∧ b.remoteStatus = l.remoteMark k := fun k hk =>
    Listing.mem_of_isBase h.targets_wf htargets (h.isBase_iff.mpr (.inr ⟨hk, rfl⟩))
  have hmixed : l.Unmixed scopes targets.flatten changes := h.unmixed fun k hk => by
    obtain ⟨b, hb, hkey, -⟩ := hwalk k hk
    exact List.mem_map.mpr ⟨b, hb, hkey⟩
  have hspec := Listing.marks_spec hmixed
  obtain ⟨hsound, hkept, hshown⟩ := @Listing.mem_news l scopes news
    (changes.foldl (l.showChange scopes) (targets.flatten, [])).1
  have hfresh : ∀ {k : Path × Bool}, k ∉ targets.flatten.map Row.key → ¬ InWalk l C R T scopes k := by
    intro k hno hk
    obtain ⟨b, hb, hkey, -⟩ := hwalk k hk
    exact hno (List.mem_map.mpr ⟨b, hb, hkey⟩)
  have hnewFresh : ∀ {x r}, x ∈ changes → l.newRow scopes x = some r →
      ¬ InWalk l C R T scopes r.key → Fresh l C R T scopes r.path := by
    intro x r hx hr hno
    obtain ⟨hin, hne, hnotes⟩ := (h.changes x).mp hx
    exact ⟨x.1, x.2, r, hin, hne, hnotes, hr, rfl, hno⟩
  refine ⟨fun r hr => ?_, fun hroot => ?_, fun k hk => ?_, fun p hp => ?_, fun x hx hd => ?_⟩
  · rcases hsound r hr with hr | ⟨-, hmark, hmore⟩
    · rcases hspec.sound r hr with ⟨b, hb, hkey, hmark⟩ | ⟨hno, hblank, x, hx, r', hr', hkey⟩
      · rcases hbase b hb with ⟨hroot, hk, hm⟩ | ⟨hk, hm⟩
        · exact .inl ⟨hroot, congrArg Prod.fst (hkey.symm.trans hk), hmark.symm.trans hm⟩
        · rw [hkey] at hk hm
          exact .inr (.inl ⟨hk, hmark.symm.trans hm⟩)
      · have hpath : r'.path = r.path := congrArg Prod.fst hkey
        have hslash : r'.slash = r.slash := congrArg Prod.snd hkey
        rw [← hkey] at hno
        have hcases := h.newRow_cases hx hr' (hfresh hno)
        rw [hpath, hslash] at hcases
        exact .inr (.inr (.inl ⟨hblank, hpath ▸ hnewFresh hx hr' (hfresh hno), hcases⟩))
    · exact .inr (.inr (.inr ⟨hmark, hmore⟩))
  · obtain ⟨b, hb, hkey, hmark⟩ := Listing.mem_of_isBase h.targets_wf htargets
      (h.isBase_iff.mpr (.inl ⟨hroot, rfl, rfl⟩))
    obtain ⟨r, hr, hkey', hmark'⟩ := hspec.kept b hb
    exact ⟨r, hkept r hr, congrArg Prod.fst (hkey'.trans hkey), hmark'.trans hmark⟩
  · obtain ⟨b, hb, hkey, hmark⟩ := hwalk k hk
    obtain ⟨r, hr, hkey', hmark'⟩ := hspec.kept b hb
    exact ⟨r, hkept r hr, hkey'.trans hkey, hmark'.trans hmark⟩
  · obtain ⟨q, row, r', hin, hne, hnotes, hr', rfl, hno⟩ := hp
    have hx : (q, row) ∈ changes := (h.changes _).mpr ⟨hin, hne, hnotes⟩
    have hcases := h.newRow_cases hx hr' hno
    obtain ⟨r, hr, hkey⟩ := List.mem_map.mp (hspec.added _ hx r' hr')
    have hpath : r.path = r'.path := congrArg Prod.fst hkey
    refine ⟨r, hkept r hr, hpath, ?_⟩
    rcases hspec.sound r hr with ⟨b, hb, hkey', -⟩ | ⟨-, hblank, -⟩
    · rcases hbase b hb with ⟨-, hk, -⟩ | ⟨hk, -⟩
      · rw [hkey', hkey] at hk
        exact absurd (congrArg Prod.fst hk) hcases.1
      · rw [hkey', hkey] at hk
        exact absurd hk hno
    · exact hblank
  · obtain ⟨r, hr, hkey⟩ := List.mem_map.mp (hshown x hx hd)
    exact ⟨r, hr, hkey⟩

theorem mem_news_iff (h : Beside l cached C R T scopes changes news) {e : TreeEntry} :
    ((q, slash), e) ∈ news ↔ scopes.inScope q = true ∧ q ≠ [] ∧ R.at q = some e ∧
      slash = e.isTree ∧ known cached C R q = none := by
  rw [h.news, h.added, mem_added h.remote_wf]

/-- **`exact_iff`** — the marks are right, and nothing of the remote is missing, just when what is
listed shows at the remote as it should. -/
theorem exact_iff (h : Beside l cached C R T scopes changes news) {rows : List Row}
    (hrun : l.run C T scopes changes news = .ok rows) :
    RemoteExact C R l.recursive scopes rows ↔ RemoteShows l cached C R T scopes := by
  have hrows := h.rowsSpec hrun
  have hlead : ∀ {s e}, C.at s = some e → leadsTo l.working C R T s = some e := by
    intro s e he
    rw [leadsTo, he, Option.some_or]
  have hCq : ∀ {s q e c}, C.at s = some e → l.Walks e s q c → C.at q = some c := by
    intro s q e c he hwalk
    obtain ⟨r, rfl, hr⟩ := hwalk.at_eq
    rw [Tree.at_append, he, Option.bind_some, hr]
  have hCnone : ∀ {s q e c}, C.at s = none → l.Walks e s q c → C.at q = none := by
    intro s q e c he hwalk
    obtain ⟨r, rfl, -⟩ := hwalk.at_eq
    rw [Tree.at_append, he]
    rfl
  constructor
  · intro hex
    have hwalk : ∀ {s q e c}, s ∈ scopes → leadsTo l.working C R T s = some e → l.Walks e s q c →
        l.remoteMark (q, c.isTree) = rightMark (C.at q) (R.at q) := by
      intro s q e c hs he hwalk
      obtain ⟨r, hr, hkey, hmark⟩ := hrows.walk (q, c.isTree) ⟨s, hs, e, c, he, hwalk, rfl⟩
      have hpath : r.path = q := congrArg Prod.fst hkey
      rw [← hmark, hex.right r hr, hpath]
    have hscope : ∀ {s q e c}, s ∈ scopes → l.Walks e s q c → scopes.inScope q = true := by
      intro s q e c hs hwalk
      obtain ⟨r, rfl, -⟩ := hwalk.at_eq
      exact inScope_of_mem hs (List.prefix_append s r)
    refine ⟨fun hroot => ?_, fun s hs e he q c hw => ?_, fun s hs hnone e he q c hw => ?_,
      fun p hp => ?_, fun q hin hd hC hR hhid => ?_, fun q hq hC hR => ?_⟩
    · obtain ⟨r, hr, hpath, hmark⟩ := hrows.root hroot
      refine (h.root_status_eq hroot).mp ?_
      rw [← hmark, hex.right r hr, hpath]
    · exact (h.right_cloned_iff (hscope hs hw) (hCq he hw) hw.ne_nil).mp (hwalk hs (hlead he) hw)
    · exact (h.right_uncloned_iff (hscope hs hw) (hCnone hnone hw) hw.ne_nil).mp (hwalk hs he hw)
    · obtain ⟨r, hr, rfl, hblank⟩ := hrows.fresh p hp
      rw [← hex.right r hr, hblank]
    · -- a name that the walk of the remote takes for new
      obtain ⟨e, he⟩ := Option.ne_none_iff_exists'.mp hR
      obtain ⟨c, hc⟩ := Option.ne_none_iff_exists'.mp hC
      have hne : q ≠ [] := by
        rintro rfl
        obtain ⟨a, n, r, heq, -⟩ := hhid
        simp at heq
      have hnews : ((q, e.isTree), e) ∈ news :=
        h.mem_news_iff.mpr ⟨hin, hne, he, rfl, known_of_hidden hhid⟩
      obtain ⟨r, hr, hkey⟩ := hrows.shown _ hnews hd
      obtain rfl : r.path = q := congrArg Prod.fst hkey
      have hslash : r.slash = e.isTree := congrArg Prod.snd hkey
      have hright := hex.right r hr
      rw [hc, he] at hright
      have hnotAdded : rightMark (some c) (some e) ≠ .added := by
        rw [rightMark]
        split_ifs <;> exact nofun
      rcases hrows.sound r hr with ⟨-, hnil, -⟩ | ⟨-, hmark⟩ | ⟨hblank, -, -, hmore⟩ | ⟨hmark, -⟩
      · exact hne hnil
      · rw [hmark, hkey, ((h.remoteMark_eq hin).1 ⟨inDir_of_at he hne, by rw [he]; rfl⟩),
          known_of_hidden hhid, he] at hright
        exact hnotAdded hright.symm
      · rw [hblank, rightMark] at hright
        split_ifs at hright with hsame
        rcases hmore with hnone | ⟨htrue, hnodir⟩
        · rw [hnone] at hc
          cases hc
        · rw [hslash, ← isTree_of_sameEntry hsame] at htrue
          cases c with
          | tree u m => exact hnodir ⟨u, m, hc⟩
          | blob y => cases htrue
          | symlink y => cases htrue
      · exact hnotAdded (hright.symm.trans hmark)
    · obtain ⟨r, hr, rfl⟩ := hex.news q hq hC hR
      rcases hrows.sound r hr with ⟨-, hnil, -⟩ | ⟨hwalk, -⟩ | ⟨-, hfresh, -⟩ | ⟨-, x, -, hd, hkey⟩
      · exact absurd hnil hq.1
      · exact .inr (.inl ⟨r.slash, hwalk⟩)
      · exact .inr (.inr hfresh)
      · refine .inl ?_
        rw [← hkey] at hd
        exact hd
  · intro hshows
    refine ⟨fun r hr => ?_, fun q hq hC hR => ?_⟩
    · rcases hrows.sound r hr with ⟨hroot, hnil, hmark⟩ | ⟨hwalk, hmark⟩ | ⟨hblank, hfresh, -⟩ |
        ⟨hmark, ⟨⟨p, slash⟩, e⟩, hx, hd, hkey⟩
      · rw [hmark, hnil]
        exact (h.root_status_eq hroot).mpr (hshows.root hroot)
      · obtain ⟨hne, hin⟩ := inScope_of_inWalk hwalk
        obtain ⟨s, hs, e, c, he, hw, hslash⟩ := hwalk
        have hk : r.key = (r.path, c.isTree) := Prod.ext rfl hslash
        rw [hmark, hk]
        cases hCs : C.at s with
        | some e' =>
            obtain rfl := Option.some.inj ((hlead hCs).symm.trans he)
            exact (h.right_cloned_iff hin (hCq hCs hw) hne).mpr (hshows.cloned s hs e' hCs _ c hw)
        | none =>
            exact (h.right_uncloned_iff hin (hCnone hCs hw) hne).mpr
              (hshows.uncloned s hs hCs e he _ c hw)
      · rw [hblank, hshows.fresh _ hfresh]
      · obtain ⟨hin, hne, he, -, hknown⟩ := h.mem_news_iff.mp hx
        obtain rfl : r.path = p := congrArg Prod.fst hkey
        cases hC : C.at r.path with
        | none => rw [hmark, he]; rfl
        | some c =>
            have hvis := hshows.shown _ hin hd (by rw [hC]; exact nofun) (by rw [he]; exact nofun)
            rw [known_of_not_hidden hvis, hC] at hknown
            cases hknown
    · rcases hshows.listed q hq hC hR with hd | ⟨slash, hwalk⟩ | hfresh
      · obtain ⟨e, he⟩ := Option.ne_none_iff_exists'.mp hR
        obtain ⟨-, s, hs, hsq, -⟩ := id hq
        have hnews : ((q, e.isTree), e) ∈ news := h.mem_news_iff.mpr
          ⟨inScope_of_mem hs hsq, hq.1, he, rfl, known_of_none hC⟩
        obtain ⟨r, hr, hkey⟩ := hrows.shown _ hnews hd
        exact ⟨r, hr, congrArg Prod.fst hkey⟩
      · obtain ⟨r, hr, hkey, -⟩ := hrows.walk _ hwalk
        exact ⟨r, hr, congrArg Prod.fst hkey⟩
      · obtain ⟨r, hr, hpath, -⟩ := hrows.fresh q hfresh
        exact ⟨r, hr, hpath⟩

end Beside

end Column

/-! ## The command -/

theorem wf_of_scan {W C T : Tree} {paths : List Path} (hC : C.Wf) (hW : W.Wf)
    (h : scanScopedForLs W C paths = .ok T) : T.Wf := by
  have hroot : W.root.Wf := hW
  have hone : ∀ {t t' : Tree} {p : Path}, t.Wf → spliceScanned W t p = .ok t' → t'.Wf := by
    intro t t' p ht hs
    obtain ⟨o, ho, hs⟩ := bind_eq_ok.mp hs
    cases o with
    | some e => exact @Tree.spliceEntry_wf (some t) ht p e (hroot.of_at (lstatPath_eq_ok.mp ho).2) t' hs
    | none =>
        obtain ⟨removed, hr, hs⟩ := bind_eq_ok.mp hs
        obtain rfl := Except.ok.inj hs
        cases removed with
        | none => exact ht
        | some t' => exact Tree.removeEntry_wf ht hr
  unfold scanScopedForLs at h
  split_ifs at h
  · exact Except.ok.inj h ▸ hW
  · induction paths generalizing C with
    | nil => exact Except.ok.inj h ▸ hC
    | cons p paths ih =>
        rw [List.foldlM_cons] at h
        obtain ⟨t, ht, h⟩ := bind_eq_ok.mp h
        cases paths with
        | nil => exact Except.ok.inj h ▸ hone hC ht
        | cons q paths => exact ih (hone hC ht) (List.cons_ne_nil q paths) h

/-- A requested directory in which the diff has noted something has been read: its tree object is in the
local store. -/
def ReadByDiff (present : Tree → Bool) (C T : Tree) (scopes : List Path) : Prop :=
  ∀ s ∈ scopes, ∀ t m, C.at s = some (.tree t m) → ∀ n r row, Notes C T (s ++ n :: r) row →
    present t = true

/-- **`ls_remote_exact_iff`** — the `R` column of a listing that comes through, whatever is requested and
whatever of the clone root is in the local store. -/
theorem ls_remote_exact_iff {opts : LsOptions} {cached : Path → Bool} {C R W T : Tree}
    {requested : List Path} (hC : C.Wf) (hR : R.Wf) (hW : W.Wf)
    (hscan : scanScopedForLs W C (anchored requested) = .ok T)
    (hread : ReadByDiff opts.present C T (scopesOf (anchored requested))) {rows : List Row}
    (hls : ls opts (fetchRemoteStatusMap cached C R) C W requested = .ok rows) :
    RemoteExact C R opts.recursive (scopesOf (anchored requested)) rows ↔
      RemoteShows (listing opts (fetchRemoteStatusMap cached C R (scopesOf (anchored requested))) C T
        (scopesOf (anchored requested))) cached C R T (scopesOf (anchored requested)) := by
  have hT : T.Wf := wf_of_scan hC hW hscan
  let l := listing opts (fetchRemoteStatusMap cached C R (scopesOf (anchored requested))) C T
    (scopesOf (anchored requested))
  have hbeside : Beside l cached C R T (scopesOf (anchored requested))
      (opts.changes.sort l.diffMap) (opts.news.sort l.remoteAdded) := by
    refine ⟨hC, hR, hT, rfl, rfl, fun x => ?_, fun x => (opts.news.perm _).mem_iff, hread⟩
    rw [(opts.changes.perm _).mem_iff]
    show (x.1, x.2) ∈ diffTrees (some C) T _ ↔ _
    rw [mem_diffTrees (show ((some C).getD .nil).Wf from hC) hT, ScopeFilter.inScope_iff]
    rfl
  unfold ls at hls
  rw [hscan] at hls
  exact hbeside.exact_iff hls

/-- A directory with one file, and another file. -/
def dirAndFile (h : Hash) : Tree :=
  .tree "d" (.blob "f" ⟨h, none, 1, none⟩ .nil) ⟨none, 1, 1⟩ (.blob "g" ⟨3, none, 1, none⟩ .nil)

theorem wf_dirAndFile (h : Hash) : (dirAndFile h).Wf :=
  ⟨by decide, ⟨by decide, .inl rfl, trivial⟩, ⟨by decide, .inl rfl, trivial⟩⟩

/-- The remote has changed a file and added another. -/
theorem changed_and_added_shown :
    RemoteExact (dirWith 1) (dirAndFile 2) false [[]]
      [⟨[], false, .blank, .modified⟩, ⟨["d"], true, .blank, .modified⟩,
        ⟨["g"], false, .blank, .added⟩] := by
  refine (@ls_remote_exact_iff oneChange (fun _ => true) (dirWith 1) (dirAndFile 2) (dirWith 1)
    (dirWith 1) [] (wf_dirWith 1) (wf_dirAndFile 2) (wf_dirWith 1) rfl
    (fun _ _ _ _ _ _ _ _ _ => rfl) _ (by decide)).mpr ?_
  have hvisible : ∀ q, ¬ Hidden (fun _ => true) (dirWith 1) (dirAndFile 2) q := by
    rintro q ⟨a, n, r, -, hc, -⟩
    cases hc
  refine ⟨fun _ _ => ⟨"d", ?_⟩, fun s hs e he q c hw => ⟨hvisible q, ?_⟩, fun s hs hnone => ?_,
    ?_, fun q _ _ _ _ => hvisible q, fun q hq hC hR => .inl ?_⟩
  · rw [known_of_not_hidden (hvisible _)]
    decide
  · obtain rfl : s = [] := List.mem_singleton.mp hs
    obtain rfl : (dirWith 1).root = e := Option.some.inj he
    rcases hw with ⟨-, -, hne⟩ | ⟨-, -, r, rfl, hreach, hc⟩
    · exact absurd rfl hne
    · cases q with
      | nil => exact hreach.elim
      | cons n q =>
          cases q with
          | cons m q => cases hreach.1
          | nil =>
              by_cases hn : n = "d"
              · subst hn
                obtain rfl := Option.some.inj hc
                refine ⟨nofun, fun e' he' => ?_⟩
                rw [← Option.some.inj he']
                rfl
              · exact nomatch (at_dirWith_of_ne hn).symm.trans hc
  · obtain rfl : s = [] := List.mem_singleton.mp hs
    cases hnone
  · rintro p ⟨q, row, r, -, -, ⟨-, hrow⟩, -⟩
    rw [nodeRow_self] at hrow
    cases hrow
  · obtain ⟨hne, s, hs, -, hlisted⟩ := hq
    obtain rfl : s = [] := List.mem_singleton.mp hs
    rcases hlisted with hrec | heq | ⟨n, rfl⟩
    · cases hrec
    · exact absurd heq hne
    · exact .inr rfl

/-- **`removed_directory_blank`** — a directory that the remote no longer has: its row stays blank. -/
theorem removed_directory_blank :
    (dirWith 1).Wf ∧ Tree.nil.Wf ∧
      ls oneChange (fetchRemoteStatusMap (fun _ => true) (dirWith 1) .nil) (dirWith 1) (dirWith 1) [] =
        .ok [⟨[], false, .blank, .modified⟩, ⟨["d"], true, .blank, .blank⟩] ∧
      ¬ RemoteExact (dirWith 1) .nil false [[]]
        [⟨[], false, .blank, .modified⟩, ⟨["d"], true, .blank, .blank⟩] := by
  refine ⟨wf_dirWith 1, trivial, by decide, fun hexact => ?_⟩
  have hright := hexact.right ⟨["d"], true, .blank, .blank⟩ (by decide)
  cases hright

end Omemfs.Ls
