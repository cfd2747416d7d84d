/-
# Omemfs.Ls.Listed — all rows of a listing.

`Setting` gathers what a listing starts from: requested paths of which none lies above another, each
there in the clone root or the working tree, and the diff of the two.  The rows of the walk then have
different paths, and after the loop over the diff there are those rows, some marked, and the new ones
(`mem_finalRows`).
-/
import Omemfs.Ls.Walk

namespace Omemfs.Ls

open Omemfs Lib Sync

/-! ## Requested paths -/

/-- None of the requested paths lies at or above another. -/
def Apart (scopes : List Path) : Prop := scopes.Pairwise fun s t => ¬ s <+: t ∧ ¬ t <+: s

theorem Apart.eq_of_prefix {scopes : List Path} (h : Apart scopes) {s t q : Path} (hs : s ∈ scopes)
    (ht : t ∈ scopes) (hsq : s <+: q) (htq : t <+: q) : s = t := by
  have hcmp : s <+: t ∨ t <+: s := List.prefix_or_prefix_of_prefix hsq htq
  induction scopes with
  | nil => cases hs
  | cons a scopes ih =>
      obtain ⟨hhead, htail⟩ := List.pairwise_cons.mp h
      rcases List.mem_cons.mp hs with rfl | hs'
      · rcases List.mem_cons.mp ht with rfl | ht'
        · rfl
        · exact absurd hcmp (not_or.mpr (hhead t ht'))
      · rcases List.mem_cons.mp ht with rfl | ht'
        · exact absurd hcmp.symm (not_or.mpr (hhead s hs'))
        · exact ih htail hs' ht'

theorem Apart.scopeRoot_eq {scopes : List Path} (h : Apart scopes) {s p : Path} (hs : s ∈ scopes)
    (hsp : s <+: p) : Listing.scopeRoot scopes p = s := by
  unfold Listing.scopeRoot
  cases hf : scopes.find? fun s => s.isPrefixOf p with
  | none =>
      have hno := List.find?_eq_none.mp hf s hs
      exact absurd (List.isPrefixOf_iff_prefix.mpr hsp) hno
  | some t =>
      have htp : t <+: p := by simpa using List.find?_some (p := fun s => List.isPrefixOf s p) hf
      exact (h.eq_of_prefix hs (List.mem_of_find?_eq_some hf) hsp htp).symm

theorem isDirectChild_iff {p s : Path} (hs : s <+: p) :
    Listing.isDirectChild p s = true ↔ ∃ n, p = s ++ [n] := by
  obtain ⟨r, rfl⟩ := hs
  rw [Listing.isDirectChild, Bool.and_eq_true, List.isPrefixOf_iff_prefix, beq_iff_eq,
    List.length_append]
  constructor
  · rintro ⟨-, hlen⟩
    obtain ⟨n, rfl⟩ := List.length_eq_one_iff.mp (by omega : r.length = 1)
    exact ⟨n, rfl⟩
  · rintro ⟨n, heq⟩
    rw [List.append_cancel_left_eq] at heq
    subst heq
    exact ⟨List.prefix_append s [n], rfl⟩

/-! ## Where a change shows -/

namespace Listing

variable {l : Listing} {scopes : List Path} {s p : Path}

/-- A path in scope belongs to one of the requested ones. -/
theorem scopeRoot_spec (h : ∃ s ∈ scopes, s <+: p) :
    scopeRoot scopes p ∈ scopes ∧ scopeRoot scopes p <+: p := by
  unfold scopeRoot
  cases hf : scopes.find? fun s => s.isPrefixOf p with
  | none =>
      obtain ⟨s, hs, hsp⟩ := h
      exact absurd (List.isPrefixOf_iff_prefix.mpr hsp) (List.find?_eq_none.mp hf s hs)
  | some t =>
      refine ⟨List.mem_of_find?_eq_some hf, ?_⟩
      simpa using List.find?_some (p := fun s => List.isPrefixOf s p) hf

theorem direct_iff_of_root (hroot : scopeRoot scopes p = s) (hsp : s <+: p) :
    (l.recursive || isDirectChild p (scopeRoot scopes p)) = true ↔
      l.recursive = true ∨ ∃ n, p = s ++ [n] := by
  rw [hroot, Bool.or_eq_true, isDirectChild_iff hsp]

/-- A change shows at the directory above it that is a direct child of the requested path; the requested
path itself is taken for a path below itself. -/
theorem deeper_iff_of_root {x : Path × DiffRow} (hroot : scopeRoot scopes x.1 = s) (hsp : s <+: x.1)
    {dir : Path} : l.deeper scopes x = some dir ↔ l.recursive = false ∧
      ((∃ n m r, x.1 = s ++ n :: m :: r ∧ dir = s ++ [n]) ∨
        (x.1 = s ∧ ∃ n r, s = n :: r ∧ dir = s ++ [n])) := by
  have hdirect := direct_iff_of_root (l := l) hroot hsp
  obtain ⟨p, row⟩ := x
  obtain ⟨r, rfl⟩ : ∃ r, p = s ++ r := hsp.imp fun _ h => h.symm
  unfold deeper
  by_cases hrec : l.recursive = true
  · rw [if_pos (hdirect.mpr (.inl hrec))]
    simp [hrec]
  · have hfalse : l.recursive = false := Bool.not_eq_true _ ▸ hrec
    have hshown : shownDir s (s ++ r) =
        ((if r = [] then s else r).head?).map fun n => s ++ [n] := by
      unfold shownDir
      by_cases hr : r = []
      · subst hr
        simp
      · have hne : s ≠ s ++ r := fun heq => hr (by simpa using heq)
        simp [hr, hne]
    cases r with
    | nil =>
        rw [if_neg]
        · show shownDir (scopeRoot scopes (s ++ [])) (s ++ []) = some dir ↔ _
          rw [hroot, hshown, if_pos rfl]
          cases s with
          | nil => simp
          | cons n s => simp [hfalse, eq_comm]
        · rw [hdirect]
          rintro (hr | ⟨n, hn⟩)
          · exact hrec hr
          · simp at hn
    | cons n r =>
        cases r with
        | nil =>
            rw [if_pos (hdirect.mpr (.inr ⟨n, rfl⟩))]
            simp
        | cons m r =>
            rw [if_neg]
            · show shownDir (scopeRoot scopes _) (s ++ n :: m :: r) = some dir ↔ _
              rw [hroot, hshown, if_neg (by simp)]
              simp [hfalse, eq_comm]
            · rw [hdirect]
              rintro (hr | ⟨k, hk⟩)
              · exact hrec hr
              · simp at hk

/-- A new row is the change's own, or that of a directory that it shows at. -/
theorem newRow_iff_of_root {x : Path × DiffRow} (hroot : scopeRoot scopes x.1 = s) (hsp : s <+: x.1)
    {r : Row} : l.newRow scopes x = some r ↔
      ((l.recursive = true ∨ ∃ n, x.1 = s ++ [n]) ∧ ownRow x.1 x.2 = some r) ∨
      ∃ dir, l.deeper scopes x = some dir ∧ isAddition x.2 = true ∧
        r = ⟨dir, true, .added, .blank⟩ := by
  have hdirect := direct_iff_of_root (l := l) hroot hsp
  by_cases hd : (l.recursive || isDirectChild x.1 (scopeRoot scopes x.1)) = true
  · have hnone : l.deeper scopes x = none := if_pos hd
    unfold newRow
    rw [if_pos hd]
    simp [hnone, hdirect.mp hd]
  · have hno : ¬ (l.recursive = true ∨ ∃ n, x.1 = s ++ [n]) := fun hr => hd (hdirect.mpr hr)
    cases hdir : l.deeper scopes x with
    | none =>
        have hnew : l.newRow scopes x = none := by
          unfold newRow
          unfold deeper at hdir
          rw [if_neg hd] at hdir ⊢
          rw [hdir, Option.bind_none]
        simp [hnew, hno]
    | some dir =>
        rw [newRow_of_deeper hdir]
        simp only [hno, false_and, false_or, Option.some.injEq, exists_eq_left']
        split_ifs with hadd <;> simp [hadd, eq_comm]

end Listing

/-! ## The setting -/

/-- What is noted of a path shows at it as this mark. -/
def DiffRow.mark : DiffRow → Mark
  | .added => .added
  | .addedEmptyDir => .added
  | .modified => .modified
  | .deleted => .deleted

theorem notes_unique {C T : Tree} {q : Path} {row row' : DiffRow} (h : Notes C T q row)
    (h' : Notes C T q row') : row = row' :=
  Option.some.inj (h.2.symm.trans h'.2)

/-- A directory of the tree. -/
def IsDir (t : Tree) (q : Path) : Prop := ∃ u m, t.at q = some (.tree u m)

theorem isLeaf_of_not_isDir {t : Tree} {q : Path} (h : ¬ IsDir t q) (hne : t.at q ≠ none) :
    isLeaf (t.at q) = true := by
  obtain ⟨e, he⟩ := Option.ne_none_iff_exists'.mp hne
  rw [he]
  cases e with
  | blob b => rfl
  | symlink k => rfl
  | tree u m => exact absurd ⟨u, m, he⟩ h

theorem at_below_none {t : Tree} {q : Path} (h : ¬ IsDir t q) (n : String) (r : Path) :
    t.at (q ++ n :: r) = none := by
  by_contra hne
  exact h (Tree.isTree_of_at_append (List.cons_ne_nil n r) hne)

/-- What is new to the clone root is an addition. -/
theorem Notes.of_none {C T : Tree} {q : Path} {row : DiffRow} (h : Notes C T q row)
    (hC : C.at q = none) : Listing.isAddition row = true ∧ T.at q ≠ none := by
  obtain ⟨-, hrow⟩ := h
  rw [hC] at hrow
  cases hT : T.at q with
  | none =>
      rw [hT] at hrow
      cases hrow
  | some e =>
      rw [hT] at hrow
      refine ⟨?_, nofun⟩
      cases e with
      | blob b => cases hrow; rfl
      | symlink k => cases hrow; rfl
      | tree u m =>
          rw [nodeRow] at hrow
          split_ifs at hrow
          cases hrow
          rfl

/-- A directory of the clone root is noted only as replaced by a file or symlink. -/
theorem Notes.of_isDir {C T : Tree} {q : Path} {row : DiffRow} (h : Notes C T q row)
    (hC : IsDir C q) : isLeaf (T.at q) = true ∧ row = .modified := by
  obtain ⟨-, hrow⟩ := h
  obtain ⟨u, m, hu⟩ := hC
  rw [hu] at hrow
  cases hT : T.at q with
  | none =>
      rw [hT] at hrow
      cases hrow
  | some e =>
      rw [hT] at hrow
      cases e with
      | blob b => cases hrow; exact ⟨rfl, rfl⟩
      | symlink k => cases hrow; exact ⟨rfl, rfl⟩
      | tree v k => simp [nodeRow, baseTreeOf] at hrow

theorem Notes.not_leaf {C T : Tree} {q : Path} {n : String} {r : Path} {row : DiffRow}
    (h : Notes C T (q ++ n :: r) row) : isLeaf (T.at q) = false := by
  cases hl : isLeaf (T.at q) with
  | false => rfl
  | true => exact absurd ⟨q, n, r, rfl, hl⟩ h.1

/-- Nothing is noted below what is noted. -/
theorem Notes.not_below {C T : Tree} {q : Path} {n : String} {r : Path} {row row' : DiffRow}
    (h : Notes C T q row) (h' : Notes C T (q ++ n :: r) row') : False := by
  have hT : isLeaf (T.at q) = false := h'.not_leaf
  have hC : ¬ IsDir C q := fun hdir => by
    rw [(h.of_isDir hdir).1] at hT
    cases hT
  have hbelow := (h'.of_none (at_below_none hC n r)).2
  obtain ⟨u, m, hu⟩ := Tree.isTree_of_at_append (List.cons_ne_nil n r) hbelow
  have hrow := h.2
  rw [hu, nodeRow] at hrow
  split_ifs at hrow with hnil
  rw [Tree.at_append, hu, hnil.2] at hbelow
  exact hbelow rfl

/-- A listing of the clone root `C`, made from a scan that gave `T`.  `changes` is the diff in the order
of the loop. -/
structure Setting (l : Listing) (C T : Tree) (scopes : List Path) (changes : List (Path × DiffRow)) :
    Prop where
  root_wf : C.Wf
  working_wf : T.Wf
  apart : Apart scopes
  /-- a requested path is reached through directories -/
  isOpen : ∀ s ∈ scopes, ¬ LeafAbove T s
  named : ∀ s ∈ scopes, C.at s ≠ none ∨ T.at s ≠ none
  reachable : ∀ s ∈ scopes, ¬ Tree.BlobAbove C s
  diffMap : ∀ x, x ∈ l.diffMap ↔ (∃ s ∈ scopes, s <+: x.1) ∧ x.1 ≠ [] ∧ Notes C T x.1 x.2
  changes : ∀ x, x ∈ changes ↔ x ∈ l.diffMap
  /-- what the diff has gone through is in the store -/
  held : ∀ s ∈ scopes, ∀ q, s <+: q → ∀ t m, C.at q = some (.tree t m) → ¬ LeafAbove T q →
    isLeaf (T.at q) = false → l.present t = true
  /-- and so is what the scan has found -/
  scanned : ∀ s ∈ scopes, ∀ q, s <+: q → ∀ t m, T.at q = some (.tree t m) → l.present t = true
  noNews : l.remoteAdded = []

namespace Setting

variable {l : Listing} {C T : Tree} {scopes : List Path} {changes : List (Path × DiffRow)}
  {s p q : Path}

theorem change_iff (h : Setting l C T scopes changes) (hs : s ∈ scopes) (hsp : s <+: p) (hp : p ≠ [])
    (row : DiffRow) : (p, row) ∈ changes ↔ Notes C T p row := by
  rw [h.changes, h.diffMap]
  exact ⟨fun hx => hx.2.2, fun hx => ⟨⟨s, hs, hsp⟩, hp, hx⟩⟩

/-- **`statusChar_eq`** — the mark of a path with a row in the walk. -/
theorem statusChar_eq (h : Setting l C T scopes changes) (hs : s ∈ scopes) (hsp : s <+: p)
    (hp : p ≠ []) (hopen : ¬ LeafAbove T p) :
    l.statusChar p = ((nodeRow (C.at p) (T.at p)).map DiffRow.mark).getD .blank := by
  have hin : ∀ row, (p, row) ∈ l.diffMap ↔ nodeRow (C.at p) (T.at p) = some row := by
    intro row
    rw [← h.changes, h.change_iff hs hsp hp]
    exact and_iff_right hopen
  unfold Listing.statusChar
  cases hl : l.diffMap.lookup p with
  | none =>
      have hno : nodeRow (C.at p) (T.at p) = none := by
        rw [Option.eq_none_iff_forall_ne_some]
        intro row hrow
        have hfresh := List.lookup_eq_none_iff.mp hl _ ((hin row).mpr hrow)
        simp at hfresh
      rw [hno]
      rfl
  | some row =>
      obtain ⟨l₁, l₂, hsplit, -⟩ := List.lookup_eq_some_iff.mp hl
      have hmem : (p, row) ∈ l.diffMap := by simp [hsplit]
      rw [(hin row).mp hmem]
      cases row <;> rfl

/-! ## The rows of the walk -/

/-- What a requested path leads to, and the mark that is forced on everything below. -/
def targetEntry (C T : Tree) (s : Path) : Option (TreeEntry × Option Mark) :=
  match C.at s with
  | some e => some (e, none)
  | none => (T.at s).map fun e => (e, some .added)

def headRow (l : Listing) (e : TreeEntry) (force : Option Mark) (s : Path) : Row :=
  if s = [] then l.rootRow else if e.isTree then l.selfRow force s else l.leafRow force s

def rowsOf (l : Listing) (C T : Tree) (s : Path) : List Row :=
  if s = [] then l.rootRow :: (if l.present C then l.collectTreeRows none C [] else [])
  else
    match targetEntry C T s with
    | some (e, force) => l.entryRows e force s
    | none => []

theorem navigateWorking_eq (hopen : ¬ LeafAbove T s) (hs : s ≠ []) :
    Listing.navigateWorking T s = T.at s := by
  have hblob : ¬ Tree.BlobAbove T s := by
    rintro ⟨a, n, r, b, rfl, ha⟩
    exact hopen ⟨a, n, r, rfl, by rw [ha]; rfl⟩
  unfold Listing.navigateWorking
  obtain ⟨o, ho⟩ := (Tree.navigateEntry_eq_ok_iff hs).mpr hblob
  rw [ho, Tree.at_of_navigateEntry hs ho]

/-- Where there is something at the requested path, its rows are listed. -/
theorem targetRows_eq (h : Setting l C T scopes changes) (hs : s ∈ scopes) :
    l.targetRows C T s = .ok (rowsOf l C T s) := by
  unfold Listing.targetRows rowsOf
  by_cases hnil : s = []
  · rw [if_pos hnil, if_pos hnil]
  · rw [if_neg hnil, if_neg hnil]
    obtain ⟨o, ho⟩ := (Tree.navigateEntry_eq_ok_iff hnil).mpr (h.reachable s hs)
    have hat := Tree.at_of_navigateEntry hnil ho
    have hwork := navigateWorking_eq (h.isOpen s hs) hnil
    have hnews : l.lookupRemoteAdded s = none := by simp [Listing.lookupRemoteAdded, h.noNews]
    unfold Listing.resolveTarget targetEntry
    rw [ho, hat, hwork, hnews]
    cases o with
    | some e => rfl
    | none =>
        cases hT : T.at s with
        | none => exact absurd hT ((h.named s hs).resolve_left (not_not.mpr hat))
        | some e => cases l.working <;> rfl

theorem targetEntry_wf (h : Setting l C T scopes changes) {e : TreeEntry} {force : Option Mark}
    (he : targetEntry C T s = some (e, force)) : e.Wf := by
  have hroot : ∀ {t : Tree}, t.Wf → t.root.Wf := fun ht => ht
  unfold targetEntry at he
  cases hC : C.at s with
  | some c =>
      rw [hC] at he
      cases he
      exact (hroot h.root_wf).of_at hC
  | none =>
      rw [hC] at he
      obtain ⟨c, hc, heq⟩ := Option.map_eq_some_iff.mp he
      cases heq
      exact (hroot h.working_wf).of_at hc

theorem exists_targetEntry (h : Setting l C T scopes changes) (hs : s ∈ scopes) :
    ∃ e force, targetEntry C T s = some (e, force) := by
  unfold targetEntry
  rcases h.named s hs with hC | hT
  · obtain ⟨e, he⟩ := Option.ne_none_iff_exists'.mp hC
    exact ⟨e, none, by rw [he]⟩
  · obtain ⟨e, he⟩ := Option.ne_none_iff_exists'.mp hT
    cases hC : C.at s with
    | some c => exact ⟨c, none, rfl⟩
    | none => exact ⟨e, some .added, by rw [he]; rfl⟩

/-- **`mem_rowsOf`** — the row of a requested path, and those below it. -/
theorem mem_rowsOf (h : Setting l C T scopes changes) {e : TreeEntry} {force : Option Mark}
    (he : targetEntry C T s = some (e, force)) {r : Row} :
    r ∈ rowsOf l C T s ↔ r = headRow l e force s ∨
      (e.isTree = true ∧ l.present e.children = true ∧ ∃ q c, l.Reached e.children q ∧
        e.children.at q = some c ∧ r = l.walkRow force (s ++ q) c) := by
  unfold rowsOf headRow
  by_cases hnil : s = []
  · subst hnil
    have hroot : e = C.root ∧ force = none := by
      have heq : some (C.root, (none : Option Mark)) = some (e, force) := he
      exact ⟨(Prod.mk.inj (Option.some.inj heq)).1.symm, (Prod.mk.inj (Option.some.inj heq)).2.symm⟩
    obtain ⟨rfl, rfl⟩ := hroot
    rw [if_pos rfl, if_pos rfl, List.mem_cons]
    refine or_congr_right ?_
    show r ∈ (if l.present C then l.collectTreeRows none C [] else []) ↔
      true = true ∧ l.present C = true ∧ _
    by_cases hp : l.present C = true
    · rw [if_pos hp, Listing.mem_collectTreeRows h.root_wf]
      simp only [hp, true_and]
      rfl
    · simp [hp]
  · rw [if_neg hnil, if_neg hnil, he]
    exact Listing.mem_entryRows (h.targetEntry_wf he)

theorem nodup_rowsOf (h : Setting l C T scopes changes) (hs : s ∈ scopes) :
    ((rowsOf l C T s).map Row.path).Nodup ∧ ∀ r ∈ rowsOf l C T s, s <+: r.path := by
  obtain ⟨e, force, he⟩ := h.exists_targetEntry hs
  have hwf := h.targetEntry_wf he
  unfold rowsOf
  by_cases hnil : s = []
  · subst hnil
    rw [if_pos rfl]
    refine ⟨?_, fun r _ => List.nil_prefix⟩
    split_ifs
    · refine List.nodup_cons.mpr ⟨fun hin => ?_, Listing.nodup_collectTreeRows h.root_wf []⟩
      obtain ⟨r, hr, heq⟩ := List.mem_map.mp hin
      obtain ⟨q, c, hq, -, rfl⟩ := (Listing.mem_collectTreeRows h.root_wf).mp hr
      rw [Listing.path_walkRow, List.nil_append] at heq
      subst heq
      exact hq
    · exact List.nodup_singleton _
  · rw [if_neg hnil, he]
    exact ⟨Listing.nodup_entryRows hwf force s, fun r hr => Listing.prefix_of_mem_entryRows hwf hr⟩

/-- The rows before the diff is gone through. -/
def baseRows (l : Listing) (C T : Tree) (scopes : List Path) : List Row :=
  (scopes.map (rowsOf l C T)).flatten

theorem mem_baseRows {r : Row} : r ∈ baseRows l C T scopes ↔ ∃ s ∈ scopes, r ∈ rowsOf l C T s := by
  simp [baseRows]

theorem nodup_baseRows (h : Setting l C T scopes changes) :
    ((baseRows l C T scopes).map Row.path).Nodup := by
  have hall := fun s hs => h.nodup_rowsOf (s := s) hs
  have hapart := h.apart
  clear h
  unfold baseRows
  induction scopes with
  | nil => exact List.nodup_nil
  | cons s scopes ih =>
      obtain ⟨hhead, htail⟩ := List.pairwise_cons.mp hapart
      rw [List.map_cons, List.flatten_cons, List.map_append]
      refine List.Nodup.append (hall s (List.mem_cons_self ..)).1
        (ih (fun t ht => hall t (List.mem_cons_of_mem _ ht)) htail) fun p hp hp' => ?_
      obtain ⟨r, hr, rfl⟩ := List.mem_map.mp hp
      obtain ⟨r', hr', heq⟩ := List.mem_map.mp hp'
      obtain ⟨rows, hrows, hr'⟩ := List.mem_flatten.mp hr'
      obtain ⟨t, ht, rfl⟩ := List.mem_map.mp hrows
      have hsp := (hall s (List.mem_cons_self ..)).2 r hr
      have htp := (hall t (List.mem_cons_of_mem _ ht)).2 r' hr'
      rw [heq] at htp
      exact absurd (List.prefix_or_prefix_of_prefix hsp htp) (not_or.mpr (hhead t ht))

theorem nodup_keys (h : Setting l C T scopes changes) :
    ((baseRows l C T scopes).map Row.key).Nodup := by
  have hpath : (baseRows l C T scopes).map Row.path =
      ((baseRows l C T scopes).map Row.key).map Prod.fst := by
    rw [List.map_map]
    rfl
  exact List.Nodup.of_map Prod.fst (hpath ▸ h.nodup_baseRows)

/-- The rows of the whole listing. -/
def finalRows (l : Listing) (C T : Tree) (scopes : List Path) (changes : List (Path × DiffRow)) :
    List Row :=
  (changes.foldl (l.showChange scopes) (baseRows l C T scopes, [])).1

theorem run_eq (h : Setting l C T scopes changes) :
    l.run C T scopes changes [] = .ok (finalRows l C T scopes changes) := by
  unfold Listing.run
  have htargets : scopes.mapM (l.targetRows C T) = .ok (scopes.map (rowsOf l C T)) := by
    rw [mapM_eq_ok, List.forall₂_map_right_iff, List.forall₂_same]
    exact fun s hs => h.targetRows_eq hs
  rw [htargets]
  rfl

/-! ## Where a change shows -/

theorem direct_iff (h : Setting l C T scopes changes) (hs : s ∈ scopes) (hsp : s <+: p) :
    (l.recursive || Listing.isDirectChild p (Listing.scopeRoot scopes p)) = true ↔
      l.recursive = true ∨ ∃ n, p = s ++ [n] :=
  Listing.direct_iff_of_root (h.apart.scopeRoot_eq hs hsp) hsp

theorem deeper_iff (h : Setting l C T scopes changes) (hs : s ∈ scopes) {x : Path × DiffRow}
    (hsp : s <+: x.1) {dir : Path} : l.deeper scopes x = some dir ↔ l.recursive = false ∧
      ((∃ n m r, x.1 = s ++ n :: m :: r ∧ dir = s ++ [n]) ∨
        (x.1 = s ∧ ∃ n r, s = n :: r ∧ dir = s ++ [n])) :=
  Listing.deeper_iff_of_root (h.apart.scopeRoot_eq hs hsp) hsp

theorem newRow_iff (h : Setting l C T scopes changes) (hs : s ∈ scopes) {x : Path × DiffRow}
    (hsp : s <+: x.1) {r : Row} : l.newRow scopes x = some r ↔
      ((l.recursive = true ∨ ∃ n, x.1 = s ++ [n]) ∧ Listing.ownRow x.1 x.2 = some r) ∨
      ∃ dir, l.deeper scopes x = some dir ∧ Listing.isAddition x.2 = true ∧
        r = ⟨dir, true, .added, .blank⟩ :=
  Listing.newRow_iff_of_root (h.apart.scopeRoot_eq hs hsp) hsp

/-! ## The rows at a path -/

theorem targetEntry_of_some {e : TreeEntry} (hC : C.at s = some e) :
    targetEntry C T s = some (e, none) := by
  rw [targetEntry, hC]

theorem targetEntry_of_none (hC : C.at s = none) :
    targetEntry C T s = (T.at s).map fun e => (e, some .added) := by
  rw [targetEntry, hC]

/-- What the walk gets to has a row. -/
theorem mem_base_of_reached (h : Setting l C T scopes changes) (hs : s ∈ scopes) {t : Tree}
    {m : TreeMeta} {force : Option Mark} (he : targetEntry C T s = some (.tree t m, force))
    (hp : l.present t = true) {r : Path} (hr : l.Reached t r) {c : TreeEntry} (hc : t.at r = some c) :
    l.walkRow force (s ++ r) c ∈ baseRows l C T scopes :=
  mem_baseRows.mpr ⟨s, hs, (h.mem_rowsOf he).mpr (.inr ⟨rfl, hp, r, c, hr, hc, rfl⟩)⟩

theorem head_mem_base (h : Setting l C T scopes changes) (hs : s ∈ scopes) {e : TreeEntry}
    {force : Option Mark} (he : targetEntry C T s = some (e, force)) :
    headRow l e force s ∈ baseRows l C T scopes :=
  mem_baseRows.mpr ⟨s, hs, (h.mem_rowsOf he).mpr (.inl rfl)⟩

theorem path_headRow (e : TreeEntry) (force : Option Mark) (s : Path) :
    (headRow l e force s).path = s := by
  unfold headRow
  split_ifs with hs
  · exact hs.symm
  · rfl
  · rfl

/-- **`base_cases`** — a row of the walk is that of the requested path, or of what the walk has got to
below it. -/
theorem base_cases (h : Setting l C T scopes changes) (hs : s ∈ scopes) {e : TreeEntry}
    {force : Option Mark} (he : targetEntry C T s = some (e, force)) {b : Row}
    (hb : b ∈ baseRows l C T scopes) (hsb : s <+: b.path) : b = headRow l e force s ∨
      (l.present e.children = true ∧ ∃ n r c, l.Reached e.children (n :: r) ∧
        e.at (n :: r) = some c ∧ b = l.walkRow force (s ++ n :: r) c) := by
  obtain ⟨s', hs', hb⟩ := mem_baseRows.mp hb
  obtain rfl := h.apart.eq_of_prefix hs hs' hsb ((h.nodup_rowsOf hs').2 b hb)
  rcases (h.mem_rowsOf he).mp hb with hhead | ⟨-, hp, r, c, hr, hc, hrow⟩
  · exact .inl hhead
  · cases r with
    | nil => exact hr.elim
    | cons n r => exact .inr ⟨hp, n, r, c, hr, hc, hrow⟩

/-- The tree object of a requested directory that is not replaced by a file is in the store. -/
theorem present_of_open (h : Setting l C T scopes changes) (hs : s ∈ scopes) {t : Tree} {m : TreeMeta}
    (hC : C.at s = some (.tree t m)) (hT : isLeaf (T.at s) = false) : l.present t = true :=
  h.held s hs s List.prefix_rfl t m hC (h.isOpen s hs) hT

theorem unmixed (h : Setting l C T scopes changes) :
    l.Unmixed scopes (baseRows l C T scopes) changes := by
  intro x hx y hy dir hxd hyd hno
  obtain ⟨⟨s, hs, hsx⟩, -, hnx⟩ := (h.diffMap x).mp ((h.changes x).mp hx)
  obtain ⟨⟨s', hs', hsy⟩, -, hny⟩ := (h.diffMap y).mp ((h.changes y).mp hy)
  obtain ⟨-, hx'⟩ := (h.deeper_iff hs hsx).mp hxd
  obtain ⟨-, hy'⟩ := (h.deeper_iff hs' hsy).mp hyd
  have hparent : ∀ {s s' : Path} {n n' : String}, s ++ [n] = s' ++ [n'] → s = s' ∧ n = n' :=
    fun heq => by simpa using List.append_inj' heq rfl
  -- strictly below a directory of the clone root with no row
  have hadd : ∀ {s : Path} {n m : String} {r : Path} {row : DiffRow}, s ∈ scopes →
      dir = s ++ [n] → Notes C T (s ++ n :: m :: r) row → Listing.isAddition row = true := by
    intro s n m r row hs hdir hnotes
    have hsplit : s ++ n :: m :: r = (s ++ [n]) ++ m :: r := by simp
    by_cases hC : IsDir C (s ++ [n])
    · obtain ⟨u, k, hu⟩ := hC
      obtain ⟨t, j, ht⟩ := Tree.isTree_of_at_append (p := s) (List.cons_ne_nil n [])
        (by rw [hu]; exact nofun)
      have hrow := h.mem_base_of_reached hs (targetEntry_of_some ht)
        (h.present_of_open hs ht hnotes.not_leaf) (r := [n]) trivial (c := .tree u k)
        (by rw [Tree.at_append, ht] at hu; exact hu)
      exact absurd (List.mem_map_of_mem (f := Row.key) hrow) (hdir ▸ hno)
    · rw [hsplit] at hnotes
      exact (hnotes.of_none (at_below_none hC m r)).1
  rcases hx' with ⟨n, m, r, hxp, hxdir⟩ | ⟨hxs, n, r, -, hxdir⟩
  · rcases hy' with ⟨n', m', r', hyp, hydir⟩ | ⟨hys, n', r', -, hydir⟩
    · rw [hadd hs hxdir (hxp ▸ hnx), hadd hs' hydir (hyp ▸ hny)]
    · obtain ⟨rfl, rfl⟩ := hparent (hxdir.symm.trans hydir)
      rw [hxp] at hnx
      rw [hys] at hny
      exact (hny.not_below hnx).elim
  · rcases hy' with ⟨n', m', r', hyp, hydir⟩ | ⟨hys, n', r', -, hydir⟩
    · obtain ⟨rfl, rfl⟩ := hparent (hxdir.symm.trans hydir)
      rw [hxs] at hnx
      rw [hyp] at hny
      exact (hnx.not_below hny).elim
    · obtain ⟨rfl, -⟩ := hparent (hxdir.symm.trans hydir)
      rw [hxs] at hnx
      rw [hys] at hny
      rw [notes_unique hnx hny]

/-- **`mem_finalRows`** — the rows of the walk, some of them marked, and the new ones. -/
theorem mem_finalRows (h : Setting l C T scopes changes) {r : Row} :
    r ∈ finalRows l C T scopes changes ↔
      (∃ b ∈ baseRows l C T scopes, r = l.bumped scopes changes b) ∨
      (r.key ∉ (baseRows l C T scopes).map Row.key ∧ ∃ x ∈ changes, l.newRow scopes x = some r) :=
  (Listing.shown_spec h.nodup_keys h.unmixed).mem r

theorem nodup_finalRows (h : Setting l C T scopes changes) :
    ((finalRows l C T scopes changes).map Row.key).Nodup :=
  (Listing.shown_spec h.nodup_keys h.unmixed).nodup

end Setting

end Omemfs.Ls
