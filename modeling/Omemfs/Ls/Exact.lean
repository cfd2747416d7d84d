/-
# Omemfs.Ls.Exact — when the `X` column of `ls` is right.

Three kinds of change do not show as they should: a directory that has become a file, or a file a
directory; a directory without files that is gone; and, with `-r`, anything below a directory of the clone
root, whose own row stays blank, and a new directory that is not empty, which has no row.  Without `-r` a
requested path that is a new file or a new empty directory has a row too many.  Everything else is
exact (`ls_shows_changes_iff`).
-/
import Omemfs.Ls.Listed

namespace Omemfs.Ls

open Omemfs Lib Fsguard Sync

/-! ## Differences -/

/-- What is compared of a path: its kind, and of a file or symlink the hash, the mode and the target. -/
def kindAt (t : Tree) (q : Path) : Option (Kind Leaf) := (t.at q).map entryKind

/-- The two differ at the path or below it. -/
def Differs (C W : Tree) (q : Path) : Prop := ∃ r, kindAt C (q ++ r) ≠ kindAt W (q ++ r)

/-- They differ below the path, and not only in directories that are gone. -/
def ShowsBelow (C W : Tree) (q : Path) : Prop :=
  ∃ n r, kindAt C (q ++ n :: r) ≠ kindAt W (q ++ n :: r) ∧
    ¬ (IsDir C (q ++ n :: r) ∧ W.at (q ++ n :: r) = none)

theorem ShowsBelow.differs {C W : Tree} {q : Path} (h : ShowsBelow C W q) : Differs C W q := by
  obtain ⟨n, r, hne, -⟩ := h
  exact ⟨n :: r, hne⟩

theorem ne_of_nodeRow {b t : Option TreeEntry} {row : DiffRow} (h : nodeRow b t = some row) :
    b.map entryKind ≠ t.map entryKind ∧ ¬ ((∃ u m, b = some (.tree u m)) ∧ t = none) := by
  cases t with
  | none =>
      cases b with
      | none => cases h
      | some e => cases e <;> simp_all [nodeRow, isLeaf]
  | some e =>
      refine ⟨?_, fun hb => by cases hb.2⟩
      cases e with
      | blob x =>
          cases b with
          | none => simp
          | some c =>
              cases c with
              | blob y =>
                  simp only [nodeRow, blobRow] at h
                  split_ifs at h with hne
                  simp only [Option.map_some, entryKind, ne_eq, Option.some.injEq, Kind.leaf.injEq,
                    Leaf.file.injEq, not_and_or]
                  exact hne
              | tree u m => simp [entryKind]
              | symlink k => simp [entryKind, linkLeaf]
      | symlink x =>
          cases b with
          | none => simp
          | some c =>
              cases c with
              | blob y => simp [entryKind, linkLeaf]
              | tree u m => simp [entryKind]
              | symlink y =>
                  simp only [nodeRow, symlinkRow] at h
                  split_ifs at h with hne
                  simpa [entryKind, linkLeaf] using hne
      | tree u m =>
          cases b with
          | none => simp
          | some c => cases c <;> simp_all [nodeRow, baseTreeOf, entryKind]

/-- What differs is noted, but for a directory that is gone or one that is new and not empty. -/
theorem nodeRow_of_ne {b t : Option TreeEntry} (h : b.map entryKind ≠ t.map entryKind)
    (hgone : ¬ ((∃ u m, b = some (.tree u m)) ∧ t = none))
    (hnew : ∀ u m, t = some (.tree u m) → u = .nil) : ∃ row, nodeRow b t = some row := by
  cases t with
  | none =>
      cases b with
      | none => exact absurd rfl h
      | some e =>
          cases e with
          | tree u m => exact absurd ⟨⟨u, m, rfl⟩, rfl⟩ hgone
          | blob x => exact ⟨_, rfl⟩
          | symlink x => exact ⟨_, rfl⟩
  | some e =>
      cases e with
      | blob x =>
          cases b with
          | none => exact ⟨_, rfl⟩
          | some c =>
              cases c with
              | tree u m => exact ⟨_, rfl⟩
              | symlink k => exact ⟨_, rfl⟩
              | blob y =>
                  refine ⟨.modified, if_pos ?_⟩
                  simpa [entryKind, ← not_and_or] using h
      | symlink x =>
          cases b with
          | none => exact ⟨_, rfl⟩
          | some c =>
              cases c with
              | tree u m => exact ⟨_, rfl⟩
              | blob k => exact ⟨_, rfl⟩
              | symlink y =>
                  refine ⟨.modified, if_pos ?_⟩
                  simpa [entryKind, linkLeaf] using h
      | tree u m =>
          obtain rfl := hnew u m rfl
          cases b with
          | none => exact ⟨_, rfl⟩
          | some c =>
              cases c with
              | tree v k => exact absurd rfl h
              | blob x => exact ⟨_, rfl⟩
              | symlink x => exact ⟨_, rfl⟩

/-- A file above something inside a directory is in that directory. -/
theorem leafAbove_of_append {T u : Tree} {p : Path} {m : TreeMeta} (hp : T.at p = some (.tree u m))
    {k : String} {r : Path} (h : LeafAbove T (p ++ k :: r)) : LeafAbove u (k :: r) := by
  obtain ⟨a, n, r', heq, hleaf⟩ := h
  have hap : a <+: p ++ k :: r := ⟨n :: r', heq.symm⟩
  rcases List.prefix_or_prefix_of_prefix hap (List.prefix_append p (k :: r)) with ha | ha
  · obtain ⟨b, rfl⟩ := ha
    cases b with
    | nil =>
        rw [List.append_nil] at hp
        rw [hp] at hleaf
        cases hleaf
    | cons x b =>
        have hopen := @not_leafAbove_of_at T (a ++ x :: b) (by rw [hp]; exact nofun)
        exact absurd ⟨a, x, b, rfl, hleaf⟩ hopen
  · obtain ⟨b, rfl⟩ := ha
    rw [List.append_assoc, List.append_cancel_left_eq] at heq
    refine ⟨b, n, r', heq, ?_⟩
    rw [Tree.at_append, hp] at hleaf
    cases b <;> exact hleaf

theorem shows_of_notes {C W : Tree} {q : Path} {n : String} {r : Path} {row : DiffRow}
    (h : Notes C W (q ++ n :: r) row) : ShowsBelow C W q := by
  obtain ⟨hne, hgone⟩ := ne_of_nodeRow h.2
  exact ⟨n, r, hne, hgone⟩

/-- In a new directory that is not empty something is noted. -/
theorem notes_below_new {C W : Tree} {q : Path} {u : Tree} {m : TreeMeta}
    (hW : W.at q = some (.tree u m)) (hu : u ≠ .nil) (hC : ¬ IsDir C q) :
    ∃ n r row, Notes C W (q ++ n :: r) row := by
  obtain ⟨n, r, row, hno, hrow⟩ := exists_notes_of_ne_nil hu
  refine ⟨n, r, row, fun habove => hno (leafAbove_of_append hW habove), ?_⟩
  rw [at_below_none hC, Tree.at_append, hW]
  exact hrow

/-- **`notes_of_shows`** — a difference below a directory is noted somewhere below it. -/
theorem notes_of_shows {C W : Tree} {q : Path} (hopen : ¬ LeafAbove W q)
    (hleaf : isLeaf (W.at q) = false) (h : ShowsBelow C W q) :
    ∃ n r row, Notes C W (q ++ n :: r) row := by
  obtain ⟨n, r, hne, hgone⟩ := h
  by_cases habove : LeafAbove W (q ++ n :: r)
  · -- the file stands in the place of a directory
    obtain ⟨a, k, r', heq, ha⟩ := habove
    have hleafdir : ¬ IsDir W a := by
      rintro ⟨u, m, hu⟩
      rw [hu] at ha
      cases ha
    have hap : a <+: q ++ n :: r := ⟨k :: r', heq.symm⟩
    rcases List.prefix_or_prefix_of_prefix hap (List.prefix_append q (n :: r)) with hpre | hpre
    · obtain ⟨b, rfl⟩ := hpre
      cases b with
      | nil =>
          rw [List.append_nil, ha] at hleaf
          cases hleaf
      | cons x b => exact absurd ⟨a, x, b, rfl, ha⟩ hopen
    · obtain ⟨b, rfl⟩ := hpre
      cases b with
      | nil =>
          rw [List.append_nil] at ha
          rw [ha] at hleaf
          cases hleaf
      | cons x b =>
          have hC : IsDir C (q ++ x :: b) := by
            refine Tree.isTree_of_at_append (List.cons_ne_nil k r') fun hno => hne ?_
            rw [heq, kindAt, kindAt, hno, at_below_none hleafdir]
          refine ⟨x, b, .modified, not_leafAbove_of_at (fun hno => ?_), ?_⟩
          · rw [hno] at ha
            cases ha
          · obtain ⟨u, m, hu⟩ := hC
            rw [hu]
            cases hW : W.at (q ++ x :: b) with
            | none =>
                rw [hW] at ha
                cases ha
            | some e => cases e <;> first | rfl | (rw [hW] at ha; cases ha)
  · by_cases hnew : ∃ u m, W.at (q ++ n :: r) = some (.tree u m) ∧ u ≠ .nil
    · obtain ⟨u, m, hu, hnil⟩ := hnew
      have hC : ¬ IsDir C (q ++ n :: r) := by
        rintro ⟨v, j, hv⟩
        exact hne (by rw [kindAt, kindAt, hu, hv]; rfl)
      obtain ⟨k, r', row, hnotes⟩ := notes_below_new hu hnil hC
      exact ⟨n, r ++ k :: r', row, by simpa using hnotes⟩
    · obtain ⟨row, hrow⟩ := nodeRow_of_ne hne hgone fun u m hu => by
        by_contra hnil
        exact hnew ⟨u, m, hu, hnil⟩
      exact ⟨n, r, row, habove, hrow⟩

/-! ## What is right -/

/-- The mark of a path, by the clone root and the working tree. -/
structure IsRight (C W : Tree) (q : Path) (x : Mark) : Prop where
  added : x = .added ↔ C.at q = none
  deleted : x = .deleted ↔ isLeaf (C.at q) = true ∧ W.at q = none
  modified : x = .modified ↔
    (isLeaf (C.at q) = true ∧ W.at q ≠ none ∧ kindAt C q ≠ kindAt W q) ∨ (IsDir C q ∧ Differs C W q)

theorem isRight_added {C W : Tree} {q : Path} (hC : C.at q = none) : IsRight C W q .added := by
  have hleaf : ¬ isLeaf (C.at q) = true := by
    rw [hC]
    exact nofun
  have hdir : ¬ IsDir C q := by
    rintro ⟨u, m, hu⟩
    rw [hC] at hu
    cases hu
  exact ⟨iff_of_true rfl hC, iff_of_false nofun fun hd => hleaf hd.1,
    iff_of_false nofun (not_or.mpr ⟨fun hm => hleaf hm.1, fun hm => hdir hm.1⟩)⟩

/-- The path is a requested one, or listed for one. -/
def InScope (recursive : Bool) (scopes : List Path) (q : Path) : Prop :=
  q ≠ [] ∧ ∃ s ∈ scopes, s <+: q ∧ (recursive = true ∨ q = s ∨ ∃ n, q = s ++ [n])

def Named (C W : Tree) (q : Path) : Prop := C.at q ≠ none ∨ W.at q ≠ none

/-- One row for each name in scope, with the right mark, and no others but that of the listed root. -/
structure Exact (C W : Tree) (recursive : Bool) (scopes : List Path) (rows : List Row) : Prop where
  one : ∀ q, InScope recursive scopes q → Named C W q →
    ∃ r, rows.filter (fun r => r.path = q) = [r] ∧ IsRight C W q r.status
  only : ∀ r ∈ rows, r.path = [] ∨ InScope recursive scopes r.path ∧ Named C W r.path

/-- The name is not one of those whose change does not show. -/
structure NameRight (C W : Tree) (recursive : Bool) (s q : Path) : Prop where
  leaf : isLeaf (C.at q) = true → ¬ IsDir W q
  dir : IsDir C q → isLeaf (W.at q) = false ∧
    (Differs C W q → (recursive = true → q = s) ∧ ShowsBelow C W q)
  new : C.at q = none → recursive = true → ∀ u m, W.at q = some (.tree u m) → u = .nil

/-- What is listed for a requested path shows as it should. -/
structure PathRight (C W : Tree) (recursive : Bool) (s : Path) : Prop where
  fresh : C.at s = none → recursive = false → ∃ u m, W.at s = some (.tree u m) ∧ u ≠ .nil
  names : C.at s ≠ none → ∀ q, InScope recursive [s] q → NameRight C W recursive s q

theorem filter_path_eq {rows : List Row} (hnd : (rows.map Row.key).Nodup) {q : Path} {r : Row}
    (hr : r ∈ rows) (hq : r.path = q) (hall : ∀ r' ∈ rows, r'.path = q → r' = r) :
    rows.filter (fun r => r.path = q) = [r] := by
  have hmem : r ∈ rows.filter (fun r => r.path = q) := List.mem_filter.mpr ⟨hr, by simpa using hq⟩
  have heq : ∀ x ∈ rows.filter (fun r => r.path = q), x = r := fun x hx =>
    hall x (List.mem_filter.mp hx).1 (by simpa using (List.mem_filter.mp hx).2)
  have hnodup : (rows.filter (fun r => r.path = q)).Nodup :=
    (List.Nodup.of_map Row.key hnd).filter _
  cases hl : rows.filter (fun r => r.path = q) with
  | nil =>
      rw [hl] at hmem
      cases hmem
  | cons a l =>
      rw [hl] at heq hnodup
      obtain rfl := heq a (List.mem_cons_self ..)
      cases l with
      | nil => rfl
      | cons b l =>
          obtain rfl := heq b (List.mem_cons_of_mem _ (List.mem_cons_self ..))
          exact absurd (List.mem_cons_self ..) (List.nodup_cons.mp hnodup).1

theorem of_filter_path_eq {rows : List Row} {q : Path} {r : Row}
    (h : rows.filter (fun r => r.path = q) = [r]) :
    r ∈ rows ∧ r.path = q ∧ ∀ r' ∈ rows, r'.path = q → r' = r := by
  have hr : r ∈ rows.filter (fun r => r.path = q) := h ▸ List.mem_singleton_self r
  refine ⟨(List.mem_filter.mp hr).1, by simpa using (List.mem_filter.mp hr).2, fun r' hr' hq => ?_⟩
  have hin : r' ∈ rows.filter (fun r => r.path = q) := List.mem_filter.mpr ⟨hr', by simpa using hq⟩
  rw [h] at hin
  exact List.mem_singleton.mp hin

namespace Setting

variable {l : Listing} {C T : Tree} {scopes : List Path} {changes : List (Path × DiffRow)}
  {s q : Path}

/-- What shows at a path: something below it, or a change of the requested path above it. -/
theorem shows_at (h : Setting l C T scopes changes) (hs : s ∈ scopes) (hsq : s <+: q)
    {x : Path × DiffRow} (hx : x ∈ changes) (hd : l.deeper scopes x = some q) :
    l.recursive = false ∧ ∃ n, q = s ++ [n] ∧
      ((∃ m r, x.1 = q ++ m :: r ∧ Notes C T (q ++ m :: r) x.2) ∨
        (x.1 = s ∧ s ≠ [] ∧ Notes C T s x.2)) := by
  obtain ⟨⟨s', hs', hsx⟩, hne, hnotes⟩ := (h.diffMap x).mp ((h.changes x).mp hx)
  obtain ⟨hrec, hcases⟩ := (h.deeper_iff hs' hsx).mp hd
  have hpre : s' <+: q := by
    rcases hcases with ⟨n, -, -, -, rfl⟩ | ⟨-, n, -, -, rfl⟩ <;> exact List.prefix_append _ _
  obtain rfl := h.apart.eq_of_prefix hs hs' hsq hpre
  refine ⟨hrec, ?_⟩
  rcases hcases with ⟨n, m, r, hp, rfl⟩ | ⟨hp, n, r, -, rfl⟩
  · rw [hp] at hnotes
    exact ⟨n, rfl, .inl ⟨m, r, by simp [hp], by simpa using hnotes⟩⟩
  · rw [hp] at hnotes hne
    exact ⟨n, rfl, .inr ⟨hp, hne, hnotes⟩⟩

/-- Without `-r` what is noted below a direct child shows at it. -/
theorem deeper_of_notes (h : Setting l C T scopes changes) (hs : s ∈ scopes)
    (hrec : l.recursive = false) {n m : String} {r : Path} {row : DiffRow}
    (hnotes : Notes C T (s ++ n :: m :: r) row) :
    (s ++ n :: m :: r, row) ∈ changes ∧ l.deeper scopes (s ++ n :: m :: r, row) = some (s ++ [n]) := by
  have hpre : s <+: s ++ n :: m :: r := List.prefix_append _ _
  refine ⟨(h.change_iff hs hpre (by simp) row).mpr hnotes, ?_⟩
  exact (h.deeper_iff hs hpre).mpr ⟨hrec, .inl ⟨n, m, r, rfl, rfl⟩⟩

/-- A new row at a path: of a change there, or of one that shows there. -/
theorem new_at (h : Setting l C T scopes changes) (hs : s ∈ scopes) {x : Path × DiffRow} {r : Row}
    (hx : x ∈ changes) (hr : l.newRow scopes x = some r) (hsr : s <+: r.path) :
    (x.1 = r.path ∧ Notes C T r.path x.2 ∧ (l.recursive = true ∨ ∃ n, r.path = s ++ [n]) ∧
      Listing.ownRow r.path x.2 = some r) ∨
    (l.deeper scopes x = some r.path ∧ Listing.isAddition x.2 = true ∧
      r = ⟨r.path, true, .added, .blank⟩) := by
  obtain ⟨⟨s', hs', hsx⟩, -, hnotes⟩ := (h.diffMap x).mp ((h.changes x).mp hx)
  rcases (h.newRow_iff hs' hsx).mp hr with ⟨hdirect, hown⟩ | ⟨dir, hd, hadd, rfl⟩
  · have hp : r.path = x.1 := by
      cases hrow : x.2 <;> rw [hrow] at hown <;> cases hown <;> rfl
    rw [← hp] at hsx hnotes hdirect hown
    obtain rfl := h.apart.eq_of_prefix hs hs' hsr hsx
    exact .inl ⟨hp.symm, hnotes, hdirect, hown⟩
  · exact .inr ⟨hd, hadd, rfl⟩

theorem bumped_eq_self {b : Row} (hb : b.slash = false ∨ b.status ≠ .blank) :
    l.bumped scopes changes b = b := by
  unfold Listing.bumped
  rw [if_neg]
  rintro ⟨hslash, hblank, -⟩
  rcases hb with hb | hb
  · rw [hslash] at hb
    cases hb
  · exact hb hblank

theorem status_bumped {b : Row} (hslash : b.slash = true) (hblank : b.status = .blank) :
    ((l.bumped scopes changes b).status = .modified ↔
      ∃ x ∈ changes, l.deeper scopes x = some b.path) ∧
    ((l.bumped scopes changes b).status = .modified ∨ (l.bumped scopes changes b).status = .blank) := by
  unfold Listing.bumped
  split_ifs with hc
  · exact ⟨iff_of_true rfl hc.2.2, .inl rfl⟩
  · refine ⟨iff_of_false ?_ fun hx => hc ⟨hslash, hblank, hx⟩, .inr hblank⟩
    rw [hblank]
    exact nofun

/-! ## From the rows to the names -/

theorem inScope_mono (hs : s ∈ scopes) {recursive : Bool} (hq : InScope recursive [s] q) :
    InScope recursive scopes q ∧ s <+: q := by
  obtain ⟨hne, s', hs', hsq, hlisted⟩ := hq
  obtain rfl := List.mem_singleton.mp hs'
  exact ⟨⟨hne, s', hs, hsq, hlisted⟩, hsq⟩

theorem headRow_leaf {e : TreeEntry} (he : e.isTree = false) (hne : s ≠ []) (force : Option Mark) :
    headRow l e force s = l.leafRow force s := by
  rw [headRow, if_neg hne, if_neg (by simp [he])]

theorem headRow_dir {e : TreeEntry} (he : e.isTree = true) (hne : s ≠ []) (force : Option Mark) :
    headRow l e force s = l.selfRow force s := by
  rw [headRow, if_neg hne, if_pos he]

/-- A row that is not new is one of the walk. -/
theorem row_of_not_added (h : Setting l C T scopes changes) (hs : s ∈ scopes) {e : TreeEntry}
    (hC : C.at s = some e) {r : Row} (hr : r ∈ finalRows l C T scopes changes) (hsr : s <+: r.path)
    (hadd : r.status ≠ .added) : ∃ b, r = l.bumped scopes changes b ∧
      ((r.path = s ∧ b = headRow l e none s) ∨
        ∃ n q c, r.path = s ++ n :: q ∧ C.at r.path = some c ∧ b = l.walkRow none r.path c) := by
  rcases h.mem_finalRows.mp hr with ⟨b, hb, rfl⟩ | ⟨-, x, -, hnew⟩
  · have hpath : (l.bumped scopes changes b).path = b.path :=
      congrArg Prod.fst (Listing.key_bumped changes b)
    rw [hpath] at hsr ⊢
    refine ⟨b, rfl, ?_⟩
    rcases h.base_cases hs (targetEntry_of_some hC) hb hsr with rfl | ⟨-, n, q, c, -, hc, rfl⟩
    · exact .inl ⟨path_headRow _ _ _, rfl⟩
    · rw [Listing.path_walkRow]
      refine .inr ⟨n, q, c, rfl, ?_, rfl⟩
      rw [Tree.at_append, hC]
      exact hc
  · exact absurd (Listing.newRow_status hnew).1 hadd

/-- The mark of a file or symlink of the clone root. -/
theorem leaf_status (h : Setting l C T scopes changes) (hs : s ∈ scopes) {e : TreeEntry}
    (hC : C.at s = some e) {r : Row} (hr : r ∈ finalRows l C T scopes changes) (hsr : s <+: r.path)
    (hne : r.path ≠ []) (hadd : r.status ≠ .added) (hleaf : isLeaf (C.at r.path) = true) :
    r.status = l.statusChar r.path := by
  have hself : ∀ p, l.bumped scopes changes (l.leafRow none p) = l.leafRow none p :=
    fun p => bumped_eq_self (.inl rfl)
  obtain ⟨b, hrb, ⟨hp, rfl⟩ | ⟨n, q, c, hp, hc, rfl⟩⟩ := h.row_of_not_added hs hC hr hsr hadd
  · have he : e.isTree = false := by
      rw [hp, hC] at hleaf
      cases e <;> first | rfl | cases hleaf
    rw [headRow_leaf he (hp ▸ hne), hself] at hrb
    rw [hrb]
    rfl
  · have hc' : c.isTree = false := by
      rw [hc] at hleaf
      cases c <;> first | rfl | cases hleaf
    rw [Listing.walkRow, if_neg (by simp [hc']), hself] at hrb
    rw [hrb]
    rfl

/-- A directory of the clone root that is marked: something is noted below it, or it is a direct child
of a requested directory that has been replaced. -/
theorem dir_modified (h : Setting l C T scopes changes) (hs : s ∈ scopes) {e : TreeEntry}
    (hC : C.at s = some e) {r : Row} (hr : r ∈ finalRows l C T scopes changes) (hsr : s <+: r.path)
    (hne : r.path ≠ []) (hmod : r.status = .modified) (hdir : IsDir C r.path) :
    (l.recursive = true → r.path = s) ∧ ((∃ n q row, Notes C T (r.path ++ n :: q) row) ∨
      (r.path ≠ s ∧ s ≠ [] ∧ IsDir C s ∧ isLeaf (T.at s) = true)) := by
  have hadd : r.status ≠ .added := by
    rw [hmod]
    exact nofun
  obtain ⟨u, m, hu⟩ := hdir
  have hshown : ∀ {x}, x ∈ changes → l.deeper scopes x = some r.path →
      l.recursive = false ∧ ((∃ n q row, Notes C T (r.path ++ n :: q) row) ∨
        (r.path ≠ s ∧ s ≠ [] ∧ IsDir C s ∧ isLeaf (T.at s) = true)) := by
    intro x hx hd
    obtain ⟨hrec, n, hpath, ⟨k, q, -, hnotes⟩ | ⟨-, hsne, hnotes⟩⟩ := h.shows_at hs hsr hx hd
    · exact ⟨hrec, .inl ⟨k, q, x.2, hnotes⟩⟩
    · have hdir : IsDir C s := Tree.isTree_of_at_append (List.cons_ne_nil n []) (by
        rw [← hpath, hu]
        exact nofun)
      exact ⟨hrec, .inr ⟨by rw [hpath]; simp, hsne, hdir, (hnotes.of_isDir hdir).1⟩⟩
  obtain ⟨b, hrb, ⟨hp, rfl⟩ | ⟨n, q, c, hp, hc, rfl⟩⟩ := h.row_of_not_added hs hC hr hsr hadd
  · have he : e.isTree = true := by
      rw [hp, hC] at hu
      cases hu
      rfl
    rw [headRow_dir he (hp ▸ hne)] at hrb
    refine ⟨fun _ => hp, ?_⟩
    by_cases hbelow : l.changesBelow s = true
    · obtain ⟨x, hx, hxs⟩ := List.any_eq_true.mp hbelow
      simp only [Bool.and_eq_true, List.isPrefixOf_iff_prefix, bne_iff_ne] at hxs
      obtain ⟨⟨t, ht⟩, hxne⟩ := hxs
      cases t with
      | nil => exact absurd (by simpa using ht.symm) hxne
      | cons n t =>
          have hnotes := ((h.diffMap x).mp hx).2.2
          rw [← ht] at hnotes
          exact .inl ⟨n, t, x.2, by rw [hp]; exact hnotes⟩
    · have hblank : (l.selfRow none s).status = .blank := if_neg hbelow
      rw [hrb] at hmod
      obtain ⟨x, hx, hd⟩ := ((status_bumped rfl hblank).1).mp hmod
      exact (hshown hx (hp ▸ hd)).2
  · have hrow : l.walkRow none r.path c = l.dirRow none r.path := by
      rw [hu] at hc
      cases hc
      rfl
    rw [hrow] at hrb
    rw [hrb] at hmod
    obtain ⟨x, hx, hd⟩ := ((status_bumped rfl rfl).1).mp hmod
    obtain ⟨hrec, hmore⟩ := hshown hx hd
    exact ⟨fun htrue => absurd (hrec.symm.trans htrue) Bool.false_ne_true, hmore⟩

/-- A requested path that is a new file or a new empty directory brings a row of a path that does not
exist. -/
theorem fresh_of_exact (h : Setting l C T scopes changes)
    (hex : Exact C T l.recursive scopes (finalRows l C T scopes changes)) (hs : s ∈ scopes)
    (hC : C.at s = none) (hrec : l.recursive = false) :
    ∃ u m, T.at s = some (.tree u m) ∧ u ≠ .nil := by
  have hTne : T.at s ≠ none := (h.named s hs).resolve_left (not_not.mpr hC)
  obtain ⟨e, he⟩ := Option.ne_none_iff_exists'.mp hTne
  have hsne : s ≠ [] := by
    rintro rfl
    cases hC
  by_contra hno
  have hnil : ∀ n r, T.at (s ++ n :: r) = none := by
    intro n r
    by_contra hsome
    obtain ⟨u, m, hu⟩ := Tree.isTree_of_at_append (List.cons_ne_nil n r) hsome
    refine hno ⟨u, m, hu, ?_⟩
    rintro rfl
    rw [Tree.at_append, hu] at hsome
    exact hsome rfl
  have hCnil : ∀ n r, C.at (s ++ n :: r) = none := fun n r => by rw [Tree.at_append, hC]; rfl
  obtain ⟨row, hrow, hadd⟩ : ∃ row, nodeRow (C.at s) (T.at s) = some row ∧
      Listing.isAddition row = true := by
    rw [hC, he]
    cases e with
    | blob b => exact ⟨_, rfl, rfl⟩
    | symlink k => exact ⟨_, rfl, rfl⟩
    | tree u m =>
        refine ⟨.addedEmptyDir, if_pos ⟨rfl, ?_⟩, rfl⟩
        by_contra hu
        exact hno ⟨u, m, he, hu⟩
  obtain ⟨n, r, hsplit⟩ := List.exists_cons_of_ne_nil hsne
  have hchange := (h.change_iff hs List.prefix_rfl hsne row).mpr ⟨h.isOpen s hs, hrow⟩
  have hd : l.deeper scopes (s, row) = some (s ++ [n]) :=
    (h.deeper_iff hs List.prefix_rfl).mpr ⟨hrec, .inr ⟨rfl, n, r, hsplit, rfl⟩⟩
  have hnew : l.newRow scopes (s, row) = some ⟨s ++ [n], true, .added, .blank⟩ := by
    rw [Listing.newRow_of_deeper hd, if_pos hadd]
  have hfresh : (s ++ [n], true) ∉ (baseRows l C T scopes).map Row.key := by
    intro hin
    obtain ⟨b, hb, hkey⟩ := List.mem_map.mp hin
    have hpath : b.path = s ++ [n] := congrArg Prod.fst hkey
    have htarget : targetEntry C T s = some (e, some .added) := by
      rw [targetEntry_of_none hC, he]
      rfl
    rcases h.base_cases hs htarget hb (hpath ▸ List.prefix_append s [n]) with
      rfl | ⟨-, k, q, c, -, hc, rfl⟩
    · rw [path_headRow] at hpath
      simpa using congrArg List.length hpath
    · have hat := hnil k q
      rw [Tree.at_append, he, Option.bind_some, hc] at hat
      cases hat
  have hrow := (h.mem_finalRows (r := ⟨s ++ [n], true, .added, .blank⟩)).mpr
    (.inr ⟨hfresh, _, hchange, hnew⟩)
  rcases hex.only _ hrow with hpath | ⟨-, hnamed⟩
  · simp at hpath
  · rcases hnamed with hC' | hT'
    · exact hC' (hCnil n [])
    · exact hT' (hnil n [])

theorem pathRight_of_exact (h : Setting l C T scopes changes)
    (hex : Exact C T l.recursive scopes (finalRows l C T scopes changes)) (hs : s ∈ scopes) :
    PathRight C T l.recursive s := by
  refine ⟨fun hC hrec => h.fresh_of_exact hex hs hC hrec, fun hCs => ?_⟩
  obtain ⟨e, hC⟩ := Option.ne_none_iff_exists'.mp hCs
  have hrow : ∀ {q}, InScope l.recursive [s] q → Named C T q → ∃ r ∈ finalRows l C T scopes changes,
      r.path = q ∧ s <+: r.path ∧ IsRight C T q r.status := by
    intro q hq hnamed
    obtain ⟨hin, hsq⟩ := inScope_mono hs hq
    obtain ⟨r, hr, hright⟩ := hex.one q hin hnamed
    obtain ⟨hmem, hpath, -⟩ := of_filter_path_eq hr
    exact ⟨r, hmem, hpath, hpath ▸ hsq, hright⟩
  -- a directory of the clone root has not become a file
  have hstays : ∀ {q}, InScope l.recursive [s] q → IsDir C q → isLeaf (T.at q) = false := by
    intro q hq hdir
    obtain ⟨u, m, hu⟩ := hdir
    cases hl : isLeaf (T.at q) with
    | false => rfl
    | true =>
        exfalso
        obtain ⟨r, hr, rfl, hsr, hright⟩ := hrow hq (.inl (by rw [hu]; exact nofun))
        have hdiffers : Differs C T r.path := by
          refine ⟨[], ?_⟩
          rw [List.append_nil, kindAt, kindAt, hu]
          cases hT : T.at r.path with
          | none => simp
          | some c => cases c <;> simp_all [entryKind, isLeaf]
        have hmod := hright.modified.mpr (.inr ⟨⟨u, m, hu⟩, hdiffers⟩)
        rcases (h.dir_modified hs hC hr hsr hq.1 hmod ⟨u, m, hu⟩).2 with
          ⟨n, q, row, hnotes⟩ | ⟨hne, -, -, hleaf⟩
        · rw [hnotes.not_leaf] at hl
          cases hl
        · obtain ⟨t, ht⟩ := hsr
          cases t with
          | nil => exact hne (by simpa using ht.symm)
          | cons n t =>
              have hnot : ¬ IsDir T s := by
                rintro ⟨v, k, hv⟩
                rw [hv] at hleaf
                cases hleaf
              rw [← ht, at_below_none hnot] at hl
              cases hl
  intro q hq
  refine ⟨fun hleaf hdirT => ?_, fun hdir => ⟨hstays hq hdir, fun hdiffers => ?_⟩, ?_⟩
  · obtain ⟨u, m, hu⟩ := hdirT
    have hCne : C.at q ≠ none := fun hno => by
      rw [hno] at hleaf
      cases hleaf
    obtain ⟨r, hr, rfl, hsr, hright⟩ := hrow hq (.inl hCne)
    have hadd : r.status ≠ .added := fun ha => hCne (hright.added.mp ha)
    have hkind : kindAt C r.path ≠ kindAt T r.path := by
      rw [kindAt, kindAt, hu]
      cases hc : C.at r.path with
      | none => simp
      | some c => cases c <;> simp_all [entryKind, isLeaf]
    have hmod := hright.modified.mpr (.inl ⟨hleaf, by rw [hu]; exact nofun, hkind⟩)
    rw [h.leaf_status hs hC hr hsr hq.1 hadd hleaf,
      h.statusChar_eq hs hsr hq.1 (not_leafAbove_of_at (by rw [hu]; exact nofun)), hu, nodeRow] at hmod
    split_ifs at hmod <;> cases hmod
  · obtain ⟨r, hr, rfl, hsr, hright⟩ := hrow hq (.inl (by
      obtain ⟨u, m, hu⟩ := hdir
      rw [hu]
      exact nofun))
    have hmod := hright.modified.mpr (.inr ⟨hdir, hdiffers⟩)
    obtain ⟨hrec, hmore⟩ := h.dir_modified hs hC hr hsr hq.1 hmod hdir
    refine ⟨hrec, ?_⟩
    rcases hmore with ⟨n, q, row, hnotes⟩ | ⟨-, hsne, hdirs, hleaf⟩
    · exact shows_of_notes hnotes
    · have hself : InScope l.recursive [s] s :=
        ⟨hsne, s, List.mem_singleton_self s, List.prefix_rfl, .inr (.inl rfl)⟩
      rw [hstays hself hdirs] at hleaf
      cases hleaf
  · intro hnone hrec u m hu
    by_contra hnil
    obtain ⟨r, hr, rfl, hsr, -⟩ := hrow hq (.inr (by rw [hu]; exact nofun))
    rcases h.mem_finalRows.mp hr with ⟨b, hb, rfl⟩ | ⟨-, x, hx, hnew⟩
    · have hpath : (l.bumped scopes changes b).path = b.path :=
        congrArg Prod.fst (Listing.key_bumped changes b)
      rw [hpath] at hsr hnone
      rcases h.base_cases hs (targetEntry_of_some hC) hb hsr with rfl | ⟨-, n, q, c, -, hc, rfl⟩
      · rw [path_headRow] at hnone
        exact hCs hnone
      · rw [Listing.path_walkRow, Tree.at_append, hC, Option.bind_some, hc] at hnone
        cases hnone
    · rcases h.new_at hs hx hnew hsr with ⟨-, hnotes, -, -⟩ | ⟨hd, -, -⟩
      · have hno := hnotes.2
        rw [hu, nodeRow_tree_of_ne hnil] at hno
        cases hno
      · rw [(h.shows_at hs hsr hx hd).1] at hrec
        cases hrec

end Setting

end Omemfs.Ls
