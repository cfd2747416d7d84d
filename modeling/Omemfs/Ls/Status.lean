/-
# Omemfs.Ls.Status — when the `X` column of `ls` is right.

The scan agrees with the working tree on what is requested, so the rows are those of `Setting`, and both
`ls` and `ls --dirty` say what they should just when `PathRight` holds of each requested path.
-/
import Omemfs.Ls.Scanned

namespace Omemfs.Ls

open Omemfs Lib Fsguard Sync

/-! ## The working tree in the place of its scan -/

/-- At the path and below it the two are the same. -/
def SameBelow (T W : Tree) (q : Path) : Prop := ∀ r, T.at (q ++ r) = W.at (q ++ r)

namespace SameBelow

variable {T W C : Tree} {q : Path}

theorem at_eq (h : SameBelow T W q) : T.at q = W.at q := by
  have hq := h []
  rwa [List.append_nil] at hq

theorem symm (h : SameBelow T W q) : SameBelow W T q := fun r => (h r).symm

theorem mono (h : SameBelow T W q) {p : Path} (hq : q <+: p) : SameBelow T W p := by
  obtain ⟨r, rfl⟩ := hq
  intro r'
  rw [List.append_assoc]
  exact h (r ++ r')

theorem differs_iff (h : SameBelow T W q) : Differs C T q ↔ Differs C W q := by
  have hr : ∀ r, T.at (q ++ r) = W.at (q ++ r) := h
  simp only [Differs, kindAt, hr]

theorem showsBelow_iff (h : SameBelow T W q) : ShowsBelow C T q ↔ ShowsBelow C W q := by
  have hr : ∀ r, T.at (q ++ r) = W.at (q ++ r) := h
  simp only [ShowsBelow, kindAt, hr]

theorem named_iff (h : SameBelow T W q) : Named C T q ↔ Named C W q := by
  rw [Named, Named, h.at_eq]

theorem isRight (h : SameBelow T W q) {x : Mark} (hx : IsRight C T q x) : IsRight C W q x where
  added := hx.added
  deleted := h.at_eq ▸ hx.deleted
  modified := by
    rw [hx.modified, h.differs_iff, kindAt, kindAt, kindAt, h.at_eq]

theorem nameRight (h : SameBelow T W q) {recursive : Bool} {s : Path}
    (hx : NameRight C T recursive s q) : NameRight C W recursive s q where
  leaf := fun hleaf hdir => hx.leaf hleaf (by rwa [IsDir, h.at_eq])
  dir := by
    rw [← h.at_eq, ← h.differs_iff, ← h.showsBelow_iff]
    exact hx.dir
  new := h.at_eq ▸ hx.new

theorem pathRight (h : SameBelow T W q) {recursive : Bool} (hx : PathRight C T recursive q) :
    PathRight C W recursive q where
  fresh := h.at_eq ▸ hx.fresh
  names := fun hC p hp => (h.mono (by
    obtain ⟨-, s, hs, hsp, -⟩ := hp
    exact (List.mem_singleton.mp hs) ▸ hsp)).nameRight (hx.names hC p hp)

end SameBelow

namespace Agrees

variable {T W C : Tree} {scopes : List Path}

theorem same (h : Agrees T W scopes) {s q : Path} (hs : s ∈ scopes) (hsq : s <+: q) :
    SameBelow T W q := (show SameBelow T W s from h.there s hs).mono hsq

theorem exact_congr (h : Agrees T W scopes) {recursive : Bool} {rows : List Row} :
    Exact C T recursive scopes rows ↔ Exact C W recursive scopes rows := by
  have hsame : ∀ {q}, InScope recursive scopes q → SameBelow T W q := by
    rintro q ⟨-, s, hs, hsq, -⟩
    exact h.same hs hsq
  constructor
  · rintro ⟨hone, honly⟩
    refine ⟨fun q hq hnamed => ?_, fun r hr => (honly r hr).imp_right fun hq =>
      ⟨hq.1, (hsame hq.1).named_iff.mp hq.2⟩⟩
    obtain ⟨r, hr, hright⟩ := hone q hq ((hsame hq).named_iff.mpr hnamed)
    exact ⟨r, hr, (hsame hq).isRight hright⟩
  · rintro ⟨hone, honly⟩
    refine ⟨fun q hq hnamed => ?_, fun r hr => (honly r hr).imp_right fun hq =>
      ⟨hq.1, (hsame hq.1).named_iff.mpr hq.2⟩⟩
    obtain ⟨r, hr, hright⟩ := hone q hq ((hsame hq).named_iff.mp hnamed)
    exact ⟨r, hr, (hsame hq).symm.isRight hright⟩

theorem pathRight_congr (h : Agrees T W scopes) {recursive : Bool} {s : Path} (hs : s ∈ scopes) :
    PathRight C T recursive s ↔ PathRight C W recursive s :=
  ⟨(h.same hs List.prefix_rfl).pathRight, (h.same hs List.prefix_rfl).symm.pathRight⟩

end Agrees

/-! ## The listing -/

/-- What the diff has read and what the scan has written is in the local store. -/
structure Loaded (present : Tree → Bool) (C W : Tree) (scopes : List Path) : Prop where
  read : ∀ s ∈ scopes, ∀ q, s <+: q → ∀ t m, C.at q = some (.tree t m) → ¬ LeafAbove W q →
    isLeaf (W.at q) = false → present t = true
  written : ∀ s ∈ scopes, ∀ q, s <+: q → ∀ t m, W.at q = some (.tree t m) → present t = true

/-- What is asked of a requested path: there is something, no file or symlink of the working tree lies
above it, and no file of the clone root. -/
structure Accepted (C W : Tree) (s : Path) : Prop where
  named : Named C W s
  isOpen : ¬ LeafAbove W s
  reachable : ¬ Tree.BlobAbove C s

section Listing

variable {C W : Tree} {requested : List Path} {opts : LsOptions}

/-- The listing that no remote has a part in. -/
def lsLocal (opts : LsOptions) (C W : Tree) (requested : List Path) : Except Error (List Row) :=
  ls opts (fun _ => RemoteChanges.none) C W requested

theorem setting_of_accepted (hC : C.Wf) (hapart : Apart requested)
    (hloaded : Loaded opts.present C W (scopesOf requested))
    (hacc : ∀ s ∈ scopesOf requested, Accepted C W s) {T : Tree}
    (hT : Agrees T W (scopesOf requested))
    (hopen : ∀ s ∈ scopesOf requested, Named C W s → ¬ LeafAbove T s) :
    let l := listing opts .none C T (scopesOf requested)
    Setting l C T (scopesOf requested) (opts.changes.sort l.diffMap) where
  root_wf := hC
  working_wf := hT.wf
  apart := by
    unfold scopesOf
    split_ifs
    · exact List.pairwise_singleton _ _
    · exact hapart
  isOpen := fun s hs => hopen s hs (hacc s hs).named
  named := fun s hs => (hT.same hs List.prefix_rfl).named_iff.mpr (hacc s hs).named
  reachable := fun s hs => (hacc s hs).reachable
  diffMap := fun x => by
    show (x.1, x.2) ∈ diffTrees (some C) T (scopesOf requested) ↔ _
    rw [mem_diffTrees (show ((some C).getD .nil).Wf from hC) hT.wf, ScopeFilter.inScope_iff]
    rfl
  changes := fun x => (opts.changes.perm _).mem_iff
  held := by
    intro s hs q hsq t m hq hno hleaf
    have hat := (hT.same hs hsq).at_eq
    rw [hat] at hleaf
    refine hloaded.read s hs q hsq t m hq ?_ hleaf
    rintro ⟨a, n, r, rfl, ha⟩
    rcases List.prefix_or_prefix_of_prefix hsq (List.prefix_append a (n :: r)) with hsa | has
    · refine hno ⟨a, n, r, rfl, ?_⟩
      rwa [(hT.same hs hsa).at_eq]
    · obtain ⟨b, rfl⟩ := has
      cases b with
      | nil =>
          rw [List.append_nil] at hs
          refine hno ⟨a, n, r, rfl, ?_⟩
          rwa [(hT.same hs List.prefix_rfl).at_eq]
      | cons k b => exact (hacc _ hs).isOpen ⟨a, k, b, rfl, ha⟩
  scanned := by
    intro s hs q hsq t m hq
    rw [(hT.same hs hsq).at_eq] at hq
    exact hloaded.written s hs q hsq t m hq
  noNews := rfl

/-- The rows are those of the setting. -/
theorem lsLocal_eq (hapart : Apart requested) {T : Tree}
    (hscan : scanScopedForLs W C (anchored requested) = .ok T) :
    let l := listing opts .none C T (scopesOf requested)
    lsLocal opts C W requested =
      l.run C T (scopesOf requested) (opts.changes.sort l.diffMap) [] := by
  unfold lsLocal ls
  rw [hscan, hapart.scopes_eq]
  have hnews : opts.news.sort [] = [] := (opts.news.perm []).eq_nil
  show Listing.run _ _ _ _ _ (opts.news.sort []) = _
  rw [hnews]

/-- A listing that comes through has found every requested path. -/
theorem accepted_of_ls (hC : C.Wf) (hW : W.Wf) (hapart : Apart requested) {rows : List Row}
    (h : lsLocal opts C W requested = .ok rows) : ∀ s ∈ scopesOf requested, Accepted C W s := by
  obtain ⟨T, hscan, -⟩ :=
    bind_eq_ok.mp (show (scanScopedForLs W C (anchored requested) >>= _) = _ from h)
  have hrun := (lsLocal_eq hapart hscan).symm.trans h
  obtain ⟨targets, htargets, -⟩ := bind_eq_ok.mp hrun
  have hroot : ∀ {t : Tree}, ¬ LeafAbove t [] := by
    rintro t ⟨a, n, r, heq, -⟩
    simp at heq
  have hopen : ∀ s ∈ scopesOf requested, ¬ LeafAbove W s := by
    intro s hs
    rw [← hapart.scopes_eq] at hs
    unfold scopesOf at hs
    unfold scanScopedForLs at hscan
    split_ifs at hs hscan with hnil
    · rw [List.mem_singleton.mp hs]
      exact hroot
    · exact open_of_scan hscan s hs
  have hnavigate : ∀ s ∈ scopesOf requested, s ≠ [] → ∃ o, C.navigateEntry s = .ok o ∧
      (o = none → Listing.navigateWorking T s ≠ none) := by
    intro s hs hne
    obtain ⟨trows, htrows⟩ : ∃ trows,
        (listing opts .none C T (scopesOf requested)).targetRows C T s = .ok trows := by
      obtain ⟨i, hi, rfl⟩ := List.getElem_of_mem hs
      obtain ⟨hlen, hget⟩ := List.forall₂_iff_get.mp (mapM_eq_ok.mp htargets)
      exact ⟨_, hget i hi (hlen ▸ hi)⟩
    unfold Listing.targetRows at htrows
    rw [if_neg hne] at htrows
    obtain ⟨x, hx, -⟩ := bind_eq_ok.mp htrows
    obtain ⟨o, ho, hx⟩ := bind_eq_ok.mp hx
    refine ⟨o, ho, ?_⟩
    rintro rfl hno
    have hnews : (listing opts .none C T (scopesOf requested)).lookupRemoteAdded s = none := rfl
    rw [hno, hnews] at hx
    simp at hx
  have hreach : ∀ s ∈ scopesOf requested, ¬ Tree.BlobAbove C s := by
    intro s hs
    by_cases hne : s = []
    · subst hne
      rintro ⟨a, n, r, b, heq, -⟩
      simp at heq
    · obtain ⟨o, ho, -⟩ := hnavigate s hs hne
      exact (Tree.navigateEntry_eq_ok_iff hne).mp ⟨o, ho⟩
  obtain ⟨T', hT', hagrees, -⟩ := scanScoped_ok hC hW hapart hopen hreach
  obtain rfl : T' = T := Except.ok.inj (hT'.symm.trans hscan)
  intro s hs
  refine ⟨?_, hopen s hs, hreach s hs⟩
  by_cases hne : s = []
  · subst hne
    exact .inl nofun
  · obtain ⟨o, ho, hsome⟩ := hnavigate s hs hne
    have hat := Tree.at_of_navigateEntry hne ho
    cases o with
    | some e => exact .inl (by rw [hat]; exact nofun)
    | none =>
        refine .inr ?_
        have hwork := hsome rfl
        rw [← (hagrees.same hs List.prefix_rfl).at_eq]
        unfold Listing.navigateWorking at hwork
        split at hwork
        · next o ho' => rwa [Tree.at_of_navigateEntry hne ho']
        · exact absurd rfl hwork

/-- **`exact_ls_iff`** — the rows of a listing. -/
theorem exact_ls_iff (hC : C.Wf) (hW : W.Wf) (hapart : Apart requested)
    (hloaded : Loaded opts.present C W (scopesOf requested)) :
    (∃ rows, lsLocal opts C W requested = .ok rows ∧
        Exact C W opts.recursive (scopesOf requested) rows) ↔
      ∀ s ∈ scopesOf requested, Accepted C W s ∧ PathRight C W opts.recursive s := by
  have hwhole : (∀ s ∈ scopesOf requested, Accepted C W s) →
      ∃ rows, lsLocal opts C W requested = .ok rows ∧
        (Exact C W opts.recursive (scopesOf requested) rows ↔
          ∀ s ∈ scopesOf requested, PathRight C W opts.recursive s) := by
    intro hacc
    obtain ⟨T, hscan, hagrees, hopen⟩ := scanScoped_ok hC hW hapart
      (fun s hs => (hacc s hs).isOpen) fun s hs => (hacc s hs).reachable
    have hset := setting_of_accepted hC hapart hloaded hacc hagrees hopen
    refine ⟨_, (lsLocal_eq hapart hscan).trans hset.run_eq, ?_⟩
    rw [← hagrees.exact_congr]
    exact hset.exact_iff.trans (forall₂_congr fun s hs => hagrees.pathRight_congr hs)
  constructor
  · rintro ⟨rows, hrows, hexact⟩
    have hacc := accepted_of_ls hC hW hapart hrows
    obtain ⟨rows', hrows', hiff⟩ := hwhole hacc
    obtain rfl : rows = rows' := Except.ok.inj (hrows.symm.trans hrows')
    exact fun s hs => ⟨hacc s hs, hiff.mp hexact s hs⟩
  · intro hall
    obtain ⟨rows, hrows, hiff⟩ := hwhole fun s hs => (hall s hs).1
    exact ⟨rows, hrows, hiff.mpr fun s hs => (hall s hs).2⟩

/-! ## `--dirty` -/

/-- Where a difference shows as it should, something is noted at the path or below it. -/
theorem noted_of_differs {q : Path} {recursive : Bool} {s : Path} (hopen : ¬ LeafAbove W q)
    (hright : C.at q ≠ none → NameRight C W recursive s q) (h : Differs C W q) :
    ∃ r row, Notes C W (q ++ r) row := by
  obtain ⟨r, hne⟩ := h
  have hatq : ∀ {row}, nodeRow (C.at q) (W.at q) = some row → ∃ r row, Notes C W (q ++ r) row :=
    fun hrow => ⟨[], _, by rw [List.append_nil]; exact ⟨hopen, hrow⟩⟩
  by_cases hdir : IsDir C q
  · obtain ⟨u, m, hu⟩ := id hdir
    obtain ⟨hleaf, hshows⟩ := (hright (by rw [hu]; exact nofun)).dir hdir
    obtain ⟨n, t, row, hnotes⟩ := notes_of_shows hopen hleaf (hshows ⟨r, hne⟩).2
    exact ⟨n :: t, row, hnotes⟩
  · by_cases hdirW : IsDir W q ∧ C.at q = none
    · obtain ⟨⟨u, m, hu⟩, hnone⟩ := hdirW
      by_cases hnil : u = .nil
      · subst hnil
        refine @hatq .addedEmptyDir ?_
        rw [hu, hnone]
        rfl
      · obtain ⟨n, t, row, hnotes⟩ := notes_below_new hu hnil hdir
        exact ⟨n :: t, row, hnotes⟩
    · have hnodirW : ¬ IsDir W q := by
        intro hW
        have hCne : C.at q ≠ none := fun hnone => hdirW ⟨hW, hnone⟩
        exact (hright hCne).leaf (isLeaf_of_not_isDir hdir hCne) hW
      have hqne : kindAt C q ≠ kindAt W q := by
        cases r with
        | nil => rwa [List.append_nil] at hne
        | cons n r =>
            rw [kindAt, kindAt, at_below_none hdir, at_below_none hnodirW] at hne
            exact absurd rfl hne
      obtain ⟨row, hrow⟩ := nodeRow_of_ne hqne (fun hgone => hdir hgone.1)
        fun u m hu => absurd ⟨u, m, hu⟩ hnodirW
      exact hatq hrow

/-- **`dirty_iff`** — `ls --dirty` is silent just when nothing that is requested differs. -/
theorem dirty_iff {recursive : Bool} (hC : C.Wf) (hW : W.Wf) (hapart : Apart requested)
    (hall : ∀ s ∈ scopesOf requested, Accepted C W s ∧ PathRight C W recursive s) :
    ∃ rows, lsDirty C W requested = .ok rows ∧
      (rows = [] ↔ ∀ s ∈ scopesOf requested, ¬ Differs C W s) := by
  obtain ⟨T, hscan, hagrees, hopen⟩ := scanScoped_ok hC hW hapart
    (fun s hs => (hall s hs).1.isOpen) fun s hs => (hall s hs).1.reachable
  have hT : T.Wf := hagrees.wf
  unfold lsDirty
  rw [hscan, hapart.scopes_eq]
  by_cases heq : T = C
  · subst heq
    refine ⟨[], if_pos rfl, iff_of_true rfl fun s hs hdiffers => ?_⟩
    obtain ⟨r, hne⟩ := (hagrees.same hs List.prefix_rfl).differs_iff.mpr hdiffers
    exact hne rfl
  · refine ⟨_, if_neg heq, ?_⟩
    rw [List.map_eq_nil_iff, List.eq_nil_iff_forall_not_mem]
    have hmem : ∀ q row, (q, row) ∈ diffTrees (some C) T (scopesOf requested) ↔
        (∃ s ∈ scopesOf requested, s <+: q) ∧ q ≠ [] ∧ Notes C T q row := by
      intro q row
      rw [mem_diffTrees (show ((some C).getD .nil).Wf from hC) hT, ScopeFilter.inScope_iff]
      rfl
    constructor
    · intro hno s hs hdiffers
      have hnoted : ∀ {q r row}, s <+: q → q ≠ [] → ¬ Notes C T (q ++ r) row := by
        intro q r row hsq hne hnotes
        refine hno _ ((hmem _ row).mpr ⟨⟨s, hs, hsq.trans (List.prefix_append q r)⟩, ?_, hnotes⟩)
        simp [hne]
      have hdiffersT := (hagrees.same hs List.prefix_rfl).differs_iff.mpr hdiffers
      have hright := (hagrees.pathRight_congr hs).mpr (hall s hs).2
      by_cases hsne : s = []
      · subst hsne
        obtain ⟨r, hr⟩ := hdiffersT
        cases r with
        | nil => exact hr rfl
        | cons n r =>
            obtain ⟨r', row, hnotes⟩ := noted_of_differs (q := [n]) not_leafAbove_singleton
              (fun _ => hright.names nofun [n]
                ⟨List.cons_ne_nil n [], [], List.mem_singleton_self _, List.nil_prefix,
                  .inr (.inr ⟨n, rfl⟩)⟩) ⟨r, hr⟩
            exact hnoted List.nil_prefix (List.cons_ne_nil n []) hnotes
      · obtain ⟨r', row, hnotes⟩ := noted_of_differs
          (hopen s hs (hall s hs).1.named) (fun hCs => hright.names hCs s
            ⟨hsne, s, List.mem_singleton_self s, List.prefix_rfl, .inr (.inl rfl)⟩) hdiffersT
        exact hnoted List.prefix_rfl hsne hnotes
    · rintro hno ⟨q, row⟩ hin
      obtain ⟨⟨s, hs, hsq⟩, -, hnotes⟩ := (hmem q row).mp hin
      obtain ⟨r, rfl⟩ := hsq
      refine hno s hs ((hagrees.same hs List.prefix_rfl).differs_iff.mp ⟨r, ?_⟩)
      exact (ne_of_nodeRow hnotes.2).1

end Listing

/-- A store that has everything; the lists have one element at most. -/
def oneChange : LsOptions := ⟨false, false, fun _ => true, ⟨id, fun _ => .refl _⟩, ⟨id, fun _ => .refl _⟩⟩

/-- A directory with one file. -/
def dirWith (h : Hash) : Tree := .tree "d" (.blob "f" ⟨h, none, 1, none⟩ .nil) ⟨none, 1, 1⟩ .nil

theorem wf_dirWith (h : Hash) : (dirWith h).Wf :=
  ⟨by decide, ⟨by decide, .inl rfl, trivial⟩, trivial⟩

theorem at_dirWith_of_ne {h : Hash} {n : String} (hn : n ≠ "d") : (dirWith h).at [n] = none := by
  rw [Tree.at_singleton]
  simp [dirWith, Tree.find?, Tree.entries, hn]

end Omemfs.Ls
