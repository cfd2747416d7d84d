/-
# Omemfs.Ls.Complete — from the names to the rows.

Where what is requested shows as it should, each name in scope has its row: what the clone root has is
reached by the walk, and what is new comes from the diff.  With the other direction this is `exact_iff`.
-/
import Omemfs.Ls.Exact

namespace Omemfs.Ls

open Omemfs Lib Sync

namespace Setting

variable {l : Listing} {C T : Tree} {scopes : List Path} {changes : List (Path × DiffRow)}
  {s q : Path}

/-! ## What lies on the way -/

/-- All that lies between a requested directory and something below it is in the store. -/
theorem reached_of_present {t : Tree} {n : String} {r : Path} (hrec : l.recursive = true ∨ r = [])
    (hthere : t.at (n :: r) ≠ none) (hheld : ∀ a b, n :: r = a ++ b → a ≠ [] → b ≠ [] →
      ∀ u m, t.at a = some (.tree u m) → l.present u = true) : l.Reached t (n :: r) := by
  induction r generalizing t n with
  | nil => trivial
  | cons k r ih =>
      have hrec' : l.recursive = true := hrec.resolve_right (List.cons_ne_nil k r)
      obtain ⟨u, m, hu⟩ := Tree.isTree_of_at_append (p := [n]) (List.cons_ne_nil k r) hthere
      have hfind : t.find? n = some (.tree u m) := by rw [← Tree.at_singleton, hu]
      have hbelow : ∀ q, t.at (n :: q) = (TreeEntry.tree u m).at q := fun q => by
        rw [Tree.at_cons, hfind, Option.bind_some]
      have hdown : ∀ {a : Path}, a ≠ [] → u.at a = t.at (n :: a) := by
        intro a ha
        obtain ⟨x, a, rfl⟩ := List.exists_cons_of_ne_nil ha
        rw [hbelow]
        rfl
      refine ⟨hrec', u, m, hfind, ?_, ih (.inl hrec') ?_ fun a b heq ha hb v j hv => ?_⟩
      · exact hheld [n] (k :: r) rfl (List.cons_ne_nil n []) (List.cons_ne_nil k r) u m hu
      · rw [hdown (List.cons_ne_nil k r)]
        exact hthere
      · refine hheld (n :: a) b (by rw [heq]; rfl) (List.cons_ne_nil n a) hb v j ?_
        rw [← hdown ha, hv]

/-- A requested directory of the clone root is none that a file has replaced. -/
theorem open_of_right (hall : ∀ s ∈ scopes, PathRight C T l.recursive s) (hs : s ∈ scopes)
    (hdir : IsDir C s) : isLeaf (T.at s) = false := by
  by_cases hsne : s = []
  · subst hsne
    rfl
  · have hC : C.at s ≠ none := by
      obtain ⟨u, m, hu⟩ := hdir
      rw [hu]
      exact nofun
    exact (((hall s hs).names hC s
      ⟨hsne, s, List.mem_singleton_self s, List.prefix_rfl, .inr (.inl rfl)⟩).dir hdir).1

/-- Nothing is noted at a requested directory itself. -/
theorem not_notes_dir (hall : ∀ s ∈ scopes, PathRight C T l.recursive s) (hs : s ∈ scopes)
    (hdir : IsDir C s) {row : DiffRow} : ¬ Notes C T s row := by
  intro hnotes
  have hopen := open_of_right hall hs hdir
  rw [(hnotes.of_isDir hdir).1] at hopen
  cases hopen

/-- No directory above what the clone root has in scope has been replaced by a file. -/
theorem above_open (h : Setting l C T scopes changes)
    (hall : ∀ s ∈ scopes, PathRight C T l.recursive s) (hs : s ∈ scopes) {a : Path} {n : String}
    {r : Path} (hq : InScope l.recursive [s] (a ++ n :: r)) (hC : C.at (a ++ n :: r) ≠ none) :
    isLeaf (T.at a) = false := by
  have hdir : IsDir C a := Tree.isTree_of_at_append (List.cons_ne_nil n r) hC
  obtain ⟨-, s', hs', hsq, hlisted⟩ := hq
  obtain rfl := List.mem_singleton.mp hs'
  rcases List.prefix_or_prefix_of_prefix hsq (List.prefix_append a (n :: r)) with hsa | has
  · obtain ⟨b, rfl⟩ := hsa
    cases b with
    | nil =>
        rw [List.append_nil] at hdir ⊢
        exact open_of_right hall hs hdir
    | cons k b =>
        -- strictly between the two, which takes `-r`
        have hrec : l.recursive = true := by
          rcases hlisted with hrec | heq | ⟨j, hj⟩
          · exact hrec
          · simp at heq
          · simp at hj
        have hCs : C.at s' ≠ none := by
          obtain ⟨u, m, hu⟩ := hdir
          intro hno
          rw [Tree.at_append, hno] at hu
          cases hu
        have hname := (hall s' hs).names hCs (s' ++ k :: b)
          ⟨by simp, s', List.mem_singleton_self s', List.prefix_append _ _, .inl hrec⟩
        exact (hname.dir hdir).1
  · obtain ⟨b, rfl⟩ := has
    cases b with
    | nil =>
        rw [List.append_nil] at hs
        exact open_of_right hall hs hdir
    | cons k b =>
        cases hl : isLeaf (T.at a) with
        | false => rfl
        | true => exact absurd ⟨a, k, b, rfl, hl⟩ (h.isOpen _ hs)

theorem path_open_of_right (h : Setting l C T scopes changes)
    (hall : ∀ s ∈ scopes, PathRight C T l.recursive s) (hs : s ∈ scopes)
    (hq : InScope l.recursive [s] q) (hC : C.at q ≠ none) : ¬ LeafAbove T q := by
  rintro ⟨a, n, r, rfl, hleaf⟩
  rw [h.above_open hall hs hq hC] at hleaf
  cases hleaf

/-- A row of the walk is the only one of its path if the diff brings none of another kind. -/
theorem only_row (h : Setting l C T scopes changes) {b : Row} (hb : b ∈ baseRows l C T scopes)
    (hno : ∀ x ∈ changes, ∀ r, l.newRow scopes x = some r → r.path = b.path → r.key = b.key) :
    (finalRows l C T scopes changes).filter (fun r => r.path = b.path) =
      [l.bumped scopes changes b] := by
  have hpath : ∀ b, (l.bumped scopes changes b).path = b.path := fun b =>
    congrArg Prod.fst (Listing.key_bumped changes b)
  refine filter_path_eq h.nodup_finalRows (h.mem_finalRows.mpr (.inl ⟨b, hb, rfl⟩)) (hpath b)
    fun r hr hrp => ?_
  rcases h.mem_finalRows.mp hr with ⟨b', hb', rfl⟩ | ⟨hfresh, x, hx, hnew⟩
  · rw [hpath] at hrp
    rw [List.inj_on_of_nodup_map h.nodup_baseRows hb' hb hrp]
  · exact absurd (hno x hx r hnew hrp ▸ List.mem_map_of_mem hb) hfresh

/-! ## The row of a name -/

/-- A requested path that only the working tree has: everything is new. -/
theorem one_of_fresh (h : Setting l C T scopes changes) (hs : s ∈ scopes) (hC : C.at s = none)
    (hfresh : l.recursive = false → ∃ u m, T.at s = some (.tree u m) ∧ u ≠ .nil)
    (hq : InScope l.recursive [s] q) (hnamed : Named C T q) :
    ∃ r, (finalRows l C T scopes changes).filter (fun r => r.path = q) = [r] ∧
      IsRight C T q r.status := by
  obtain ⟨hne, s', hs', hsq, hlisted⟩ := hq
  obtain rfl := List.mem_singleton.mp hs'
  have hsne : s' ≠ [] := by
    rintro rfl
    cases hC
  have hCq : C.at q = none := by
    obtain ⟨t, rfl⟩ := hsq
    rw [Tree.at_append, hC]
    rfl
  obtain ⟨c, hc⟩ := Option.ne_none_iff_exists'.mp (hnamed.resolve_left (not_not.mpr hCq))
  obtain ⟨e, he⟩ := Option.ne_none_iff_exists'.mp ((h.named s' hs).resolve_left (not_not.mpr hC))
  have htarget : targetEntry C T s' = some (e, some .added) := by
    rw [targetEntry_of_none hC, he]
    rfl
  have hslash : ∀ p, (l.walkRow (some .added) p c).status = .added := fun p => by
    unfold Listing.walkRow
    split_ifs <;> rfl
  -- its row in the walk
  obtain ⟨b, hb, rfl, hbslash, hbadd⟩ : ∃ b ∈ baseRows l C T scopes, b.path = q ∧
      b.slash = c.isTree ∧ b.status = .added := by
    obtain ⟨t, rfl⟩ := hsq
    cases t with
    | nil =>
        rw [List.append_nil] at hc ⊢
        obtain rfl := Option.some.inj (he.symm.trans hc)
        refine ⟨_, h.head_mem_base hs htarget, path_headRow _ _ _, ?_⟩
        cases htree : e.isTree with
        | true => rw [headRow_dir htree hsne]; exact ⟨rfl, rfl⟩
        | false => rw [headRow_leaf htree hsne]; exact ⟨rfl, rfl⟩
    | cons n t =>
        obtain ⟨u, m, hu⟩ := Tree.isTree_of_at_append (List.cons_ne_nil n t) (by rw [hc]; exact nofun)
        obtain rfl := Option.some.inj (he.symm.trans hu)
        have hbelow : ∀ a, a ≠ [] → T.at (s' ++ a) = u.at a := by
          intro a ha
          obtain ⟨x, a, rfl⟩ := List.exists_cons_of_ne_nil ha
          rw [Tree.at_append, hu]
          rfl
        have hrec : l.recursive = true ∨ t = [] := by
          rcases hlisted with hr | heq | ⟨j, hj⟩
          · exact .inl hr
          · simp at heq
          · exact .inr (List.cons.inj (List.append_cancel_left hj)).2
        have hreach : l.Reached u (n :: t) := by
          refine reached_of_present hrec ?_ fun a b' _ ha _ v j hv => ?_
          · rw [← hbelow _ (List.cons_ne_nil n t), hc]
            exact nofun
          · exact h.scanned s' hs (s' ++ a) (List.prefix_append _ _) v j (by rw [hbelow a ha, hv])
        have hin := h.mem_base_of_reached hs htarget
          (h.scanned s' hs s' List.prefix_rfl u m hu) hreach (c := c)
          (by rw [← hbelow _ (List.cons_ne_nil n t), hc])
        exact ⟨_, hin, Listing.path_walkRow _ _ _, Listing.slash_walkRow _ _ _, hslash _⟩
  have hbump : l.bumped scopes changes b = b := bumped_eq_self (.inr (by rw [hbadd]; exact nofun))
  refine ⟨_, h.only_row hb fun x hx r hnew hrp => ?_, ?_⟩
  · have hkey : ∀ slash, slash = c.isTree → (b.path, slash) = b.key := fun slash hsl => by
      rw [hsl, ← hbslash]
      rfl
    have hdirc : IsDir T b.path → true = c.isTree := by
      rintro ⟨u, m, hu⟩
      rw [hc] at hu
      cases hu
      rfl
    rcases h.new_at hs hx hnew (hrp ▸ hsq) with ⟨-, hnotes, -, hown⟩ | ⟨hd, -, hr⟩
    · rw [hrp] at hnotes hown
      have hrow := hnotes.2
      rw [hCq, hc] at hrow
      cases c with
      | blob y =>
          rw [← Option.some.inj hrow] at hown
          cases hown
          exact hkey false rfl
      | symlink y =>
          rw [← Option.some.inj hrow] at hown
          cases hown
          exact hkey false rfl
      | tree u m =>
          rw [nodeRow] at hrow
          split_ifs at hrow
          rw [← Option.some.inj hrow] at hown
          cases hown
          exact hkey true rfl
    · rw [hrp] at hd hr
      rw [hr]
      obtain ⟨hrec, n, hpath, ⟨k, t, -, hnotes⟩ | ⟨-, -, hnotes⟩⟩ := h.shows_at hs hsq hx hd
      · have hT := (hnotes.of_none (by rw [Tree.at_append, hCq]; rfl)).2
        exact hkey true (hdirc (Tree.isTree_of_at_append (List.cons_ne_nil k t) hT))
      · obtain ⟨u, m, hu, hnil⟩ := hfresh hrec
        have hno := hnotes.2
        rw [hu, nodeRow_tree_of_ne hnil] at hno
        cases hno
  · rw [hbump, hbadd]
    exact isRight_added hCq

/-- What the clone root has in scope has its row. -/
theorem base_of_clone (h : Setting l C T scopes changes)
    (hall : ∀ s ∈ scopes, PathRight C T l.recursive s) (hs : s ∈ scopes)
    (hq : InScope l.recursive [s] q) {c : TreeEntry} (hc : C.at q = some c) :
    ∃ b ∈ baseRows l C T scopes, b.path = q ∧ b.slash = c.isTree ∧
      (c.isTree = false → b.status = l.statusChar q) ∧
      (c.isTree = true → q = s → b = l.selfRow none s) ∧
      (c.isTree = true → q ≠ s → b = l.dirRow none q) := by
  have hcne : C.at q ≠ none := by rw [hc]; rintro ⟨⟩
  obtain ⟨hne, s', hs', hsq, hlisted⟩ := id hq
  obtain rfl := List.mem_singleton.mp hs'
  obtain ⟨t, rfl⟩ := hsq
  cases t with
  | nil =>
      rw [List.append_nil] at hc hne ⊢
      refine ⟨_, h.head_mem_base hs (targetEntry_of_some hc), path_headRow _ _ _, ?_⟩
      cases htree : c.isTree with
      | true =>
          rw [headRow_dir htree hne]
          exact ⟨rfl, by rintro ⟨⟩, fun _ _ => rfl, fun _ hneq => absurd rfl hneq⟩
      | false =>
          rw [headRow_leaf htree hne]
          exact ⟨rfl, fun _ => rfl, by rintro ⟨⟩, by rintro ⟨⟩⟩
  | cons n t =>
      obtain ⟨u, m, hu⟩ := Tree.isTree_of_at_append (List.cons_ne_nil n t) hcne
      have hbelow : ∀ a, a ≠ [] → C.at (s' ++ a) = u.at a := by
        intro a ha
        obtain ⟨x, a, rfl⟩ := List.exists_cons_of_ne_nil ha
        rw [Tree.at_append, hu]
        rfl
      have hrec : l.recursive = true ∨ t = [] := by
        rcases hlisted with hr | heq | ⟨j, hj⟩
        · exact .inl hr
        · simp at heq
        · exact .inr (List.cons.inj (List.append_cancel_left hj)).2
      have hpresent : l.present u = true := by
        refine h.present_of_open hs hu ?_
        exact h.above_open hall hs hq hcne
      have hreach : l.Reached u (n :: t) := by
        refine reached_of_present hrec ?_ fun a b heq ha hb v j hv => ?_
        · rw [← hbelow _ (List.cons_ne_nil n t), hc]
          rintro ⟨⟩
        · obtain ⟨x, b, rfl⟩ := List.exists_cons_of_ne_nil hb
          rw [heq, ← List.append_assoc] at hq hcne
          refine h.held s' hs (s' ++ a) (List.prefix_append _ _) v j (by rw [hbelow a ha, hv]) ?_
            (h.above_open hall hs hq hcne)
          rintro ⟨d, y, r, heq', hleaf⟩
          refine h.path_open_of_right hall hs hq hcne ⟨d, y, r ++ x :: b, ?_, hleaf⟩
          rw [heq', List.append_assoc]
          rfl
      have hin := h.mem_base_of_reached hs (targetEntry_of_some hu) hpresent hreach (c := c)
        (by rw [← hbelow _ (List.cons_ne_nil n t), hc])
      refine ⟨_, hin, Listing.path_walkRow _ _ _, Listing.slash_walkRow _ _ _, ?_⟩
      cases htree : c.isTree with
      | true =>
          rw [Listing.walkRow, if_pos htree]
          exact ⟨by rintro ⟨⟩, fun _ heq => absurd heq (by simp), fun _ _ => rfl⟩
      | false =>
          rw [Listing.walkRow, if_neg (by simp [htree])]
          exact ⟨fun _ => rfl, by rintro ⟨⟩, by rintro ⟨⟩⟩

/-- What the diff brings at a path of the clone root is the path's own row. -/
theorem key_of_new (h : Setting l C T scopes changes)
    (hall : ∀ s ∈ scopes, PathRight C T l.recursive s) (hs : s ∈ scopes)
    (hright : NameRight C T l.recursive s q) (hsq : s <+: q) (hdirs : q = s ∨ IsDir C s)
    {c : TreeEntry} (hc : C.at q = some c) {x : Path × DiffRow} (hx : x ∈ changes) {r : Row}
    (hnew : l.newRow scopes x = some r) (hrp : r.path = q) : r.key = (q, c.isTree) := by
  subst hrp
  rcases h.new_at hs hx hnew hsq with ⟨-, hnotes, -, hown⟩ | ⟨hd, hadd, hr⟩
  · exfalso
    -- an entry with a row of its own is new, or replaces something by an empty directory
    have hrow := hnotes.2
    rw [hc] at hrow
    cases hT : T.at r.path with
    | none =>
        rw [hT, nodeRow] at hrow
        split_ifs at hrow
        rw [← Option.some.inj hrow] at hown
        cases hown
    | some e =>
        rw [hT] at hrow
        cases e with
        | tree u m =>
            cases c with
            | tree v k => simp [nodeRow, baseTreeOf] at hrow
            | blob y => exact hright.leaf (by rw [hc]; rfl) ⟨u, m, hT⟩
            | symlink y => exact hright.leaf (by rw [hc]; rfl) ⟨u, m, hT⟩
        | blob y =>
            cases c <;> simp only [nodeRow, blobRow] at hrow <;> try split_ifs at hrow
            all_goals
              rw [← Option.some.inj hrow] at hown
              cases hown
        | symlink y =>
            cases c <;> simp only [nodeRow, symlinkRow] at hrow <;> try split_ifs at hrow
            all_goals
              rw [← Option.some.inj hrow] at hown
              cases hown
  · rw [hr]
    obtain ⟨hrec, n, hpath, ⟨k, t, -, hnotes⟩ | ⟨-, -, hnotes⟩⟩ := h.shows_at hs hsq hx hd
    · cases c with
      | tree v j => rfl
      | blob y =>
          have hnodir : ¬ IsDir C r.path := by
            rintro ⟨u, m, hu⟩
            rw [hc] at hu
            cases hu
          have hT := (hnotes.of_none (at_below_none hnodir k t)).2
          exact absurd (Tree.isTree_of_at_append (List.cons_ne_nil k t) hT)
            (hright.leaf (by rw [hc]; rfl))
      | symlink y =>
          have hnodir : ¬ IsDir C r.path := by
            rintro ⟨u, m, hu⟩
            rw [hc] at hu
            cases hu
          have hT := (hnotes.of_none (at_below_none hnodir k t)).2
          exact absurd (Tree.isTree_of_at_append (List.cons_ne_nil k t) hT)
            (hright.leaf (by rw [hc]; rfl))
    · rcases hdirs with heq | hdirs
      · rw [hpath] at heq
        simp at heq
      · exact absurd hnotes (not_notes_dir hall hs hdirs)

/-- The mark of a directory's row: something is noted below it, where that shows. -/
theorem dir_status (h : Setting l C T scopes changes)
    (hall : ∀ s ∈ scopes, PathRight C T l.recursive s) (hs : s ∈ scopes)
    (hq : InScope l.recursive [s] q) (hdir : IsDir C q) {b : Row} (hpath : b.path = q)
    (hslash : b.slash = true) (hself : q = s → b = l.selfRow none s)
    (hdirRow : q ≠ s → b = l.dirRow none q) :
    ((l.bumped scopes changes b).status = .modified ↔
      (l.recursive = true → q = s) ∧ ∃ n r row, Notes C T (q ++ n :: r) row) ∧
    ((l.bumped scopes changes b).status = .modified ∨ (l.bumped scopes changes b).status = .blank) := by
  obtain ⟨hne, s', hs', hsq, hlisted⟩ := hq
  obtain rfl := List.mem_singleton.mp hs'
  have hshown : ∀ {x}, x ∈ changes → l.deeper scopes x = some q → q ≠ s' ∧ l.recursive = false ∧
      ∃ n r row, Notes C T (q ++ n :: r) row := by
    intro x hx hd
    obtain ⟨hrec, n, hq, ⟨k, r, -, hnotes⟩ | ⟨-, -, hnotes⟩⟩ := h.shows_at hs hsq hx hd
    · exact ⟨by rw [hq]; simp, hrec, k, r, x.2, hnotes⟩
    · have hdirs : IsDir C s' := by
        obtain ⟨u, m, hu⟩ := hdir
        refine Tree.isTree_of_at_append (List.cons_ne_nil n []) ?_
        rw [← hq, hu]
        exact nofun
      exact absurd hnotes (not_notes_dir hall hs hdirs)
  by_cases hqs : q = s'
  · obtain rfl := hself hqs
    subst hqs
    by_cases hbelow : l.changesBelow q = true
    · have hstatus : (l.selfRow none q).status = .modified := if_pos hbelow
      rw [bumped_eq_self (.inr (by rw [hstatus]; exact nofun))]
      refine ⟨iff_of_true hstatus ⟨fun _ => rfl, ?_⟩, .inl hstatus⟩
      obtain ⟨x, hx, hxs⟩ := List.any_eq_true.mp hbelow
      simp only [Bool.and_eq_true, List.isPrefixOf_iff_prefix, bne_iff_ne] at hxs
      obtain ⟨⟨t, ht⟩, hxne⟩ := hxs
      cases t with
      | nil => exact absurd (by simpa using ht.symm) hxne
      | cons n t => exact ⟨n, t, x.2, ht ▸ ((h.diffMap x).mp hx).2.2⟩
    · have hstatus : (l.selfRow none q).status = .blank := if_neg hbelow
      refine ⟨?_, (status_bumped hslash hstatus).2⟩
      rw [(status_bumped hslash hstatus).1]
      refine iff_of_false ?_ ?_
      · rintro ⟨x, hx, hd⟩
        exact (hshown hx hd).1 rfl
      · rintro ⟨-, n, r, row, hnotes⟩
        refine hbelow (List.any_eq_true.mpr ⟨(q ++ n :: r, row), ?_, by simp⟩)
        exact (h.diffMap _).mpr ⟨⟨q, hs, List.prefix_append _ _⟩, by simp, hnotes⟩
  · obtain rfl := hdirRow hqs
    refine ⟨?_, (status_bumped hslash rfl).2⟩
    rw [(status_bumped hslash rfl).1]
    refine ⟨?_, ?_⟩
    · rintro ⟨x, hx, hd⟩
      obtain ⟨-, hrec, hmore⟩ := hshown hx hd
      exact ⟨fun htrue => absurd (hrec.symm.trans htrue) Bool.false_ne_true, hmore⟩
    · rintro ⟨hrec, n, r, row, hnotes⟩
      have hfalse : l.recursive = false := Bool.not_eq_true _ ▸ fun htrue => hqs (hrec htrue)
      rcases hlisted with htrue | heq | ⟨k, rfl⟩
      · exact absurd (hrec htrue) hqs
      · exact absurd heq hqs
      · rw [List.append_assoc] at hnotes
        obtain ⟨hin, hd⟩ := h.deeper_of_notes hs hfalse hnotes
        exact ⟨_, hin, hd⟩

/-- What the clone root has in scope. -/
theorem one_of_clone (h : Setting l C T scopes changes)
    (hall : ∀ s ∈ scopes, PathRight C T l.recursive s) (hs : s ∈ scopes) (hCs : C.at s ≠ none)
    (hq : InScope l.recursive [s] q) {c : TreeEntry} (hc : C.at q = some c) :
    ∃ r, (finalRows l C T scopes changes).filter (fun r => r.path = q) = [r] ∧
      IsRight C T q r.status := by
  have hcne : C.at q ≠ none := by rw [hc]; rintro ⟨⟩
  have hright := (hall s hs).names hCs q hq
  have hsq := (inScope_mono hs hq).2
  have hopen := h.path_open_of_right hall hs hq hcne
  have hdirs : q = s ∨ IsDir C s := by
    obtain ⟨t, rfl⟩ := hsq
    cases t with
    | nil => exact .inl (List.append_nil s)
    | cons n t => exact .inr (Tree.isTree_of_at_append (List.cons_ne_nil n t) hcne)
  obtain ⟨b, hb, hpath, hslash, hleaf, hself, hdirRow⟩ := h.base_of_clone hall hs hq hc
  refine ⟨l.bumped scopes changes b, ?_, ?_⟩
  · rw [← hpath]
    refine h.only_row hb fun x hx r hnew hrp => ?_
    rw [h.key_of_new hall hs hright hsq hdirs hc hx hnew (hrp.trans hpath), ← hpath, ← hslash]
    rfl
  · cases htree : c.isTree with
    | false =>
        -- a file or symlink
        have hCleaf : isLeaf (C.at q) = true := by
          rw [hc]
          cases c <;> first | rfl | cases htree
        have hnodir : ¬ IsDir C q := by
          rintro ⟨u, m, hu⟩
          rw [hu] at hCleaf
          cases hCleaf
        rw [bumped_eq_self (.inl (hslash.trans htree)), hleaf htree,
          h.statusChar_eq hs hsq hq.1 hopen]
        have hcases : ∀ row, nodeRow (C.at q) (T.at q) = some row → row = .deleted ∧ T.at q = none ∨
            row = .modified ∧ T.at q ≠ none := by
          intro row hrow
          cases hT : T.at q with
          | none =>
              rw [hT, nodeRow, if_pos hCleaf] at hrow
              exact .inl ⟨(Option.some.inj hrow).symm, rfl⟩
          | some e =>
              refine .inr ⟨?_, by rintro ⟨⟩⟩
              rw [hT, hc] at hrow
              cases e with
              | tree u m => exact absurd ⟨u, m, hT⟩ (hright.leaf hCleaf)
              | blob y =>
                  cases c <;> simp only [nodeRow, blobRow] at hrow <;> try split_ifs at hrow
                  all_goals exact (Option.some.inj hrow).symm
              | symlink y =>
                  cases c <;> simp only [nodeRow, symlinkRow] at hrow <;> try split_ifs at hrow
                  all_goals exact (Option.some.inj hrow).symm
        cases hrow : nodeRow (C.at q) (T.at q) with
        | some row =>
            have hne := (ne_of_nodeRow hrow).1
            rcases hcases row hrow with ⟨rfl, hT⟩ | ⟨rfl, hT⟩
            · exact ⟨iff_of_false (by rintro ⟨⟩) hcne, iff_of_true rfl ⟨hCleaf, hT⟩,
                iff_of_false (by rintro ⟨⟩) (not_or.mpr ⟨fun hm => hm.2.1 hT, fun hm => hnodir hm.1⟩)⟩
            · exact ⟨iff_of_false (by rintro ⟨⟩) hcne, iff_of_false (by rintro ⟨⟩) fun hd => hT hd.2,
                iff_of_true rfl (.inl ⟨hCleaf, hT, hne⟩)⟩
        | none =>
            have heq : kindAt C q = kindAt T q := by
              by_contra hne
              obtain ⟨row, hsome⟩ := nodeRow_of_ne hne (fun hgone => hnodir hgone.1)
                fun u m hu => absurd ⟨u, m, hu⟩ (hright.leaf hCleaf)
              rw [hrow] at hsome
              cases hsome
            refine ⟨iff_of_false (by rintro ⟨⟩) hcne, iff_of_false (by rintro ⟨⟩) ?_,
              iff_of_false (by rintro ⟨⟩) (not_or.mpr ⟨fun hm => hm.2.2 heq, fun hm => hnodir hm.1⟩)⟩
            rintro ⟨-, hT⟩
            rw [kindAt, kindAt, hT, hc] at heq
            cases heq
    | true =>
        have hdir : IsDir C q := by
          cases c with
          | tree u m => exact ⟨u, m, hc⟩
          | blob y => cases htree
          | symlink y => cases htree
        have hnoleaf : isLeaf (C.at q) ≠ true := by
          obtain ⟨u, m, hu⟩ := hdir
          rw [hu]
          rintro ⟨⟩
        obtain ⟨hmod, hor⟩ := h.dir_status hall hs hq hdir hpath (hslash.trans htree) (hself htree)
          (hdirRow htree)
        obtain ⟨hTleaf, hshows⟩ := hright.dir hdir
        have hmodified : (l.bumped scopes changes b).status = .modified ↔
            IsDir C q ∧ Differs C T q := by
          rw [hmod]
          constructor
          · rintro ⟨-, n, r, row, hnotes⟩
            exact ⟨hdir, (shows_of_notes hnotes).differs⟩
          · rintro ⟨-, hdiffers⟩
            obtain ⟨hrec, hbelow⟩ := hshows hdiffers
            exact ⟨hrec, notes_of_shows hopen hTleaf hbelow⟩
        have hother : ∀ {m : Mark}, m ≠ .modified → m ≠ .blank →
            (l.bumped scopes changes b).status ≠ m := by
          rintro m hm hb rfl
          exact hor.elim hm hb
        exact ⟨iff_of_false (hother (by rintro ⟨⟩) (by rintro ⟨⟩)) hcne,
          iff_of_false (hother (by rintro ⟨⟩) (by rintro ⟨⟩)) fun hd => hnoleaf hd.1,
          hmodified.trans ⟨.inr, fun hm => hm.resolve_left fun hl => hnoleaf hl.1⟩⟩

/-- Nothing that is noted at a requested path itself is an addition, if the clone root has it. -/
theorem not_added_at_scope (hall : ∀ s ∈ scopes, PathRight C T l.recursive s) (hs : s ∈ scopes)
    (hCs : C.at s ≠ none) {row : DiffRow} (hnotes : Notes C T s row) :
    Listing.isAddition row = false := by
  by_cases hdir : IsDir C s
  · exact absurd hnotes (not_notes_dir hall hs hdir)
  · have hsne : s ≠ [] := by
      rintro rfl
      exact hdir ⟨C, _, rfl⟩
    have hname := (hall s hs).names hCs s
      ⟨hsne, s, List.mem_singleton_self s, List.prefix_rfl, .inr (.inl rfl)⟩
    have hnodir := hname.leaf (isLeaf_of_not_isDir hdir hCs)
    obtain ⟨c, hc⟩ := Option.ne_none_iff_exists'.mp hCs
    have hrow := hnotes.2
    rw [hc] at hrow
    cases hT : T.at s with
    | none =>
        rw [hT, nodeRow] at hrow
        split_ifs at hrow
        rw [← Option.some.inj hrow]
        rfl
    | some e =>
        rw [hT] at hrow
        cases e with
        | tree u m => exact absurd ⟨u, m, hT⟩ hnodir
        | blob y =>
            cases c <;> simp only [nodeRow, blobRow] at hrow <;> try split_ifs at hrow
            all_goals
              rw [← Option.some.inj hrow]
              rfl
        | symlink y =>
            cases c <;> simp only [nodeRow, symlinkRow] at hrow <;> try split_ifs at hrow
            all_goals
              rw [← Option.some.inj hrow]
              rfl

/-- What is new to the clone root below a requested directory of it. -/
theorem one_of_new (h : Setting l C T scopes changes)
    (hall : ∀ s ∈ scopes, PathRight C T l.recursive s) (hs : s ∈ scopes) (hCs : C.at s ≠ none)
    (hq : InScope l.recursive [s] q) (hC : C.at q = none) {c : TreeEntry} (hc : T.at q = some c) :
    ∃ r, (finalRows l C T scopes changes).filter (fun r => r.path = q) = [r] ∧
      IsRight C T q r.status := by
  have hright := (hall s hs).names hCs q hq
  obtain ⟨hne, s', hs', hsq, hlisted⟩ := id hq
  obtain rfl := List.mem_singleton.mp hs'
  have hqs : q ≠ s' := fun heq => hCs (heq ▸ hC)
  have hopen : ¬ LeafAbove T q := not_leafAbove_of_at (by rw [hc]; exact nofun)
  obtain ⟨e, he⟩ := Option.ne_none_iff_exists'.mp hCs
  -- the walk has no row of it
  have hbase : ∀ b ∈ baseRows l C T scopes, b.path ≠ q := by
    rintro b hb rfl
    rcases h.base_cases hs (targetEntry_of_some he) hb hsq with rfl | ⟨-, n, t, d, -, hd, rfl⟩
    · exact hqs (path_headRow _ _ _)
    · rw [Listing.path_walkRow, Tree.at_append, he, Option.bind_some, hd] at hC
      cases hC
  have hdirect : l.recursive = true ∨ ∃ n, q = s' ++ [n] := by
    rcases hlisted with hr | heq | hn
    · exact .inl hr
    · exact absurd heq hqs
    · exact .inr hn
  -- the diff brings one
  obtain ⟨x, hx, hnew⟩ : ∃ x ∈ changes,
      l.newRow scopes x = some ⟨q, c.isTree, .added, .blank⟩ := by
    have hown : ∀ row, nodeRow none (some c) = some row →
        Listing.ownRow q row = some ⟨q, c.isTree, .added, .blank⟩ → ∃ x ∈ changes,
          l.newRow scopes x = some ⟨q, c.isTree, .added, .blank⟩ := by
      intro row hrow hr
      refine ⟨(q, row), (h.change_iff hs hsq hne row).mpr ⟨hopen, by rw [hC, hc, hrow]⟩, ?_⟩
      exact (h.newRow_iff hs hsq).mpr (.inl ⟨hdirect, hr⟩)
    cases c with
    | blob y => exact hown .added rfl rfl
    | symlink y => exact hown .added rfl rfl
    | tree u m =>
        by_cases hnil : u = .nil
        · subst hnil
          exact hown .addedEmptyDir rfl rfl
        · have hrec : l.recursive = false :=
            Bool.not_eq_true _ ▸ fun htrue => hnil (hright.new hC htrue u m hc)
          obtain ⟨n, rfl⟩ := hdirect.resolve_left (by rw [hrec]; exact Bool.false_ne_true)
          obtain ⟨k, r, row, hnotes⟩ := notes_below_new hc hnil fun hdir => by
            obtain ⟨v, j, hv⟩ := hdir
            rw [hC] at hv
            cases hv
          have hadd := (hnotes.of_none (by rw [Tree.at_append, hC]; rfl)).1
          rw [List.append_assoc] at hnotes
          obtain ⟨hin, hd⟩ := h.deeper_of_notes hs hrec hnotes
          exact ⟨_, hin, by rw [Listing.newRow_of_deeper hd, if_pos hadd]; rfl⟩
  refine ⟨⟨q, c.isTree, .added, .blank⟩, ?_, isRight_added hC⟩
  have hfresh : ∀ r : Row, r.path = q → r.key ∉ (baseRows l C T scopes).map Row.key := by
    intro r hr hin
    obtain ⟨b, hb, hkey⟩ := List.mem_map.mp hin
    exact hbase b hb ((congrArg Prod.fst hkey).trans hr)
  have hrow := h.mem_finalRows.mpr (.inr ⟨hfresh ⟨q, c.isTree, .added, .blank⟩ rfl, x, hx, hnew⟩)
  refine filter_path_eq h.nodup_finalRows hrow rfl fun r hr hrp => ?_
  refine List.inj_on_of_nodup_map h.nodup_finalRows hr hrow ?_
  subst hrp
  suffices hslash : r.slash = c.isTree by rw [← hslash]; rfl
  have hdirT : IsDir T r.path → c.isTree = true := by
    rintro ⟨u, m, hu⟩
    rw [hc] at hu
    cases hu
    rfl
  rcases h.mem_finalRows.mp hr with ⟨b, hb, rfl⟩ | ⟨-, y, hy, hnew'⟩
  · exact absurd (congrArg Prod.fst (Listing.key_bumped changes b)).symm (hbase b hb)
  · rcases h.new_at hs hy hnew' hsq with ⟨-, hnotes, -, hown⟩ | ⟨hd, hadd, hr'⟩
    · have hrow := hnotes.2
      rw [hC, hc] at hrow
      cases c with
      | blob z =>
          rw [← Option.some.inj hrow] at hown
          rw [← Option.some.inj hown]
          rfl
      | symlink z =>
          rw [← Option.some.inj hrow] at hown
          rw [← Option.some.inj hown]
          rfl
      | tree u m =>
          rw [nodeRow] at hrow
          split_ifs at hrow
          rw [← Option.some.inj hrow] at hown
          rw [← Option.some.inj hown]
          rfl
    · obtain ⟨-, n, -, ⟨k, t, -, hnotes⟩ | ⟨-, -, hnotes⟩⟩ := h.shows_at hs hsq hy hd
      · have hT := (hnotes.of_none (by rw [Tree.at_append, hC]; rfl)).2
        rw [hdirT (Tree.isTree_of_at_append (List.cons_ne_nil k t) hT), hr']
      · rw [not_added_at_scope hall hs hCs hnotes] at hadd
        cases hadd

/-! ## All rows -/

/-- **`exact_iff`** — the listing is exact just when what is requested shows as it should. -/
theorem exact_iff (h : Setting l C T scopes changes) :
    Exact C T l.recursive scopes (finalRows l C T scopes changes) ↔
      ∀ s ∈ scopes, PathRight C T l.recursive s := by
  refine ⟨fun hex s hs => h.pathRight_of_exact hex hs, fun hall => ⟨fun q hq hnamed => ?_, ?_⟩⟩
  · obtain ⟨hne, s, hs, hsq, hlisted⟩ := hq
    have hq : InScope l.recursive [s] q := ⟨hne, s, List.mem_singleton_self s, hsq, hlisted⟩
    by_cases hCs : C.at s = none
    · exact h.one_of_fresh hs hCs (fun hrec => (hall s hs).fresh hCs hrec) hq hnamed
    · cases hC : C.at q with
      | some c => exact h.one_of_clone hall hs hCs hq hC
      | none =>
          obtain ⟨c, hc⟩ :=
            Option.ne_none_iff_exists'.mp (hnamed.resolve_left (not_not.mpr hC))
          exact h.one_of_new hall hs hCs hq hC hc
  · intro r hr
    have hbelow : ∀ {s n t}, s ∈ scopes → (l.recursive = true ∨ t = []) →
        InScope l.recursive scopes (s ++ n :: t) := by
      intro s n t hs hrec
      refine ⟨by simp, s, hs, List.prefix_append _ _, ?_⟩
      rcases hrec with hrec | rfl
      · exact .inl hrec
      · exact .inr (.inr ⟨n, rfl⟩)
    rcases h.mem_finalRows.mp hr with ⟨b, hb, rfl⟩ | ⟨-, x, hx, hnew⟩
    · have hpath : (l.bumped scopes changes b).path = b.path :=
        congrArg Prod.fst (Listing.key_bumped changes b)
      rw [hpath]
      obtain ⟨s, hs, hin⟩ := mem_baseRows.mp hb
      obtain ⟨e, force, he⟩ := h.exists_targetEntry hs
      rcases h.base_cases hs he hb ((h.nodup_rowsOf hs).2 b hin) with
        rfl | ⟨-, n, t, c, hreach, hc, rfl⟩
      · rw [path_headRow]
        by_cases hsne : s = []
        · exact .inl hsne
        · exact .inr ⟨⟨hsne, s, hs, List.prefix_rfl, .inr (.inl rfl)⟩, h.named s hs⟩
      · rw [Listing.path_walkRow]
        refine .inr ⟨hbelow hs ?_, ?_⟩
        · cases t with
          | nil => exact .inr rfl
          | cons m t => exact .inl hreach.1
        · cases hC : C.at s with
          | some d =>
              rw [targetEntry_of_some hC] at he
              cases he
              refine .inl ?_
              rw [Tree.at_append, hC, Option.bind_some, hc]
              exact nofun
          | none =>
              rw [targetEntry_of_none hC] at he
              obtain ⟨d, hd, heq⟩ := Option.map_eq_some_iff.mp he
              cases heq
              refine .inr ?_
              rw [Tree.at_append, hd, Option.bind_some, hc]
              exact nofun
    · obtain ⟨⟨s, hs, hsx⟩, hxne, -⟩ := (h.diffMap x).mp ((h.changes x).mp hx)
      have hnotNamed : ∀ {q row}, C.at q = none → T.at q = none → ¬ Notes C T q row := by
        rintro q row hC hT ⟨-, hrow⟩
        rw [hC, hT] at hrow
        cases hrow
      have hnamed : ∀ {q row}, Notes C T q row → Named C T q := by
        intro q row hnotes
        by_contra hno
        exact hnotNamed (not_not.mp (not_or.mp hno).1) (not_not.mp (not_or.mp hno).2) hnotes
      have hsr : s <+: r.path := by
        rcases (h.newRow_iff hs hsx).mp hnew with ⟨-, hown⟩ | ⟨dir, hd, -, rfl⟩
        · cases hrow : x.2 <;> rw [hrow] at hown <;> cases hown <;> exact hsx
        · rcases ((h.deeper_iff hs hsx).mp hd).2 with ⟨n, -, -, -, rfl⟩ | ⟨-, n, -, -, rfl⟩ <;>
            exact List.prefix_append _ _
      rcases h.new_at hs hx hnew hsr with ⟨hp, hnotes, hdirect, -⟩ | ⟨hd, hadd, hrow⟩
      · refine .inr ⟨⟨hp ▸ hxne, s, hs, hsr, ?_⟩, hnamed hnotes⟩
        rcases hdirect with hrec | hn
        · exact .inl hrec
        · exact .inr (.inr hn)
      · obtain ⟨-, n, hpath, hmore⟩ := h.shows_at hs hsr hx hd
        refine .inr ⟨hpath ▸ hbelow hs (.inr rfl), ?_⟩
        rcases hmore with ⟨k, t, -, hnotes⟩ | ⟨-, -, hnotes⟩
        · rcases hnamed hnotes with hC | hT
          · obtain ⟨u, m, hu⟩ := Tree.isTree_of_at_append (List.cons_ne_nil k t) hC
            exact .inl (by rw [hu]; exact nofun)
          · obtain ⟨u, m, hu⟩ := Tree.isTree_of_at_append (List.cons_ne_nil k t) hT
            exact .inr (by rw [hu]; exact nofun)
        · exfalso
          by_cases hCs : C.at s = none
          · cases hrec : l.recursive with
            | true =>
                rw [(h.shows_at hs hsr hx hd).1] at hrec
                cases hrec
            | false =>
                obtain ⟨u, m, hu, hnil⟩ := (hall s hs).fresh hCs hrec
                have hno := hnotes.2
                rw [hu, nodeRow_tree_of_ne hnil] at hno
                cases hno
          · rw [not_added_at_scope hall hs hCs hnotes] at hadd
            cases hadd

end Setting

end Omemfs.Ls
