/-
# Omemfs.Ls.Marks — what a listing's rows say of the remote, whatever is requested.

The `R` mark of a row depends on how the row came to be: a row of the walk has the mark of its printed
path, a row that the diff brings has none, and what only the remote has is marked as added.  Requested
paths may lie above one another here, and the same name may then have several rows.
-/
import Omemfs.Ls.Remote

namespace Omemfs.Ls

open Omemfs Lib Sync

namespace Listing

/-! ## The walk of a requested path -/

/-- What a requested path leads to, with the mark that is forced on everything below. -/
def targetOf (l : Listing) (C T : Tree) (s : Path) : Option (TreeEntry × Option Mark) :=
  match C.at s with
  | some e => some (e, none)
  | none =>
      (if l.working then (navigateWorking T s).or (l.lookupRemoteAdded s)
        else (l.lookupRemoteAdded s).or (navigateWorking T s)).map fun e => (e, some .added)

/-- The walk of the requested path `s`, which leads to `e`, comes to the entry `c` at `q`. -/
def Walks (l : Listing) (e : TreeEntry) (s q : Path) (c : TreeEntry) : Prop :=
  (q = s ∧ c = e ∧ s ≠ []) ∨
    (e.isTree = true ∧ l.present e.children = true ∧
      ∃ r, q = s ++ r ∧ l.Reached e.children r ∧ e.children.at r = some c)

/-- A requested path that leads to something, and what. -/
def Targets (l : Listing) (C T : Tree) (scopes : List Path) (s : Path) (e : TreeEntry)
    (force : Option Mark) : Prop :=
  s ∈ scopes ∧ targetOf l C T s = some (e, force)

variable {l : Listing} {C T : Tree} {scopes : List Path} {s q : Path} {e c : TreeEntry}
  {force : Option Mark}

theorem Walks.at_eq (h : l.Walks e s q c) : ∃ r, q = s ++ r ∧ e.at r = some c := by
  rcases h with ⟨rfl, rfl, -⟩ | ⟨-, -, r, rfl, hreach, hc⟩
  · exact ⟨[], (List.append_nil q).symm, rfl⟩
  · cases r with
    | nil => exact hreach.elim
    | cons n r => exact ⟨n :: r, rfl, hc⟩

theorem Walks.ne_nil (h : l.Walks e s q c) : q ≠ [] := by
  rcases h with ⟨rfl, -, hne⟩ | ⟨-, -, r, rfl, hreach, -⟩
  · exact hne
  · cases r with
    | nil => exact hreach.elim
    | cons n r => simp

theorem mem_targetRows (hwf : ∀ e force, targetOf l C T s = some (e, force) → e.Wf)
    {rows : List Row} (h : l.targetRows C T s = .ok rows) {r : Row} : r ∈ rows ↔
      (s = [] ∧ r = l.rootRow) ∨ ∃ e force, targetOf l C T s = some (e, force) ∧
        ((s ≠ [] ∧ r = if e.isTree then l.selfRow force s else l.leafRow force s) ∨
          (e.isTree = true ∧ l.present e.children = true ∧ ∃ q c, l.Reached e.children q ∧
            e.children.at q = some c ∧ r = l.walkRow force (s ++ q) c)) := by
  unfold targetRows at h
  by_cases hs : s = []
  · subst hs
    rw [if_pos rfl] at h
    obtain rfl := Except.ok.inj h
    have htarget : targetOf l C T [] = some (C.root, none) := rfl
    rw [List.mem_cons]
    constructor
    · rintro (rfl | hr)
      · exact .inl ⟨rfl, rfl⟩
      · split_ifs at hr with hp
        · refine .inr ⟨_, _, htarget, .inr ⟨rfl, hp, ?_⟩⟩
          exact (mem_collectTreeRows (hwf _ _ htarget).children).mp hr
        · cases hr
    · rintro (⟨-, rfl⟩ | ⟨e, force, he, ⟨hne, -⟩ | ⟨-, hp, hmore⟩⟩)
      · exact .inl rfl
      · exact absurd rfl hne
      · obtain ⟨rfl, rfl⟩ : e = C.root ∧ force = none :=
          Prod.mk.inj (Option.some.inj (he.symm.trans htarget))
        refine .inr ?_
        rw [if_pos (show l.present C = true from hp)]
        exact (mem_collectTreeRows (hwf _ _ htarget).children).mpr hmore
  · rw [if_neg hs] at h
    obtain ⟨⟨e, inClone⟩, hx, h⟩ := bind_eq_ok.mp h
    obtain rfl := Except.ok.inj h
    have htarget : targetOf l C T s = some (e, if inClone then none else some .added) := by
      obtain ⟨o, ho, hx⟩ := bind_eq_ok.mp hx
      have hat := Tree.at_of_navigateEntry hs ho
      unfold targetOf
      rw [hat]
      cases o with
      | some e' =>
          obtain ⟨rfl, rfl⟩ := Prod.mk.inj (Except.ok.inj hx)
          rfl
      | none =>
          simp only at hx
          split at hx
          · next e' he' =>
              obtain ⟨rfl, rfl⟩ := Prod.mk.inj (Except.ok.inj hx)
              exact congrArg (Option.map fun e => (e, some Mark.added)) he'
          · cases hx
    rw [mem_entryRows (hwf _ _ htarget)]
    constructor
    · rintro (rfl | hmore)
      · exact .inr ⟨_, _, htarget, .inl ⟨hs, rfl⟩⟩
      · exact .inr ⟨_, _, htarget, .inr hmore⟩
    · rintro (⟨hnil, -⟩ | ⟨e', force, he', hmore⟩)
      · exact absurd hnil hs
      · obtain ⟨rfl, rfl⟩ := Prod.mk.inj (Option.some.inj (he'.symm.trans htarget))
        rcases hmore with ⟨-, rfl⟩ | hmore
        · exact .inl rfl
        · exact .inr hmore

/-- A row of what is requested: the root's, or that of an entry which the walk comes to. -/
def IsBase (l : Listing) (C T : Tree) (scopes : List Path) (k : Path × Bool) (m : Mark) : Prop :=
  ([] ∈ scopes ∧ k = ([], false) ∧ m = l.rootRow.remoteStatus) ∨
    ∃ s e force c, l.Targets C T scopes s e force ∧ l.Walks e s k.1 c ∧ k.2 = c.isTree ∧
      m = l.remoteMark k

theorem isBase_of_mem (hwf : ∀ s e force, l.Targets C T scopes s e force → e.Wf)
    {targets : List (List Row)} (h : scopes.mapM (l.targetRows C T) = .ok targets) {b : Row}
    (hb : b ∈ targets.flatten) : l.IsBase C T scopes b.key b.remoteStatus := by
  obtain ⟨rows, hrows, hb⟩ := List.mem_flatten.mp hb
  obtain ⟨i, hi, rfl⟩ := List.getElem_of_mem hrows
  obtain ⟨hlen, hget⟩ := List.forall₂_iff_get.mp (mapM_eq_ok.mp h)
  have hs : scopes[i] ∈ scopes := List.getElem_mem _
  have htarget := hget i (hlen ▸ hi) hi
  rcases (mem_targetRows (fun e force he => hwf _ e force ⟨hs, he⟩) htarget).mp hb with
    ⟨hnil, rfl⟩ | ⟨e, force, he, ⟨hne, rfl⟩ | ⟨htree, hp, q, c, hreach, hc, rfl⟩⟩
  · refine .inl ⟨?_, rfl, rfl⟩
    rw [← hnil]
    exact hs
  · refine .inr ⟨_, e, force, e, ⟨hs, he⟩, ?_, ?_, ?_⟩
    · split_ifs <;> exact .inl ⟨rfl, rfl, hne⟩
    · cases e <;> rfl
    · cases e <;> rfl
  · refine .inr ⟨_, e, force, c, ⟨hs, he⟩, .inr ⟨htree, hp, q, path_walkRow _ _ _, hreach, hc⟩,
      slash_walkRow _ _ _, ?_⟩
    cases c <;> rfl

theorem mem_of_isBase (hwf : ∀ s e force, l.Targets C T scopes s e force → e.Wf)
    {targets : List (List Row)} (h : scopes.mapM (l.targetRows C T) = .ok targets) {k : Path × Bool}
    {m : Mark} (hk : l.IsBase C T scopes k m) :
    ∃ b ∈ targets.flatten, b.key = k ∧ b.remoteStatus = m := by
  have hrows : ∀ s ∈ scopes, ∃ rows ∈ targets, l.targetRows C T s = .ok rows := by
    intro s hs
    obtain ⟨i, hi, rfl⟩ := List.getElem_of_mem hs
    obtain ⟨hlen, hget⟩ := List.forall₂_iff_get.mp (mapM_eq_ok.mp h)
    exact ⟨_, List.getElem_mem _, hget i hi (hlen ▸ hi)⟩
  rcases hk with ⟨hs, rfl, rfl⟩ | ⟨s, e, force, c, ⟨hs, he⟩, hwalk, hslash, rfl⟩
  · obtain ⟨rows, hmem, hrows⟩ := hrows [] hs
    refine ⟨l.rootRow, List.mem_flatten.mpr ⟨rows, hmem, ?_⟩, rfl, rfl⟩
    exact (mem_targetRows (fun e force he => hwf _ e force ⟨hs, he⟩) hrows).mpr (.inl ⟨rfl, rfl⟩)
  · obtain ⟨rows, hmem, hrows⟩ := hrows s hs
    have hiff := fun r => @mem_targetRows l C T s (fun e force he => hwf _ e force ⟨hs, he⟩) rows hrows r
    obtain ⟨p, slash⟩ := k
    obtain rfl : slash = c.isTree := hslash
    rcases hwalk with ⟨rfl, rfl, hne⟩ | ⟨htree, hp, r, rfl, hreach, hc⟩
    · exact ⟨_, List.mem_flatten.mpr ⟨rows, hmem, (hiff _).mpr (.inr ⟨c, force, he, .inl ⟨hne, rfl⟩⟩)⟩,
        by cases c <;> rfl, by cases c <;> rfl⟩
    · exact ⟨l.walkRow force (s ++ r) c, List.mem_flatten.mpr ⟨rows, hmem, (hiff _).mpr
        (.inr ⟨e, force, he, .inr ⟨htree, hp, r, c, hreach, hc, rfl⟩⟩)⟩,
        by cases c <;> rfl, by cases c <;> rfl⟩

/-! ## The loop over the diff -/

/-- Rows and their marks after the entries `done`. -/
structure MarksSpec (l : Listing) (scopes : List Path) (base : List Row)
    (done : List (Path × DiffRow)) (st : Shown) : Prop where
  sound : ∀ r ∈ st.1, (∃ b ∈ base, b.key = r.key ∧ b.remoteStatus = r.remoteStatus) ∨
    (r.key ∉ base.map Row.key ∧ r.remoteStatus = .blank ∧
      ∃ x ∈ done, ∃ r', l.newRow scopes x = some r' ∧ r'.key = r.key)
  kept : ∀ b ∈ base, ∃ r ∈ st.1, r.key = b.key ∧ r.remoteStatus = b.remoteStatus
  added : ∀ x ∈ done, ∀ r', l.newRow scopes x = some r' → r'.key ∈ st.1.map Row.key
  seen : ∀ dir ∈ st.2, ∃ x ∈ done, l.deeper scopes x = some dir

theorem markModified_keeps (p : Path) (rows : List Row) :
    (∀ r ∈ markModified p rows, ∃ r' ∈ rows, r'.key = r.key ∧ r'.remoteStatus = r.remoteStatus) ∧
      ∀ r' ∈ rows, ∃ r ∈ markModified p rows, r.key = r'.key ∧ r.remoteStatus = r'.remoteStatus := by
  induction rows with
  | nil => exact ⟨nofun, nofun⟩
  | cons a rows ih =>
      have hself : ∀ rows : List Row, ∀ r ∈ rows,
          ∃ r' ∈ rows, r'.key = r.key ∧ r'.remoteStatus = r.remoteStatus :=
        fun _ r hr => ⟨r, hr, rfl, rfl⟩
      rw [markModified]
      split_ifs with hin hhere
      · refine ⟨fun r hr => ?_, fun r hr => ?_⟩
        · rcases List.mem_cons.mp hr with rfl | hr
          · exact ⟨r, List.mem_cons_self .., rfl, rfl⟩
          · obtain ⟨r', hr', hsame⟩ := ih.1 r hr
            exact ⟨r', List.mem_cons_of_mem _ hr', hsame⟩
        · rcases List.mem_cons.mp hr with rfl | hr
          · exact ⟨r, List.mem_cons_self .., rfl, rfl⟩
          · obtain ⟨r', hr', hsame⟩ := ih.2 r hr
            exact ⟨r', List.mem_cons_of_mem _ hr', hsame⟩
      · refine ⟨fun r hr => ?_, fun r hr => ?_⟩
        · rcases List.mem_cons.mp hr with rfl | hr
          · exact ⟨a, List.mem_cons_self .., rfl, rfl⟩
          · exact ⟨r, List.mem_cons_of_mem _ hr, rfl, rfl⟩
        · rcases List.mem_cons.mp hr with rfl | hr
          · exact ⟨_, List.mem_cons_self .., rfl, rfl⟩
          · exact ⟨r, List.mem_cons_of_mem _ hr, rfl, rfl⟩
      · exact ⟨hself _, hself _⟩

theorem MarksSpec.start (base : List Row) : MarksSpec l scopes base [] (base, []) where
  sound := fun r hr => .inl ⟨r, hr, rfl, rfl⟩
  kept := fun b hb => ⟨b, hb, rfl, rfl⟩
  added := nofun
  seen := nofun

/-- What one entry of the diff does to the rows and their marks. -/
structure ChangeStep (l : Listing) (scopes : List Path) (x : Path × DiffRow) (st st' : Shown) :
    Prop where
  sound : ∀ r ∈ st'.1, (∃ r' ∈ st.1, r'.key = r.key ∧ r'.remoteStatus = r.remoteStatus) ∨
    (r.key ∉ st.1.map Row.key ∧ l.newRow scopes x = some r)
  kept : ∀ r ∈ st.1, ∃ r' ∈ st'.1, r'.key = r.key ∧ r'.remoteStatus = r.remoteStatus
  added : ∀ r, l.newRow scopes x = some r → r.key ∈ st'.1.map Row.key ∨
    ∃ dir ∈ st.2, l.deeper scopes x = some dir
  seen : ∀ dir ∈ st'.2, dir ∈ st.2 ∨ l.deeper scopes x = some dir

theorem changeStep (x : Path × DiffRow) (st : Shown) :
    ChangeStep l scopes x st (l.showChange scopes st x) := by
  have hself : ∀ {rows : List Row}, ∀ r ∈ rows,
      ∃ r' ∈ rows, r'.key = r.key ∧ r'.remoteStatus = r.remoteStatus := fun r hr => ⟨r, hr, rfl, rfl⟩
  by_cases hdirect : (l.recursive || isDirectChild x.1 (scopeRoot scopes x.1)) = true
  · have hshow : l.showChange scopes st x = (showDirect x.1 x.2 st.1, st.2) := if_pos hdirect
    have hown : l.newRow scopes x = ownRow x.1 x.2 := if_pos hdirect
    rw [hshow, showDirect_eq, ← hown]
    cases hnew : l.newRow scopes x with
    | none =>
        exact ⟨fun r hr => .inl (hself r hr), hself, fun r hr => (by cases hnew.symm.trans hr),
          fun dir hd => .inl hd⟩
    | some a =>
        refine ⟨fun r hr => ?_, fun r hr => ?_, fun r hr => .inl ?_, fun dir hd => .inl hd⟩
        · rcases mem_pushRow.mp hr with hr | ⟨rfl, hfresh⟩
          · exact .inl (hself r hr)
          · exact .inr ⟨hfresh, hnew⟩
        · exact ⟨r, mem_pushRow.mpr (.inl hr), rfl, rfl⟩
        · obtain rfl := Option.some.inj (hnew.symm.trans hr)
          by_cases hin : a.key ∈ st.1.map Row.key
          · obtain ⟨b, hb, hkey⟩ := List.mem_map.mp hin
            exact List.mem_map.mpr ⟨b, mem_pushRow.mpr (.inl hb), hkey⟩
          · exact List.mem_map_of_mem (mem_pushRow.mpr (.inr ⟨rfl, hin⟩))
  · have hdeeper : l.deeper scopes x = shownDir (scopeRoot scopes x.1) x.1 := if_neg hdirect
    rw [showChange_of_deeper l hdirect, ← hdeeper]
    cases hd : l.deeper scopes x with
    | none =>
        have hnone : l.newRow scopes x = none := by
          unfold newRow
          rw [if_neg hdirect, ← hdeeper, hd, Option.bind_none]
        exact ⟨fun r hr => .inl (hself r hr), hself, fun r hr => (by cases hnone.symm.trans hr),
          fun dir hdir => .inl hdir⟩
    | some dir =>
        have hnew := newRow_of_deeper hd
        show ChangeStep l scopes x st (showBelow dir x.2 st)
        unfold showBelow
        split_ifs with hseen hin hadd
        · exact ⟨fun r hr => .inl (hself r hr), hself, fun r hr => .inr ⟨dir, hseen, hd⟩,
            fun dir hdir => .inl hdir⟩
        · obtain ⟨hback, hforth⟩ := markModified_keeps dir st.1
          refine ⟨fun r hr => .inl (hback r hr), hforth, fun r hr => .inl ?_, fun d hmem => ?_⟩
          · rw [hnew] at hr
            split_ifs at hr
            obtain rfl := Option.some.inj hr
            obtain ⟨b, hb, hkey⟩ := List.mem_map.mp hin
            obtain ⟨r', hr', hkey', -⟩ := hforth b hb
            exact List.mem_map.mpr ⟨r', hr', hkey'.trans hkey⟩
          · exact (List.mem_cons.mp hmem).symm.imp_right fun heq => by rw [heq]; exact hd
        · rw [if_pos hadd] at hnew
          refine ⟨fun r hr => ?_, fun r hr => ⟨r, List.mem_append_left _ hr, rfl, rfl⟩,
            fun r hr => .inl ?_, fun d hmem => ?_⟩
          · rcases List.mem_append.mp hr with hr | hr
            · exact .inl (hself r hr)
            · obtain rfl := List.mem_singleton.mp hr
              exact .inr ⟨hin, hnew⟩
          · obtain rfl := Option.some.inj (hnew.symm.trans hr)
            exact List.mem_map_of_mem (List.mem_append_right _ (List.mem_singleton_self _))
          · exact (List.mem_cons.mp hmem).symm.imp_right fun heq => by rw [heq]; exact hd
        · refine ⟨fun r hr => .inl (hself r hr), hself, fun r hr => ?_, fun d hmem => ?_⟩
          · rw [hnew, if_neg hadd] at hr
            cases hr
          · exact (List.mem_cons.mp hmem).symm.imp_right fun heq => by rw [heq]; exact hd

/-- **`MarksSpec.step`** — one entry of the diff. -/
theorem MarksSpec.step {base : List Row} {done : List (Path × DiffRow)} {st : Shown}
    (h : MarksSpec l scopes base done st) {x : Path × DiffRow}
    (hmixed : Unmixed l scopes base (done ++ [x])) :
    MarksSpec l scopes base (done ++ [x]) (l.showChange scopes st x) := by
  have hstep := @changeStep l scopes x st
  have hdone : ∀ {y}, y ∈ done → y ∈ done ++ [x] := fun hy => List.mem_append_left _ hy
  have hx : x ∈ done ++ [x] := List.mem_append_right _ (List.mem_singleton_self x)
  have hkeys : ∀ {k}, k ∈ st.1.map Row.key → k ∈ (l.showChange scopes st x).1.map Row.key := by
    intro k hk
    obtain ⟨r, hr, rfl⟩ := List.mem_map.mp hk
    obtain ⟨r', hr', hkey, -⟩ := hstep.kept r hr
    exact List.mem_map.mpr ⟨r', hr', hkey⟩
  have hbase : ∀ {b}, b ∈ base → b.key ∈ st.1.map Row.key := by
    intro b hb
    obtain ⟨r, hr, hkey, -⟩ := h.kept b hb
    exact List.mem_map.mpr ⟨r, hr, hkey⟩
  refine ⟨fun r hr => ?_, fun b hb => ?_, fun y hy r hr => ?_, fun dir hd => ?_⟩
  · rcases hstep.sound r hr with ⟨r', hr', hkey, hmark⟩ | ⟨hfresh, hnew⟩
    · rw [← hkey, ← hmark]
      rcases h.sound r' hr' with hb | ⟨hno, hblank, y, hy, hmore⟩
      · exact .inl hb
      · exact .inr ⟨hno, hblank, y, hdone hy, hmore⟩
    · refine .inr ⟨fun hin => ?_, (newRow_status hnew).2, x, hx, r, hnew, rfl⟩
      obtain ⟨b, hb, hkey⟩ := List.mem_map.mp hin
      exact hfresh (hkey ▸ hbase hb)
  · obtain ⟨r, hr, hkey, hmark⟩ := h.kept b hb
    obtain ⟨r', hr', hkey', hmark'⟩ := hstep.kept r hr
    exact ⟨r', hr', hkey'.trans hkey, hmark'.trans hmark⟩
  · rcases List.mem_append.mp hy with hy | hy
    · exact hkeys (h.added y hy r hr)
    · obtain rfl := List.mem_singleton.mp hy
      rcases hstep.added r hr with hin | ⟨dir, hdir, hd⟩
      · exact hin
      · -- the directory has been seen to, by an addition too
        obtain ⟨z, hz, hzd⟩ := h.seen dir hdir
        rw [newRow_of_deeper hd] at hr
        split_ifs at hr with hadd
        obtain rfl := Option.some.inj hr
        refine hkeys ?_
        by_cases hin : (dir, true) ∈ base.map Row.key
        · obtain ⟨b, hb, hkey⟩ := List.mem_map.mp hin
          have hk := hbase hb
          rwa [hkey] at hk
        · have hzadd : isAddition z.2 = true :=
            (hmixed z (hdone hz) _ hx dir hzd hd hin).trans hadd
          exact h.added z hz ⟨dir, true, .added, .blank⟩ (by rw [newRow_of_deeper hzd, if_pos hzadd])
  · rcases hstep.seen dir hd with hd | hd
    · obtain ⟨y, hy, hyd⟩ := h.seen dir hd
      exact ⟨y, hdone hy, hyd⟩
    · exact ⟨x, hx, hd⟩

/-- **`marks_spec`** — the rows after the loop, by their printed paths and their marks. -/
theorem marks_spec {base : List Row} {changes : List (Path × DiffRow)}
    (hmixed : Unmixed l scopes base changes) :
    MarksSpec l scopes base changes (changes.foldl (l.showChange scopes) (base, [])) := by
  have hrun : ∀ (todo done : List (Path × DiffRow)) (st : Shown), done ++ todo = changes →
      MarksSpec l scopes base done st →
        MarksSpec l scopes base changes (todo.foldl (l.showChange scopes) st) := by
    intro todo
    induction todo with
    | nil =>
        rintro done st hdone h
        rw [List.append_nil] at hdone
        exact hdone ▸ h
    | cons x todo ih =>
        intro done st hdone h
        have hsplit : (done ++ [x]) ++ todo = changes := by rw [← hdone]; simp
        refine ih (done ++ [x]) _ hsplit (h.step ?_)
        intro y hy z hz
        exact hmixed y (hsplit ▸ List.mem_append_left _ hy) z (hsplit ▸ List.mem_append_left _ hz)
  exact hrun changes [] (base, []) rfl (MarksSpec.start base)

/-! ## What only the remote has -/

/-- A path that has a row of its own. -/
def Displayed (l : Listing) (scopes : List Path) (p : Path) : Prop :=
  l.recursive = true ∨ isDirectChild p (scopeRoot scopes p) = true

theorem mem_showRemote {rows : List Row} {x : (Path × Bool) × TreeEntry} {r : Row} :
    r ∈ l.showRemote scopes rows x ↔ r ∈ rows ∨ (l.Displayed scopes x.1.1 ∧
      r = ⟨x.1.1, x.1.2, .blank, .added⟩ ∧ x.1 ∉ rows.map Row.key) := by
  unfold showRemote Displayed
  simp only [← Bool.or_eq_true]
  split_ifs with h
  · rw [mem_pushRow]
    simp only [h, true_and]
    rfl
  · simp [h]

/-- **`mem_news`** — a row that only the remote brings is marked as added, and each printed path has its
row. -/
theorem mem_news (news : List ((Path × Bool) × TreeEntry)) (rows : List Row) :
    (∀ r ∈ news.foldl (l.showRemote scopes) rows, r ∈ rows ∨
      (r.key ∉ rows.map Row.key ∧ r.remoteStatus = .added ∧
        ∃ x ∈ news, l.Displayed scopes x.1.1 ∧ r.key = x.1)) ∧
      (∀ r ∈ rows, r ∈ news.foldl (l.showRemote scopes) rows) ∧
        ∀ x ∈ news, l.Displayed scopes x.1.1 →
          x.1 ∈ (news.foldl (l.showRemote scopes) rows).map Row.key := by
  induction news generalizing rows with
  | nil => exact ⟨fun r hr => .inl hr, fun r hr => hr, nofun⟩
  | cons x news ih =>
      obtain ⟨hsound, hkept, hadded⟩ := ih (l.showRemote scopes rows x)
      rw [List.foldl_cons]
      refine ⟨fun r hr => ?_, fun r hr => hkept r (mem_showRemote.mpr (.inl hr)), fun y hy hd => ?_⟩
      · rcases hsound r hr with hr | ⟨hno, hmark, y, hy, hd, hkey⟩
        · rcases mem_showRemote.mp hr with hr | ⟨hd, rfl, hfresh⟩
          · exact .inl hr
          · exact .inr ⟨hfresh, rfl, x, List.mem_cons_self .., hd, rfl⟩
        · refine .inr ⟨fun hin => hno ?_, hmark, y, List.mem_cons_of_mem _ hy, hd, hkey⟩
          obtain ⟨b, hb, hkey'⟩ := List.mem_map.mp hin
          exact List.mem_map.mpr ⟨b, mem_showRemote.mpr (.inl hb), hkey'⟩
      · rcases List.mem_cons.mp hy with rfl | hy
        · by_cases hin : y.1 ∈ rows.map Row.key
          · obtain ⟨b, hb, hkey⟩ := List.mem_map.mp hin
            exact List.mem_map.mpr ⟨b, hkept b (mem_showRemote.mpr (.inl hb)), hkey⟩
          · exact List.mem_map.mpr ⟨_, hkept _ (mem_showRemote.mpr (.inr ⟨hd, rfl, hin⟩)), rfl⟩
        · exact hadded y hy hd

end Listing

end Omemfs.Ls
