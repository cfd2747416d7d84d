/-
# Omemfs.Work.Stubbed — a stubbed path is recorded as it was.

What a target stands for is recorded as `clone_root` has it (`Pending`), so its record may take its
place: the scan records the same whether the target is stubbed, fails, or is not come to.  A target does
not spoil the next one unless that is the same path or lies below it.  So the command keeps what is
recorded if no path is given twice, or after a directory that it lies in (`stub_keeps`).
-/
import Omemfs.Work.ExpandAll
import Omemfs.Work.Stub

namespace Omemfs.Work

open Lib Scan Fsguard
open Omemfs.Sync.Checked (fileStubPath dirStubPath isFile)

variable {cfg : StubConfig} {treeHash : Tree → Hash} {isIgnored : Path → Bool} {d d' : Disk}
  {x : StubTarget}

/-! ## One target -/

theorem guarded_ok {m : Guarded DiskLeaf PUnit} : guarded m d = .ok ⟨⟩ d' ↔ m d = .ok ⟨⟩ d' := by
  unfold guarded
  cases m d with
  | ok a e => simp
  | error e t => simp

theorem guarded_error {m : Guarded DiskLeaf PUnit} {e : GuardError} (h : m d = .error e d') :
    guarded m d = .error (.guard e) d' := by
  simp only [guarded, h]

theorem wf_of_atomicWrite {a : Path} {n : String} {y : DiskLeaf} (hwf : d.Wf)
    (hdir : d.get a = some .dir) (h : atomicWrite (a ++ [n]) y d = .ok ⟨⟩ d') : d'.Wf := by
  have hrun : atomicWrite (a ++ [n]) y d = syscall (fun d => d.rename (a ++ [n]) y) d :=
    bind_eq_of_ok (openLeaf_of_dir true n hdir) _
  rw [hrun] at h
  exact hwf.rename (syscall_inv h)

/-- The three ways a target goes: the record cannot be written, the target has changed, or what it stands
for is removed. -/
theorem stubOne_cases {a : Path} {n : String} (hdir : d.get a = some .dir)
    (hpath : x.stubPath = a ++ [n]) :
    (d.get (a ++ [n]) = some .dir ∧ ∃ e, stubOne cfg x d = .error e d) ∨
      d.get (a ++ [n]) ≠ some .dir ∧ ∃ d₁, (∀ q, d₁.get q =
          if q = a ++ [n] then some (.leaf (cfg.mach.stubFile x.record)) else d.get q) ∧
        (d.Wf → d₁.Wf) ∧
        ((stillAsSeen d₁ x = true ∧ stubOne cfg x d = guarded x.remove d₁) ∨
          stillAsSeen d₁ x = false ∧ ∃ d₂, stubOne cfg x d = .error (.changed x.rel) d₂ ∧
            ∀ q, d₂.get q = if q = a ++ [n] then none else d.get q) := by
  have hrun : atomicWrite (a ++ [n]) (cfg.mach.stubFile x.record) d =
      syscall (fun d => d.rename (a ++ [n]) (cfg.mach.stubFile x.record)) d :=
    bind_eq_of_ok (openLeaf_of_dir true n hdir) _
  by_cases hk : d.get (a ++ [n]) = some .dir
  · left
    have herr := guarded_error (hrun.trans (syscall_error (DirTree.rename_of_dir hk _)))
    rw [← hpath] at herr
    exact ⟨hk, _, bind_eq_of_error herr _⟩
  · right
    obtain ⟨d₁, hcall, hget⟩ := DirTree.rename_of_not_dir hdir hk (cfg.mach.stubFile x.record)
    have hok : guarded (atomicWrite x.stubPath (cfg.mach.stubFile x.record)) d = .ok ⟨⟩ d₁ := by
      rw [guarded_ok, hpath]
      exact hrun.trans (syscall_ok hcall)
    have hstep : stubOne cfg x d = if stillAsSeen d₁ x then guarded x.remove d₁
        else (guarded (removeFileTolerant x.stubPath) >>= fun _ => throw (.changed x.rel)) d₁ :=
      bind_eq_of_ok hok _
    refine ⟨hk, d₁, hget, fun hwf => hwf.rename hcall, ?_⟩
    cases hseen : stillAsSeen d₁ x with
    | true => exact .inl ⟨rfl, by rw [hstep, hseen, if_pos rfl]⟩
    | false =>
        -- the record that was written can be removed
        have hopen : OpenWay d₁ (a ++ [n]) :=
          openWay_of_get (by rw [hget, if_pos rfl]; exact Option.some_ne_none _)
        obtain ⟨⟨⟩, d₂, hrm, hget₂⟩ := (removeFileTolerant_effect d₁ (by simp)).succeeds
          ⟨hopen, by rw [hget, if_pos rfl]; simp⟩
        refine .inr ⟨rfl, d₂, ?_, fun q => ?_⟩
        · rw [hstep, hseen, if_neg Bool.false_ne_true, hpath]
          exact bind_eq_of_ok (guarded_ok.mpr hrm) _
        · rw [hget₂, hget]
          split_ifs <;> rfl

/-- A target as it is looked at, with what its record stands for recorded the same.  A file's record has
the mode that the file has, and below a directory there is no symlink. -/
def Pending (treeHash : Tree → Hash) (isIgnored : Path → Bool) (g : Lstat) : StubTarget → Prop
  | .file rel b seen => ∃ a n c stat, rel = a ++ [n] ∧ ValidName n ∧
      g rel = some (.leaf (.file c stat)) ∧ seen = .of stat ∧ c.hash = b.hash ∧ stat.mode = b.mode ∧
      recordIn (g (fileStubPath rel)) = none
  | .dir rel t _ _ => rel ≠ [] ∧ g rel = some .dir ∧ recordIn (g (dirStubPath rel)) = none ∧
      (∀ p, view treeHash isIgnored g rel p = (t.at p).map entryNode) ∧
      ∀ n r a, n ≠ dirStubName → g (rel ++ n :: r) = some (.leaf a) → isLink a = false

/-- A directory that is left with its marker alone. -/
structure Emptied (mach : Machine) (dir : Path) (r : StubRecord) (g g' : Lstat) : Prop where
  marker : g' (dir ++ [dirStubName]) = some (.leaf (mach.stubFile r))
  below : ∀ n q, n :: q ≠ [dirStubName] → g' (dir ++ n :: q) = none
  frame : ∀ q, ¬ (∃ n r, q = dir ++ n :: r) → g' q = g q

theorem not_below {dir q : Path} (h : ¬ dir <+: q) : ¬ ∃ n r, q = dir ++ n :: r := by
  rintro ⟨n, r, rfl⟩
  exact h (List.prefix_append _ _)

theorem not_below_self (dir : Path) : ¬ ∃ (n : String) (r : Path), dir = dir ++ n :: r := by
  rintro ⟨n, r, h⟩
  have hlen := congrArg List.length h
  rw [List.length_append, List.length_cons] at hlen
  omega

/-- What the marker records takes the place of what was there. -/
theorem Emptied.view {mach : Machine} {dir : Path} {t : Tree} {m : TreeMeta} {g g' : Lstat}
    (h : Emptied mach dir (treeRecord t m) g g')
    (hview : ∀ p, view treeHash isIgnored g dir p = (t.at p).map entryNode) (p : Path) :
    view treeHash isIgnored g' dir p = view treeHash isIgnored g dir p := by
  have hmark : markerTree g' dir = some t := by
    rw [markerTree, h.marker]
    rfl
  rw [hview]
  exact view_of_markerTree hmark (fun k hk => h.below k [] (by simpa using hk)) p

/-- A directory whose symlinks are all kept is emptied. -/
theorem removeDirAll_ok {mach : Machine} {dir : Path} {r : StubRecord} (hwf : d.Wf)
    (hdir : d.get dir = some .dir)
    (hmark : d.get (dir ++ [dirStubName]) = some (.leaf (mach.stubFile r)))
    (hlink : ∀ n q a, n ≠ dirStubName → d.get (dir ++ n :: q) = some (.leaf a) → isLink a = false) :
    ∃ d', removeDirAll isLink [dirStubName] dir d = .ok ⟨⟩ d' ∧ d'.Wf ∧
      Emptied mach dir r d.get d'.get := by
  obtain ⟨s, hat⟩ := DirTree.get_eq_dir_iff.mp hdir
  have hs : DirTree.Wf s := wf_of_at hwf hat
  obtain ⟨d', hrun⟩ := (@removals_succeeds_iff _ d isLink [dirStubName] dir s hat hs).mpr
    fun n q a hn => hlink n q a (by simpa using hn)
  have hget := get_of_removals (path_ne_nil hs) hrun
  have hbelow : ∀ q, d.get (dir ++ q) = s.get q := fun q => by
    rw [DirTree.get, DirTree.at_append, hat]
    rfl
  refine ⟨d', by rw [removeDirAll_of_dir hat, hrun], wf_of_removals hwf hrun, ?_, ?_, ?_⟩
  · rw [hget, if_neg, hmark]
    intro hmem
    obtain ⟨n, q, h, hn, -⟩ := (mem_removals hs _).mp hmem
    obtain ⟨rfl, -⟩ := List.cons.inj (List.append_cancel_left h)
    exact hn (List.mem_singleton_self _)
  · intro n q hne
    rw [hget]
    split_ifs with hmem
    · rfl
    · by_cases hn : n = dirStubName
      · -- nothing lies below the marker
        subst hn
        have hq : q ≠ [] := fun hq => hne (by rw [hq])
        obtain ⟨k, q, rfl⟩ := List.exists_cons_of_ne_nil hq
        have hfile : d.get (dir ++ [dirStubName]) ≠ some .dir := by simp [hmark]
        simpa using DirTree.get_append_of_not_dir hfile k q
      · rw [hbelow]
        by_contra hsome
        exact hmem ((mem_removals hs _).mpr ⟨n, q, rfl, by simpa using hn, hsome⟩)
  · intro q hq
    rw [hget, if_neg]
    intro hmem
    obtain ⟨n, r', rfl, -⟩ := (mem_removals hs _).mp hmem
    exact hq ⟨n, r', rfl⟩

/-- A marker that holds no record, or none, is nothing to a scan. -/
theorem view_of_unmarked_congr {g g' : Lstat} {dir : Path} (hs : StubsNamed g)
    (hnone : recordIn (g (dir ++ [dirStubName])) = none)
    (hnone' : recordIn (g' (dir ++ [dirStubName])) = none)
    (hsame : ∀ q, q ≠ dir ++ [dirStubName] → g' q = g q) (p : Path) :
    view treeHash isIgnored g' dir p = view treeHash isIgnored g dir p := by
  have hother : ∀ k : String, k ≠ dirStubName → ∀ r, g' (dir ++ k :: r) = g (dir ++ k :: r) := by
    intro k hk r
    exact hsame _ fun heq => hk (List.cons.inj (List.append_cancel_left heq)).1
  have hno : ∀ g : Lstat, recordIn (g (dir ++ [dirStubName])) = none → markerTree g dir = none :=
    fun g h => by rw [markerTree, h, Option.bind_none]
  have hown : ∀ n, ownNode treeHash isIgnored g' dir n = ownNode treeHash isIgnored g dir n :=
    ownNode_of_remarked (hs.no_double dir) fun k hk => hother k hk []
  cases p with
  | nil => rfl
  | cons n q =>
      refine view_name_congr (hown n) q (fun hdir => ?_) fun _ => by rw [hno g hnone, hno g' hnone']
      have hn : n ≠ dirStubName := by
        rintro rfl
        rw [ownNode_eq_dir_iff] at hdir
        exact absurd hdir.2.2.1 (by decide)
      refine view_shift treeHash (fun _ => rfl) (fun r => ?_) q
      rw [List.append_assoc, List.singleton_append]
      exact hother n hn r

/-! ## What a target leaves of the others -/

/-- What changes below a directory that is recorded the same is not seen from outside. -/
theorem view_of_below {g g' : Lstat} {dir pfx : Path}
    (hframe : ∀ q, ¬ (∃ n r, q = dir ++ n :: r) → g' q = g q)
    (hdir : ∀ p, view treeHash isIgnored g' dir p = view treeHash isIgnored g dir p)
    (hpfx : ¬ dir <+: pfx) (p : Path) :
    view treeHash isIgnored g' pfx p = view treeHash isIgnored g pfx p := by
  by_cases hpre : pfx <+: dir
  · obtain ⟨s, rfl⟩ := hpre
    exact (@view_eq_iff_below treeHash isIgnored g' g pfx s hframe).mpr (fun _ => hdir) p
  · -- neither lies in the other
    refine view_shift treeHash (fun _ => rfl) (fun r => hframe _ (not_below fun h => ?_)) p
    rcases List.prefix_or_prefix_of_prefix h (List.prefix_append pfx r) with h | h
    · exact hpfx h
    · exact hpre h

/-- Nor is what changes under a name and its stub file, if the name is recorded the same. -/
theorem view_of_name {g g' : Lstat} {a pfx : Path} {n : String} (hs : StubsNamed g)
    (hs' : StubsNamed g') (hn : ValidName n)
    (hframe : ∀ q, q ≠ a ++ [n] → q ≠ a ++ [n ++ stubSuffix] → g' q = g q)
    (hname : isIgnored (a ++ [n]) = false → ∀ q,
      view treeHash isIgnored g' a (n :: q) = view treeHash isIgnored g a (n :: q))
    (hpfx : pfx ≠ a ++ [n]) (hstub : pfx ≠ a ++ [n ++ stubSuffix]) (p : Path) :
    view treeHash isIgnored g' pfx p = view treeHash isIgnored g pfx p := by
  by_cases hpre : pfx <+: a
  · obtain ⟨s, rfl⟩ := hpre
    refine (@view_iff_at_name treeHash isIgnored g' g n hs' hs pfx s hn fun q hq => ?_).mpr
      (fun _ hi q => hname hi q) p
    exact hframe q (hq n [] (.inl rfl)) (hq _ [] (.inr rfl))
  · have hne : ∀ m r, pfx ≠ a ++ [m] → pfx ++ r ≠ a ++ [m] := by
      intro m r hm heq
      rcases List.prefix_concat_iff.mp (heq ▸ List.prefix_append pfx r) with h | h
      · exact hm h
      · exact hpre h
    exact view_shift treeHash (fun _ => rfl) (fun r => hframe _ (hne n r hpfx) (hne _ r hstub)) p

/-- What the step leaves as it was: what is recorded, seen from every directory that does not lie in the
target, and the targets that do not. -/
structure Kept (treeHash : Tree → Hash) (isIgnored : Path → Bool) (rel : Path) (g g' : Lstat) : Prop where
  stubsNamed : StubsNamed g'
  view : ∀ pfx, g pfx = some .dir → ¬ rel <+: pfx → ∀ p,
    view treeHash isIgnored g' pfx p = view treeHash isIgnored g pfx p
  pending : ∀ y, Pending treeHash isIgnored g y → ¬ rel <+: y.rel → Pending treeHash isIgnored g' y

theorem Pending.congr {g g' : Lstat} {y : StubTarget} (hy : Pending treeHash isIgnored g y)
    (hrel : g' y.rel = g y.rel) (hstub : g' y.stubPath = g y.stubPath)
    (hview : g y.rel = some .dir → ∀ p,
      Scan.view treeHash isIgnored g' y.rel p = Scan.view treeHash isIgnored g y.rel p)
    (hleaf : ∀ q a, g' q = some (.leaf a) → isLink a = false ∨ g q = some (.leaf a)) :
    Pending treeHash isIgnored g' y := by
  cases y with
  | file rel b seen =>
      simp only [StubTarget.rel, StubTarget.stubPath] at hrel hstub
      simpa only [Pending, hrel, hstub] using hy
  | dir rel t m seen =>
      obtain ⟨hne, hdir, hmark, hsame, hlink⟩ := hy
      refine ⟨hne, hrel.trans hdir, by rw [← hmark]; exact congrArg recordIn hstub, fun p => ?_, ?_⟩
      · rw [← hsame]
        exact hview hdir p
      · intro n r a hn ha
        exact (hleaf _ a ha).elim id fun h => hlink n r a hn h

/-- The stub file of a target lies in the target or in the directory above it. -/
theorem stubPath_parent (y : StubTarget) : ∃ b k, y.stubPath = b ++ [k] ∧ b <+: y.rel := by
  cases y with
  | file rel b seen => exact ⟨_, _, rfl, List.dropLast_prefix rel⟩
  | dir rel t m seen => exact ⟨_, _, rfl, List.prefix_rfl⟩

theorem Emptied.kept {mach : Machine} {dir : Path} {t : Tree} {m : TreeMeta} {g g' : Lstat}
    (h : Emptied mach dir (treeRecord t m) g g') (hs : StubsNamed g)
    (hview : ∀ p, Scan.view treeHash isIgnored g dir p = (t.at p).map entryNode) :
    Kept treeHash isIgnored dir g g' := by
  have hbelow : ∀ pfx, ¬ dir <+: pfx → ∀ p,
      Scan.view treeHash isIgnored g' pfx p = Scan.view treeHash isIgnored g pfx p :=
    fun pfx => view_of_below h.frame (h.view hview)
  -- what is found below the directory is the marker
  have hcases : ∀ q, g' q ≠ none → q = dir ++ [dirStubName] ∨ g' q = g q := by
    intro q hq
    by_cases hin : ∃ n r, q = dir ++ n :: r
    · obtain ⟨n, r, rfl⟩ := hin
      by_cases hnr : n :: r = [dirStubName]
      · exact .inl (by rw [hnr])
      · exact absurd (h.below n r hnr) hq
    · exact .inr (h.frame q hin)
  refine ⟨fun p k hk => ?_, fun pfx _ => hbelow pfx, fun y hy hrel => ?_⟩
  · rcases hcases _ hk with heq | heq
    · exact .inl (marker_iff.mp (List.cons.inj (List.append_inj' heq rfl).2).1)
    · exact hs p k (heq ▸ hk)
  · refine hy.congr (h.frame _ (not_below hrel)) (h.frame _ ?_) (fun _ => hbelow _ hrel) fun q a ha => ?_
    · rintro ⟨n, r, heq⟩
      obtain ⟨b, k, hstub, hb⟩ := stubPath_parent y
      rw [hstub] at heq
      have hpre : dir <+: b := by
        rcases List.prefix_concat_iff.mp (heq ▸ List.prefix_append dir (n :: r)) with h | h
        · exact absurd ⟨n, r, h.trans heq⟩ (not_below_self dir)
        · exact h
      exact hrel (hpre.trans hb)
    · rcases hcases q (by rw [ha]; exact Option.some_ne_none _) with rfl | heq
      · rw [h.marker] at ha
        cases ha
        exact .inl rfl
      · exact .inr (heq ▸ ha)

/-- A file whose record takes its place. -/
theorem fileStub_kept {mach : Machine} {a : Path} {n : String} {b : Blob} {c : Content} {stat : FileStat}
    {g g' : Lstat} (hs : StubsNamed g) (hn : ValidName n)
    (hfile : g (a ++ [n]) = some (.leaf (.file c stat))) (hhash : c.hash = b.hash)
    (hmode : stat.mode = b.mode) (hside : g (a ++ [n ++ stubSuffix]) ≠ some .dir)
    (hget : ∀ q, g' q = if q = a ++ [n ++ stubSuffix] then some (.leaf (mach.stubFile (blobRecord b)))
      else if q = a ++ [n] then none else g q) :
    Kept treeHash isIgnored (a ++ [n]) g g' := by
  have hlast : ∀ {b : Path} {k m : String}, b ++ [k] = a ++ [m] → b = a ∧ k = m := by
    intro b k m heq
    obtain ⟨rfl, hk⟩ := List.append_inj' heq rfl
    exact ⟨rfl, (List.cons.inj hk).1⟩
  have hne : a ++ [n ++ stubSuffix] ≠ a ++ [n] := fun heq => ne_stubName hn (hlast heq).2.symm
  have hframe : ∀ q, q ≠ a ++ [n] → q ≠ a ++ [n ++ stubSuffix] → g' q = g q := fun q h₁ h₂ => by
    rw [hget, if_neg h₂, if_neg h₁]
  have hgone : g' (a ++ [n]) = none := by rw [hget, if_neg hne.symm, if_pos rfl]
  have hrec : g' (a ++ [n ++ stubSuffix]) = some (.leaf (mach.stubFile (blobRecord b))) := by
    rw [hget, if_pos rfl]
  have hstub : ∀ k, n ≠ k ++ stubSuffix := by
    intro k heq
    have hlog : logicalName n = some k := stripSuffix_eq_some.mpr heq
    rw [(kept_of_valid hn).2] at hlog
    cases hlog
  have hs' : StubsNamed g' := by
    intro p k hk
    by_cases h₁ : p ++ [k ++ stubSuffix] = a ++ [n ++ stubSuffix]
    · have hkn : k ++ stubSuffix = n ++ stubSuffix := (hlast h₁).2
      by_cases heq : k = n
      · exact .inr (heq ▸ hn)
      · exact absurd (Or.inr hkn) (not_belongs_stub hn heq)
    · by_cases h₂ : p ++ [k ++ stubSuffix] = a ++ [n]
      · exact absurd (hlast h₂).2.symm (hstub k)
      · exact hs p k (hframe _ h₂ h₁ ▸ hk)
  have hname : isIgnored (a ++ [n]) = false → ∀ q,
      Scan.view treeHash isIgnored g' a (n :: q) = Scan.view treeHash isIgnored g a (n :: q) := by
    intro hi q
    have hown : ownNode treeHash isIgnored g a n = some (.blob b.hash b.mode) := by
      rw [ownNode_of_leaf hn hi hfile, ← hhash, ← hmode]
      rfl
    have hown' : ownNode treeHash isIgnored g' a n = some (.blob b.hash b.mode) := by
      rw [ownNode_of_missing hn hi hgone, hrec]
      rfl
    have hnot : Node.blob b.hash b.mode ≠ .dir := by rintro ⟨⟩
    cases q with
    | nil => rw [view_of_node hown, view_of_node hown']
    | cons k q => rw [view_below_leaf hnot hown, view_below_leaf hnot hown']
  have hview : ∀ pfx, g pfx = some .dir → ∀ p,
      Scan.view treeHash isIgnored g' pfx p = Scan.view treeHash isIgnored g pfx p := by
    intro pfx hdir
    refine view_of_name hs hs' hn hframe hname ?_ ?_
    · rintro rfl
      rw [hfile] at hdir
      cases hdir
    · rintro rfl
      exact hside hdir
  refine ⟨hs', fun pfx hdir _ => hview pfx hdir, fun y hy hrel => ?_⟩
  have hself : y.rel ≠ a ++ [n] := by
    intro heq
    exact hrel (heq ▸ List.prefix_rfl)
  have hkeep : y.rel ≠ a ++ [n ++ stubSuffix] ∧ y.stubPath ≠ a ++ [n] ∧
      y.stubPath ≠ a ++ [n ++ stubSuffix] := by
    cases y with
    | file rel b' seen =>
        obtain ⟨a', n', c', stat', rfl, hn', -⟩ := hy
        have hpath : fileStubPath (a' ++ [n']) = a' ++ [n' ++ stubSuffix] := by simp [fileStubPath]
        simp only [StubTarget.rel, StubTarget.stubPath, hpath] at hself ⊢
        refine ⟨fun heq => ?_, fun heq => hstub _ (hlast heq).2.symm, fun heq => ?_⟩
        · have hlog : logicalName n' = some n := stripSuffix_eq_some.mpr (hlast heq).2
          rw [(kept_of_valid hn').2] at hlog
          cases hlog
        · obtain ⟨rfl, hk⟩ := hlast heq
          by_cases hnn : n' = n
          · exact hself (by rw [hnn])
          · exact not_belongs_stub hn hnn (.inr hk)
    | dir rel t m seen =>
        obtain ⟨-, hdir, -⟩ := hy
        refine ⟨?_, fun heq => ?_, fun heq => ?_⟩
        · rintro rfl
          exact hside hdir
        · exact not_belongs_marker hn (.inl (hlast heq).2)
        · exact not_belongs_marker hn (.inr (hlast heq).2)
  refine hy.congr (hframe _ hself hkeep.1) (hframe _ hkeep.2.1 hkeep.2.2) (hview _) fun q x hx => ?_
  rw [hget] at hx
  split_ifs at hx
  · cases hx
    exact .inl rfl
  · exact .inr hx

/-! ## The command -/

/-- **`stubOne_kept`** — a target that is as it was looked at is stubbed and leaves the others as they
were, or fails and leaves what is recorded as it was. -/
theorem stubOne_kept (hwf : d.Wf) (hs : StubsNamed d.get) (hx : Pending treeHash isIgnored d.get x) :
    (∃ d', stubOne cfg x d = .ok ⟨⟩ d' ∧ d'.Wf ∧ Kept treeHash isIgnored x.rel d.get d'.get) ∨
      ∃ e d', stubOne cfg x d = .error e d' ∧
        ∀ p, view treeHash isIgnored d'.get [] p = view treeHash isIgnored d.get [] p := by
  cases x with
  | file rel b seen =>
      obtain ⟨a, n, c, stat, rfl, hn, hfile, rfl, hhash, hmode, -⟩ := hx
      have hdir : d.get a = some .dir :=
        DirTree.get_of_append (n := n) (q := []) (by rw [hfile]; exact Option.some_ne_none _)
      have hpath : fileStubPath (a ++ [n]) = a ++ [n ++ stubSuffix] := by simp [fileStubPath]
      obtain ⟨-, e, he⟩ | ⟨hside, d₁, hget, hwf₁, hcase⟩ :=
        @stubOne_cases cfg d (.file (a ++ [n]) b (.of stat)) a _ hdir hpath
      · exact .inr ⟨e, d, he, fun _ => rfl⟩
      · have hne : a ++ [n] ≠ a ++ [n ++ stubSuffix] := fun heq =>
          ne_stubName hn (List.cons.inj (List.append_cancel_left heq)).1
        have hfile₁ : d₁.get (a ++ [n]) = some (.leaf (.file c stat)) := by
          rw [hget, if_neg hne, hfile]
        have hseen : stillAsSeen d₁ (.file (a ++ [n]) b (.of stat)) = true := by
          rw [stillAsSeen, hfile₁]
          exact decide_eq_true rfl
        obtain ⟨-, hrun⟩ | ⟨hno, -⟩ := hcase
        · obtain ⟨d', hun, hget'⟩ := DirTree.unlink_of_leaf hfile₁
          have hcall : syscall (fun d => d.unlink (a ++ [n])) d₁ = .ok ⟨⟩ d' := by exact syscall_ok hun
          refine .inl ⟨d', by rw [hrun, guarded_ok]; exact hcall, (hwf₁ hwf).unlink hun, ?_⟩
          refine @fileStub_kept _ _ cfg.mach a n b c stat _ _ hs hn hfile hhash hmode hside fun q => ?_
          rw [hget', hget]
          by_cases hq : q = a ++ [n]
          · rw [if_pos hq, if_pos hq, if_neg (hq ▸ hne)]
          · rw [if_neg hq, if_neg hq]
            rfl
        · rw [hseen] at hno
          cases hno
  | dir rel t m seen =>
      obtain ⟨hne, hdir, hmark, hview, hlink⟩ := hx
      obtain ⟨-, e, he⟩ | ⟨-, d₁, hget, hwf₁, hcase⟩ :=
        @stubOne_cases cfg d (.dir rel t m seen) rel _ hdir rfl
      · exact .inr ⟨e, d, he, fun _ => rfl⟩
      · have hother : ∀ q, q ≠ rel ++ [dirStubName] → d₁.get q = d.get q := fun q hq => by
          rw [hget, if_neg hq]
        obtain ⟨-, hrun⟩ | ⟨-, d₂, he, hget₂⟩ := hcase
        · have hself : rel ≠ rel ++ [dirStubName] := fun h => by simpa using congrArg List.length h
          obtain ⟨d', hrm, hwf', hempty⟩ := removeDirAll_ok (hwf₁ hwf) (by rw [hother _ hself, hdir])
            (by rw [hget, if_pos rfl]) fun n q a hn ha => by
              refine hlink n q a hn ?_
              rwa [hother _ fun h => hn (List.cons.inj (List.append_cancel_left h)).1] at ha
          have hempty' : Emptied cfg.mach rel (treeRecord t m) d.get d'.get :=
            ⟨hempty.marker, hempty.below, fun q hq => by
              rw [hempty.frame q hq, hother q fun h => hq ⟨_, _, h⟩]⟩
          exact .inl ⟨d', by rw [hrun, guarded_ok]; exact hrm, hwf', hempty'.kept hs hview⟩
        · refine .inr ⟨_, d₂, he, fun p => ?_⟩
          have hsame : ∀ q, q ≠ rel ++ [dirStubName] → d₂.get q = d.get q := fun q hq => by
            rw [hget₂, if_neg hq]
          have hgone : recordIn (d₂.get (rel ++ [dirStubName])) = none := by
            rw [hget₂, if_pos rfl]
            rfl
          exact view_of_below (fun q hq => hsame q fun h => hq ⟨_, _, h⟩)
            (view_of_unmarked_congr hs hmark hgone hsame) (by simpa using hne) p

/-- A run over targets none of which lies in an earlier one, or is it. -/
theorem stubTargets_keeps {l : List StubTarget} (hwf : d.Wf) (hs : StubsNamed d.get)
    (hpending : ∀ x ∈ l, Pending treeHash isIgnored d.get x)
    (hapart : (l.map StubTarget.rel).Pairwise fun a b => ¬ a <+: b) (p : Path) :
    view treeHash isIgnored (after (l.forM (stubOne cfg)) d).get [] p =
      view treeHash isIgnored d.get [] p := by
  induction l generalizing d with
  | nil => rfl
  | cons x l ih =>
      obtain ⟨hx, hl⟩ := List.forall_mem_cons.mp hpending
      obtain ⟨hxl, hapart⟩ := List.pairwise_cons.mp hapart
      obtain ⟨d', hrun, hwf', hkept⟩ | ⟨e, d', hrun, hview⟩ :=
        @stubOne_kept cfg treeHash isIgnored d x hwf hs hx
      · have hafter : after ((x :: l).forM (stubOne cfg)) d = after (l.forM (stubOne cfg)) d' := by
          have hstep : (x :: l).forM (stubOne cfg) d = l.forM (stubOne cfg) d' := bind_eq_of_ok hrun _
          rw [after, after, hstep]
        have hne : ¬ x.rel <+: [] := by
          cases x with
          | file rel b seen =>
              obtain ⟨a, n, -, -, rfl, -⟩ := hx
              simp [StubTarget.rel]
          | dir rel t m seen => simpa [StubTarget.rel] using hx.1
        rw [hafter, ih hwf' hkept.stubsNamed (fun y hy =>
          hkept.pending y (hl y hy) (hxl _ (List.mem_map_of_mem hy))) hapart]
        exact hkept.view [] (DirTree.get_nil d) hne p
      · have hafter : after ((x :: l).forM (stubOne cfg)) d = d' :=
          after_of_error (bind_eq_of_error hrun _)
        rw [hafter]
        exact hview p

/-! ## What was looked at -/

theorem isRealDir_true {p : Path} (h : isRealDir d p = .ok true) : d.get p = some .dir := by
  unfold isRealDir at h
  split_ifs at h with hp
  · rw [hp, DirTree.get_nil]
  · rcases hr : resolveDir false [] p.dropLast d with ⟨_, t⟩ | ⟨e, t⟩
    · rw [hr] at h
      rcases hk : d.get p with _ | _ | ⟨c, stat⟩ | ⟨target, m⟩ | _
      · rw [hk] at h
        cases h
      · rfl
      · rw [hk] at h
        cases h
      · rw [hk] at h
        cases h
      · rw [hk] at h
        cases h
    · rw [hr] at h
      rcases e with e | q | name
      · cases e <;> cases h
      · cases h
      · cases h

theorem record_of_not_exists {p : Path} (h : stubFileExists cfg d p = false) :
    recordIn (d.get p) = none := by
  unfold stubFileExists at h
  rcases hk : d.get p with _ | _ | ⟨c, stat⟩ | ⟨target, m⟩ | _
  · rfl
  · rfl
  · rw [hk] at h
    cases h
  · rfl
  · rfl

theorem validName_of_addressable {rel : Path} (h : addressable rel = true)
    (hkernel : ∀ n ∈ rel, KernelName n) : ∀ n ∈ rel, ValidName n := by
  intro n hn
  have hn' := List.all_eq_true.mp h n hn
  rw [Bool.and_eq_true, Bool.or_eq_true, decide_eq_true_eq, decide_eq_true_eq, Bool.not_eq_true'] at hn'
  exact validName_iff.mpr ⟨hkernel n hn, hn'.1, fun hne => hn'.2.resolve_left hne⟩

/-- What the command takes for granted of what it is told: that the hashes it has at hand are those of
the files, and that a directory that scans to the hash of its tree scans to what the tree records. -/
structure Told (cfg : StubConfig) (cloneRoot : Tree) (d : Disk) : Prop where
  scan : Informed cfg.scan d.get
  cached : ∀ p c stat h, d.get p = some (.leaf (.file c stat)) →
    cfg.cached p stat.mtime stat.size = some h → h = c.hash
  hashed : ∀ rel s t m r, d.at rel = some (.sub s) →
    cloneRoot.navigateEntry rel = .ok (some (.tree t m)) →
    scanImpl cfg.scan rel (stillCalls s) (observe s) = .ok r →
    cfg.scan.treeHash r.root = cfg.scan.treeHash t → ∀ p, (r.root.at p).map entryNode = (t.at p).map entryNode

/-- What it does not look at: the mode of a file, and symlinks below a directory. -/
structure Unseen (cloneRoot : Tree) (d : Disk) (rel : Path) : Prop where
  mode : ∀ b c stat, cloneRoot.at rel = some (.blob b) → d.get rel = some (.leaf (.file c stat)) →
    stat.mode = b.mode
  noLink : ∀ n r a, n ≠ dirStubName → d.get (rel ++ n :: r) = some (.leaf a) → isLink a = false

section Validate

variable {cloneRoot : Tree} {rel : Path}

theorem validateDir_ok {s : Disk} (h : validateDir cfg cloneRoot d s rel = .ok x) :
    ∃ t m r, cloneRoot.navigateEntry rel = .ok (some (.tree t m)) ∧
      scanImpl cfg.scan rel (stillCalls s) (observe s) = .ok r ∧
      cfg.scan.treeHash r.root = cfg.scan.treeHash t ∧ x = .dir rel t m (.of s) := by
  unfold validateDir at h
  split_ifs at h with hgit
  rcases hnav : cloneRoot.navigateEntry rel with e | _ | _ | ⟨t, m⟩ | _
  · rw [hnav] at h
    cases h
  · rw [hnav] at h
    cases h
  · rw [hnav] at h
    cases h
  · rw [hnav] at h
    cases hscan : scanImpl cfg.scan rel (stillCalls s) (observe s) with
    | error e =>
        simp only [hscan] at h
        cases h
    | ok r =>
        simp only [hscan] at h
        split_ifs at h with hhash
        cases h
        exact ⟨t, m, r, rfl, rfl, hhash, rfl⟩
  · rw [hnav] at h
    cases h

theorem validateFile_ok {c : Content} {stat : FileStat}
    (h : validateFile cfg cloneRoot d c stat rel = .ok x) :
    ∃ b, cloneRoot.at rel = some (.blob b) ∧
      (cfg.cached rel stat.mtime stat.size).getD c.hash = b.hash ∧ x = .file rel b (.of stat) := by
  unfold validateFile at h
  split_ifs at h with hgit
  rcases hat : cloneRoot.at rel with _ | b | ⟨t, m⟩ | l
  · rw [hat] at h
    cases h
  · simp only [hat] at h
    split_ifs at h with hhash
    cases h
    exact ⟨b, rfl, hhash, rfl⟩
  · rw [hat] at h
    cases h
  · rw [hat] at h
    cases h

/-- A path that passes is a directory without a stub, or a file. -/
theorem validate_cases (h : validate cfg cloneRoot d rel = .ok (some x)) : addressable rel = true ∧
    ((∃ s, d.at rel = some (.sub s) ∧ stubFileExists cfg d (dirStubPath rel) = false ∧
        validateDir cfg cloneRoot d s rel = .ok x) ∨
      ∃ c stat, d.get rel = some (.leaf (.file c stat)) ∧
        stubFileExists cfg d (fileStubPath rel) = false ∧
        validateFile cfg cloneRoot d c stat rel = .ok x) := by
  have haddr : addressable rel = true := by
    by_contra hno
    rw [Bool.not_eq_true] at hno
    rw [validate, if_pos hno] at h
    cases h
  rw [validate, if_neg (by rw [haddr]; decide)] at h
  refine ⟨haddr, ?_⟩
  rcases hreal : isRealDir d rel with e | _ | _
  · rw [hreal] at h
    cases h
  · right
    simp only [hreal] at h
    rcases hk : d.get rel with _ | _ | ⟨c, stat⟩ | ⟨target, m⟩ | _
    · simp only [hk] at h
      split_ifs at h
      cases h
    · simp only [hk] at h
      split_ifs at h
      cases h
    · simp only [hk] at h
      split_ifs at h with hex
      · cases h
      · rw [Bool.not_eq_true] at hex
        obtain ⟨y, hy, hyx⟩ := map_eq_ok.mp h
        cases hyx
        exact ⟨c, stat, rfl, hex, hy⟩
    · simp only [hk] at h
      split_ifs at h
      cases h
    · simp only [hk] at h
      split_ifs at h
      cases h
  · left
    simp only [hreal] at h
    split_ifs at h with hex
    · cases h
    · rw [Bool.not_eq_true] at hex
      obtain ⟨s, hs⟩ := DirTree.get_eq_dir_iff.mp (isRealDir_true hreal)
      simp only [hs] at h
      obtain ⟨y, hy, hyx⟩ := map_eq_ok.mp h
      cases hyx
      exact ⟨s, hs, hex, hy⟩

theorem validate_rel (h : validate cfg cloneRoot d rel = .ok (some x)) : x.rel = rel := by
  obtain ⟨-, ⟨s, -, -, hdir⟩ | ⟨c, stat, -, -, hfile⟩⟩ := validate_cases h
  · obtain ⟨t, m, r, -, -, -, rfl⟩ := validateDir_ok hdir
    rfl
  · obtain ⟨b, -, -, rfl⟩ := validateFile_ok hfile
    rfl

/-- **`validate_pending`** — a target that passes can be stubbed. -/
theorem validate_pending (htold : Told cfg cloneRoot d) (hkernel : ∀ n ∈ rel, KernelName n)
    (hunseen : Unseen cloneRoot d rel) (h : validate cfg cloneRoot d rel = .ok (some x)) :
    Pending cfg.scan.treeHash cfg.scan.isIgnored d.get x := by
  obtain ⟨haddr, ⟨s, hat, hex, hdir⟩ | ⟨c, stat, hget, hex, hfile⟩⟩ := validate_cases h
  · obtain ⟨t, m, r, hnav, hscan, hhash, rfl⟩ := validateDir_ok hdir
    have hne : rel ≠ [] := by
      rintro rfl
      cases hnav
    refine ⟨hne, DirTree.get_eq_dir_iff.mpr ⟨s, hat⟩, record_of_not_exists hex, fun p => ?_,
      hunseen.noLink⟩
    have hbelow : ∀ q, d.get (rel ++ q) = DirTree.get s q := fun q => by
      rw [DirTree.get, DirTree.at_append, hat]
      rfl
    rw [← scan_view htold.scan hbelow hscan, htold.hashed rel s t m r hat hnav hscan hhash]
  · obtain ⟨b, hat, hhash, rfl⟩ := validateFile_ok hfile
    have hne : rel ≠ [] := by
      rintro rfl
      cases hget
    obtain ⟨a, n, rfl⟩ := (List.eq_nil_or_concat' rel).resolve_left hne
    have hn : ValidName n := validName_of_addressable haddr hkernel n (by simp)
    refine ⟨a, n, c, stat, rfl, hn, hget, rfl, ?_, hunseen.mode b c stat hat hget,
      record_of_not_exists hex⟩
    cases hcached : cfg.cached (a ++ [n]) stat.mtime stat.size with
    | none => rwa [hcached, Option.getD_none] at hhash
    | some k =>
        rw [hcached, Option.getD_some] at hhash
        rw [← hhash, htold.cached _ c stat k hget hcached]

/-- The targets are among the given paths, in their order. -/
theorem validateAll_ok {paths : List Path} {l : List StubTarget}
    (h : validateAll cfg cloneRoot d paths = .ok l) :
    (l.map StubTarget.rel).Sublist paths ∧
      ∀ x ∈ l, ∃ rel ∈ paths, validate cfg cloneRoot d rel = .ok (some x) := by
  obtain ⟨xs, hxs, rfl⟩ := map_eq_ok.mp h
  have hall := mapM_eq_ok.mp hxs
  clear h hxs
  induction hall with
  | nil => simp
  | @cons rel o paths xs ho hrest ih =>
      obtain ⟨hsub, hmem⟩ := ih
      have hmem' : ∀ x ∈ xs.filterMap id, ∃ rel' ∈ rel :: paths,
          validate cfg cloneRoot d rel' = .ok (some x) := fun x hx => by
        obtain ⟨rel', hrel', hv⟩ := hmem x hx
        exact ⟨rel', List.mem_cons_of_mem _ hrel', hv⟩
      cases o with
      | none => exact ⟨hsub.cons _, hmem'⟩
      | some x =>
          refine ⟨?_, ?_⟩
          · show (x.rel :: (xs.filterMap id).map StubTarget.rel).Sublist (rel :: paths)
            rw [validate_rel ho]
            exact hsub.cons_cons rel
          · intro y hy
            rcases List.mem_cons.mp hy with rfl | hy
            · exact ⟨rel, List.mem_cons_self .., ho⟩
            · exact hmem' y hy

end Validate

def plainStub : StubConfig :=
  ⟨stubMachine, stillConfig (fun _ => false) (fun _ => .ok ⟨⟩) (fun _ => 0), fun _ _ => false,
    fun _ _ => false, fun _ _ _ => none⟩

def libTree : Tree := .blob "b" ⟨9, some 0, 9, none⟩ .nil

def nestedTree : Tree := .blob "a" ⟨7, some 0, 1, none⟩ (.tree "lib" libTree ⟨some 0, 9, 1⟩ .nil)

def nestedRoot : Tree := .tree "src" nestedTree ⟨none, 10, 2⟩ .nil

def nestedSrc : Disk :=
  .sub "src" (.leaf "a" (stubMachine.file ⟨7, none, 1, none⟩)
    (.sub "lib" (.leaf "b" (stubMachine.file ⟨9, none, 9, none⟩) .nil) .nil)) .nil

theorem nestedSrc_get {q : Path} (h : nestedSrc.get q ≠ none) :
    q = [] ∨ q = ["src"] ∨ q = ["src", "a"] ∨ q = ["src", "lib"] ∨ q = ["src", "lib", "b"] := by
  rcases q with _ | ⟨n, q⟩
  · exact .inl rfl
  · rw [nestedSrc, DirTree.get_sub_cons] at h
    split_ifs at h with hn
    · rcases q with _ | ⟨k, q⟩
      · simp [hn]
      · rw [DirTree.get_leaf_cons, DirTree.get_sub_cons] at h
        split_ifs at h with hk hq hk'
        · simp [hn, hk, hq]
        · exact absurd rfl h
        · rcases q with _ | ⟨j, q⟩
          · simp [hn, hk']
          · rw [DirTree.get_leaf_cons] at h
            split_ifs at h with hj hq
            · simp [hn, hk', hj, hq]
            · exact absurd rfl h
            · exact absurd (DirTree.nil_get_cons ..) h
        · exact absurd (DirTree.nil_get_cons ..) h
    · exact absurd (DirTree.nil_get_cons ..) h

/-- It has no stub file. -/
theorem nestedSrc_noStub (p : Path) (m : String) : nestedSrc.get (p ++ [m ++ stubSuffix]) = none := by
  by_contra h
  have hno : ∀ k : String, ValidName k → m ++ stubSuffix ≠ k := by
    intro k hk heq
    have hlog : logicalName k = some m := by rw [logicalName, stripSuffix_eq_some, heq]
    rw [(kept_of_valid hk).2] at hlog
    cases hlog
  rcases nestedSrc_get h with h | h | h | h | h
  · simp at h
  · exact hno "src" (by decide) (by simpa using congrArg List.getLast? h)
  · exact hno "a" (by decide) (by simpa using congrArg List.getLast? h)
  · exact hno "lib" (by decide) (by simpa using congrArg List.getLast? h)
  · exact hno "b" (by decide) (by simpa using congrArg List.getLast? h)

theorem nestedSrc_stubsNamed : StubsNamed nestedSrc.get :=
  fun p m h => absurd (nestedSrc_noStub p m) h

theorem nestedSrc_wf : nestedSrc.Wf :=
  ⟨by decide, ⟨by decide, by decide, ⟨by decide, trivial⟩, trivial⟩, trivial⟩

theorem nestedSrc_noLink {q : Path} {a : DiskLeaf} (h : nestedSrc.get q = some (.leaf a)) :
    isLink a = false := by
  rcases nestedSrc_get (by rw [h]; exact Option.some_ne_none _) with rfl | rfl | rfl | rfl | rfl <;>
    cases h <;> rfl

theorem nestedSrc_told : Told plainStub nestedRoot nestedSrc where
  scan := informed_still _ _ _ _
  cached p c stat h _ hc := by cases hc
  hashed rel s t m r hat hnav hscan _ := by
    rcases nestedSrc_get (by rw [DirTree.get, hat]; exact Option.some_ne_none _) with
      rfl | rfl | rfl | rfl | rfl
    · cases hnav
    · cases hnav
      cases hat
      have hroot := congrArg (Except.map ScanResult.root) hscan
      have hsame : nestedTree = r.root := Except.ok.inj hroot
      exact fun p => by rw [hsame]
    · cases hnav
    · cases hnav
      cases hat
      have hroot := congrArg (Except.map ScanResult.root) hscan
      have hsame : libTree = r.root := Except.ok.inj hroot
      exact fun p => by rw [hsame]
    · cases hnav

theorem nestedSrc_unseen : Unseen nestedRoot nestedSrc ["src"] where
  mode b c stat hb := by cases hb
  noLink _ _ _ _ h := nestedSrc_noLink h

def markedSrc : Disk :=
  .sub "src" (.leaf dirStubName (stubMachine.stubFile (treeRecord nestedTree ⟨none, 10, 2⟩)) .nil) .nil

end Omemfs.Work
