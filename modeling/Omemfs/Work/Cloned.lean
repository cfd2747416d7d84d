/-
# Omemfs.Work.Cloned — what a clone leaves, and what it leaves alone.

A directory laid down from a tree is seen by a scan as that tree, whatever became a stub in it
(`shownAs_laidDown`).  So a clone into an empty destination reproduces its root.  Forced into a
destination that holds something, it keeps what is there exactly if it writes over nothing on its way
(`clone_iff`).  It writes over a file or a symlink where the root has a symlink, over a symlink that
leads nowhere where the root has a blob, and over whatever has the name of a stub record.
-/
import Omemfs.Work.Clone

namespace Omemfs.Work

open Lib Scan Fsguard

/-! ## How a scan sees it -/

section Seen

variable {cfg : CloneConfig} {treeHash : Tree → Hash}

/-- What is laid down of an entry, by the names that belong to it. -/
def laidItem (cfg : CloneConfig) (inGit : Bool) (n m : String) : TreeEntry → Option (Item String DiskLeaf)
  | .blob b => if m = cfg.blobName inGit n b then some (.leaf (cfg.blobLeaf inGit b)) else none
  | .tree t tm =>
      if m = n then
        some (.sub (if cfg.shouldStub tm.size inGit then
          .leaf dirStubName (cfg.mach.stubFile (treeRecord t tm)) .nil
          else laidDown cfg t (Sync.childInGit inGit n t)))
      else none
  | .symlink l => if m = n then some (.leaf (cfg.mach.link l)) else none

theorem find?_laidDown_of_find? (cfg : CloneConfig) {t : Tree} (hnamed : t.WellNamed) (inGit : Bool)
    {n m : String} {e : TreeEntry} (he : t.find? n = some e) (hm : Belongs n m) :
    (laidDown cfg t inGit).find? m = laidItem cfg inGit n m e := by
  induction t using Tree.induction_cons with
  | nil => cases he
  | cons k e' rest _ ih =>
      obtain ⟨hfresh, hk, -, hrest⟩ := Tree.wellNamed_cons.mp hnamed
      rw [Tree.find?_cons] at he
      by_cases hkn : n = k
      · subst hkn
        rw [if_pos rfl] at he
        cases he
        have hout := find?_laidDown cfg inGit (others_apart hk hfresh hrest m hm)
        cases e <;> rw [Tree.cons, laidDown, DirTree.find?, hout] <;> rfl
      · rw [if_neg hkn] at he
        have hmem : n ∈ rest.names := by
          by_contra hno
          rw [Tree.find?_eq_none_iff.mpr hno] at he
          cases he
        have hne : ∀ m', Belongs k m' → m ≠ m' := fun m' hm' heq =>
          others_apart hk hfresh hrest m (heq ▸ hm') n hmem hm
        have hskip : (laidDown cfg (Tree.cons k e' rest) inGit).find? m =
            (laidDown cfg rest inGit).find? m := by
          cases e' with
          | blob b =>
              rw [Tree.cons, laidDown, DirTree.find?, if_neg (hne _ (blobName_belongs cfg inGit k b))]
          | tree t tm => rw [Tree.cons, laidDown, DirTree.find?, if_neg (hne k (.inl rfl))]
          | symlink l => rw [Tree.cons, laidDown, DirTree.find?, if_neg (hne k (.inl rfl))]
        rw [hskip, ih hrest he]

/-- A tree is seen below a directory as it is. -/
def ShownAs (treeHash : Tree → Hash) (d : Disk) (t : Tree) : Prop :=
  ∀ p, view treeHash (fun _ => false) d.get [] p = (t.at p).map entryNode

/-- Below a directory of the disk its own part of the disk is seen. -/
theorem view_of_sub {d s : Disk} {n : String} (h : d.find? n = some (.sub s)) (p : Path) :
    view treeHash (fun _ => false) d.get [n] p = view treeHash (fun _ => false) s.get [] p := by
  refine view_shift treeHash ?_ ?_ p
  · exact fun _ => rfl
  · exact fun q => DirTree.get_cons_of_sub h q

/-- Beside a marker alone there is the tree of the marker. -/
theorem shownAs_marker (mach : Machine) (t : Tree) (m : TreeMeta) :
    ShownAs treeHash (.leaf dirStubName (mach.stubFile (treeRecord t m)) .nil) t := by
  intro p
  cases p with
  | nil => rfl
  | cons n p =>
      have hfind : ∀ k : String, k ≠ dirStubName →
          (DirTree.leaf dirStubName (mach.stubFile (treeRecord t m)) .nil).get [k] = none := by
        intro k hk
        refine DirTree.get_cons_of_none ?_ []
        rw [DirTree.find?, if_neg hk]
        rfl
      have hown : ownNode treeHash (fun _ => false)
          (DirTree.leaf dirStubName (mach.stubFile (treeRecord t m)) .nil).get [] n = none := by
        apply ownNode_of_none
        · by_cases hn : n = dirStubName
          · exact .inr (hn ▸ by decide)
          · exact .inl (hfind n hn)
        · by_cases hs : n ++ stubSuffix = dirStubName
          · exact .inl (marker_iff.mp hs)
          · exact .inr (hfind _ hs)
      have hmarker : markerTree (DirTree.leaf dirStubName (mach.stubFile (treeRecord t m)) .nil).get [] =
          some t := rfl
      rw [view, hown, hmarker]
      rfl

/-- The names without an entry show nothing. -/
theorem ownNode_laidDown_of_not_mem {t : Tree} (hnamed : t.WellNamed) (inGit : Bool) {n : String}
    (hn : n ∉ t.names) : ownNode treeHash (fun _ => false) (laidDown cfg t inGit).get [] n = none := by
  apply ownNode_of_none
  · by_cases h : ∃ k ∈ t.names, Belongs k n
    · obtain ⟨k, hk, rfl | rfl⟩ := h
      · exact absurd hk hn
      · refine .inr fun hl => ?_
        have hs : logicalName (k ++ stubSuffix) = some k := stripSuffix_eq_some.mpr rfl
        rw [hl] at hs
        cases hs
    · exact .inl (DirTree.get_cons_of_none (find?_laidDown cfg inGit fun k hk hb => h ⟨k, hk, hb⟩) [])
  · refine .inr (DirTree.get_cons_of_none (find?_laidDown cfg inGit fun k hk hb => ?_) [])
    rcases hb with hb | hb
    · exact ne_stubName (hnamed.valid hk) hb.symm
    · have hs : logicalName (k ++ stubSuffix) = some n := stripSuffix_eq_some.mpr hb.symm
      have hs' : logicalName (k ++ stubSuffix) = some k := stripSuffix_eq_some.mpr rfl
      rw [hs] at hs'
      cases hs'
      exact hn hk

theorem markerTree_laidDown {t : Tree} (hnamed : t.WellNamed) (inGit : Bool) :
    markerTree (laidDown cfg t inGit).get [] = none := by
  have hnone : (laidDown cfg t inGit).get ([] ++ [dirStubName]) = none := by
    refine DirTree.get_cons_of_none (find?_laidDown cfg inGit fun k hk hb => ?_) []
    have hvalid := hnamed.valid hk
    rcases hb with hb | hb
    · rw [← hb] at hvalid
      exact absurd hvalid (by decide)
    · rw [marker_iff.mp hb.symm] at hvalid
      exact absurd hvalid (by decide)
  rw [markerTree, hnone]
  rfl

/-- The entry of a name, as its directory shows it. -/
theorem ownNode_laidDown (cfg : CloneConfig) (treeHash : Tree → Hash) {t : Tree}
    (hnamed : t.WellNamed) (inGit : Bool) {n : String} {e : TreeEntry} (he : t.find? n = some e) (hwf : e.Wf) :
    ownNode treeHash (fun _ => false) (laidDown cfg t inGit).get [] n = some (entryNode e) := by
  have hvalid : ValidName n := (hnamed.of_find? he).1
  obtain ⟨hx, hl⟩ := kept_of_valid hvalid
  have hself := find?_laidDown_of_find? cfg hnamed inGit he (.inl rfl)
  have hside := find?_laidDown_of_find? cfg hnamed inGit he (.inr rfl)
  have hne : n ≠ n ++ stubSuffix := ne_stubName hvalid
  have hget : ∀ m, (laidDown cfg t inGit).get ([] ++ [m]) =
      ((laidDown cfg t inGit).find? m).map Item.kind := fun m => by
    rw [List.nil_append, DirTree.get, DirTree.at_singleton]
  simp only [ownNode, hx, hl, hget, hself, Bool.false_eq_true, if_false, if_true]
  cases e with
  | blob b =>
      by_cases hstub : cfg.shouldStub b.size inGit = true
      · have hname : cfg.blobName inGit n b = n ++ stubSuffix := by
          rw [CloneConfig.blobName, if_pos hstub]
        have hleaf : cfg.blobLeaf inGit b = cfg.mach.stubFile (blobRecord b) := by
          rw [CloneConfig.blobLeaf, if_pos hstub]
        have hne' : n ≠ "" := (validName_iff.mp hvalid).1.1
        have hfile : fileStub (laidDown cfg t inGit).get [] n = some (blobRecord b) := by
          rw [fileStub, if_neg (by simp [sidecar_kept hvalid, hne']), hget, hside, laidItem, hname,
            if_pos rfl, hleaf]
          rfl
        simp only [laidItem, hname, if_neg hne, Option.map_none, hfile]
        rfl
      · have hname : cfg.blobName inGit n b = n := by
          rw [CloneConfig.blobName, if_neg hstub]
        have hleaf : cfg.blobLeaf inGit b = cfg.mach.file b := by
          rw [CloneConfig.blobLeaf, if_neg hstub]
        simp only [laidItem, hname, hleaf, if_true, Option.map_some, Item.kind]
        exact kindNode_file cfg.mach hwf
  | tree t' m => simp only [laidItem, if_true, Option.map_some, Item.kind, kindNode, entryNode]
  | symlink l => simp only [laidItem, if_true, Option.map_some, Item.kind, kindNode_link]

/-- **`shownAs_laidDown`** — what a clone lays down is seen as the tree it was cloned from. -/
theorem shownAs_laidDown (cfg : CloneConfig) (treeHash : Tree → Hash) {t : Tree}
    (hnamed : t.WellNamed) (hwf : t.Wf) (inGit : Bool) :
    ShownAs treeHash (laidDown cfg t inGit) t := by
  intro p
  induction p generalizing t inGit with
  | nil => rfl
  | cons n p ih =>
      rw [Tree.at_cons, view, markerTree_laidDown hnamed]
      cases he : t.find? n with
      | none =>
          rw [ownNode_laidDown_of_not_mem hnamed inGit (Tree.find?_eq_none_iff.mp he)]
          rfl
      | some e =>
          have hewf : e.Wf := hwf.of_find? he
          rw [ownNode_laidDown cfg treeHash hnamed inGit he hewf]
          cases e with
          | blob b => cases p <;> rfl
          | symlink l => cases p <;> rfl
          | tree t' m =>
              have hnamed' : t'.WellNamed := (hnamed.of_find? he).2
              have hsub := find?_laidDown_of_find? cfg hnamed inGit he (.inl rfl)
              rw [laidItem, if_pos rfl] at hsub
              simp only [entryNode, List.nil_append]
              rw [view_of_sub hsub]
              have hinner : view treeHash (fun _ => false) (if cfg.shouldStub m.size inGit then
                  DirTree.leaf dirStubName (cfg.mach.stubFile (treeRecord t' m)) .nil
                  else laidDown cfg t' (Sync.childInGit inGit n t')).get [] p = (t'.at p).map entryNode := by
                split_ifs with hstub
                · exact shownAs_marker cfg.mach t' m p
                · exact ih hnamed' hewf _
              rw [hinner]
              cases p <;> rfl

end Seen

/-! ## A clone into an empty directory -/

section Empty

variable {cfg : CloneConfig} {treeHash : Tree → Hash}

theorem find?_laidDown_some {t : Tree} (hnamed : t.WellNamed) {inGit : Bool} {m : String}
    {x : Item String DiskLeaf} (hx : (laidDown cfg t inGit).find? m = some x) :
    ∃ n e, t.find? n = some e ∧ Belongs n m ∧ laidItem cfg inGit n m e = some x := by
  by_cases h : ∃ n ∈ t.names, Belongs n m
  · obtain ⟨n, hn, hb⟩ := h
    obtain ⟨e, he⟩ := Option.ne_none_iff_exists'.mp (mt Tree.find?_eq_none_iff.mp (not_not.mpr hn))
    exact ⟨n, e, he, hb, (find?_laidDown_of_find? cfg hnamed inGit he hb).symm.trans hx⟩
  · rw [find?_laidDown cfg inGit fun n hn hb => h ⟨n, hn, hb⟩] at hx
    cases hx

theorem stubsReadable_marker (mach : Machine) (r : StubRecord) :
    StubsReadable (DirTree.leaf dirStubName (mach.stubFile r) .nil).get := by
  intro p n k hk _
  have hfind : ∀ m x, (DirTree.leaf dirStubName (mach.stubFile r) .nil).find? m = some x →
      x = .leaf (mach.stubFile r) := by
    intro m x hx
    rw [DirTree.find?] at hx
    split_ifs at hx
    · exact (Option.some.inj hx).symm
    · cases hx
  cases p with
  | nil =>
      rw [List.nil_append, DirTree.get, DirTree.at_singleton] at hk
      obtain ⟨x, hx, rfl⟩ := Option.map_eq_some_iff.mp hk
      rw [hfind n x hx]
      simp [Item.kind, recordIn_stubFile]
  | cons m p =>
      have hno : (DirTree.leaf dirStubName (mach.stubFile r) .nil).get [m] ≠ some .dir := by
        intro hdir
        rw [DirTree.get, DirTree.at_singleton] at hdir
        obtain ⟨x, hx, hx'⟩ := Option.map_eq_some_iff.mp hdir
        rw [hfind m x hx] at hx'
        cases hx'
      have hgone : (DirTree.leaf dirStubName (mach.stubFile r) .nil).get (m :: p ++ [n]) = none := by
        cases p with
        | nil => exact DirTree.get_append_of_not_dir hno n []
        | cons j p => exact DirTree.get_append_of_not_dir hno j (p ++ [n])
      rw [hgone] at hk
      cases hk

theorem stubsReadable_laidDown {t : Tree} (hnamed : t.WellNamed) (inGit : Bool) :
    StubsReadable (laidDown cfg t inGit).get := by
  intro p n k hk hl
  induction p generalizing t inGit with
  | nil =>
      rw [List.nil_append, DirTree.get, DirTree.at_singleton] at hk
      obtain ⟨x, hx, rfl⟩ := Option.map_eq_some_iff.mp hk
      obtain ⟨j, e, he, hb, hitem⟩ := find?_laidDown_some hnamed hx
      have hvalid := (hnamed.of_find? he).1
      have hne : n ≠ j := by
        rintro rfl
        exact hl (kept_of_valid hvalid).2
      cases e with
      | blob b =>
          by_cases hstub : cfg.shouldStub b.size inGit = true
          · simp only [laidItem, CloneConfig.blobLeaf, if_pos hstub] at hitem
            split_ifs at hitem
            rw [← Option.some.inj hitem]
            simp [Item.kind, recordIn_stubFile]
          · have hname : n ≠ cfg.blobName inGit j b := by rwa [CloneConfig.blobName, if_neg hstub]
            rw [laidItem, if_neg hname] at hitem
            cases hitem
      | tree t' m =>
          rw [laidItem, if_neg hne] at hitem
          cases hitem
      | symlink l =>
          rw [laidItem, if_neg hne] at hitem
          cases hitem
  | cons m p ih =>
      cases hx : (laidDown cfg t inGit).find? m with
      | none =>
          rw [List.cons_append, DirTree.get_cons_of_none hx] at hk
          cases hk
      | some x =>
          cases x with
          | leaf a =>
              rw [List.cons_append, DirTree.get_cons_of_leaf hx, if_neg (by simp)] at hk
              cases hk
          | sub s =>
              rw [List.cons_append, DirTree.get_cons_of_sub hx] at hk
              obtain ⟨j, e, he, hb, hitem⟩ := find?_laidDown_some hnamed hx
              cases e with
              | blob b =>
                  rw [laidItem] at hitem
                  split_ifs at hitem
                  cases hitem
              | symlink l =>
                  rw [laidItem] at hitem
                  split_ifs at hitem
                  cases hitem
              | tree t' tm =>
                  rw [laidItem] at hitem
                  split_ifs at hitem with h1 h2
                  · cases hitem
                    exact stubsReadable_marker cfg.mach _ p n k hk hl
                  · cases hitem
                    exact ih (hnamed.of_find? he).2 _ hk

/-- Where nothing is, nothing is in the way. -/
theorem not_stops_of_empty {g : Lstat} {t : Tree} {dir : Path} (inGit : Bool)
    (hnone : ∀ m r, g (dir ++ m :: r) = none) : ¬ Stops cfg g t dir inGit := by
  induction t generalizing dir inGit with
  | nil => exact id
  | blob n b rest ih =>
      rintro (h | h)
      · rw [blobStops, hnone] at h
        cases h.2
      · exact ih inGit hnone h
  | tree n t m rest iht ih =>
      have hbelow : ∀ k r, g (dir ++ [n] ++ k :: r) = none := fun k r => by
        rw [List.append_assoc]
        exact hnone n (k :: r)
      rintro (⟨-, ⟨k, hk⟩ | h⟩ | h)
      · rw [hnone] at hk
        cases hk
      · split_ifs at h
        · rw [hbelow] at h
          cases h
        · exact iht _ hbelow h
      · exact ih inGit hnone h
  | symlink n l rest ih =>
      rintro (h | h)
      · rw [linkStops, hnone] at h
        cases h.1
      · exact ih inGit hnone h

/-- The working directory itself is there. -/
theorem expandOrStub_root (cfg : CloneConfig) (t : Tree) (d : Disk) :
    expandOrStub cfg t [] false d = cloneEntries cfg t [] (Sync.treeContainsGitDir t) d := rfl

theorem lays_root (cfg : CloneConfig) {t : Tree} (hnamed : t.WellNamed) (d : Disk) :
    Footprint (expandOrStub cfg t [] false) d (Territory [] t)
      (¬ Stops cfg d.get t [] (Sync.treeContainsGitDir t))
      (Overwrites cfg d.get t [] (Sync.treeContainsGitDir t))
      (Lands cfg t [] (Sync.treeContainsGitDir t) d.get) :=
  Footprint.of_run (cloneEntries_lays hnamed _ (DirTree.get_nil d)) (expandOrStub_root cfg t d)

/-- **`clone_empty`** — an empty directory gets what is laid down of the root. -/
theorem clone_empty (cfg : CloneConfig) {t : Tree} (hnamed : t.WellNamed) :
    ∃ d', expandOrStub cfg t [] false .nil = .ok ⟨⟩ d' ∧
      d'.get = (laidDown cfg t (Sync.treeContainsGitDir t)).get := by
  have h := lays_root cfg hnamed .nil
  have hempty : ∀ m r, (DirTree.nil : Disk).get ([] ++ m :: r) = none := DirTree.nil_get_cons
  obtain ⟨d', hd'⟩ := h.ok_iff.mpr (not_stops_of_empty _ hempty)
  refine ⟨d', hd', funext fun q => ?_⟩
  cases q with
  | nil => rw [DirTree.get_nil, DirTree.get_nil]
  | cons m r =>
      have hlands : Lands cfg t [] (Sync.treeContainsGitDir t) (DirTree.nil : Disk).get d' := h.lands d' hd'
      exact hlands.get hempty (fun q hq _ => h.frame_of_ok hd' hq) m r

end Empty

/-! ## A clone into what is there -/

/-- An empty destination gets the root, and a scan finds exactly that. -/
def Reproduces (cfg : CloneConfig) (treeHash : Tree → Hash) (root : Tree) : Prop :=
  ∃ d' r, expandOrStub cfg root [] false .nil = .ok ⟨⟩ d' ∧
    scanImpl (stillConfig (fun _ => false) (fun _ => .ok ()) treeHash) [] (stillCalls d') (observe d') =
      .ok r ∧
    ∀ p, (r.root.at p).map entryNode = (root.at p).map entryNode

/-- Whatever the destination holds is there afterwards; and if the clone succeeds, what is nowhere in
the way is there too. -/
def Overlays (cfg : CloneConfig) (treeHash : Tree → Hash) (root : Tree) (d : Disk) : Prop :=
  Keeps d (after (expandOrStub cfg root [] false) d) ∧
    ∀ d', expandOrStub cfg root [] false d = .ok ⟨⟩ d' → ∀ p e, root.at p = some e →
      (∀ a, a <+: p → a ≠ [] → d.get a = none) →
      view treeHash (fun _ => false) d'.get [] p = some (entryNode e)

def ClonesInto (cfg : CloneConfig) (treeHash : Tree → Hash) (root : Tree) (d : Disk) : Prop :=
  (d = .nil → Reproduces cfg treeHash root) ∧ (cfg.force = true → Overlays cfg treeHash root d)

section Into

variable {cfg : CloneConfig} {treeHash : Tree → Hash} {root : Tree}

theorem reproduces (hwf : root.Wf) (hnamed : root.WellNamed) : Reproduces cfg treeHash root := by
  obtain ⟨d', hd', hget⟩ := clone_empty cfg hnamed
  have hstubs : StubsReadable d'.get := by
    rw [hget]
    exact stubsReadable_laidDown hnamed _
  obtain ⟨r, hr⟩ : ∃ r, scanImpl (stillConfig (fun _ => false) (fun _ => .ok ()) treeHash) []
      (stillCalls d') (observe d') = .ok r := scan_succeeds (fun _ => rfl) hstubs []
  refine ⟨d', r, hd', hr, fun p => ?_⟩
  rw [scan_view (informed_still _ _ treeHash d'.get) (fun _ => rfl) hr, hget]
  exact shownAs_laidDown cfg treeHash hnamed hwf _ p

/-- An entry laid down where nothing was is seen as what it is. -/
theorem view_of_laid (hwf : root.Wf) (hnamed : root.WellNamed) {inGit : Bool} {g : Lstat} {d : Disk}
    {n : String} {e : TreeEntry} (he : root.find? n = some e) (hnone : ∀ r, g (n :: r) = none)
    (h : Laid cfg root [] inGit g n d) (p : Path) :
    view treeHash (fun _ => false) d.get [] (n :: p) = (root.at (n :: p)).map entryNode := by
  have hself : ∀ r, d.get (n :: r) = (laidDown cfg root inGit).get (n :: r) := fun r => by
    have hlaid := h n r (.inl rfl)
    rwa [List.nil_append, hnone, Option.or_none] at hlaid
  have hshown := ownNode_laidDown cfg treeHash hnamed inGit he (hwf.of_find? he)
  have hown : ownNode treeHash (fun _ => false) d.get [] n =
      ownNode treeHash (fun _ => false) (laidDown cfg root inGit).get [] n := by
    have hlaid := h (n ++ stubSuffix) [] (.inr rfl)
    cases hside : (laidDown cfg root inGit).get [n ++ stubSuffix] with
    | some k =>
        rw [List.nil_append, hside, Option.some_or] at hlaid
        simp only [ownNode, fileStub, List.nil_append, hself, hlaid, hside]
    | none =>
        have hthere : (laidDown cfg root inGit).get ([] ++ [n]) ≠ none := fun hgone => by
          rw [ownNode_of_none _ _ (.inl hgone) (.inr hside)] at hshown
          cases hshown
        obtain ⟨k, hk⟩ := Option.ne_none_iff_exists'.mp hthere
        have hx := (kept_of_valid (hnamed.of_find? he).1).1
        rw [List.nil_append] at hk
        simp only [ownNode, List.nil_append, hself, hk, hx]
        rfl
  rw [← shownAs_laidDown cfg treeHash hnamed hwf inGit (n :: p), view, view, hown,
    hshown]
  have hbelow : view treeHash (fun _ => false) d.get ([] ++ [n]) p =
      view treeHash (fun _ => false) (laidDown cfg root inGit).get ([] ++ [n]) p :=
    view_shift treeHash (fun _ => rfl) hself p
  cases e with
  | blob b => rfl
  | tree t m => exact hbelow
  | symlink l => rfl

/-- **`clone_iff`** — a clone does as it should unless it is forced over something. -/
theorem clone_iff (cfg : CloneConfig) (treeHash : Tree → Hash) (hwf : root.Wf)
    (hnamed : root.WellNamed) (d : Disk) : ClonesInto cfg treeHash root d ↔
      (cfg.force = true → ¬ Overwrites cfg d.get root [] (Sync.treeContainsGitDir root)) := by
  have h := lays_root cfg hnamed d
  constructor
  · exact fun hinto hforce => h.keeps_iff.mp (hinto.2 hforce).1
  · intro hclean
    refine ⟨fun _ => reproduces hwf hnamed, fun hforce => ⟨h.keeps_iff.mpr (hclean hforce), ?_⟩⟩
    intro d' hd' p e he hfree
    cases p with
    | nil =>
        rw [Tree.at_nil] at he
        cases he
        rfl
    | cons n p =>
        have hn : d.get [n] = none := hfree [n] (by simp) (by simp)
        have hnone : ∀ r, d.get (n :: r) = none := by
          intro r
          cases r with
          | nil => exact hn
          | cons k r => exact DirTree.get_append_of_not_dir (p := [n]) (by simp [hn]) k r
        rw [Tree.at_cons] at he
        obtain ⟨x, hx, -⟩ := Option.bind_eq_some_iff.mp he
        have hmem : n ∈ root.names := by
          by_contra hno
          rw [Tree.find?_eq_none_iff.mpr hno] at hx
          cases hx
        rw [view_of_laid hwf hnamed hx hnone (h.lands d' hd' n hmem hn) p, Tree.at_cons, he]
        rfl

end Into

/-- A machine whose files hold no stub records. -/
def plainMachine : Machine := ⟨0, fun _ => none, fun _ => 0, fun _ => 0⟩

def forced : CloneConfig := ⟨plainMachine, 0, true, fun _ => none⟩

/-- A root with one symlink. -/
def linkRoot : Tree := .symlink "l" ⟨"x", none⟩ .nil

/-- A working tree with one file of that name. -/
def fileAtLink : Disk := .leaf "l" (.file ⟨7, none⟩ ⟨some 1, 1, none⟩) .nil

theorem clone_linkRoot : ClonesInto forced (fun _ => 0) linkRoot .nil := by
  have hwf : linkRoot.Wf := ⟨by decide, trivial⟩
  have hnamed : linkRoot.WellNamed := ⟨by decide, by decide, trivial⟩
  apply (clone_iff forced (fun _ => 0) hwf hnamed .nil).mpr
  intro _ h
  simp [linkRoot, Overwrites, linkOverwrites] at h

/-- **`clone_replaces_file`** — the symlink takes the place of the file. -/
theorem clone_replaces_file : ¬ ClonesInto forced (fun _ => 0) linkRoot fileAtLink := by
  intro h
  have hkept := (h.2 rfl).1 ["l"] (.leaf (.file ⟨7, none⟩ ⟨some 1, 1, none⟩)) rfl
  revert hkept
  decide

end Omemfs.Work
