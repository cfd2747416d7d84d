/-
# Omemfs.Work.Expanded — an expanded stub is recorded as the stub was.

Whether a path is stubbed or written out, a scan should record it the same.  A stub that is expanded
takes its record off the path and puts there what was recorded, so this is so exactly if the path was
recorded as the stub has it (`Agrees`): if nothing that the user has put beside the stub differs from it,
and no entry that comes to light is ignored.
-/
import Omemfs.Scan.Reached
import Omemfs.Work.Expand

namespace Omemfs.Work

open Lib Scan Fsguard
open Omemfs.Sync.Checked (fileStubPath dirStubPath)

variable {cfg : ExpandConfig} {treeHash : Tree → Hash} {isIgnored : Path → Bool} {g g' : Lstat}
  {d : Disk} {dir : Path} {n : String} {t : Tree} {l : Disk}

/-- No filter leaves out the path, seen from the directory. -/
def Shown (isIgnored : Path → Bool) (dir p : Path) : Prop :=
  ∀ a, a ≠ [] → a <+: p → isIgnored (dir ++ a) = false

theorem shown_nil : Shown isIgnored dir [] := fun a ha hpre => absurd (by simpa using hpre) ha

theorem shown_cons {p : Path} : Shown isIgnored dir (n :: p) ↔
    isIgnored (dir ++ [n]) = false ∧ Shown isIgnored (dir ++ [n]) p := by
  constructor
  · intro h
    refine ⟨h [n] (by simp) (by simp), fun a ha hpre => ?_⟩
    have hn := h (n :: a) (by simp) (by simpa using hpre)
    rwa [List.append_assoc, List.singleton_append]
  · rintro ⟨hn, hp⟩ a ha hpre
    obtain ⟨m, b, rfl⟩ := List.exists_cons_of_ne_nil ha
    obtain ⟨rfl, hb⟩ : m = n ∧ b <+: p := by simpa using hpre
    cases b with
    | nil => exact hn
    | cons k b =>
        have hk := hp (k :: b) (by simp) hb
        rwa [List.append_assoc, List.singleton_append] at hk

theorem shown_append {p q : Path} :
    Shown isIgnored dir (p ++ q) ↔ Shown isIgnored dir p ∧ Shown isIgnored (dir ++ p) q := by
  induction p generalizing dir with
  | nil => simp [shown_nil]
  | cons n p ih =>
      rw [List.cons_append, shown_cons, shown_cons, ih, and_assoc, List.append_assoc,
        List.singleton_append]

/-- The directory is recorded as the tree has it: entry by entry where something is already there, and in
full where nothing is. -/
structure Agrees (treeHash : Tree → Hash) (isIgnored : Path → Bool) (g : Lstat) (dir : Path)
    (t : Tree) : Prop where
  same : ∀ p e, t.at p = some e → Shown isIgnored dir p →
    view treeHash isIgnored g dir p = some (entryNode e)
  blank : ∀ p t' m, t.at p = some (.tree t' m) → Shown isIgnored dir p → g (dir ++ p) ≠ some .dir →
    ∀ q, (Shown isIgnored dir (p ++ q) →
        view treeHash isIgnored g dir (p ++ q) = (t'.at q).map entryNode) ∧
      (¬ Shown isIgnored dir (p ++ q) → view treeHash isIgnored g dir (p ++ q) = none)

/-- Where entries may stay stubs: no recorded path is ignored or taken by a special file, and no recorded
directory has a marker of its own. -/
structure Plain (isIgnored : Path → Bool) (g : Lstat) (dir : Path) (t : Tree) : Prop where
  shown : ∀ p, t.at p ≠ none → Shown isIgnored dir p
  notSpecial : ∀ p, t.at p ≠ none → g (dir ++ p) ≠ some (.leaf .special)
  unmarked : ∀ p t' m, p ≠ [] → t.at p = some (.tree t' m) → g (dir ++ p ++ [dirStubName]) = none

/-- Stub files stand for names that a tree can hold. -/
def StubsNamed (g : Lstat) : Prop := ∀ p m, g (p ++ [m ++ stubSuffix]) ≠ none → m = "" ∨ ValidName m

theorem at_cons_of_find? {t' : Tree} {m : TreeMeta} (he : t.find? n = some (.tree t' m)) (p : Path) :
    t.at (n :: p) = (TreeEntry.tree t' m).at p := by
  rw [Tree.at_cons, he, Option.bind_some]

/-- A recorded directory that is there itself. -/
theorem Agrees.sub (h : Agrees treeHash isIgnored g dir t) {t' : Tree} {m : TreeMeta}
    (he : t.find? n = some (.tree t' m)) (hi : isIgnored (dir ++ [n]) = false)
    (hown : ownNode treeHash isIgnored g dir n = some .dir) :
    Agrees treeHash isIgnored g (dir ++ [n]) t' := by
  have hview : ∀ q, view treeHash isIgnored g (dir ++ [n]) q = view treeHash isIgnored g dir (n :: q) :=
    fun q => (view_of_dir hown q).symm
  have hat : ∀ p e, p ≠ [] → t'.at p = some e → t.at (n :: p) = some e := by
    intro p e hp hpe
    obtain ⟨k, p, rfl⟩ := List.exists_cons_of_ne_nil hp
    rw [at_cons_of_find? he]
    exact hpe
  constructor
  · intro p e hpe hshown
    cases p with
    | nil =>
        rw [Tree.at_nil] at hpe
        cases hpe
        rfl
    | cons k p =>
        rw [hview]
        exact h.same _ _ (hat _ _ (by simp) hpe) (shown_cons.mpr ⟨hi, hshown⟩)
  · intro p t'' m' hpe hshown hno q
    have hassoc : dir ++ n :: p = dir ++ [n] ++ p := by simp
    cases p with
    | nil =>
        rw [Tree.at_nil] at hpe
        cases hpe
        rw [List.append_nil] at hno
        have hb := h.blank [n] t' m (by rw [at_cons_of_find? he]; rfl)
          (shown_cons.mpr ⟨hi, shown_nil⟩) hno q
        rw [List.nil_append, hview]
        simpa only [List.singleton_append, shown_cons, hi, true_and] using hb
    | cons k p =>
        have hb := h.blank (n :: k :: p) t'' m' (hat _ _ (by simp) hpe)
          (shown_cons.mpr ⟨hi, hshown⟩) (by rwa [hassoc]) q
        rw [hview]
        simpa only [List.cons_append, shown_cons (n := n), hi, true_and] using hb

theorem Plain.sub (h : Plain isIgnored g dir t) {t' : Tree} {m : TreeMeta}
    (he : t.find? n = some (.tree t' m)) : Plain isIgnored g (dir ++ [n]) t' := by
  have hat : ∀ p, t'.at p ≠ none → t.at (n :: p) ≠ none := by
    intro p hp
    rw [at_cons_of_find? he]
    cases p with
    | nil => exact Option.some_ne_none _
    | cons k p => exact hp
  have hassoc : ∀ p, dir ++ [n] ++ p = dir ++ n :: p := fun p => by simp
  constructor
  · exact fun p hp => (shown_cons.mp (h.shown _ (hat p hp))).2
  · intro p hp
    rw [hassoc]
    exact h.notSpecial _ (hat p hp)
  · intro p t'' m' hne hp
    obtain ⟨k, p, rfl⟩ := List.exists_cons_of_ne_nil hne
    rw [hassoc]
    exact h.unmarked (n :: k :: p) t'' m' (by simp) (by rw [at_cons_of_find? he]; exact hp)

/-! ## What a layer is recorded as -/

/-- The file of a blob is recorded as the blob. -/
theorem kindNode_entry {b : Blob} (hwf : (TreeEntry.blob b).Wf) :
    kindNode (.leaf (cfg.mach.file b)) = some (entryNode (.blob b)) := kindNode_file cfg.mach hwf

/-- A name that shows a stub file only. -/
theorem ownNode_of_stub (hn : ValidName n) (hi : isIgnored (dir ++ [n]) = false)
    (hnone : g (dir ++ [n]) = none) {b : Blob}
    (hstub : g (dir ++ [n ++ stubSuffix]) = some (.leaf (cfg.mach.stubFile (blobRecord b)))) :
    ownNode treeHash isIgnored g dir n = some (entryNode (.blob b)) := by
  rw [ownNode_of_missing hn hi hnone, hstub]
  rfl

theorem ownNode_of_ignored (hi : isIgnored (dir ++ [n]) = true) :
    ownNode treeHash isIgnored g dir n = none := by
  rw [ownNode, if_pos hi]

/-- The name of a stub file shows nothing itself. -/
theorem ownNode_of_stubName (hs : StubsNamed g) (hn : logicalName n ≠ none) :
    ownNode treeHash isIgnored g dir n = none := by
  refine ownNode_of_none _ _ (.inr hn) (.inr ?_)
  by_contra hne
  rcases hs dir n hne with rfl | hv
  · exact hn (by decide)
  · exact hn (kept_of_valid hv).2

/-- The marker of a tree's directory, as a stub writes it. -/
theorem markerTree_of_stub {m : TreeMeta}
    (h : g (dir ++ [dirStubName]) = some (.leaf (cfg.mach.stubFile (treeRecord t m)))) :
    markerTree g dir = some t := by
  rw [markerTree, h]
  rfl

theorem markerTree_of_none (h : g (dir ++ [dirStubName]) = none) : markerTree g dir = none := by
  rw [markerTree, h]
  rfl

/-- The marker is no entry's name. -/
theorem not_belongs_marker (hn : ValidName n) : ¬ Belongs n dirStubName := by
  rintro (h | h)
  · rw [← h] at hn
    exact absurd hn (by decide)
  · rw [marker_iff.mp h.symm] at hn
    exact absurd hn (by decide)

/-- Nor is another name's stub file. -/
theorem not_belongs_stub (hn : ValidName n) {m : String} (hm : m ≠ n) : ¬ Belongs n (m ++ stubSuffix) := by
  rintro (h | h)
  · exact ne_stubName hn h.symm
  · have hlog : logicalName (n ++ stubSuffix) = some n := stripSuffix_eq_some.mpr rfl
    have hlog' : logicalName (m ++ stubSuffix) = some m := stripSuffix_eq_some.mpr rfl
    rw [h, hlog] at hlog'
    exact hm (Option.some.inj hlog').symm

theorem LaidAs.marker (hnamed : t.WellNamed) (h : LaidAs cfg t l) : l.find? dirStubName = none :=
  h.find?_eq_none fun _ hk => not_belongs_marker (hnamed.valid hk)

/-- A directory that nothing but a marker is in. -/
theorem view_of_markerTree (hmark : markerTree g dir = some t)
    (hnone : ∀ k, k ≠ dirStubName → g (dir ++ [k]) = none) (q : Path) :
    view treeHash isIgnored g dir q = (t.at q).map entryNode := by
  cases q with
  | nil => rfl
  | cons k q =>
      have hown : ownNode treeHash isIgnored g dir k = none := by
        apply ownNode_of_none
        · by_cases hk : k = dirStubName
          · exact .inr (hk ▸ by decide)
          · exact .inl (hnone k hk)
        · by_cases hk : k ++ stubSuffix = dirStubName
          · exact .inl (marker_iff.mp hk)
          · exact .inr (hnone _ hk)
      rw [view_of_none hown, hmark, Option.bind_some]

theorem view_of_marker {m : TreeMeta}
    (hget : ∀ k r, g (dir ++ k :: r) =
      (DirTree.leaf dirStubName (cfg.mach.stubFile (treeRecord t m)) .nil).get (k :: r)) (q : Path) :
    view treeHash isIgnored g dir q = (t.at q).map entryNode := by
  have hmark : g (dir ++ [dirStubName]) = some (.leaf (cfg.mach.stubFile (treeRecord t m))) := by
    rw [hget]
    rfl
  refine view_of_markerTree (markerTree_of_stub hmark) (fun k hk => ?_) q
  rw [hget]
  exact DirTree.get_cons_of_none (by rw [DirTree.find?, if_neg hk, DirTree.find?_nil]) []

/-- A file or symlink of a tree, where the directory shows it. -/
theorem view_of_own {e : TreeEntry} (hx : entryNode e ≠ .dir)
    (hown : ownNode treeHash isIgnored g dir n = some (entryNode e)) (q : Path) :
    view treeHash isIgnored g dir (n :: q) = (e.at q).map entryNode := by
  have hnot : e.isTree = false := by
    cases e with
    | tree t m => exact absurd rfl hx
    | blob b => rfl
    | symlink k => rfl
  cases q with
  | nil => rw [view_of_node hown, TreeEntry.at_nil, Option.map_some]
  | cons k q =>
      rw [view_below_leaf hx hown, TreeEntry.at_cons_of_not_tree hnot]
      rfl

/-- A layer has nothing under a name that its tree does not have. -/
theorem ownNode_of_not_mem (hnamed : t.WellNamed) (hl : LaidAs cfg t l) (hn : n ∉ t.names)
    (hget : ∀ k, g (dir ++ [k]) = (l.find? k).map Item.kind) :
    ownNode treeHash isIgnored g dir n = none := by
  have hne : ∀ k ∈ t.names, k ≠ n := fun k hk h => hn (h ▸ hk)
  apply ownNode_of_none
  · by_cases hlogical : logicalName n = none
    · refine .inl ?_
      rw [hget, hl.find?_eq_none fun k hk hb => ?_, Option.map_none]
      rcases hb with rfl | rfl
      · exact hne n hk rfl
      · rw [logicalName, stripSuffix_eq_some.mpr rfl] at hlogical
        cases hlogical
    · exact .inr hlogical
  · refine .inr ?_
    rw [hget, hl.find?_eq_none fun k hk => not_belongs_stub (hnamed.valid hk) (hne k hk).symm,
      Option.map_none]

theorem node_at (t : Tree) (m : TreeMeta) (q : Path) :
    ((TreeEntry.tree t m).at q).map entryNode = (t.at q).map entryNode := by
  cases q <;> rfl

/-- **`view_of_blank`** — what is laid where nothing was, is recorded as the tree. -/
theorem view_of_blank (hnamed : t.WellNamed) (hwf : t.Wf) (hl : LaidAs cfg t l)
    (hplain : 0 < cfg.stubThreshold → ∀ p, t.at p ≠ none → Shown isIgnored dir p)
    (hget : ∀ k r, g (dir ++ k :: r) = l.get (k :: r)) (q : Path) :
    (Shown isIgnored dir q → view treeHash isIgnored g dir q = (t.at q).map entryNode) ∧
      (¬ Shown isIgnored dir q → view treeHash isIgnored g dir q = none) := by
  induction q generalizing t l dir with
  | nil => exact ⟨fun _ => rfl, fun h => absurd shown_nil h⟩
  | cons n q ih =>
      have hkind : ∀ k, g (dir ++ [k]) = (l.find? k).map Item.kind := fun k => by
        rw [hget, DirTree.get, DirTree.at_singleton]
      have hmarker : markerTree g dir = none :=
        markerTree_of_none (by rw [hkind, hl.marker hnamed]; rfl)
      have hnone : ownNode treeHash isIgnored g dir n = none →
          view treeHash isIgnored g dir (n :: q) = none := fun h => by
        rw [view_of_none h, hmarker]
        rfl
      cases he : t.find? n with
      | none =>
          have hn : n ∉ t.names := Tree.find?_eq_none_iff.mp he
          rw [hnone (ownNode_of_not_mem hnamed hl hn hkind), Tree.at_cons, he]
          exact ⟨fun _ => rfl, fun _ => rfl⟩
      | some e =>
          obtain ⟨hvalid, hchildren⟩ := hnamed.of_find? he
          have hewf : e.Wf := hwf.of_find? he
          have hentry := hl.entry hnamed he
          rw [shown_cons, Tree.at_cons, he, Option.bind_some]
          cases hi : isIgnored (dir ++ [n]) with
          | true =>
              rw [hnone (ownNode_of_ignored hi)]
              exact ⟨fun h => absurd h.1 (by decide), fun _ => rfl⟩
          | false =>
              -- a file or symlink is ignored only together with what would be below it
              have hleaf : entryNode e ≠ .dir →
                  ownNode treeHash isIgnored g dir n = some (entryNode e) →
                  (false = false ∧ Shown isIgnored (dir ++ [n]) q →
                      view treeHash isIgnored g dir (n :: q) = (e.at q).map entryNode) ∧
                    (¬ (false = false ∧ Shown isIgnored (dir ++ [n]) q) →
                      view treeHash isIgnored g dir (n :: q) = none) := by
                intro hx hown
                refine ⟨fun _ => view_of_own hx hown q, fun hno => ?_⟩
                cases q with
                | nil => exact absurd ⟨rfl, shown_nil⟩ hno
                | cons k q => exact view_below_leaf hx hown
              cases e with
              | blob b =>
                  refine hleaf (by simp [entryNode]) ?_
                  rcases hentry with ⟨hfile, -⟩ | ⟨-, hgone, hstub⟩
                  · rw [ownNode_of_leaf hvalid hi (by rw [hkind, hfile]; rfl)]
                    exact kindNode_entry hewf
                  · exact ownNode_of_stub hvalid hi (by rw [hkind, hgone]; rfl)
                      (by rw [hkind, hstub]; rfl)
              | symlink k =>
                  refine hleaf (by simp [entryNode]) ?_
                  rw [ownNode_of_leaf hvalid hi (by rw [hkind, hentry.1]; rfl), kindNode_link]
              | tree t' m =>
                  obtain ⟨-, s, hs, hlaid⟩ := hentry
                  have hown : ownNode treeHash isIgnored g dir n = some .dir :=
                    ownNode_of_dir hvalid hi (by rw [hkind, hs]; rfl)
                  have hbelow : ∀ k r, g (dir ++ [n] ++ k :: r) = s.get (k :: r) := fun k r => by
                    rw [List.append_assoc, List.singleton_append, hget, DirTree.get_cons_of_sub hs]
                  have hshown : 0 < cfg.stubThreshold → ∀ p, t'.at p ≠ none →
                      Shown isIgnored (dir ++ [n]) p := by
                    intro h0 p hp
                    refine (shown_cons.mp (hplain h0 (n :: p) ?_)).2
                    rw [at_cons_of_find? he]
                    intro hnil
                    have hnode := node_at t' m p
                    rw [hnil, Option.map_none] at hnode
                    exact hp (Option.map_eq_none_iff.mp hnode.symm)
                  rw [view_of_dir hown, node_at]
                  rcases hlaid with hlaid | ⟨hat, rfl⟩
                  · have hnamed' : t'.WellNamed := hchildren
                    have hwf' : t'.Wf := hewf
                    simpa using ih hnamed' hwf' hlaid hshown hbelow
                  · -- a directory that stays a stub
                    have hview : view treeHash isIgnored g (dir ++ [n]) q = (t'.at q).map entryNode :=
                      view_of_marker hbelow q
                    refine ⟨fun _ => hview, fun hno => ?_⟩
                    rw [hview]
                    by_contra hne
                    have h0 : 0 < cfg.stubThreshold := by
                      rw [ExpandConfig.atThreshold, Bool.and_eq_true] at hat
                      exact of_decide_eq_true hat.1
                    exact hno ⟨rfl, hshown h0 q fun hnil => hne (by rw [hnil]; rfl)⟩

/-! ## What a layer changes -/

/-- A directory shows under every name what it showed, whatever becomes of its marker. -/
theorem ownNode_of_remarked (hno : g (dir ++ [dirStubName ++ stubSuffix]) = none)
    (hget : ∀ k, k ≠ dirStubName → g' (dir ++ [k]) = g (dir ++ [k])) (n : String) :
    ownNode treeHash isIgnored g' dir n = ownNode treeHash isIgnored g dir n := by
  by_cases hn : n = dirStubName
  · subst hn
    have hlogical : logicalName dirStubName ≠ none := by decide
    have hno' : g' (dir ++ [dirStubName ++ stubSuffix]) = none := by rw [hget _ (by decide), hno]
    rw [ownNode_of_none _ _ (.inr hlogical) (.inr hno), ownNode_of_none _ _ (.inr hlogical) (.inr hno')]
  · by_cases hstub : n ++ stubSuffix = dirStubName
    · -- the stub file of no name
      have hnil : n = "" := marker_iff.mp hstub
      subst hnil
      simp only [ownNode, fileStub, hget "" (by decide), or_true, if_true]
    · exact ownNode_congr (hget n hn) (hget _ hstub)

theorem StubsNamed.no_double (hs : StubsNamed g) (dir : Path) :
    g (dir ++ [dirStubName ++ stubSuffix]) = none := by
  by_contra hne
  exact absurd (hs dir dirStubName hne) (by decide)

/-- Under every name but the marker's own there is what was there. -/
theorem get_of_marked {x : DiskLeaf} (hover : Over (.leaf dirStubName x .nil) dir d.get g') {k : String}
    (hk : k ≠ dirStubName) (r : Path) : g' (dir ++ k :: r) = d.get (dir ++ k :: r) :=
  hover.get_of_none (by rw [DirTree.find?, if_neg hk, DirTree.find?_nil]) r

/-- A marker beside what is recorded already adds nothing. -/
theorem view_of_marked (hs : StubsNamed d.get) {m : TreeMeta}
    (hag : Agrees treeHash isIgnored d.get dir t)
    (hshown : ∀ p, t.at p ≠ none → Shown isIgnored dir p) (hno : d.get (dir ++ [dirStubName]) = none)
    (hover : Over (.leaf dirStubName (cfg.mach.stubFile (treeRecord t m)) .nil) dir d.get g')
    (q : Path) : view treeHash isIgnored g' dir q = view treeHash isIgnored d.get dir q := by
  cases q with
  | nil => rfl
  | cons n q =>
      have hmark : g' (dir ++ [dirStubName]) = some (.leaf (cfg.mach.stubFile (treeRecord t m))) :=
        hover.get_of_some (x := .leaf _) (by rw [DirTree.find?, if_pos rfl])
      have hown : ownNode treeHash isIgnored g' dir n = ownNode treeHash isIgnored d.get dir n :=
        ownNode_of_remarked (hs.no_double dir) (fun k hk => get_of_marked hover hk []) n
      refine view_name_congr hown q (fun hdir => ?_) fun hnone => ?_
      · refine view_shift treeHash (fun _ => rfl) (fun r => ?_) q
        have hn : n ≠ dirStubName := by
          rintro rfl
          rw [hown, ownNode_of_stubName hs (by decide)] at hdir
          cases hdir
        rw [List.append_assoc, List.singleton_append]
        exact get_of_marked hover hn r
      · -- what only the marker has was recorded here before
        rw [markerTree_of_stub hmark, markerTree_of_none hno, Option.bind_some, Option.bind_none]
        rw [hown] at hnone
        cases he : t.at (n :: q) with
        | none => rfl
        | some e =>
            have hsame := hag.same _ e he (hshown _ (by rw [he]; exact Option.some_ne_none _))
            rw [view_of_none hnone, markerTree_of_none hno] at hsame
            cases hsame

/-- A marker taken away: each of its names has to be shown by the directory itself. -/
theorem view_of_unmarked (hno : g (dir ++ [dirStubName ++ stubSuffix]) = none)
    (hmark : markerTree g dir = some t)
    (hget : ∀ q, g' q = if q = dir ++ [dirStubName] then none else g q)
    (hown : ∀ n ∈ t.names, isIgnored (dir ++ [n]) = false → ownNode treeHash isIgnored g dir n ≠ none) :
    (∀ p, view treeHash isIgnored g' dir p = view treeHash isIgnored g dir p) ↔
      ∀ n ∈ t.names, isIgnored (dir ++ [n]) = false := by
  have hother : ∀ k : String, k ≠ dirStubName → ∀ r, g' (dir ++ k :: r) = g (dir ++ k :: r) := by
    intro k hk r
    rw [hget, if_neg]
    intro heq
    exact hk (List.cons.inj (List.append_cancel_left heq)).1
  have hsame : ∀ n, ownNode treeHash isIgnored g' dir n = ownNode treeHash isIgnored g dir n :=
    ownNode_of_remarked hno fun k hk => hother k hk []
  have hgone : markerTree g' dir = none := markerTree_of_none (by rw [hget, if_pos rfl])
  constructor
  · intro h n hn
    by_contra hi
    rw [Bool.not_eq_false] at hi
    obtain ⟨e, he⟩ := Option.ne_none_iff_exists'.mp (mt Tree.find?_eq_none_iff.mp (not_not.mpr hn))
    have hview := h [n]
    rw [view_of_none (ownNode_of_ignored hi), view_of_none (ownNode_of_ignored hi), hgone, hmark,
      Option.bind_some, Option.bind_none, Tree.at_singleton, he] at hview
    cases hview
  · intro hi p
    cases p with
    | nil => rfl
    | cons n q =>
        refine view_name_congr (hsame n) q (fun hdir => ?_) fun hnone => ?_
        · have hn : n ≠ dirStubName := by
            rintro rfl
            rw [hsame, ownNode_of_none _ _ (.inr (by decide)) (.inr hno)] at hdir
            cases hdir
          refine view_shift treeHash (fun _ => rfl) (fun r => ?_) q
          rw [List.append_assoc, List.singleton_append]
          exact hother n hn r
        · rw [hsame] at hnone
          have hn : n ∉ t.names := fun hmem => hown n hmem (hi n hmem) hnone
          rw [hgone, hmark, Option.bind_none, Option.bind_some, Tree.at_cons_of_not_mem hn]
          rfl

/-- The names that belong to an entry show it as it was recorded. -/
theorem view_of_overlaid_name (hs : StubsNamed d.get) (hnamed : t.WellNamed) (hwf : t.Wf)
    (hl : LaidAs cfg t l) (hag : Agrees treeHash isIgnored d.get dir t)
    (hplain : 0 < cfg.stubThreshold → Plain isIgnored d.get dir t) {e : TreeEntry}
    (he : t.find? n = some e) (hi : isIgnored (dir ++ [n]) = false)
    (hover : ∀ m r, Belongs n m → g' (dir ++ m :: r) = (l.get (m :: r)).or (d.get (dir ++ m :: r)))
    (q : Path)
    (hsub : ∀ t' m s, e = .tree t' m → LaidAs cfg t' s → Over s (dir ++ [n]) d.get g' →
      ownNode treeHash isIgnored d.get dir n = some .dir →
      view treeHash isIgnored g' (dir ++ [n]) q = view treeHash isIgnored d.get (dir ++ [n]) q) :
    ownNode treeHash isIgnored g' dir n ≠ none ∧
      view treeHash isIgnored g' dir (n :: q) = view treeHash isIgnored d.get dir (n :: q) := by
  obtain ⟨hvalid, hchildren⟩ := hnamed.of_find? he
  have hewf : e.Wf := hwf.of_find? he
  have hat : t.at [n] = some e := by rw [Tree.at_singleton, he]
  have hshown : Shown isIgnored dir [n] := shown_cons.mpr ⟨hi, shown_nil⟩
  have hsame : view treeHash isIgnored d.get dir [n] = some (entryNode e) := hag.same [n] e hat hshown
  have hput : ∀ {m : String} {x : Item String DiskLeaf}, Belongs n m → l.find? m = some x →
      g' (dir ++ [m]) = some x.kind := by
    intro m x hm hx
    rw [hover m [] hm, DirTree.get, DirTree.at_singleton, hx]
    rfl
  -- an entry that is shown as a file or symlink
  have hleaf : entryNode e ≠ .dir → ownNode treeHash isIgnored g' dir n = some (entryNode e) →
      ownNode treeHash isIgnored g' dir n ≠ none ∧
        view treeHash isIgnored g' dir (n :: q) = view treeHash isIgnored d.get dir (n :: q) := by
    intro hx hown
    refine ⟨by rw [hown]; exact Option.some_ne_none _, ?_⟩
    cases q with
    | nil => rw [view_of_node hown, hsame]
    | cons k q => rw [view_below_leaf hx hown, view_below_node hx hsame]
  have hentry := hl.entry hnamed he
  cases e with
  | symlink k =>
      refine hleaf (by simp [entryNode]) ?_
      rw [ownNode_of_leaf hvalid hi (hput (.inl rfl) hentry.1), kindNode_link]
  | blob b =>
      rcases hentry with ⟨hfile, -⟩ | ⟨hthr, hgone, hstub⟩
      · refine hleaf (by simp [entryNode]) ?_
        rw [ownNode_of_leaf hvalid hi (hput (.inl rfl) hfile)]
        exact kindNode_entry hewf
      · -- what is there beside the stub file was recorded before
        have h0 : 0 < cfg.stubThreshold := by
          rw [ExpandConfig.atThreshold, Bool.and_eq_true] at hthr
          exact of_decide_eq_true hthr.1
        have hself : ∀ r, g' (dir ++ n :: r) = d.get (dir ++ n :: r) := fun r => by
          rw [hover n r (.inl rfl), DirTree.get_cons_of_none hgone, Option.none_or]
        cases hreal : d.get (dir ++ [n]) with
        | none =>
            refine hleaf (by simp [entryNode]) ?_
            exact ownNode_of_stub hvalid hi (by rw [hself [], hreal]) (hput (.inr rfl) hstub)
        | some k =>
            obtain ⟨hx, hlog⟩ := kept_of_valid hvalid
            have hown : ∀ g : Lstat, g (dir ++ [n]) = some k →
                ownNode treeHash isIgnored g dir n = kindNode k := by
              intro g hg
              simp only [ownNode, hi, hx, hg, hlog, Bool.false_eq_true, if_false, if_true]
            have hne : kindNode k ≠ none := by
              have hnot := (hplain h0).notSpecial [n] (by rw [hat]; exact Option.some_ne_none _)
              rw [hreal] at hnot
              rcases k with _ | ⟨c, stat⟩ | ⟨target, mtime⟩ | _
              · exact Option.some_ne_none _
              · exact Option.some_ne_none _
              · exact Option.some_ne_none _
              · exact absurd rfl hnot
            have hg' := hown g' (by rw [hself [], hreal])
            refine ⟨by rwa [hg'], view_name_congr (by rw [hg', hown d.get hreal]) q (fun _ => ?_) ?_⟩
            · refine view_shift treeHash (fun _ => rfl) (fun r => ?_) q
              rw [List.append_assoc, List.singleton_append]
              exact hself r
            · intro hnone
              rw [hg'] at hnone
              exact absurd hnone hne
  | tree t' m =>
      obtain ⟨-, s, hfind, hlaid⟩ := hentry
      have hown : ownNode treeHash isIgnored g' dir n = some .dir :=
        ownNode_of_dir hvalid hi (hput (.inl rfl) hfind)
      have hbelow : Over s (dir ++ [n]) d.get g' := by
        intro r
        rw [List.append_assoc, List.singleton_append, hover n r (.inl rfl),
          DirTree.get_cons_of_sub hfind]
      have hnamed' : t'.WellNamed := hchildren
      have hwf' : t'.Wf := hewf
      refine ⟨by rw [hown]; exact Option.some_ne_none _, ?_⟩
      rw [view_of_dir hown]
      by_cases hdir : d.get (dir ++ [n]) = some .dir
      · -- the directory is there
        have hownd : ownNode treeHash isIgnored d.get dir n = some .dir := ownNode_of_dir hvalid hi hdir
        rw [view_of_dir hownd]
        rcases hlaid with hlaid | ⟨hthr, rfl⟩
        · exact hsub t' m s rfl hlaid hbelow hownd
        · have h0 : 0 < cfg.stubThreshold := by
            rw [ExpandConfig.atThreshold, Bool.and_eq_true] at hthr
            exact of_decide_eq_true hthr.1
          have hp := (hplain h0).sub he
          exact view_of_marked hs (hag.sub he hi hownd) hp.shown
            ((hplain h0).unmarked [n] t' m (by simp) hat) hbelow q
      · -- nothing is there but what the marker has
        have hblank := hag.blank [n] t' m hat hshown hdir q
        have hget : ∀ k r, g' (dir ++ [n] ++ k :: r) = s.get (k :: r) := fun k r => by
          rw [hbelow, DirTree.get_append_of_not_dir hdir, Option.or_none]
        rw [List.singleton_append, shown_cons, hi] at hblank
        have hnew : (Shown isIgnored (dir ++ [n]) q →
              view treeHash isIgnored g' (dir ++ [n]) q = (t'.at q).map entryNode) ∧
            (¬ Shown isIgnored (dir ++ [n]) q → view treeHash isIgnored g' (dir ++ [n]) q = none) := by
          rcases hlaid with hlaid | ⟨hthr, rfl⟩
          · exact view_of_blank hnamed' hwf' hlaid (fun h0 => ((hplain h0).sub he).shown) hget q
          · have h0 : 0 < cfg.stubThreshold := by
              rw [ExpandConfig.atThreshold, Bool.and_eq_true] at hthr
              exact of_decide_eq_true hthr.1
            have hview : view treeHash isIgnored g' (dir ++ [n]) q = (t'.at q).map entryNode :=
              view_of_marker hget q
            refine ⟨fun _ => hview, fun hno => ?_⟩
            rw [hview]
            by_contra hne
            exact hno (((hplain h0).sub he).shown q fun hnil => hne (by rw [hnil]; rfl))
        by_cases hq : Shown isIgnored (dir ++ [n]) q
        · rw [hnew.1 hq, hblank.1 ⟨rfl, hq⟩]
        · rw [hnew.2 hq, hblank.2 fun h => hq h.2]

/-- Under a name that the tree does not have nothing is laid but another name's stub file. -/
theorem ownNode_of_unlaid (hs : StubsNamed d.get) (hnamed : t.WellNamed) (hl : LaidAs cfg t l)
    (hn : n ∉ t.names)
    (hover : ∀ m r, l.find? m = none → m ≠ dirStubName → g' (dir ++ m :: r) = d.get (dir ++ m :: r)) :
    ownNode treeHash isIgnored g' dir n = ownNode treeHash isIgnored d.get dir n ∧
      (ownNode treeHash isIgnored d.get dir n = some .dir → ∀ r,
        g' (dir ++ n :: r) = d.get (dir ++ n :: r)) := by
  have hside : ∀ k ∈ t.names, ¬ Belongs k (n ++ stubSuffix) := fun k hk =>
    not_belongs_stub (hnamed.valid hk) fun h => hn (h ▸ hk)
  have hsideget : n ≠ "" → g' (dir ++ [n ++ stubSuffix]) = d.get (dir ++ [n ++ stubSuffix]) :=
    fun hne => hover _ [] (hl.find?_eq_none hside) fun h => hne (marker_iff.mp h)
  by_cases hlog : logicalName n = none
  · have hself : ∀ r, g' (dir ++ n :: r) = d.get (dir ++ n :: r) := by
      refine fun r => hover n r (hl.find?_eq_none fun k hk hb => ?_) ?_
      · rcases hb with rfl | rfl
        · exact hn hk
        · rw [logicalName, stripSuffix_eq_some.mpr rfl] at hlog
          cases hlog
      · rintro rfl
        exact absurd hlog (by decide)
    refine ⟨?_, fun _ => hself⟩
    by_cases hne : n = ""
    · subst hne
      have hempty := hself []
      simp only [ownNode, fileStub, hempty, or_true, if_true]
    · exact ownNode_congr (hself []) (hsideget hne)
  · have hnone : d.get (dir ++ [n ++ stubSuffix]) = none := by
      by_contra hne
      rcases hs dir n hne with rfl | hv
      · exact hlog (by decide)
      · exact hlog (kept_of_valid hv).2
    have hne : n ≠ "" := by
      rintro rfl
      exact hlog (by decide)
    have hown : ownNode treeHash isIgnored g' dir n = none :=
      ownNode_of_none _ _ (.inr hlog) (.inr (by rw [hsideget hne, hnone]))
    have hownd : ownNode treeHash isIgnored d.get dir n = none := ownNode_of_stubName hs hlog
    refine ⟨by rw [hown, hownd], fun h => ?_⟩
    rw [hownd] at h
    cases h

/-- **`view_of_overlaid`** — a tree laid over a directory that is recorded as it has it changes nothing. -/
theorem view_of_overlaid (hs : StubsNamed d.get) (hnamed : t.WellNamed) (hwf : t.Wf) (hl : LaidAs cfg t l)
    (hag : Agrees treeHash isIgnored d.get dir t)
    (hplain : 0 < cfg.stubThreshold → Plain isIgnored d.get dir t) (hover : Over l dir d.get g')
    (p : Path) : view treeHash isIgnored g' dir p = view treeHash isIgnored d.get dir p := by
  induction p generalizing t l dir with
  | nil => rfl
  | cons n q ih =>
      have hmarker : g' (dir ++ [dirStubName]) = d.get (dir ++ [dirStubName]) :=
        hover.get_of_none (hl.marker hnamed) []
      cases he : t.find? n with
      | none =>
          have hn : n ∉ t.names := Tree.find?_eq_none_iff.mp he
          have hunlaid := @ownNode_of_unlaid cfg treeHash isIgnored g' d dir n t l hs hnamed hl hn
            fun m r hm _ => hover.get_of_none hm r
          obtain ⟨hown, hbelow⟩ := hunlaid
          refine view_name_congr hown q (fun hdir => ?_) fun _ => by rw [markerTree_congr hmarker]
          refine view_shift treeHash (fun _ => rfl) (fun r => ?_) q
          rw [List.append_assoc, List.singleton_append]
          exact hbelow (hown ▸ hdir) r
      | some e =>
          cases hi : isIgnored (dir ++ [n]) with
          | true =>
              rw [view_of_none (ownNode_of_ignored hi), view_of_none (ownNode_of_ignored hi),
                markerTree_congr hmarker]
          | false =>
              refine (view_of_overlaid_name hs hnamed hwf hl hag hplain he hi (fun m r _ => hover (m :: r)) q
                ?_).2
              rintro t' m s rfl hlaid hbelow hown
              exact ih (hnamed.of_find? he).2 (hwf.of_find? he) hlaid (hag.sub he hi hown)
                (fun h0 => (hplain h0).sub he) hbelow

/-! ## A name and its stub file -/

/-- **`view_iff_at_name`** — working trees that differ under a name and its stub file only. -/
theorem view_iff_at_name (hs : StubsNamed g) (hs' : StubsNamed g') {pfx a : Path} (hn : ValidName n)
    (h : ∀ q, (∀ m r, Belongs n m → q ≠ pfx ++ a ++ m :: r) → g q = g' q) :
    (∀ p, view treeHash isIgnored g pfx p = view treeHash isIgnored g' pfx p) ↔
      (Reached treeHash isIgnored g pfx a → isIgnored (pfx ++ a ++ [n]) = false →
        ∀ q, view treeHash isIgnored g (pfx ++ a) (n :: q) =
          view treeHash isIgnored g' (pfx ++ a) (n :: q)) := by
  have hbelow := @view_eq_iff_below treeHash isIgnored g g' pfx a fun q hq =>
    h q fun m r _ heq => hq ⟨m, r, heq⟩
  have hother : ∀ (m : String) (r : Path), ¬ Belongs n m →
      g (pfx ++ a ++ m :: r) = g' (pfx ++ a ++ m :: r) := by
    intro m r hm
    refine h _ fun k r' hk heq => hm ?_
    obtain rfl := (List.cons.inj (List.append_cancel_left heq)).1
    exact hk
  have hmarker : markerTree g (pfx ++ a) = markerTree g' (pfx ++ a) :=
    markerTree_congr (hother dirStubName [] (not_belongs_marker hn))
  rw [hbelow]
  refine ⟨fun hview hreach _ q => hview hreach (n :: q), fun hname hreach p => ?_⟩
  cases p with
  | nil => rfl
  | cons m q =>
      by_cases hm : m = n
      · subst hm
        cases hi : isIgnored (pfx ++ a ++ [m]) with
        | true =>
            rw [view_of_none (ownNode_of_ignored hi), view_of_none (ownNode_of_ignored hi), hmarker]
        | false => exact hname hreach hi q
      · by_cases hside : m = n ++ stubSuffix
        · -- the name of the stub file shows nothing
          have hlog : logicalName m ≠ none := by
            rw [hside, logicalName, stripSuffix_eq_some.mpr rfl]
            exact Option.some_ne_none n
          rw [view_of_none (ownNode_of_stubName hs hlog), view_of_none (ownNode_of_stubName hs' hlog),
            hmarker]
        · have hno : ¬ Belongs n m := by
            rintro (hb | hb)
            · exact hm hb
            · exact hside hb
          refine view_name_congr (ownNode_congr (hother m [] hno) (hother _ [] (not_belongs_stub hn hm))) q
            (fun _ => ?_) fun _ => by rw [hmarker]
          refine view_shift treeHash (fun _ => rfl) (fun r => ?_) q
          rw [List.append_assoc, List.singleton_append]
          exact hother m r hno

/-! ## What is written is what is recorded -/

section Written

variable (hthr : cfg.stubThreshold = 0)
include hthr

theorem not_atThreshold (size : Nat) : ¬ cfg.atThreshold size = true := by
  simp [ExpandConfig.atThreshold, hthr]

/-- An entry that is laid and not ignored is what the directory shows. -/
theorem ownNode_of_laid (hnamed : t.WellNamed) (hwf : t.Wf) (hl : LaidAs cfg t l) {e : TreeEntry}
    (he : t.find? n = some e) (hi : isIgnored (dir ++ [n]) = false) (hover : Over l dir d.get g') :
    ownNode treeHash isIgnored g' dir n = some (entryNode e) := by
  obtain ⟨hvalid, -⟩ := hnamed.of_find? he
  have hewf : e.Wf := hwf.of_find? he
  have hentry := hl.entry hnamed he
  cases e with
  | blob b =>
      rcases hentry with ⟨hfile, -⟩ | ⟨hat, -⟩
      · rw [ownNode_of_leaf hvalid hi (hover.get_of_some hfile)]
        exact kindNode_entry hewf
      · exact absurd hat (not_atThreshold hthr _)
  | symlink k => rw [ownNode_of_leaf hvalid hi (hover.get_of_some hentry.1), kindNode_link]
  | tree t' m =>
      obtain ⟨-, s, hfind, -⟩ := hentry
      exact ownNode_of_dir hvalid hi (hover.get_of_some hfind)

/-- The layer of a recorded directory is reached. -/
theorem reached_of_laid (hnamed : t.WellNamed) (hwf : t.Wf) (hl : LaidAs cfg t l)
    (hover : Over l dir d.get g') {p : Path} {t' : Tree} {m : TreeMeta}
    (hp : t.at p = some (.tree t' m)) (hshown : Shown isIgnored dir p) :
    Reached treeHash isIgnored g' dir p ∧ t'.WellNamed ∧ t'.Wf ∧
      ∃ s, LaidAs cfg t' s ∧ Over s (dir ++ p) d.get g' := by
  induction p generalizing t l dir with
  | nil =>
      rw [Tree.at_nil] at hp
      cases hp
      have hreach : Reached treeHash isIgnored g' dir [] := fun a k ha => by simp at ha
      exact ⟨hreach, hnamed, hwf, l, hl, by rwa [List.append_nil]⟩
  | cons n p ih =>
      obtain ⟨hi, hrest⟩ := shown_cons.mp hshown
      rw [Tree.at_cons] at hp
      obtain ⟨e, he, hp⟩ := Option.bind_eq_some_iff.mp hp
      have hown : ownNode treeHash isIgnored g' dir n = some (entryNode e) :=
        ownNode_of_laid hthr hnamed hwf hl he hi hover
      have htree : e.isTree = true := by
        by_contra hno
        rw [Bool.not_eq_true] at hno
        cases p with
        | nil =>
            rw [TreeEntry.at_nil] at hp
            cases hp
            cases hno
        | cons k p =>
            rw [TreeEntry.at_cons_of_not_tree hno] at hp
            cases hp
      cases e with
      | blob b => cases htree
      | symlink k => cases htree
      | tree t₁ m₁ =>
          obtain ⟨-, s, hfind, hlaid | ⟨hat, -⟩⟩ := hl.entry hnamed he
          · have hnamed₁ : t₁.WellNamed := (hnamed.of_find? he).2
            have hwf₁ : t₁.Wf := hwf.of_find? he
            have hp₁ : t₁.at p = some (.tree t' m) ∨ (p = [] ∧ t' = t₁) := by
              cases p with
              | nil =>
                  rw [TreeEntry.at_nil] at hp
                  cases hp
                  exact .inr ⟨rfl, rfl⟩
              | cons k p => exact .inl hp
            rw [show dir ++ n :: p = dir ++ [n] ++ p by simp, reached_cons]
            rcases hp₁ with hp₁ | ⟨rfl, rfl⟩
            · obtain ⟨hreach, hrest'⟩ := ih hnamed₁ hwf₁ hlaid (hover.sub hfind) hp₁ hrest
              exact ⟨⟨hown, hreach⟩, hrest'⟩
            · have hreach : Reached treeHash isIgnored g' (dir ++ [n]) [] := fun a k ha => by simp at ha
              refine ⟨⟨hown, hreach⟩, hnamed₁, hwf₁, s, hlaid, ?_⟩
              rw [List.append_nil]
              exact hover.sub hfind
          · exact absurd hat (not_atThreshold hthr _)

/-- **`agrees_of_view`** — a directory that a layer does not change is recorded as the layer has it. -/
theorem agrees_of_view (hnamed : t.WellNamed) (hwf : t.Wf) (hl : LaidAs cfg t l)
    (hover : Over l dir d.get g')
    (h : ∀ p, view treeHash isIgnored g' dir p = view treeHash isIgnored d.get dir p) :
    Agrees treeHash isIgnored d.get dir t where
  same p e hp hshown := by
    rw [← h]
    rcases List.eq_nil_or_concat p with rfl | ⟨a, k, rfl⟩
    · rw [Tree.at_nil] at hp
      cases hp
      rfl
    · rw [List.concat_eq_append] at hp hshown ⊢
      obtain ⟨t', m, ha⟩ := Tree.isTree_of_at_append (List.cons_ne_nil k [])
        (by rw [hp]; exact Option.some_ne_none e)
      obtain ⟨hsa, hsk⟩ := shown_append.mp hshown
      obtain ⟨hreach, hnamed', hwf', s, hlaid, hover'⟩ :=
        reached_of_laid (d := d) hthr hnamed hwf hl hover ha hsa
      have he : t'.find? k = some e := by
        rw [Tree.at_append, ha, Option.bind_some, TreeEntry.at_cons] at hp
        rwa [← Tree.at_singleton]
      rw [view_of_reached hreach]
      exact view_of_node (ownNode_of_laid hthr hnamed' hwf' hlaid he (shown_cons.mp hsk).1 hover')
  blank p t' m hp hshown hno q := by
    obtain ⟨hreach, hnamed', hwf', s, hlaid, hover'⟩ :=
      reached_of_laid (d := d) hthr hnamed hwf hl hover hp hshown
    have hget : ∀ k r, g' (dir ++ p ++ k :: r) = s.get (k :: r) := fun k r => by
      rw [hover', DirTree.get_append_of_not_dir hno, Option.or_none]
    rw [← h, view_of_reached hreach, shown_append, and_iff_right hshown]
    exact view_of_blank hnamed' hwf' hlaid (fun h0 => by omega) hget q

end Written

end Omemfs.Work
