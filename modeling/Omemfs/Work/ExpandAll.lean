/-
# Omemfs.Work.ExpandAll — the command over all the stubs of a working tree.

One stub is expanded without a trace in what a scan records exactly if the working tree is recorded as
the stub has it (`expandStub_keeps_iff`).  The stubs that the command lists lie apart from each other:
it looks for none below a marker.  So if each of them is recorded as it is, the working tree is recorded
the same after all of them are expanded.
-/
import Omemfs.Work.Expanded
import Omemfs.Work.Listed

namespace Omemfs.Work

open Lib Scan Fsguard
open Omemfs.Sync.Checked (fileStubPath dirStubPath isFile)

variable {cfg : ExpandConfig} {treeHash : Tree → Hash} {isIgnored : Path → Bool} {d d' : Disk}

/-! ## One stub -/

/-- The stub is there, and what it records can be in a tree. -/
def InPlace (g : Lstat) (rel : Path) (r : StubRecord) : Prop :=
  match r.target with
  | .tree t => recordIn (g (dirStubPath rel)) = some r ∧ t.WellNamed ∧ t.Wf
  | .blob _ => (∃ a n, rel = a ++ [n] ∧ ValidName n ∧ g a = some .dir) ∧
      (r.mode = none ∨ r.mode = some "755")

/-- The working tree is recorded as the stub has it, and will be without the stub. -/
def StubAgrees (treeHash : Tree → Hash) (isIgnored : Path → Bool) (g : Lstat) (rel : Path)
    (r : StubRecord) : Prop :=
  match r.target with
  | .tree t => Reached treeHash isIgnored g [] rel →
      (∀ n ∈ t.names, isIgnored (rel ++ [n]) = false) ∧ Agrees treeHash isIgnored g rel t
  | .blob h => Reached treeHash isIgnored g [] rel.dropLast → isIgnored rel = false →
      view treeHash isIgnored g rel.dropLast [rel.getLastD ""] = some (.blob h r.mode)

/-- What may stay a stub below a stub that is expanded. -/
def StubPlain (cfg : ExpandConfig) (isIgnored : Path → Bool) (g : Lstat) (rel : Path)
    (r : StubRecord) : Prop :=
  match r.target with
  | .tree t => 0 < cfg.stubThreshold → Plain isIgnored g rel t
  | .blob _ => True

theorem dir_of_marker {s : Path} {r : StubRecord} (h : recordIn (d.get (dirStubPath s)) = some r) :
    d.get s = some .dir := by
  refine DirTree.get_of_append (n := dirStubName) (q := []) fun hnone => ?_
  rw [dirStubPath, hnone] at h
  cases h

theorem markerTree_of_record {g : Lstat} {s : Path} {r : StubRecord} {t : Tree}
    (h : recordIn (g (dirStubPath s)) = some r) (ht : r.target = .tree t) : markerTree g s = some t := by
  rw [dirStubPath] at h
  rw [markerTree, h, Option.bind_some, ht]

/-- What an expanded directory is: its tree laid over it, without the marker. -/
theorem expandTree_ok {s : Path} {t : Tree} (hnamed : t.WellNamed) (hdir : d.get s = some .dir)
    (h : (expandTreeMaterialise cfg t s >>= fun _ => removeFileTolerant (dirStubPath s)) d = .ok ⟨⟩ d') :
    ∃ l d₁, LaidAs cfg t l ∧ LaidOver l s d.get (DirTree.get d₁) ∧
      ∀ q, d'.get q = if q = s ++ [dirStubName] then none else d₁.get q := by
  obtain ⟨⟨⟩, d₁, h₁, h₂⟩ := bind_ok h
  obtain ⟨⟨⟩, d₀, hmk, hentries⟩ := bind_ok h₁
  have hsame : d₀.get = d.get := by
    funext q
    rw [((createDirAll_effect d s).of_ok hmk).2 q]
    split_ifs with hq
    · exact (DirTree.dir_of_prefix hdir hq).symm
    · rfl
  obtain ⟨l, hl, hover⟩ := expandEntries_ok hnamed (by rw [hsame, hdir]) hentries
  refine ⟨l, d₁, hl, by rwa [← hsame], ?_⟩
  exact ((removeFileTolerant_effect d₁ (by simp [dirStubPath])).of_ok h₂).2

/-- Only what is below the directory changes. -/
theorem expandTree_frame {s : Path} {t : Tree} (hnamed : t.WellNamed) (hdir : d.get s = some .dir)
    (h : (expandTreeMaterialise cfg t s >>= fun _ => removeFileTolerant (dirStubPath s)) d = .ok ⟨⟩ d')
    (q : Path) (hq : ¬ ∃ k r, q = s ++ k :: r) : d'.get q = d.get q := by
  obtain ⟨l, d₁, -, hover, hget⟩ := expandTree_ok hnamed hdir h
  have hne : q ≠ s ++ [dirStubName] := fun heq => hq ⟨dirStubName, [], heq⟩
  rw [hget, if_neg hne]
  by_cases hpre : s <+: q
  · obtain ⟨r, rfl⟩ := hpre
    cases r with
    | nil => rw [List.append_nil, hover.inside.get_dir, hdir]
    | cons k r => exact absurd ⟨k, r, rfl⟩ hq
  · exact hover.outside q hpre

/-- What an expanded file is: the file, without its stub. -/
theorem expandBlob_ok {a : Path} {n : String} {x : DiskLeaf} (hn : ValidName n)
    (hdir : d.get a = some .dir)
    (h : (atomicWrite (a ++ [n]) x >>= fun _ => removeFileTolerant (fileStubPath (a ++ [n]))) d =
      .ok ⟨⟩ d') :
    d.get (a ++ [n]) ≠ some .dir ∧ d.get (a ++ [n ++ stubSuffix]) ≠ some .dir ∧ ∀ q, d'.get q =
      if q = a ++ [n ++ stubSuffix] then none else if q = a ++ [n] then some (.leaf x) else d.get q := by
  obtain ⟨⟨⟩, d₁, h₁, h₂⟩ := bind_ok h
  have hput := atomicWrite_footprint hdir n x
  have hpath : fileStubPath (a ++ [n]) = a ++ [n ++ stubSuffix] := by simp [fileStubPath]
  rw [hpath] at h₂
  obtain ⟨⟨-, hnot⟩, hdrop⟩ := (removeFileTolerant_effect d₁ (by simp)).of_ok h₂
  have hne : a ++ [n ++ stubSuffix] ≠ a ++ [n] := fun heq =>
    ne_stubName hn (List.cons.inj (List.append_cancel_left heq)).1.symm
  refine ⟨hput.ok_iff.mp ⟨d₁, h₁⟩, ?_, fun q => ?_⟩
  · rwa [hput.lands d₁ h₁, if_neg hne] at hnot
  · rw [hdrop, hput.lands d₁ h₁]

/-- A directory whose stub is expanded. -/
theorem expandTree_keeps_iff (hs : StubsNamed d.get) {s : Path} {r : StubRecord} {t : Tree}
    (ht : r.target = .tree t) (hmark : recordIn (d.get (dirStubPath s)) = some r)
    (hnamed : t.WellNamed) (hwf : t.Wf)
    (hrun : (expandTreeMaterialise cfg t s >>= fun _ => removeFileTolerant (dirStubPath s)) d = .ok ⟨⟩ d') :
    ((0 < cfg.stubThreshold → Plain isIgnored d.get s t) →
      (Reached treeHash isIgnored d.get [] s →
        (∀ n ∈ t.names, isIgnored (s ++ [n]) = false) ∧ Agrees treeHash isIgnored d.get s t) →
      ∀ p, view treeHash isIgnored d'.get [] p = view treeHash isIgnored d.get [] p) ∧
    (cfg.stubThreshold = 0 →
      (∀ p, view treeHash isIgnored d'.get [] p = view treeHash isIgnored d.get [] p) →
      Reached treeHash isIgnored d.get [] s →
        (∀ n ∈ t.names, isIgnored (s ++ [n]) = false) ∧ Agrees treeHash isIgnored d.get s t) := by
  have hdir := dir_of_marker hmark
  obtain ⟨l, d₁, hl, hover, hget⟩ := expandTree_ok hnamed hdir hrun
  have hmarker : markerTree d₁.get s = some t := by
    rw [markerTree_congr (hover.inside.get_of_none (hl.marker hnamed) [])]
    exact markerTree_of_record hmark ht
  have hno : d₁.get (s ++ [dirStubName ++ stubSuffix]) = none := by
    have hfree : l.find? (dirStubName ++ stubSuffix) = none := by
      refine hl.find?_eq_none fun k hk => not_belongs_stub (hnamed.valid hk) ?_
      rintro rfl
      exact absurd (hnamed.valid hk) (by decide)
    rw [hover.inside.get_of_none hfree []]
    exact hs.no_double s
  have hframe : ∀ q, ¬ (∃ k r, q = [] ++ s ++ k :: r) → d.get q = d'.get q := fun q hq =>
    (expandTree_frame hnamed hdir hrun q hq).symm
  have hbelow := @view_eq_iff_below treeHash isIgnored d.get d'.get [] s hframe
  rw [List.nil_append] at hbelow
  constructor
  · intro hplain hag p
    refine (hbelow.mpr (fun hreach q => ?_) p).symm
    obtain ⟨htop, hag⟩ := hag hreach
    have hlaid : ∀ q, view treeHash isIgnored d₁.get s q = view treeHash isIgnored d.get s q :=
      view_of_overlaid hs hnamed hwf hl hag hplain hover.inside
    rw [← hlaid]
    refine ((view_of_unmarked hno hmarker hget fun n hn hi => ?_).mpr htop q).symm
    obtain ⟨e, he⟩ := Option.ne_none_iff_exists'.mp (mt Tree.find?_eq_none_iff.mp (not_not.mpr hn))
    refine (view_of_overlaid_name hs hnamed hwf hl hag hplain he hi (fun m r _ => hover.inside (m :: r)) []
      ?_).1
    intros
    rfl
  · intro hthr hview hreach
    have hbelow' := hbelow.mp (fun p => (hview p).symm) hreach
    have hown : ∀ n ∈ t.names, isIgnored (s ++ [n]) = false →
        ownNode treeHash isIgnored d₁.get s n ≠ none := by
      intro n hn hi
      obtain ⟨e, he⟩ := Option.ne_none_iff_exists'.mp (mt Tree.find?_eq_none_iff.mp (not_not.mpr hn))
      rw [ownNode_of_laid hthr hnamed hwf hl he hi hover.inside]
      exact Option.some_ne_none _
    have htop : ∀ n ∈ t.names, isIgnored (s ++ [n]) = false := by
      intro n hn
      by_contra hi
      rw [Bool.not_eq_false] at hi
      obtain ⟨e, he⟩ := Option.ne_none_iff_exists'.mp (mt Tree.find?_eq_none_iff.mp (not_not.mpr hn))
      have hgone : markerTree d'.get s = none := markerTree_of_none (by rw [hget, if_pos rfl])
      have hn' := hbelow' [n]
      rw [view_of_none (ownNode_of_ignored hi), view_of_none (ownNode_of_ignored hi), hgone,
        markerTree_of_record hmark ht, Option.bind_some, Option.bind_none, Tree.at_singleton, he] at hn'
      cases hn'
    refine ⟨htop, agrees_of_view hthr hnamed hwf hl hover.inside fun p => ?_⟩
    rw [hbelow']
    exact ((view_of_unmarked hno hmarker hget hown).mpr htop p).symm

theorem expandBlob_stubsNamed (hs : StubsNamed d.get) {a : Path} {n : String} (hn : ValidName n)
    {x : DiskLeaf} (hget : ∀ q, d'.get q = if q = a ++ [n ++ stubSuffix] then none
      else if q = a ++ [n] then some (.leaf x) else d.get q) : StubsNamed d'.get := by
  intro p m hne
  rw [hget] at hne
  split_ifs at hne with h₁ h₂
  · exact absurd rfl hne
  · -- a name that a tree can hold is no stub file's
    have hname : m ++ stubSuffix = n := (List.cons.inj (List.append_inj' h₂ rfl).2).1
    have hlog : logicalName n = some m := by rw [logicalName, stripSuffix_eq_some.mpr hname.symm]
    rw [(kept_of_valid hn).2] at hlog
    cases hlog
  · exact hs p m hne

/-- A file whose stub is expanded. -/
theorem expandBlob_keeps_iff (hs : StubsNamed d.get) {a : Path} {n : String} {b : Blob}
    (hn : ValidName n) (hmode : (TreeEntry.blob b).Wf)
    (hget : ∀ q, d'.get q = if q = a ++ [n ++ stubSuffix] then none
      else if q = a ++ [n] then some (.leaf (cfg.mach.file b)) else d.get q) :
    (∀ p, view treeHash isIgnored d'.get [] p = view treeHash isIgnored d.get [] p) ↔
      (Reached treeHash isIgnored d.get [] a → isIgnored (a ++ [n]) = false →
        view treeHash isIgnored d.get a [n] = some (entryNode (.blob b))) := by
  have hframe : ∀ q, (∀ m r, Belongs n m → q ≠ [] ++ a ++ m :: r) → d.get q = d'.get q := by
    intro q hq
    rw [List.nil_append] at hq
    rw [hget, if_neg (hq _ [] (.inr rfl)), if_neg (hq _ [] (.inl rfl))]
  have hat := @view_iff_at_name treeHash isIgnored d.get d'.get n hs (expandBlob_stubsNamed hs hn hget)
    [] a hn hframe
  rw [List.nil_append] at hat
  have hfile : d'.get (a ++ [n]) = some (.leaf (cfg.mach.file b)) := by
    rw [hget, if_neg fun h => ne_stubName hn (List.cons.inj (List.append_cancel_left h)).1, if_pos rfl]
  have hown : isIgnored (a ++ [n]) = false →
      ownNode treeHash isIgnored d'.get a n = some (entryNode (.blob b)) := by
    intro hi
    rw [ownNode_of_leaf hn hi hfile]
    exact kindNode_entry hmode
  have hnode : entryNode (.blob b) ≠ .dir := by simp [entryNode]
  constructor
  · intro h hreach hi
    rw [hat.mp (fun p => (h p).symm) hreach hi []]
    exact view_of_node (hown hi)
  · intro h p
    refine (hat.mpr (fun hreach hi q => ?_) p).symm
    cases q with
    | nil => rw [h hreach hi, view_of_node (hown hi)]
    | cons k q => rw [view_below_node hnode (h hreach hi), view_below_leaf hnode (hown hi)]

/-! ## The stubs that are left -/

/-- What expanding a stub asks of the working tree. -/
structure Ready (cfg : ExpandConfig) (treeHash : Tree → Hash) (isIgnored : Path → Bool) (g : Lstat)
    (x : Path × StubRecord) : Prop where
  inPlace : InPlace g x.1 x.2
  agrees : StubAgrees treeHash isIgnored g x.1 x.2
  plain : StubPlain cfg isIgnored g x.1 x.2

/-- A stubbed directory that nothing has been put into. -/
theorem Ready.of_untouched {g : Lstat} {x : Path × StubRecord} {t : Tree} (ht : x.2.target = .tree t)
    (hdir : g x.1 = some .dir) (hmark : recordIn (g (dirStubPath x.1)) = some x.2)
    (hnamed : t.WellNamed) (hwf : t.Wf) (hshown : ∀ p, t.at p ≠ none → Shown isIgnored x.1 p)
    (honly : ∀ n r, n :: r ≠ [dirStubName] → g (x.1 ++ n :: r) = none) :
    Ready cfg treeHash isIgnored g x := by
  have hview : ∀ q, view treeHash isIgnored g x.1 q = (t.at q).map entryNode :=
    view_of_markerTree (markerTree_of_record hmark ht) fun k hk => honly k [] (by simpa using hk)
  constructor
  · simp only [InPlace, ht]
    exact ⟨hmark, hnamed, hwf⟩
  · simp only [StubAgrees, ht]
    refine fun _ => ⟨fun n hn => ?_, fun p e hp _ => by rw [hview, hp, Option.map_some], ?_⟩
    · refine (shown_cons.mp (hshown [n] ?_)).1
      rw [Tree.at_singleton]
      exact mt Tree.find?_eq_none_iff.mp (not_not.mpr hn)
    · intro p t' m hp _ _ q
      have hat : t.at (p ++ q) = (TreeEntry.tree t' m).at q := by rw [Tree.at_append, hp, Option.bind_some]
      rw [hview]
      refine ⟨fun _ => by rw [hat, node_at], fun hno => ?_⟩
      rw [Option.map_eq_none_iff]
      by_contra hne
      exact hno (hshown _ hne)
  · simp only [StubPlain, ht]
    refine fun _ => ⟨hshown, fun p hp hs => ?_, fun p t' m hne hp => ?_⟩
    · cases p with
      | nil =>
          rw [List.append_nil, hdir] at hs
          cases hs
      | cons n r =>
          by_cases hnr : n :: r = [dirStubName]
          · rw [dirStubPath, ← hnr, hs] at hmark
            cases hmark
          · rw [honly n r hnr] at hs
            cases hs
    · obtain ⟨n, r, rfl⟩ := List.exists_cons_of_ne_nil hne
      rw [List.append_assoc]
      exact honly n (r ++ [dirStubName]) (by simp)

/-- The directory that lists the stub. -/
def listDir (x : Path × StubRecord) : Path :=
  match x.2.target with
  | .tree _ => x.1
  | .blob _ => x.1.dropLast

/-- Expanding the first stub leaves the second one as it is: a directory does not lie above the directory
that lists the other stub, and is not that directory itself if the other is its marker too. -/
def Apart (x y : Path × StubRecord) : Prop :=
  match x.2.target with
  | .blob _ => True
  | .tree _ => (∀ k r, listDir y ≠ x.1 ++ k :: r) ∧
      match y.2.target with
      | .blob _ => True
      | .tree _ => y.1 ≠ x.1 ∧ ∀ k r, x.1 ≠ y.1 ++ k :: r

variable {g g' : Lstat} {x : Path × StubRecord}

theorem Ready.of_tree {t : Tree} (ht : x.2.target = .tree t)
    (h : Ready cfg treeHash isIgnored g x)
    (hmark : g' (x.1 ++ [dirStubName]) = g (x.1 ++ [dirStubName]))
    (hdir : ∀ q, q <+: x.1 ∨ x.1 <+: q → (g' q = some .dir ↔ g q = some .dir))
    (hspecial : ∀ q, x.1 <+: q → g' q = some (.leaf .special) → g q = some (.leaf .special))
    (hnone : ∀ q, x.1 <+: q → g (q ++ [dirStubName]) = none → g' (q ++ [dirStubName]) = none)
    (hview : ∀ p, view treeHash isIgnored g' [] p = view treeHash isIgnored g [] p) :
    Ready cfg treeHash isIgnored g' x where
  inPlace := by
    have hin := h.inPlace
    simp only [InPlace, ht, dirStubPath, hmark] at hin ⊢
    exact hin
  agrees := by
    have hag := h.agrees
    simp only [StubAgrees, ht] at hag ⊢
    intro hreach'
    have hreach : Reached treeHash isIgnored g [] x.1 :=
      (reached_congr fun a ha => hdir a (.inl ha)).mp hreach'
    obtain ⟨htop, hsame⟩ := hag hreach
    have hbelow : ∀ p, view treeHash isIgnored g' x.1 p = view treeHash isIgnored g x.1 p := by
      intro p
      have h₁ := view_of_reached hreach p
      have h₂ := view_of_reached hreach' p
      rw [List.nil_append] at h₁ h₂
      rw [← h₁, ← h₂, hview]
    refine ⟨htop, fun p e hp hshown => ?_, fun p t' m hp hshown hno q => ?_⟩
    · rw [hbelow]
      exact hsame.same p e hp hshown
    · rw [hbelow]
      exact hsame.blank p t' m hp hshown
        (fun hd => hno ((hdir _ (.inr (List.prefix_append _ _))).mpr hd)) q
  plain := by
    have hplain := h.plain
    simp only [StubPlain, ht] at hplain ⊢
    intro h0
    have hp := hplain h0
    refine ⟨hp.shown, fun p hat hs => ?_, fun p t' m hne hat => ?_⟩
    · exact hp.notSpecial p hat (hspecial _ (List.prefix_append _ _) hs)
    · exact hnone _ (List.prefix_append _ _) (hp.unmarked p t' m hne hat)

theorem Ready.of_blob {hash : Hash} (ht : x.2.target = .blob hash)
    (h : Ready cfg treeHash isIgnored g x)
    (hdir : ∀ q, q <+: x.1.dropLast → (g' q = some .dir ↔ g q = some .dir))
    (hview : ∀ p, view treeHash isIgnored g' [] p = view treeHash isIgnored g [] p) :
    Ready cfg treeHash isIgnored g' x where
  inPlace := by
    have hin := h.inPlace
    simp only [InPlace, ht] at hin ⊢
    obtain ⟨⟨a, n, heq, hn, ha⟩, hmode⟩ := hin
    refine ⟨⟨a, n, heq, hn, (hdir a ?_).mpr ha⟩, hmode⟩
    rw [heq, List.dropLast_concat]
  agrees := by
    have hag := h.agrees
    simp only [StubAgrees, ht] at hag ⊢
    intro hreach' hi
    have hreach : Reached treeHash isIgnored g [] x.1.dropLast :=
      (reached_congr fun a ha => hdir a ha).mp hreach'
    have h₁ := view_of_reached hreach [x.1.getLastD ""]
    have h₂ := view_of_reached hreach' [x.1.getLastD ""]
    rw [List.nil_append] at h₁ h₂
    rw [← h₂, hview, h₁]
    exact hag hreach hi
  plain := by simp only [StubPlain, ht]

/-! ## One step of the run -/

/-- The stub files of a layer stand for the names of its tree. -/
theorem LaidAs.stubsNamed {t : Tree} {l : Disk} (hnamed : t.WellNamed) (hl : LaidAs cfg t l) (p : Path)
    (m : String) (h : l.get (p ++ [m ++ stubSuffix]) ≠ none) : m = "" ∨ ValidName m := by
  induction p generalizing t l with
  | nil =>
      rw [List.nil_append, DirTree.get, DirTree.at_singleton] at h
      by_contra hno
      refine h ?_
      rw [hl.find?_eq_none fun k hk => not_belongs_stub (hnamed.valid hk) ?_, Option.map_none]
      rintro rfl
      exact hno (.inr (hnamed.valid hk))
  | cons n p ih =>
      rw [List.cons_append] at h
      by_cases hex : ∃ k ∈ t.names, Belongs k n
      · obtain ⟨k, hk, hb⟩ := hex
        obtain ⟨e, he⟩ := Option.ne_none_iff_exists'.mp (mt Tree.find?_eq_none_iff.mp (not_not.mpr hk))
        have hentry := hl.entry hnamed he
        have hleaf : ∀ a : DiskLeaf, l.find? n = some (.leaf a) → False := fun a ha => by
          rw [DirTree.get_cons_of_leaf ha, if_neg (by simp)] at h
          exact h rfl
        have hnone : l.find? n = none → False := fun hn => h (DirTree.get_cons_of_none hn _)
        cases e with
        | blob b =>
            exfalso
            rcases hb with rfl | rfl
            · rcases hentry with ⟨hf, -⟩ | ⟨-, hf, -⟩
              · exact hleaf _ hf
              · exact hnone hf
            · rcases hentry with ⟨-, hf⟩ | ⟨-, -, hf⟩
              · exact hnone hf
              · exact hleaf _ hf
        | symlink j =>
            exfalso
            rcases hb with rfl | rfl
            · exact hleaf _ hentry.1
            · exact hnone hentry.2
        | tree t' tm =>
            obtain ⟨hside, s, hfind, hlaid⟩ := hentry
            rcases hb with rfl | rfl
            · rw [DirTree.get_cons_of_sub hfind] at h
              rcases hlaid with hlaid | ⟨-, rfl⟩
              · exact ih (hnamed.of_find? he).2 hlaid h
              · -- nothing but the marker
                left
                by_contra hm
                have hfree : (DirTree.leaf dirStubName (cfg.mach.stubFile (treeRecord t' tm)) .nil).get
                    (p ++ [m ++ stubSuffix]) = none := by
                  cases p with
                  | nil =>
                      refine DirTree.get_cons_of_none ?_ []
                      rw [DirTree.find?, if_neg fun heq => hm (marker_iff.mp heq), DirTree.find?_nil]
                  | cons j p =>
                      by_cases hj : j = dirStubName
                      · rw [List.cons_append, DirTree.get_cons_of_leaf (by rw [DirTree.find?, if_pos hj]),
                          if_neg (by simp)]
                      · exact DirTree.get_cons_of_none (by rw [DirTree.find?, if_neg hj, DirTree.find?_nil]) _
                exact h hfree
            · exact absurd hside fun hs => hnone hs
      · exact absurd (DirTree.get_cons_of_none
          (hl.find?_eq_none fun k hk hb => hex ⟨k, hk, hb⟩) _) h

theorem expandTree_stubsNamed (hs : StubsNamed d.get) {s : Path} {t : Tree} (hnamed : t.WellNamed)
    (hdir : d.get s = some .dir)
    (h : (expandTreeMaterialise cfg t s >>= fun _ => removeFileTolerant (dirStubPath s)) d = .ok ⟨⟩ d') :
    StubsNamed d'.get := by
  obtain ⟨l, d₁, hl, hover, hget⟩ := expandTree_ok hnamed hdir h
  intro p m hne
  rw [hget] at hne
  split_ifs at hne with hq
  · exact absurd rfl hne
  · by_cases hpre : s <+: p ++ [m ++ stubSuffix]
    · obtain ⟨r, hr⟩ := hpre
      rw [← hr, hover.inside] at hne
      rcases List.eq_nil_or_concat r with rfl | ⟨b, j, rfl⟩
      · rw [List.append_nil] at hr
        refine hs p m ?_
        rw [← hr, hdir]
        exact Option.some_ne_none _
      · rw [List.concat_eq_append, ← List.append_assoc] at hr
        obtain ⟨rfl, hj⟩ := List.append_inj' hr rfl
        obtain rfl : j = m ++ stubSuffix := (List.cons.inj hj).1
        rw [List.concat_eq_append] at hne
        cases hlay : l.get (b ++ [m ++ stubSuffix]) with
        | some k => exact hl.stubsNamed hnamed b m (by rw [hlay]; exact Option.some_ne_none k)
        | none =>
            rw [hlay, Option.none_or, ← List.append_assoc] at hne
            exact hs _ m hne
    · rw [hover.outside _ hpre] at hne
      exact hs p m hne

/-- The directories stay as they are when a file takes the place of its stub. -/
theorem expandBlob_dir {a : Path} {n : String} {b : Blob} (hfile : d.get (a ++ [n]) ≠ some .dir)
    (hstub : d.get (a ++ [n ++ stubSuffix]) ≠ some .dir)
    (hget : ∀ q, d'.get q = if q = a ++ [n ++ stubSuffix] then none
      else if q = a ++ [n] then some (.leaf (cfg.mach.file b)) else d.get q) (q : Path) :
    d'.get q = some .dir ↔ d.get q = some .dir := by
  rw [hget]
  split_ifs with h₁ h₂
  · exact iff_of_false (by simp) (h₁ ▸ hstub)
  · exact iff_of_false (by simp) (h₂ ▸ hfile)
  · rfl

/-- **`expandStub_step`** — one stub: nothing is recorded otherwise, and the stubs apart from it are as
ready as they were. -/
theorem expandStub_step (hs : StubsNamed d.get) {x : Path × StubRecord}
    (hx : Ready cfg treeHash isIgnored d.get x) (hrun : expandStub cfg x.1 x.2 d = .ok ⟨⟩ d') :
    (∀ p, view treeHash isIgnored d'.get [] p = view treeHash isIgnored d.get [] p) ∧
      StubsNamed d'.get ∧
      ∀ y, Apart x y → Ready cfg treeHash isIgnored d.get y → Ready cfg treeHash isIgnored d'.get y := by
  obtain ⟨s, r⟩ := x
  have hin := hx.inPlace
  have hagree := hx.agrees
  have hplain := hx.plain
  cases ht : r.target with
  | tree t =>
      simp only [InPlace, StubAgrees, StubPlain, ht] at hin hagree hplain
      simp only [expandStub, ht] at hrun
      obtain ⟨hmark, hnamed, hwf⟩ := hin
      have hdir := dir_of_marker hmark
      have hview := (expandTree_keeps_iff hs ht hmark hnamed hwf hrun).1 hplain hagree
      have hframe := expandTree_frame hnamed hdir hrun
      refine ⟨hview, expandTree_stubsNamed hs hnamed hdir hrun, fun y hapart hy => ?_⟩
      simp only [Apart, ht, listDir] at hapart
      cases hty : y.2.target with
      | blob hash =>
          simp only [hty] at hapart
          refine hy.of_blob hty (fun q hq => ?_) hview
          rw [hframe q]
          rintro ⟨k, r', rfl⟩
          obtain ⟨r'', hr''⟩ := hq
          exact hapart.1 k (r' ++ r'') (by rw [← hr'']; simp)
      | tree t' =>
          simp only [hty] at hapart
          -- neither directory lies in the other
          have hkeep : ∀ q, q <+: y.1 ∨ y.1 <+: q → d'.get q = d.get q := by
            intro q hq
            apply hframe q
            rintro ⟨k, r', rfl⟩
            rcases hq with hq | hq
            · obtain ⟨r'', hr''⟩ := hq
              exact hapart.1 k (r' ++ r'') (by rw [← hr'']; simp)
            · rcases List.prefix_or_prefix_of_prefix hq (List.prefix_append s (k :: r')) with h | h
              · obtain ⟨r'', hr''⟩ := h
                cases r'' with
                | nil =>
                    rw [List.append_nil] at hr''
                    exact hapart.2.1 hr''
                | cons k' r'' => exact hapart.2.2 k' r'' hr''.symm
              · obtain ⟨r'', hr''⟩ := h
                cases r'' with
                | nil =>
                    rw [List.append_nil] at hr''
                    exact hapart.2.1 hr''.symm
                | cons k' r'' => exact hapart.1 k' r'' hr''.symm
          refine hy.of_tree hty (hkeep _ (.inr (List.prefix_append _ _))) (fun q hq => by rw [hkeep q hq])
            (fun q hq hsp => by rwa [← hkeep q (.inr hq)]) (fun q hq hnone => ?_) hview
          rwa [hkeep _ (.inr (hq.trans (List.prefix_append _ _)))]
  | blob h =>
      simp only [InPlace, StubAgrees, ht] at hin hagree
      simp only [expandStub, ht] at hrun
      obtain ⟨⟨a, n, rfl, hn, hdir⟩, hmode⟩ := hin
      rw [List.dropLast_concat, List.getLastD_concat] at hagree
      obtain ⟨hfile, hstub, hget⟩ := expandBlob_ok hn hdir hrun
      have hdirs := expandBlob_dir hfile hstub hget
      have hblob : (TreeEntry.blob ⟨h, r.mtime, r.size, r.mode⟩).Wf := hmode
      have hview := (expandBlob_keeps_iff hs hn hblob hget).mpr hagree
      refine ⟨hview, expandBlob_stubsNamed hs hn hget, fun y _ hy => ?_⟩
      have hmarker : ∀ q, d'.get (q ++ [dirStubName]) = d.get (q ++ [dirStubName]) := by
        intro q
        rw [hget, if_neg, if_neg]
        · intro heq
          exact not_belongs_marker hn (.inl (List.cons.inj (List.append_inj' heq rfl).2).1)
        · intro heq
          exact not_belongs_marker hn (.inr (List.cons.inj (List.append_inj' heq rfl).2).1)
      cases hty : y.2.target with
      | blob hash => exact hy.of_blob hty (fun q _ => hdirs q) hview
      | tree t' =>
          refine hy.of_tree hty (hmarker _) (fun q _ => hdirs q) (fun q _ hsp => ?_)
            (fun q _ hnone => by rw [hmarker, hnone]) hview
          rw [hget] at hsp
          split_ifs at hsp
          · cases hsp
          · exact hsp

/-! ## All stubs -/

/-- Records lie where their kind does, and record what a tree can hold. -/
structure RecordsOk (g : Lstat) : Prop where
  marker : ∀ s r, recordIn (g (dirStubPath s)) = some r →
    ∃ t, r.target = .tree t ∧ t.WellNamed ∧ t.Wf
  sidecar : ∀ a n r, n ≠ "" → recordIn (g (a ++ [n ++ stubSuffix])) = some r →
    (∃ h, r.target = .blob h) ∧ (r.mode = none ∨ r.mode = some "755")

/-- Where the file of a stub lies. -/
def stubPath (x : Path × StubRecord) : Path :=
  match x.2.target with
  | .tree _ => dirStubPath x.1
  | .blob _ => fileStubPath x.1

theorem isFile_of_record {k : Option (Kind DiskLeaf)} {r : StubRecord} (h : recordIn k = some r) :
    isFile k = true := by
  rcases k with _ | _ | ⟨c, stat⟩ | ⟨target, mtime⟩ | _
  · cases h
  · cases h
  · rfl
  · cases h
  · cases h

/-- A file that is a stub is a marker, or stands beside a name. -/
theorem stubAt_cases {p : Path} {n : String} {a : DiskLeaf} (hp : d.get (p ++ [n]) = some (.leaf a))
    (hx : stubAt p n a = some x) :
    (n = dirStubName ∧ x.1 = p ∧ recordIn (d.get (dirStubPath x.1)) = some x.2) ∨
      ∃ l, l ≠ "" ∧ n = l ++ stubSuffix ∧ x.1 = p ++ [l] ∧
        recordIn (d.get (p ++ [l ++ stubSuffix])) = some x.2 := by
  rcases a with ⟨c, stat⟩ | ⟨target, mtime⟩ | _
  · rw [stubAt] at hx
    split_ifs at hx with hm hn hp'
    · left
      obtain ⟨r, hr, rfl⟩ := Option.map_eq_some_iff.mp hx
      subst hn
      exact ⟨rfl, rfl, by rw [dirStubPath, hp]; exact hr⟩
    · right
      obtain ⟨l, hl, hx⟩ := Option.bind_eq_some_iff.mp hx
      obtain ⟨r, hr, rfl⟩ := Option.map_eq_some_iff.mp hx
      rw [logicalName, stripSuffix_eq_some] at hl
      subst hl
      exact ⟨l, fun hl => hn (marker_iff.mpr hl), rfl, rfl, by rw [hp]; exact hr⟩
  · cases hx
  · cases hx

section Listing

variable {y : Path × StubRecord} (hwf : d.Wf) (hrec : RecordsOk d.get)
include hrec

theorem stubPath_of_stubAt {p : Path} {n : String} {a : DiskLeaf}
    (hp : d.get (p ++ [n]) = some (.leaf a)) (hx : stubAt p n a = some x) : stubPath x = p ++ [n] := by
  rcases stubAt_cases hp hx with ⟨rfl, hxp, hr⟩ | ⟨l, hl, rfl, hxp, hr⟩
  · obtain ⟨t, ht, -⟩ := hrec.marker _ _ hr
    simp only [stubPath, ht, dirStubPath, hxp]
  · obtain ⟨⟨h, hh⟩, -⟩ := hrec.sidecar _ _ _ hl hr
    simp only [stubPath, hh, fileStubPath, hxp, List.dropLast_concat, List.getLastD_concat]

include hwf

/-- A listed stub has no marker above the directory that lists it. -/
theorem listed_cases (hx : x ∈ stubList d) :
    (∀ b k c, listDir x = b ++ k :: c → isFile (d.get (b ++ [dirStubName])) = false) ∧
      ((∃ t, x.2.target = .tree t ∧ t.WellNamed ∧ t.Wf) ∧ recordIn (d.get (dirStubPath x.1)) = some x.2 ∨
        ∃ a l h, x.1 = a ++ [l] ∧ l ≠ "" ∧ x.2.target = .blob h ∧
          (x.2.mode = none ∨ x.2.mode = some "755") ∧
          recordIn (d.get (a ++ [l ++ stubSuffix])) = some x.2) := by
  obtain ⟨p, n, a, hp, ha, -, hno⟩ := (mem_collect_iff hwf).mp hx
  rw [List.nil_append] at ha
  rcases stubAt_cases hp ha with ⟨rfl, hxp, hr⟩ | ⟨l, hl, rfl, hxp, hr⟩
  · obtain ⟨t, ht, htree⟩ := hrec.marker _ _ hr
    refine ⟨?_, .inl ⟨⟨t, ht, htree⟩, hr⟩⟩
    simpa only [listDir, ht, hxp] using hno
  · obtain ⟨⟨h, hh⟩, hmode⟩ := hrec.sidecar _ _ _ hl hr
    refine ⟨?_, .inr ⟨p, l, h, hxp, hl, hh, hmode, hr⟩⟩
    simpa only [listDir, hh, hxp, List.dropLast_concat] using hno

theorem inPlace_of_listed (hs : StubsNamed d.get) (hx : x ∈ stubList d) : InPlace d.get x.1 x.2 := by
  rcases (listed_cases hwf hrec hx).2 with ⟨⟨t, ht, hnamed, htwf⟩, hr⟩ | ⟨a, l, h, hxp, hl, hh, hmode, hr⟩
  · simp only [InPlace, ht]
    exact ⟨hr, hnamed, htwf⟩
  · have hne : d.get (a ++ [l ++ stubSuffix]) ≠ none := by
      intro hnone
      rw [hnone] at hr
      cases hr
    simp only [InPlace, hh]
    exact ⟨⟨a, l, hxp, (hs a l hne).resolve_left hl, DirTree.get_of_append hne⟩, hmode⟩

/-- Two stubs that are listed lie apart. -/
theorem apart_of_listed (hx : x ∈ stubList d) (hy : y ∈ stubList d) (hne : stubPath x ≠ stubPath y) :
    Apart x y := by
  obtain ⟨hnox, hkindx⟩ := listed_cases hwf hrec hx
  obtain ⟨hnoy, hkindy⟩ := listed_cases hwf hrec hy
  rcases hkindx with ⟨⟨t, ht, -⟩, hr⟩ | ⟨a, l, h, hxp, hl, hh, -⟩
  · simp only [Apart, ht]
    refine ⟨fun k r heq => ?_, ?_⟩
    · have hno := hnoy x.1 k r heq
      rw [← dirStubPath, isFile_of_record hr] at hno
      cases hno
    · rcases hkindy with ⟨⟨t', ht', -⟩, hr'⟩ | ⟨a, l, h, hyp, hl, hh, -⟩
      · simp only [ht']
        refine ⟨fun heq => hne (by simp only [stubPath, ht, ht', heq]), fun k r heq => ?_⟩
        have hno := hnox y.1 k r (by simpa only [listDir, ht] using heq)
        rw [← dirStubPath, isFile_of_record hr'] at hno
        cases hno
      · simp only [hh]
  · simp only [Apart, hh]

theorem toExpand_pairwise {scopes named : List Path} : (toExpand cfg scopes named d).Pairwise Apart := by
  have hlist : (stubList d).Pairwise fun x y => stubPath x ≠ stubPath y :=
    collect_pairwise hwf fun p n a x hp hx => by
      rw [List.nil_append] at hx ⊢
      exact stubPath_of_stubAt hrec hp hx
  have hapart : (stubList d).Pairwise Apart :=
    hlist.imp_of_mem fun hx hy hne => apart_of_listed hwf hrec hx hy hne
  exact hapart.filter _

end Listing

/-- A run over stubs that lie apart. -/
theorem expandStubs_keeps {l : List (Path × StubRecord)} (hs : StubsNamed d.get) (hl : l.Pairwise Apart)
    (hready : ∀ x ∈ l, Ready cfg treeHash isIgnored d.get x)
    (hrun : l.forM (fun x => expandStub cfg x.1 x.2) d = .ok ⟨⟩ d') (p : Path) :
    view treeHash isIgnored d'.get [] p = view treeHash isIgnored d.get [] p := by
  induction l generalizing d with
  | nil =>
      cases hrun
      rfl
  | cons x l ih =>
      obtain ⟨⟨⟩, d₁, hx, hrun⟩ := bind_ok hrun
      obtain ⟨hapart, hl⟩ := List.pairwise_cons.mp hl
      obtain ⟨hfirst, hrest⟩ := List.forall_mem_cons.mp hready
      obtain ⟨hview, hs₁, hkeep⟩ := expandStub_step hs hfirst hx
      rw [← hview]
      exact ih hs₁ hl (fun y hy => hkeep y (hapart y hy) (hrest y hy)) hrun

def stubMachine : Machine := ⟨0, fun _ => none, fun _ => 0, fun _ => 0⟩

def upToFour : ExpandConfig := ⟨stubMachine, 4, fun _ _ => false⟩

def srcTree : Tree := .blob "a" ⟨7, none, 1, none⟩ (.blob "b" ⟨9, none, 9, some "755"⟩ .nil)

def srcRecord : StubRecord := treeRecord srcTree ⟨none, 10, 2⟩

def stubbedSrc : Disk := .sub "src" (.leaf dirStubName (stubMachine.stubFile srcRecord) .nil) .nil

/-- The large file stays a stub. -/
def expandedSrc : Disk :=
  .sub "src" (.leaf "a" (stubMachine.file ⟨7, none, 1, none⟩)
    (.leaf ("b" ++ stubSuffix) (stubMachine.stubFile (blobRecord ⟨9, none, 9, some "755"⟩)) .nil)) .nil

theorem stubbedSrc_get {q : Path} (h : stubbedSrc.get q ≠ none) :
    q = [] ∨ q = ["src"] ∨ q = ["src", dirStubName] := by
  cases q with
  | nil => exact .inl rfl
  | cons n q =>
      by_cases hn : n = "src"
      · subst hn
        cases q with
        | nil => exact .inr (.inl rfl)
        | cons m q =>
            have hsrc : stubbedSrc.get ("src" :: m :: q) =
                (DirTree.leaf dirStubName (stubMachine.stubFile srcRecord) .nil).get (m :: q) := rfl
            rw [hsrc] at h
            by_cases hm : m = dirStubName
            · rw [DirTree.get_cons_of_leaf (by rw [DirTree.find?, if_pos hm])] at h
              split_ifs at h with hq
              · exact .inr (.inr (by rw [hm, hq]))
              · exact absurd rfl h
            · exact absurd (DirTree.get_cons_of_none (by rw [DirTree.find?, if_neg hm]; rfl) q) h
      · exact absurd (DirTree.get_cons_of_none (by rw [stubbedSrc, DirTree.find?, if_neg hn]; rfl) q) h

/-- Its only stub file is the marker. -/
theorem stubbedSrc_marker {p : Path} {m : String} (h : stubbedSrc.get (p ++ [m ++ stubSuffix]) ≠ none) :
    m = "" ∧ p = ["src"] := by
  rcases stubbedSrc_get h with h | h | h
  · simp at h
  · have hlast : m ++ stubSuffix = "src" := by simpa using congrArg List.getLast? h
    have hlog : logicalName "src" = some m := by rw [logicalName, stripSuffix_eq_some, hlast]
    have hsrc : ValidName "src" := by decide
    rw [(kept_of_valid hsrc).2] at hlog
    cases hlog
  · have hlast : m ++ stubSuffix = dirStubName := by simpa using congrArg List.getLast? h
    exact ⟨marker_iff.mp hlast, by simpa using congrArg List.dropLast h⟩

theorem stubbedSrc_stubsNamed : StubsNamed stubbedSrc.get := fun _ _ h => .inl (stubbedSrc_marker h).1

theorem srcTree_wellNamed : srcTree.WellNamed := ⟨by decide, by decide, by decide, by decide, trivial⟩

theorem srcTree_wf : srcTree.Wf := ⟨by decide, .inl rfl, by decide, .inr rfl, trivial⟩

theorem stubbedSrc_recordsOk : RecordsOk stubbedSrc.get where
  marker s r h := by
    have hne : stubbedSrc.get (s ++ ["" ++ stubSuffix]) ≠ none := by
      intro hnone
      rw [dirStubPath, ← marker_iff.mpr rfl, hnone] at h
      cases h
    obtain ⟨-, rfl⟩ := stubbedSrc_marker hne
    cases h
    exact ⟨srcTree, rfl, srcTree_wellNamed, srcTree_wf⟩
  sidecar a n r hn h := by
    refine absurd (stubbedSrc_marker (p := a) (m := n) fun hnone => ?_).1 hn
    rw [hnone] at h
    cases h

theorem stubbedSrc_ready : Ready upToFour (fun _ => 0) (fun _ => false) stubbedSrc.get
    (["src"], srcRecord) :=
  .of_untouched rfl rfl rfl srcTree_wellNamed srcTree_wf (fun _ _ _ _ _ => rfl) fun n r hnr => by
    by_contra h
    rcases stubbedSrc_get h with h | h | h
    · simp at h
    · simp at h
    · exact hnr (by simpa using h)

/-- Without a threshold both files are written. -/
def writtenSrc : Disk :=
  .sub "src" (.leaf "a" (stubMachine.file ⟨7, none, 1, none⟩)
    (.leaf "b" (stubMachine.file ⟨9, none, 9, some "755"⟩) .nil)) .nil

end Omemfs.Work
