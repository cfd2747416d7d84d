/-
# Omemfs.Scan.StillScope — what the scan of a still working tree has at one path.

A directory is scanned as a scope as it is on the way (`scan_at_dir`).  Below real directories the view
of a path is that of its own directory (`view_dirs`), and there a name that is not listed is the record
of its stub file; the scan of the whole has read that record, or has failed (`sidecar_of_scan`).
-/
import Omemfs.Scan.ScopedScan
import Omemfs.Scan.Still

namespace Omemfs.Scan

open Lib

variable {d d' : Disk} {p pfx : Path} {n : String}

/-! ## A still disk is quiet -/

theorem wf_of_find? (hd : d.Wf) (h : d.find? n = some (.sub d')) : d'.Wf := by
  induction d with
  | nil => cases h
  | leaf m a rest ih =>
      rw [DirTree.find?] at h
      split_ifs at h
      · cases h
      · exact ih hd.2 h
  | sub m s rest _ ih =>
      rw [DirTree.find?] at h
      split_ifs at h
      · cases h
        exact hd.2.1
      · exact ih hd.2.2 h

theorem wf_of_at (hd : d.Wf) (h : d.at p = some (.sub d')) : d'.Wf := by
  induction p generalizing d with
  | nil =>
      cases h
      exact hd
  | cons n p ih =>
      obtain ⟨x, hx, h⟩ := Option.bind_eq_some_iff.mp h
      cases x with
      | leaf a => cases p <;> cases h
      | sub s => exact ih (wf_of_find? hd hx) h

theorem nodup_names (hd : d.Wf) : d.names.Nodup := by
  induction d with
  | nil => exact List.nodup_nil
  | leaf m a rest ih => exact List.nodup_cons.mpr ⟨hd.1, ih hd.2⟩
  | sub m s rest _ ih => exact List.nodup_cons.mpr ⟨hd.1, ih hd.2.2⟩

theorem quiet_still (hd : d.Wf) : (stillCalls d).Quiet (observe d) where
  opens := ⟨by rintro ⟨⟩, by rintro ⟨⟩⟩
  lists _ := rfl
  relist := by rw [names_observe]; rfl
  nodup := by rw [names_observe]; exact nodup_names hd
  there := stillThere_still
  lookAgain n hn := by
    rw [names_observe, ← DirTree.find?_eq_none_iff] at hn
    show answer (d.find? n) _ = _
    rw [hn]
    rfl

/-! ## A directory on the way -/

section Scan

variable {cfg : ScanConfig}

theorem ne_marker (hn : ValidName n) : n ≠ dirStubName := by
  rintro rfl
  exact absurd hn (by decide)

/-- A path that is there begins with a listed name. -/
theorem mem_names_of_at {x : Item String DiskLeaf} (h : d.at (n :: p) = some x) : n ∈ d.names := by
  by_contra hno
  rw [DirTree.at_cons, DirTree.find?_eq_none_iff.mpr hno] at h
  cases h

theorem find?_observe_sub (h : d.find? n = some (.sub d')) :
    (observe d).find? n = some ⟨.dir, nameObs (.sub d'), stillCalls d', observe d'⟩ := by
  rw [find?_observe, h]
  rfl

/-- A directory that lists more than its marker is scanned into its parent's tree. -/
theorem subdir_scanned (hstrict : cfg.tolerateUnresolvedStubs = false) {path : Path} {c : SubScan} (hn : n ≠ dirStubName) (hmem : n ∈ d.names)
    (h : scanSubdir cfg path (stillCalls d)
      (scanDir cfg true path (stillCalls d)
        (listed cfg path (observe d))) = .ok c) :
    ∃ s t m, scanDir cfg true path (stillCalls d)
        (listed cfg path (observe d)) = .ok s ∧
      s.vanished = false ∧ c.entry = some (.tree t m) ∧
      ∀ k q e, s.tree.at (k :: q) = some e → t.at (k :: q) = some e := by
  cases scanSubdir_cases h with
  | gone hopen => simp [stillCalls] at hopen
  | vanished hopen hstub hs hv =>
      rw [vanished_still hs] at hv
      cases hv
  | full hopen hstub =>
      rcases classifyDirStub_still hstub with ⟨hk, -⟩ | ⟨t, m, -, ⟨-, hnames⟩ | hk⟩
      · cases hk
      · exact absurd (hnames n hmem) hn
      · cases hk
  | plain hopen hstub hs hv => exact ⟨_, _, _, hs, hv, rfl, fun _ _ _ he => he⟩
  | merged hopen hstub hs hv hload =>
      exact ⟨_, _, _, hs, hv, rfl, fun _ _ _ he => mergePartialExpansion_at he⟩
  | unresolved hopen hstub hs hv hload htol =>
      rw [hstrict] at htol
      cases htol

/-- The directory is scanned, and its entry stands at its path. -/
theorem dir_scanned (hstrict : cfg.tolerateUnresolvedStubs = false) (hp : p ≠ []) (hat : d.at p = some (.sub d')) (hnames : ∀ n ∈ p, ValidName n)
    (hign : ∀ a, a ≠ [] → a <+: p → cfg.isIgnored (pfx ++ a) = false) {rechecked : Bool} {s : DirScan}
    (h : scanDir cfg rechecked pfx (stillCalls d)
      (listed cfg pfx (observe d)) = .ok s)
    (hv : s.vanished = false) :
    ∃ c, scanSubdir cfg (pfx ++ p) (stillCalls d')
        (scanDir cfg true (pfx ++ p) (stillCalls d')
          (listed cfg (pfx ++ p) (observe d'))) = .ok c ∧
      ∀ e, c.entry = some e → s.tree.at p = some e := by
  induction p generalizing d pfx rechecked s with
  | nil => exact absurd rfl hp
  | cons n p ih =>
      have hn := kept_of_valid (hnames n (List.mem_cons_self ..))
      have hi : cfg.isIgnored (pfx ++ [n]) = false := hign [n] (by simp) (by simp)
      obtain ⟨x, hfind, hat⟩ := Option.bind_eq_some_iff.mp hat
      cases p with
      | nil =>
          obtain rfl : x = .sub d' := by simpa [Item.at_nil] using hat
          obtain ⟨c, hc, hentry, -⟩ := level_of_name h hv (find?_observe_sub hfind) rfl hn hi
          refine ⟨c, hc, fun e he => ?_⟩
          rw [Tree.at_singleton]
          exact hentry e he
      | cons m p =>
          cases x with
          | leaf a => cases hat
          | sub d₁ =>
              have hat : d₁.at (m :: p) = some (.sub d') := hat
              obtain ⟨c, hc, hentry, -⟩ := level_of_name h hv (find?_observe_sub hfind) rfl hn hi
              have hm : m ≠ dirStubName := ne_marker (hnames m (by simp))
              obtain ⟨s', t, k, hs', hv', htree, hbelow⟩ := subdir_scanned hstrict hm (mem_names_of_at hat) hc
              have hassoc : ∀ q, pfx ++ n :: q = pfx ++ [n] ++ q := by simp
              obtain ⟨c', hc', hentry'⟩ := ih (List.cons_ne_nil m p) hat
                (fun k hk => hnames k (List.mem_cons_of_mem _ hk))
                (fun a ha hpre => hassoc a ▸ hign (n :: a) (by simp) (by simpa using hpre)) hs' hv'
              refine ⟨c', hassoc (m :: p) ▸ hc', fun e he => ?_⟩
              rw [Tree.at_cons, hentry _ htree]
              exact hbelow m p e (hentry' e he)

/-- As a scope the directory has the tree that it adds to its parent. -/
theorem scope_of_subdir (hd : d'.Wf) (hp : p ≠ []) {c : SubScan}
    (h : scanSubdir cfg p (stillCalls d')
      (scanDir cfg true p (stillCalls d')
        (listed cfg p (observe d'))) = .ok c) :
    ∃ r m, scanImpl cfg p (stillCalls d') (observe d') = .ok r ∧
      c.entry = some (.tree r.root m) := by
  obtain ⟨r, m, hr, hentry, -⟩ := scoped_of_subdir (f := ⟨.dir, nameObs (.sub d'), stillCalls d',
    observe d'⟩) hp (quiet_still hd) h
  exact ⟨r, m, hr, hentry⟩

/-- A root whose listing has a valid name is not replaced by its marker's tree. -/
theorem reads_root (hstrict : cfg.tolerateUnresolvedStubs = false) {r : ScanResult} (hn : ValidName n) (hmem : n ∈ d.names)
    (h : scanImpl cfg [] (stillCalls d) (observe d) = .ok r) :
    ∃ s, scanDir cfg false [] (stillCalls d)
        (listed cfg [] (observe d)) = .ok s ∧ s.vanished = false ∧
      ∀ a, a ≠ [] → ∀ e, s.tree.at a = some e → r.root.at a = some e := by
  obtain ⟨-, -, h⟩ := bind_eq_ok.mp h
  obtain ⟨s, hs, h⟩ := bind_eq_ok.mp h
  have hs : scanDir cfg false [] (stillCalls d)
      (listed cfg [] (observe d)) = .ok s := hs
  have hv : s.vanished = false := vanished_still hs
  refine ⟨s, hs, hv, ?_⟩
  have hfinish : finishScan cfg [] (stillCalls d) s = .ok r := h
  refine (finishScan_ok hfinish ?_).1
  rw [finishScan, hv, if_neg Bool.false_ne_true] at hfinish
  obtain ⟨⟨k, stubs⟩, hk, hfinish⟩ := bind_eq_ok.mp hfinish
  rw [readsDisk, hk]
  rcases classifyDirStub_still hk with ⟨rfl, -⟩ | ⟨t, m, -, ⟨-, hnames⟩ | rfl⟩
  · rfl
  · exact absurd (hnames n hmem) (ne_marker hn)
  · show (cfg.loadRecorded t).isOk = true
    cases hl : cfg.loadRecorded t with
    | ok u => rfl
    | error e =>
        simp only [hl, hstrict, Bool.false_eq_true, if_false] at hfinish
        cases e <;> cases hfinish

/-- **`scan_at_dir`** — a directory is scanned as a scope as it is on the way. -/
theorem scan_at_dir (hstrict : cfg.tolerateUnresolvedStubs = false) (hp : p ≠ []) (hd : d.Wf) (hat : d.at p = some (.sub d'))
    (hnames : ∀ n ∈ p, ValidName n) (hign : ∀ a, a ≠ [] → a <+: p → cfg.isIgnored a = false)
    {r : ScanResult}
    (h : scanImpl cfg [] (stillCalls d) (observe d) = .ok r) :
    ∃ r' m, scanImpl cfg p (stillCalls d') (observe d') = .ok r' ∧
      r.root.at p = some (.tree r'.root m) := by
  obtain ⟨n, q, rfl⟩ := List.exists_cons_of_ne_nil hp
  obtain ⟨s, hs, hv, hroot⟩ :=
    reads_root hstrict (hnames n (List.mem_cons_self ..)) (mem_names_of_at hat) h
  obtain ⟨c, hc, hentry⟩ := @dir_scanned d d' (n :: q) [] cfg hstrict hp hat hnames hign _ _ hs hv
  obtain ⟨r', m, hr', hc'⟩ := scope_of_subdir (wf_of_at hd hat) hp hc
  exact ⟨r', m, hr', hroot _ hp _ (hentry _ hc')⟩

/-- A scanned level has read the stub file of a name that is not listed. -/
theorem sidecar_of_level {rechecked : Bool} {s : DirScan} (hn : ValidName n)
    (hi : cfg.isIgnored (pfx ++ [n]) = false) (hgone : d.find? n = none)
    (hside : d.find? (n ++ stubSuffix) ≠ none)
    (h : scanDir cfg rechecked pfx (stillCalls d) (listed cfg pfx (observe d)) = .ok s) :
    recordIn ((d.find? (n ++ stubSuffix)).map Item.kind) ≠ none := by
  obtain ⟨scans, -, hscans, -⟩ := scanDir_ok h
  have hne : n ≠ "" := (validName_iff.mp hn).1.1
  have hmem : (n, none) ∈ namesOf cfg pfx d :=
    mem_namesOf.mpr ⟨.inr hgone, hne, sidecar_kept hn, hside⟩
  obtain ⟨z, -, hyields⟩ := exists_scan hscans hmem
  obtain ⟨x, hx⟩ := Option.ne_none_iff_exists'.mp hside
  have hfind := find?_kept_observe cfg pfx d (n ++ stubSuffix)
  rw [sidecar_kept hn, if_neg Bool.false_ne_true, hx] at hfind
  obtain ⟨r, hr, -⟩ := yields_stub hi hfind hyields
  rw [hx, Option.map_some, record_of_readStub x (by cases x <;> exact hr)]
  exact Option.some_ne_none r

/-- **`sidecar_of_scan`** — the scan of the whole has read the stub file of a missing path. -/
theorem sidecar_of_scan (hstrict : cfg.tolerateUnresolvedStubs = false)
    (hnames : ∀ m ∈ p ++ [n], ValidName m)
    (hign : ∀ a, a ≠ [] → a <+: p ++ [n] → cfg.isIgnored a = false) {r : ScanResult}
    (h : scanImpl cfg [] (stillCalls d) (observe d) = .ok r) (hgone : d.get (p ++ [n]) = none)
    (hside : d.get (p ++ [n ++ stubSuffix]) ≠ none) :
    recordIn (d.get (p ++ [n ++ stubSuffix])) ≠ none := by
  have hdir : d.get p = some .dir := by
    by_contra hnot
    exact hside (DirTree.get_append_of_not_dir hnot _ [])
  obtain ⟨d', hat⟩ := DirTree.get_eq_dir_iff.mp hdir
  have hfind : ∀ m, d.get (p ++ [m]) = (d'.find? m).map Item.kind := fun m => by
    rw [DirTree.get, DirTree.at_append, hat]
    show (d'.at [m]).map Item.kind = _
    rw [DirTree.at_singleton]
  rw [hfind] at hgone hside ⊢
  have hgone : d'.find? n = none := Option.map_eq_none_iff.mp hgone
  have hside : d'.find? (n ++ stubSuffix) ≠ none := fun hno => hside (by rw [hno]; rfl)
  have hn : ValidName n := hnames n (by simp)
  have hi : cfg.isIgnored (p ++ [n]) = false := hign _ (by simp) (List.prefix_refl _)
  cases p with
  | nil =>
      cases hat
      obtain ⟨-, -, h⟩ := bind_eq_ok.mp h
      obtain ⟨s, hs, -⟩ := bind_eq_ok.mp h
      exact sidecar_of_level hn hi hgone hside hs
  | cons m q =>
      have hvalid : ∀ k ∈ m :: q, ValidName k := fun k hk => hnames k (List.mem_append_left _ hk)
      have habove : ∀ a, a ≠ [] → a <+: m :: q → cfg.isIgnored ([] ++ a) = false := fun a ha hpre =>
        hign a ha (hpre.trans (List.prefix_append _ _))
      obtain ⟨s, hs, hv, -⟩ :=
        reads_root hstrict (hvalid m (List.mem_cons_self ..)) (mem_names_of_at hat) h
      obtain ⟨c, hc, -⟩ := dir_scanned hstrict (List.cons_ne_nil m q) hat hvalid habove hs hv
      have hmarker : n ++ stubSuffix ≠ dirStubName := fun heq =>
        (validName_iff.mp hn).1.1 (marker_iff.mp heq)
      have hlisted : n ++ stubSuffix ∈ d'.names := by
        by_contra hno
        exact hside (DirTree.find?_eq_none_iff.mpr hno)
      obtain ⟨s', -, -, hs', -⟩ := subdir_scanned hstrict hmarker hlisted hc
      exact sidecar_of_level hn hi hgone hside hs'

/-- A scope with nothing but its marker is the tree of the marker, if that is a file. -/
theorem scope_of_marker (hd : d.Wf) (hnames : ∀ n ∈ d.names, n = dirStubName)
    {r : ScanResult}
    (h : scanImpl cfg p (stillCalls d) (observe d) = .ok r) :
    r.root = (markerTree d.get []).getD .nil := by
  obtain ⟨-, -, h⟩ := bind_eq_ok.mp h
  obtain ⟨s, hs, h⟩ := bind_eq_ok.mp h
  have hempty : scanDir cfg (decide (p ≠ [])) p (stillCalls d) (listed cfg p (observe d)) =
      .ok ⟨.nil, [], .empty, false⟩ := scanDir_of_marker rfl (quiet_still hd) (by rwa [names_observe])
  cases hempty.symm.trans hs
  have hfinish : finishScan cfg p (stillCalls d)
      ⟨.nil, [], .empty, false⟩ = .ok r := h
  rw [finishScan, if_neg Bool.false_ne_true] at hfinish
  obtain ⟨⟨k, stubs⟩, hk, hfinish⟩ := bind_eq_ok.mp hfinish
  rcases classifyDirStub_still hk with ⟨rfl, hm⟩ | ⟨t, m, hm, ⟨rfl, -⟩ | rfl⟩
  · cases hfinish
    rw [hm]
    rfl
  · cases hfinish
    rw [hm]
    rfl
  · -- nothing is listed beside the marker
    exfalso
    rcases (classifyDirStub_ok hk).2 with hk | ⟨_, t', real, -, -, hreal, hk⟩
    · cases hk
    · have hany : real = d.names.any (fun n => decide (n ≠ dirStubName)) :=
        (Except.ok.inj hreal).symm
      have hno : real = false := by
        rw [hany]
        simpa using hnames
      rw [hno] at hk
      cases hk

end Scan

/-! ## The view of a path -/

section View

variable {isIgnored : Path → Bool} {treeHash : Tree → Hash} {g : Lstat}

theorem ownNode_of_dir (hn : ValidName n) (hi : isIgnored (pfx ++ [n]) = false)
    (h : g (pfx ++ [n]) = some .dir) : ownNode treeHash isIgnored g pfx n = some .dir := by
  obtain ⟨hx, hl⟩ := kept_of_valid hn
  simp only [ownNode, hi, hx, h, hl, Bool.false_eq_true, if_false, if_true]
  rfl

theorem ownNode_of_leaf (hn : ValidName n) (hi : isIgnored (pfx ++ [n]) = false) {a : DiskLeaf}
    (h : g (pfx ++ [n]) = some (.leaf a)) :
    ownNode treeHash isIgnored g pfx n = kindNode (.leaf a) := by
  obtain ⟨hx, hl⟩ := kept_of_valid hn
  simp only [ownNode, hi, hx, h, hl, Bool.false_eq_true, if_false, if_true]

theorem ownNode_of_missing (hn : ValidName n) (hi : isIgnored (pfx ++ [n]) = false)
    (h : g (pfx ++ [n]) = none) : ownNode treeHash isIgnored g pfx n =
      (recordIn (g (pfx ++ [n ++ stubSuffix]))).map fun r => entryNode (.blob (r.blob treeHash)) := by
  have hne : n ≠ "" := (validName_iff.mp hn).1.1
  have hstub : fileStub g pfx n = recordIn (g (pfx ++ [n ++ stubSuffix])) := by
    unfold fileStub
    rw [if_neg (by simp [sidecar_kept hn, hne])]
  simp only [ownNode, hi, h, hstub, ite_self, Bool.false_eq_true, if_false]

/-- Below real directories the view is that of the last of them. -/
theorem view_dirs {a : Path} (hnames : ∀ n ∈ a, ValidName n)
    (hign : ∀ b, b ≠ [] → b <+: a → isIgnored (pfx ++ b) = false)
    (hdir : ∀ b, b ≠ [] → b <+: a → g (pfx ++ b) = some .dir) (q : Path) :
    view treeHash isIgnored g pfx (a ++ q) = view treeHash isIgnored g (pfx ++ a) q := by
  induction a generalizing pfx with
  | nil => rw [List.nil_append, List.append_nil]
  | cons n a ih =>
      have hassoc : ∀ b, pfx ++ n :: b = pfx ++ [n] ++ b := by simp
      have hown : ownNode treeHash isIgnored g pfx n = some .dir :=
        ownNode_of_dir (hnames n (List.mem_cons_self ..)) (hign [n] (by simp) (by simp))
          (hdir [n] (by simp) (by simp))
      rw [List.cons_append, view, hown, hassoc a]
      exact ih (fun k hk => hnames k (List.mem_cons_of_mem _ hk))
        (fun b hb hpre => hassoc b ▸ hign (n :: b) (by simp) (by simpa using hpre))
        (fun b hb hpre => hassoc b ▸ hdir (n :: b) (by simp) (by simpa using hpre))

/-- A name with nothing of its own: what the marker of its directory has there. -/
theorem view_of_none {q : Path} (h : ownNode treeHash isIgnored g pfx n = none) :
    view treeHash isIgnored g pfx (n :: q) =
      (markerTree g pfx).bind fun t => (t.at (n :: q)).map entryNode := by
  rw [view, h]

theorem view_of_node {x : Node} (h : ownNode treeHash isIgnored g pfx n = some x) :
    view treeHash isIgnored g pfx [n] = some x := by
  rw [view, h]
  cases x <;> rfl

/-- Nothing is recorded below a file or symlink. -/
theorem view_below_leaf {m : String} {q : Path} {x : Node} (hx : x ≠ .dir)
    (h : ownNode treeHash isIgnored g pfx n = some x) :
    view treeHash isIgnored g pfx (n :: m :: q) = none := by
  rw [view, h]
  cases x with
  | dir => exact absurd rfl hx
  | blob hash mode => rfl
  | symlink target => rfl

end View

/-- What a directory has of its own under a name is what the scan has there. -/
theorem own_entry {cfg : ScanConfig} (hcfg : Informed cfg d.get) {r : ScanResult}
    (h : scanImpl cfg [] (stillCalls d) (observe d) = .ok r) {q : Path}
    (hnames : ∀ m ∈ q ++ [n], ValidName m)
    (hign : ∀ a, a ≠ [] → a <+: q ++ [n] → cfg.isIgnored a = false) (hdir : d.get q = some .dir)
    {x : Node} (hown : ownNode cfg.treeHash cfg.isIgnored d.get q n = some x) :
    (r.root.at (q ++ [n])).map entryNode = some x := by
  rw [scan_view hcfg (fun _ => rfl) h, @view_dirs [] _ _ d.get q
    (fun k hk => hnames k (List.mem_append_left _ hk))
    (fun b hb hbq => hign b hb (hbq.trans (List.prefix_append _ _)))
    (fun b _ hbq => DirTree.dir_of_prefix hdir hbq)]
  exact view_of_node hown

/-! ## A path that a scan does not see -/

/-- The last directory above a path that is not itself one. -/
theorem exists_last_dir (hp : d.get p ≠ some .dir) : ∃ a m rest, p = a ++ m :: rest ∧
    d.get a = some .dir ∧ d.get (a ++ [m]) ≠ some .dir := by
  induction p generalizing d with
  | nil => exact absurd rfl hp
  | cons n p ih =>
      by_cases hn : ∃ s, d.find? n = some (.sub s)
      · obtain ⟨s, hs⟩ := hn
        rw [DirTree.get_cons_of_sub hs] at hp
        obtain ⟨a, m, rest, rfl, ha, hm⟩ := ih hp
        refine ⟨n :: a, m, rest, rfl, ?_, ?_⟩
        · rwa [DirTree.get_cons_of_sub hs]
        · rwa [List.cons_append, DirTree.get_cons_of_sub hs]
      · refine ⟨[], n, p, rfl, rfl, fun hdir => hn ?_⟩
        obtain ⟨s, hs⟩ := DirTree.get_eq_dir_iff.mp hdir
        exact ⟨s, by rwa [List.nil_append, DirTree.at_singleton] at hs⟩

/-- What the marker of the working directory records at a path that the directory itself has nothing
of: neither an entry nor a stub file, or no more than a special file. -/
def markerEntry (d : Disk) : Path → Option TreeEntry
  | [] => none
  | n :: q =>
      if (d.get [n] = none ∧ d.get [n ++ stubSuffix] = none) ∨
          (d.get [n] = some (.leaf .special) ∧ q = []) then
        (markerTree d.get []).bind fun t => t.at (n :: q)
      else none

theorem markerEntry_of_dir {a q : Path} (ha : a ≠ []) (h : d.get a = some .dir) :
    markerEntry d (a ++ q) = none := by
  obtain ⟨n, a, rfl⟩ := List.exists_cons_of_ne_nil ha
  have hn : d.get [n] = some .dir := DirTree.dir_of_prefix h (by simp)
  rw [List.cons_append, markerEntry, hn, if_neg (by simp)]

/-- Of a name that is nothing to the working directory the scan has what its marker has. -/
theorem root_of_none {cfg : ScanConfig} (hcfg : Informed cfg d.get) {r : ScanResult}
    (h : scanImpl cfg [] (stillCalls d) (observe d) = .ok r) (q : Path)
    (hown : ownNode cfg.treeHash cfg.isIgnored d.get [] n = none) :
    r.root.at (n :: q) = (markerTree d.get []).bind fun t => t.at (n :: q) := by
  have hfind := RecordedAs.find? hcfg (fun _ => rfl) (recordedAs_of_scan hcfg.strict h) n
  rw [hown] at hfind
  rcases hfind with ⟨-, hfind⟩ | ⟨e, -, hsome, -⟩
  · rw [Tree.at_cons, hfind]
    cases markerTree d.get [] with
    | none => rfl
    | some t => rw [Option.bind_some, Option.bind_some, Tree.at_cons]
  · cases hsome

/-- **`unseen_entry`** — of a path with nothing of its own, below directories without markers, the scan
has what the marker of the working directory has. -/
theorem unseen_entry {cfg : ScanConfig} (hcfg : Informed cfg d.get) {r : ScanResult}
    (h : scanImpl cfg [] (stillCalls d) (observe d) = .ok r) {q : Path}
    (hnames : ∀ m ∈ q ++ [n], ValidName m)
    (hign : ∀ a, a ≠ [] → a <+: q ++ [n] → cfg.isIgnored a = false)
    (habove : ∀ a, a ≠ [] → a <+: q → (∀ x, d.get a ≠ some (.leaf x)) ∧ markerTree d.get a = none)
    (hseen : d.get (q ++ [n]) = none ∧ d.get (q ++ [n ++ stubSuffix]) = none ∨
      d.get (q ++ [n]) = some (.leaf .special)) :
    r.root.at (q ++ [n]) = markerEntry d (q ++ [n]) := by
  have hview := scan_view hcfg (fun _ => rfl) h (q ++ [n])
  have hnot : d.get (q ++ [n]) ≠ some .dir := by
    rcases hseen with ⟨hnone, -⟩ | hspecial
    · rw [hnone]
      rintro ⟨⟩
    · rw [hspecial]
      rintro ⟨⟩
  obtain ⟨a, m, rest, heq, hdir, hm⟩ := exists_last_dir hnot
  have hpre : a ++ [m] <+: q ++ [n] := by
    rw [heq]
    exact ⟨rest, by simp⟩
  have hvalid : ∀ k ∈ a ++ [m], ValidName k := fun k hk => hnames k (hpre.subset hk)
  have hign' : ∀ b, b ≠ [] → b <+: a ++ [m] → cfg.isIgnored b = false := fun b hb hbm =>
    hign b hb (hbm.trans hpre)
  have hmarker : a ≠ [] → markerTree d.get a = none := fun ha => by
    refine (habove a ha ?_).2
    rcases List.prefix_concat_iff.mp ((List.prefix_append a [m]).trans hpre) with hfull | haq
    · rw [hfull] at hdir
      exact absurd hdir hnot
    · exact haq
  have hgone : ∀ k rest', rest = k :: rest' → d.get (a ++ [m]) = none := by
    rintro k rest' rfl
    have hq : a ++ [m] <+: q := by
      rcases List.prefix_concat_iff.mp hpre with hfull | hq
      · rw [heq] at hfull
        simp at hfull
      · exact hq
    cases hk : d.get (a ++ [m]) with
    | none => rfl
    | some x =>
        cases x with
        | dir => exact absurd hk hm
        | leaf x => exact absurd hk ((habove _ (by simp) hq).1 x)
  have hdirs : view cfg.treeHash cfg.isIgnored d.get [] (q ++ [n]) =
      view cfg.treeHash cfg.isIgnored d.get a (m :: rest) := by
    rw [heq]
    exact @view_dirs [] _ _ d.get a (fun k hk => hvalid k (List.mem_append_left _ hk))
      (fun b hb hba => hign' b hb (hba.trans (List.prefix_append _ _)))
      (fun b _ hba => DirTree.dir_of_prefix hdir hba) _
  have hvm : ValidName m := hvalid m (by simp)
  have him : cfg.isIgnored (a ++ [m]) = false := hign' _ (by simp) (List.prefix_refl _)
  have hnone : view cfg.treeHash cfg.isIgnored d.get a (m :: rest) = none →
      r.root.at (q ++ [n]) = none := fun hv => by
    rw [hdirs, hv] at hview
    exact Option.map_eq_none_iff.mp hview
  by_cases hside : d.get (a ++ [m]) = none ∧ d.get (a ++ [m ++ stubSuffix]) ≠ none
  · -- below the name of a stub file
    obtain ⟨hmissing, hside⟩ := hside
    have hrecord := sidecar_of_scan hcfg.strict hvalid hign' h hmissing hside
    obtain ⟨k, rest, rfl⟩ : ∃ k rest', rest = k :: rest' := by
      cases rest with
      | cons k rest => exact ⟨k, rest, rfl⟩
      | nil =>
          obtain ⟨rfl, hmn⟩ := List.append_inj' heq rfl
          cases hmn
          rcases hseen with ⟨-, hno⟩ | hspecial
          · exact absurd hno hside
          · rw [hmissing] at hspecial
            cases hspecial
    obtain ⟨rec, hrec⟩ := Option.ne_none_iff_exists'.mp hrecord
    have hown : ownNode cfg.treeHash cfg.isIgnored d.get a m =
        some (entryNode (.blob (rec.blob cfg.treeHash))) := by
      rw [ownNode_of_missing hvm him hmissing, hrec]
      rfl
    rw [hnone (view_below_leaf (by rintro ⟨⟩) hown), heq]
    cases a with
    | nil =>
        rw [List.nil_append, markerEntry, if_neg]
        rintro (⟨-, hno⟩ | ⟨-, hno⟩)
        · exact hside hno
        · cases hno
    | cons b a => rw [markerEntry_of_dir (List.cons_ne_nil b a) hdir]
  · have hown : ownNode cfg.treeHash cfg.isIgnored d.get a m = none := by
      cases hk : d.get (a ++ [m]) with
      | none =>
          have hno : d.get (a ++ [m ++ stubSuffix]) = none := not_not.mp fun hne => hside ⟨hk, hne⟩
          rw [ownNode_of_missing hvm him hk, hno]
          rfl
      | some x =>
          have hrest : rest = [] := by
            cases rest with
            | nil => rfl
            | cons k rest =>
                rw [hgone k rest rfl] at hk
                cases hk
          subst hrest
          rw [heq, hk] at hseen
          rcases hseen with ⟨hno, -⟩ | hspecial
          · cases hno
          · cases hspecial
            exact ownNode_of_leaf hvm him hk
    cases a with
    | nil =>
        rw [heq, List.nil_append, root_of_none hcfg h rest hown, markerEntry, if_pos]
        cases hk : d.get [m] with
        | none => exact .inl ⟨rfl, not_not.mp fun hne => hside ⟨hk, hne⟩⟩
        | some x =>
            have hrest : rest = [] := by
              cases rest with
              | nil => rfl
              | cons k rest => cases (hgone k rest rfl).symm.trans hk
            subst hrest
            rw [heq, List.nil_append, hk] at hseen
            rcases hseen with ⟨hno, -⟩ | hspecial
            · cases hno
            · exact .inr ⟨hspecial, rfl⟩
    | cons b a =>
        have hno := hmarker (List.cons_ne_nil b a)
        rw [hnone (by rw [view_of_none hown, hno]; rfl), heq,
          markerEntry_of_dir (List.cons_ne_nil b a) hdir]

end Omemfs.Scan
