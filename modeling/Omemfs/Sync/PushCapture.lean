/-
# Omemfs.Sync.PushCapture — what a push of one path takes the path for.

The push looks at the path by itself.  It asks first whether the path is a stub, by calls that follow
symlinks, then whether a marker stands above it, and then takes what `lstat` finds there.  The scan of
the whole working tree decides the same from listings, and follows nothing.

`scoped_push_iff` says where the two differ: a symlink that leads to a stub, a marker that is itself a
symlink, a stub file with the record of a directory or with none that can be read, a special file, and
what only the marker of the working directory records.
-/
import Omemfs.Scan.StillScope
import Omemfs.Sync.CheckedApply
import Omemfs.Sync.ScopedPush

namespace Omemfs.Sync.Push

open Omemfs Lib Scan
open Omemfs.Sync.Checked (NoLinkAbove fileStubPath dirStubPath ancestors isFile)

/-! ## Looking at a path -/

/-- What the calls that follow symlinks find, at a path and in a directory.  What lies behind a symlink
can be anything. -/
structure Following (d : Disk) where
  stat : Path → Option (Kind DiskLeaf)
  list : Path → List String
  /-- the errors of a scan that count as a path in use -/
  isLivePathRace : ScanError → Bool
  stat_eq : ∀ p, NoLinkAbove d p → (∀ target m, d.get p ≠ some (.leaf (.symlink target m))) →
    stat p = d.get p
  list_eq : ∀ p s, d.at p = some (.sub s) → list p = s.names

/-- `fsguard::lstat_path`: nothing above the path is followed. -/
def lstatPath (d : Disk) (p : Path) : Except Error (Option (Item String DiskLeaf)) :=
  match (ancestors p).find? fun a => (d.get a).any fun k => k ≠ .dir with
  | some a => .error (.symlinkEscape ("/".intercalate a))
  | none => .ok (d.at p)

section Capture

variable {d : Disk} (F : Following d)

/-- `<p>.omemfs-stub` in the place of a file that is not there. -/
def fileStubEntry (p : Path) : Option TreeEntry :=
  if F.stat p = none then
    (recordIn (F.stat (fileStubPath p))).bind fun r =>
      match r.target with
      | .blob hash => some (.blob ⟨hash, r.mtime, r.size, r.mode⟩)
      | .tree _ => none
  else none

/-- A directory with nothing but its marker. -/
def dirStubEntry (p : Path) : Option TreeEntry :=
  if F.stat p = some .dir ∧ ∀ n ∈ F.list p, n = dirStubName then
    (recordIn (F.stat (dirStubPath p))).bind fun r =>
      match r.target with
      | .tree t => some (.tree t r.meta')
      | .blob _ => none
  else none

def resolveScopedStub (p : Path) : Option TreeEntry := (fileStubEntry F p).or (dirStubEntry F p)

/-- `stub::read_dir_stub`. -/
def readDirStub (p : Path) : Except Error (Option StubRecord) :=
  match F.stat (dirStubPath p) with
  | none => .ok none
  | some (.leaf (.file c _)) =>
      match c.record with
      | some r => .ok (some r)
      | none => .error (.other "malformed stub record")
  | some _ => .error (.io "not a file")

/-- `stub::deepest_ancestor_stub`, given what lies above the path. -/
def deepestAncestorStub : List Path → Except Error (Option (Path × StubRecord))
  | [] => .ok none
  | a :: above => readDirStub F a >>= fun r =>
      match r with
      | some r => .ok (some (a, r))
      | none => deepestAncestorStub above

def ancestorIsStubbed (p : Path) : String :=
  "cannot push '" ++ "/".intercalate p ++
    "': an ancestor directory is stubbed (its content is deferred, not confirmed absent)\n" ++
    "Run 'omemfs expand' on the stubbed ancestor first, or push the stubbed directory itself."

/-- What `lstat` finds is captured, with the conflict helper files of the scan; nothing of a path in
use. -/
def captureObserved (cfg : ScanConfig) (p : Path) :
    Option (Item String DiskLeaf) → Except Error (Option (Capture × List Path))
  | none => .ok (some (.delete, []))
  | some (.sub s) =>
      match scanImpl cfg p (stillCalls s) (observe s) with
      | .ok r => .ok (some (.dir r.root, r.side.conflictPaths))
      | .error e => if F.isLivePathRace e then .ok none else .error (.other "scan failed")
  | some (.leaf (.symlink target mtime)) =>
      .ok (some (.entry (.symlink ⟨target, systemTimeToDatetime mtime⟩), []))
  | some (.leaf (.file c stat)) =>
      .ok (some (.entry (.blob ⟨c.hash, stat.mtime, stat.size, stat.mode⟩), []))
  -- a special file cannot be opened as a file: it counts as replaced under the push
  | some (.leaf .special) => .ok none

def capturePath (cfg : ScanConfig) (p : Path) : Except Error (Option (Capture × List Path)) :=
  lstatPath d p >>= fun _ =>
  match resolveScopedStub F p with
  | some e => .ok (some (.stub e, []))
  | none =>
      deepestAncestorStub F (ancestors p) >>= fun above =>
      if above.isSome then .error (.other (ancestorIsStubbed p))
      else lstatPath d p >>= captureObserved F cfg p

def isScopedPathIgnored (isIgnored : Path → Bool) (p : Path) : Bool :=
  p.inits.any fun a => decide (a ≠ []) && isIgnored a

/-- `push_scoped` of one path, where the remote root is `clone_root`. -/
def pushPath (cfg : ScanConfig) (base : Option Tree) (p : Path) :
    Except Error (Option (Tree × Tree)) :=
  if isScopedPathIgnored cfg.isIgnored p then
    .error (.other ("cannot push ignored path: " ++ "/".intercalate p))
  else
    capturePath F cfg p >>= fun captured =>
    match captured with
    | none => .ok none
    | some (c, conflicts) =>
        isUnchanged base ⟨p, c⟩ >>= fun _ =>
        if conflicts = [] then pushScoped base base [⟨p, c⟩]
        else .error (.other "unresolved conflicts")

end Capture

/-- The remote root after the push. -/
def published (base : Option Tree) : Option (Tree × Tree) → Tree
  | none => base.getD .nil
  | some (t, _) => t

/-! ## Entries that match -/

/-- What a comparison of entries looks at. -/
def entryValue : TreeEntry → LeafValue ⊕ Tree
  | .blob b => .inl (.blob b.hash b.mode)
  | .tree t _ => .inr t
  | .symlink l => .inl (.symlink l.target)

theorem treeEntriesEqual_iff {a b : TreeEntry} :
    treeEntriesEqual a b = true ↔ entryValue a = entryValue b := by
  cases a <;> cases b <;> simp [treeEntriesEqual, entryValue]

theorem entriesMatch_iff {a b : Option TreeEntry} :
    entriesMatch a b = true ↔ a.map entryValue = b.map entryValue := by
  cases a <;> cases b <;> simp [entriesMatch, treeEntriesEqual_iff]

theorem sameHash_tree {e : TreeEntry} {t : Tree} {m : TreeMeta} (h : sameHash e (.tree t m) = true) :
    entryValue e = .inr t := by
  cases e with
  | tree s k => rw [entryValue, of_decide_eq_true h]
  | blob b => cases h
  | symlink l => cases h

/-! ## The push of what was captured -/

section One

variable {base : Option Tree} {p : Path} {c : Capture}

theorem navigateEntryOpt_ok (hp : p ≠ []) (hb : ¬ Tree.BlobAbove (base.getD .nil) p) :
    navigateEntryOpt base p = .ok ((base.getD .nil).at p) := by
  obtain ⟨o, ho⟩ : ∃ o, navigateEntryOpt base p = .ok o := by
    cases base with
    | none => exact ⟨none, rfl⟩
    | some t => exact (Tree.navigateEntry_eq_ok_iff hp).mpr hb
  rw [ho, at_of_navigateEntryOpt hp ho]

theorem navigateEntryOpt_blobAbove (hp : p ≠ []) (hb : Tree.BlobAbove (base.getD .nil) p)
    {o : Option TreeEntry} : navigateEntryOpt base p ≠ .ok o := by
  intro h
  cases base with
  | none =>
      obtain ⟨a, n, r, b, -, ha⟩ := hb
      cases a <;> cases ha
  | some t => exact (Tree.navigateEntry_eq_ok_iff hp).mp ⟨o, h⟩ hb

/-- Not what a stub is captured as: it has no hash. -/
def Capture.HasHash : Capture → Prop
  | .stub (.symlink _) => False
  | _ => True

theorem isUnchanged_ok (hp : p ≠ []) (hb : ¬ Tree.BlobAbove (base.getD .nil) p)
    (hc : Capture.HasHash c) : ∃ u, isUnchanged base ⟨p, c⟩ = .ok u ∧
      (u = true → entriesMatch ((base.getD .nil).at p) c.newEntry = true) := by
  have hat := navigateEntryOpt_ok hp hb
  have hany : ∀ {e : TreeEntry}, ((base.getD .nil).at p).any (treeEntriesEqual · e) = true →
      entriesMatch ((base.getD .nil).at p) (some e) = true := by
    intro e h
    cases hx : (base.getD .nil).at p with
    | none => simp [hx] at h
    | some x => simpa [hx, entriesMatch] using h
  cases c with
  | delete => exact ⟨false, rfl, by rintro ⟨⟩⟩
  | entry e => exact ⟨_, by simp only [isUnchanged, hat]; rfl, hany⟩
  | stub e =>
      cases e with
      | symlink l => exact hc.elim
      | blob b => exact ⟨_, by simp only [isUnchanged, hat]; rfl, hany⟩
      | tree t m => exact ⟨_, by simp only [isUnchanged, hat]; rfl, hany⟩
  | dir t =>
      refine ⟨_, by simp only [isUnchanged, hat]; rfl, fun h => ?_⟩
      cases hx : (base.getD .nil).at p with
      | none => simp [hx] at h
      | some x =>
          rw [hx] at h
          rw [entriesMatch_iff, Option.map_some, sameHash_tree h]
          rfl

theorem checkDiverged_self (hp : p ≠ []) (hb : ¬ Tree.BlobAbove (base.getD .nil) p) :
    checkDiverged base base ⟨p, c⟩ = .ok ⟨⟩ := by
  have hself : entriesMatch ((base.getD .nil).at p) ((base.getD .nil).at p) = true :=
    entriesMatch_iff.mpr rfl
  rw [checkDiverged, navigateEntryOpt_ok hp hb]
  show (if _ then _ else (Except.ok ((base.getD .nil).at p) >>= _)) = _
  split_ifs
  · rfl
  · exact if_pos hself

/-- The splice of one path. -/
theorem applyResult_one (hp : p ≠ []) (hb : ¬ Tree.BlobAbove (base.getD .nil) p) :
    ∃ s, applyResult ⟨base, base, false⟩ ⟨p, c⟩ = .ok s ∧
      (s.anyChange = false → ((base.getD .nil).at p).map entryValue = c.newEntry.map entryValue) ∧
      (s.anyChange = true → ∃ t t', s.remote = some t ∧ s.clone = some t' ∧ t.at p = c.newEntry) := by
  unfold applyResult
  cases hnew : c.newEntry with
  | some e =>
      obtain ⟨t, ht⟩ := Tree.spliceEntry_isOk hp hb e
      have hat := (Tree.edited_of_spliceEntry ht).below []
      rw [List.append_nil] at hat
      refine ⟨⟨some t, some t, true⟩, ?_, by rintro ⟨⟩, fun _ => ⟨t, t, rfl, rfl, hat⟩⟩
      simp only [ht]
      rfl
  | none =>
      cases base with
      | none =>
          obtain ⟨n, q, rfl⟩ := List.exists_cons_of_ne_nil hp
          exact ⟨_, rfl, fun _ => rfl, by rintro ⟨⟩⟩
      | some t =>
          obtain ⟨o, ho, hfound⟩ := Tree.removeEntry_isOk hp hb
          rw [Option.getD_some] at ho hfound
          cases o with
          | none =>
              refine ⟨⟨some t, some t, false⟩, by simp only [ho]; rfl, fun _ => ?_, by rintro ⟨⟩⟩
              rw [Option.getD_some, not_not.mp fun hne => hfound hne rfl]
          | some t' =>
              have hat := (Tree.edited_of_removeEntry ho).1.below []
              rw [List.append_nil] at hat
              refine ⟨⟨some t', some t', true⟩, ?_, by rintro ⟨⟩, fun _ => ⟨t', t', rfl, rfl, hat⟩⟩
              simp only [ho, removeFromClone]
              rfl

/-- **`pushScoped_one`** — what was captured at the path is what the remote has there afterwards. -/
theorem pushScoped_one (hp : p ≠ []) (hb : ¬ Tree.BlobAbove (base.getD .nil) p)
    (hc : Capture.HasHash c) : ∃ out, pushScoped base base [⟨p, c⟩] = .ok out ∧
      ((published base out).at p).map entryValue = c.newEntry.map entryValue := by
  obtain ⟨u, hu, hsame⟩ := isUnchanged_ok hp hb hc
  cases u with
  | true =>
      refine ⟨none, ?_, entriesMatch_iff.mp (hsame rfl)⟩
      simp only [pushScoped, scopedResults, hu]
      rfl
  | false =>
      obtain ⟨s, hs, hkept, hedited⟩ := applyResult_one (c := c) hp hb
      have hresults : scopedResults base [⟨p, c⟩] = .ok [⟨p, c⟩] := by
        simp only [scopedResults, hu]
        rfl
      have hcheck : checkAll base base [⟨p, c⟩] = .ok ⟨⟩ := by
        rw [checkAll, checkDiverged_self hp hb]
        rfl
      have happly : applyResults [⟨p, c⟩] ⟨base, base, false⟩ = .ok s := by
        rw [applyResults, hs]
        rfl
      cases hany : s.anyChange with
      | false =>
          refine ⟨none, bind_eq_ok.mpr ⟨_, hresults, bind_eq_ok.mpr ⟨⟨⟩, hcheck,
            bind_eq_ok.mpr ⟨s, happly, ?_⟩⟩⟩, hkept hany⟩
          rw [hany]
          rfl
      | true =>
          obtain ⟨t, t', ht, ht', hat⟩ := hedited hany
          refine ⟨some (t, t'), bind_eq_ok.mpr ⟨_, hresults, bind_eq_ok.mpr ⟨⟨⟩, hcheck,
            bind_eq_ok.mpr ⟨s, happly, ?_⟩⟩⟩, ?_⟩
          · rw [hany, ht, ht']
            rfl
          · rw [published, hat]

/-- A blob of the remote above the path stops the push. -/
theorem pushScoped_blobAbove (hp : p ≠ []) (hb : Tree.BlobAbove (base.getD .nil) p)
    {out : Option (Tree × Tree)} : pushScoped base base [⟨p, c⟩] ≠ .ok out := by
  intro h
  obtain ⟨rs, hrs, h⟩ := bind_eq_ok.mp h
  obtain ⟨u, hu, hrs⟩ := bind_eq_ok.mp hrs
  obtain ⟨e, he⟩ : ∃ e, navigateEntryOpt base p = .error e := by
    cases hx : navigateEntryOpt base p with
    | ok o => exact absurd hx (navigateEntryOpt_blobAbove hp hb)
    | error e => exact ⟨e, rfl⟩
  cases c with
  | delete =>
      cases hu
      cases hrs
      obtain ⟨_, hcheck, -⟩ := bind_eq_ok.mp h
      obtain ⟨_, hcheck, -⟩ := bind_eq_ok.mp hcheck
      obtain ⟨o, ho, -⟩ := bind_eq_ok.mp hcheck
      exact navigateEntryOpt_blobAbove hp hb ho
  | stub e =>
      simp only [isUnchanged, he] at hu
      cases e <;> cases hu
  | entry e =>
      simp only [isUnchanged, he] at hu
      cases hu
  | dir t =>
      simp only [isUnchanged, he] at hu
      cases hu

end One

/-! ## What the calls find -/

theorem mem_ancestors {a p : Path} : a ∈ ancestors p ↔ a ≠ [] ∧ a <+: p ∧ a ≠ p := by
  unfold ancestors
  simp only [List.mem_reverse, List.mem_filter, List.mem_inits, decide_eq_true_eq]
  exact and_left_comm

/-- No file and no symlink stands above the path. -/
def Clear (d : Disk) (p : Path) : Prop := ∀ a ∈ ancestors p, ∀ x, d.get a ≠ some (.leaf x)

/-- `MarkerAbove`: something answers to the name of a marker in a directory above the path. -/
def MarkerAbove {d : Disk} (F : Following d) (p : Path) : Prop :=
  ∃ a ∈ ancestors p, F.stat (dirStubPath a) ≠ none

section Calls

variable {d : Disk} {p q : Path} {n : String}

theorem clear_of_dir (h : d.get q = some .dir) : Clear d (q ++ [n]) := by
  intro a ha x hx
  obtain ⟨-, hpre, hne⟩ := mem_ancestors.mp ha
  have hq : a <+: q := by
    rcases List.prefix_concat_iff.mp hpre with heq | hq
    · exact absurd heq hne
    · exact hq
  rw [DirTree.dir_of_prefix h hq] at hx
  cases hx

/-- Above what is there are directories. -/
theorem parent_of_get (h : d.get (q ++ [n]) ≠ none) : d.get q = some .dir := by
  by_contra hnot
  exact h (DirTree.get_append_of_not_dir hnot n [])

theorem clear_of_get (h : d.get (q ++ [n]) ≠ none) : Clear d (q ++ [n]) :=
  clear_of_dir (parent_of_get h)

theorem lstatPath_of_clear (h : Clear d p) : lstatPath d p = .ok (d.at p) := by
  have hnone : ((ancestors p).find? fun a => (d.get a).any fun k => k ≠ .dir) = none := by
    refine List.find?_eq_none.mpr fun a ha hany => ?_
    cases hk : d.get a with
    | none => simp [hk] at hany
    | some k =>
        cases k with
        | dir => simp [hk] at hany
        | leaf x => exact h a ha x hk
  unfold lstatPath
  rw [hnone]

theorem lstatPath_of_not_clear (h : ¬ Clear d p) {o : Option (Item String DiskLeaf)} :
    lstatPath d p ≠ .ok o := by
  unfold Clear at h
  push Not at h
  obtain ⟨a, ha, x, hx⟩ := h
  have hsome : ((ancestors p).find? fun a => (d.get a).any fun k => k ≠ .dir).isSome :=
    List.find?_isSome.mpr ⟨a, ha, by simp [hx]⟩
  obtain ⟨b, hb⟩ := Option.isSome_iff_exists.mp hsome
  unfold lstatPath
  rw [hb]
  rintro ⟨⟩

theorem noLinkAbove_of_clear (h : Clear d p) : NoLinkAbove d p := by
  intro a ha hne target m hlink
  cases a with
  | nil => cases hlink
  | cons k a => exact h _ (mem_ancestors.mpr ⟨List.cons_ne_nil k a, ha, hne⟩) _ hlink

/-- What stands beside the path has the same directories above it. -/
theorem clear_beside {m : String} (h : Clear d (q ++ [n])) : Clear d (q ++ [m]) := by
  intro a ha
  obtain ⟨hnil, hpre, hne⟩ := mem_ancestors.mp ha
  rcases List.prefix_concat_iff.mp hpre with heq | hq
  · exact absurd heq hne
  · refine h a (mem_ancestors.mpr ⟨hnil, hq.trans (List.prefix_append _ _), ?_⟩)
    rintro rfl
    simpa using hq.length_le

theorem fileStubPath_concat : fileStubPath (q ++ [n]) = q ++ [n ++ stubSuffix] := by
  simp [fileStubPath]

/-- What only the marker of the working directory records has nothing of the disk above it. -/
theorem gone_above {p : Path} (hgone : d.get p = none) (h : markerEntry d p ≠ none) :
    ∀ a ∈ ancestors p, d.get a = none := by
  intro a ha
  obtain ⟨hnil, hpre, -⟩ := mem_ancestors.mp ha
  obtain ⟨m, a, rfl⟩ := List.exists_cons_of_ne_nil hnil
  cases p with
  | nil => exact absurd rfl h
  | cons k p =>
      obtain ⟨rfl, -⟩ := List.cons_prefix_cons.mp hpre
      rw [markerEntry] at h
      split_ifs at h with hfree
      · rcases hfree with ⟨hnone, -⟩ | ⟨hspecial, rfl⟩
        · by_contra hne
          have hfirst : d.get [m] = some .dir ∨ a = [] := by
            cases a with
            | nil => exact .inr rfl
            | cons b a => exact .inl (DirTree.get_of_append hne)
          rcases hfirst with hdir | rfl
          · rw [hnone] at hdir
            cases hdir
          · exact hne hnone
        · rw [hgone] at hspecial
          cases hspecial
      · exact absurd rfl h

variable (F : Following d)

theorem stat_of_get (h : Clear d p) (hlink : ∀ target m, d.get p ≠ some (.leaf (.symlink target m))) :
    F.stat p = d.get p := F.stat_eq p (noLinkAbove_of_clear h) hlink

theorem stat_of_none (h : Clear d p) (hp : d.get p = none) : F.stat p = none := by
  rw [stat_of_get F h (by rw [hp]; rintro _ _ ⟨⟩), hp]

end Calls

/-! ## What is captured -/

/-- Nothing leads to a file here, and the stub file is one of a blob. -/
def StandsForFile {d : Disk} (F : Following d) (p : Path) : Prop :=
  F.stat p = none ∧ ∃ r hash, recordIn (F.stat (fileStubPath p)) = some r ∧ r.target = .blob hash

/-- A directory with nothing but a marker, and that is one of a tree. -/
def StandsForDir {d : Disk} (F : Following d) (p : Path) : Prop :=
  F.stat p = some .dir ∧ (∀ n ∈ F.list p, n = dirStubName) ∧
    ∃ r t, recordIn (F.stat (dirStubPath p)) = some r ∧ r.target = .tree t

section Captured

variable {d : Disk} {F : Following d} {cfg : ScanConfig} {base : Option Tree} {p : Path}

theorem fileStubEntry_eq {r : StubRecord} {hash : Hash} (hp : F.stat p = none)
    (hr : recordIn (F.stat (fileStubPath p)) = some r) (ht : r.target = .blob hash) :
    resolveScopedStub F p = some (.blob ⟨hash, r.mtime, r.size, r.mode⟩) := by
  simp [resolveScopedStub, fileStubEntry, hp, hr, ht]

theorem dirStubEntry_eq {r : StubRecord} {t : Tree} (hp : F.stat p = some .dir)
    (hnames : ∀ n ∈ F.list p, n = dirStubName)
    (hr : recordIn (F.stat (dirStubPath p)) = some r) (ht : r.target = .tree t) :
    resolveScopedStub F p = some (.tree t r.meta') := by
  unfold resolveScopedStub fileStubEntry dirStubEntry
  rw [if_neg (by rw [hp]; rintro ⟨⟩), if_pos ⟨hp, hnames⟩, hr]
  simp [ht]

theorem resolve_eq_none (hfile : ¬ StandsForFile F p) (hdir : ¬ StandsForDir F p) :
    resolveScopedStub F p = none := by
  have hfile : fileStubEntry F p = none := by
    unfold fileStubEntry
    split_ifs with hp
    · cases hr : recordIn (F.stat (fileStubPath p)) with
      | none => rfl
      | some r =>
          cases ht : r.target with
          | blob hash => exact absurd ⟨hp, r, hash, hr, ht⟩ hfile
          | tree t => simp [ht]
    · rfl
  have hdir : dirStubEntry F p = none := by
    unfold dirStubEntry
    split_ifs with hp
    · cases hr : recordIn (F.stat (dirStubPath p)) with
      | none => rfl
      | some r =>
          cases ht : r.target with
          | tree t => exact absurd ⟨hp.1, hp.2, r, t, hr, ht⟩ hdir
          | blob hash => simp [ht]
    · rfl
  rw [resolveScopedStub, hfile, hdir]
  rfl

theorem hasHash_of_resolve {e : TreeEntry} (h : resolveScopedStub F p = some e) :
    Capture.HasHash (.stub e) := by
  by_cases hfile : StandsForFile F p
  · obtain ⟨hp, r, hash, hr, ht⟩ := hfile
    cases h.symm.trans (fileStubEntry_eq hp hr ht)
    trivial
  · by_cases hdir : StandsForDir F p
    · obtain ⟨hp, hnames, r, t, hr, ht⟩ := hdir
      cases h.symm.trans (dirStubEntry_eq hp hnames hr ht)
      trivial
    · rw [resolve_eq_none hfile hdir] at h
      cases h

/-- The search ends with nothing where nothing answers to the name of a marker. -/
theorem deepestAncestorStub_eq_none {l : List Path} (h : ∀ a ∈ l, F.stat (dirStubPath a) = none) :
    deepestAncestorStub F l = .ok none := by
  induction l with
  | nil => rfl
  | cons a l ih =>
      obtain ⟨ha, hl⟩ := List.forall_mem_cons.mp h
      have hread : readDirStub F a = .ok none := by
        unfold readDirStub
        rw [ha]
      rw [deepestAncestorStub, hread]
      exact ih hl

theorem isSome_of_deepestAncestorStub {l : List Path} (h : ∃ a ∈ l, F.stat (dirStubPath a) ≠ none)
    {o : Option (Path × StubRecord)} (ho : deepestAncestorStub F l = .ok o) : o.isSome := by
  induction l with
  | nil => simp at h
  | cons a l ih =>
      obtain ⟨r, hr, ho⟩ := bind_eq_ok.mp ho
      cases r with
      | some r =>
          cases ho
          rfl
      | none =>
          have ha : F.stat (dirStubPath a) = none := by
            by_contra hne
            obtain ⟨k, hk⟩ := Option.ne_none_iff_exists'.mp hne
            rw [readDirStub, hk] at hr
            split at hr
            · rename_i hnone
              cases hnone
            · split at hr <;> cases hr
            · cases hr
          refine ih ?_ ho
          obtain ⟨b, hb, hne⟩ := h
          rcases List.mem_cons.mp hb with rfl | hb
          · exact absurd ha hne
          · exact ⟨b, hb, hne⟩

theorem capture_clear {x : Option (Capture × List Path)} (h : capturePath F cfg p = .ok x) :
    Clear d p := by
  obtain ⟨o, ho, -⟩ := bind_eq_ok.mp h
  by_contra hno
  exact lstatPath_of_not_clear hno ho

theorem capture_of_stub (cfg : ScanConfig) (hclear : Clear d p) {e : TreeEntry}
    (h : resolveScopedStub F p = some e) :
    capturePath F cfg p = .ok (some (.stub e, [])) := by
  refine bind_eq_ok.mpr ⟨_, lstatPath_of_clear hclear, ?_⟩
  rw [h]

theorem capture_of_marker (hno : resolveScopedStub F p = none) (h : MarkerAbove F p)
    {x : Option (Capture × List Path)} : capturePath F cfg p ≠ .ok x := by
  intro hx
  obtain ⟨_, -, hx⟩ := bind_eq_ok.mp hx
  rw [hno] at hx
  obtain ⟨above, habove, hx⟩ := bind_eq_ok.mp hx
  rw [if_pos (isSome_of_deepestAncestorStub h habove)] at hx
  cases hx

theorem capture_of_seen (cfg : ScanConfig) (hclear : Clear d p) (hno : resolveScopedStub F p = none)
    (h : ¬ MarkerAbove F p) : capturePath F cfg p = captureObserved F cfg p (d.at p) := by
  have habove : ∀ a ∈ ancestors p, F.stat (dirStubPath a) = none := fun a ha =>
    not_not.mp fun hne => h ⟨a, ha, hne⟩
  unfold capturePath
  rw [lstatPath_of_clear hclear, hno, deepestAncestorStub_eq_none habove]
  rfl

variable (hp : p ≠ []) (hign : isScopedPathIgnored cfg.isIgnored p = false)

include hp hign

/-- What a push that succeeds has captured is at its path. -/
theorem push_ok {c : Capture} {conflicts : List Path}
    (hcap : capturePath F cfg p = .ok (some (c, conflicts))) (hc : Capture.HasHash c)
    {out : Option (Tree × Tree)} (h : pushPath F cfg base p = .ok out) :
    ¬ Tree.BlobAbove (base.getD .nil) p ∧
      ((published base out).at p).map entryValue = c.newEntry.map entryValue := by
  rw [pushPath, if_neg (by rw [hign]; exact Bool.false_ne_true)] at h
  obtain ⟨x, hx, h⟩ := bind_eq_ok.mp h
  cases hcap.symm.trans hx
  obtain ⟨_, -, h⟩ := bind_eq_ok.mp h
  split_ifs at h
  have hb : ¬ Tree.BlobAbove (base.getD .nil) p := fun hb => pushScoped_blobAbove hp hb h
  obtain ⟨out', hout', hvalue⟩ := pushScoped_one hp hb hc
  cases h.symm.trans hout'
  exact ⟨hb, hvalue⟩

theorem push_succeeds {c : Capture} (hcap : capturePath F cfg p = .ok (some (c, [])))
    (hc : Capture.HasHash c) (hb : ¬ Tree.BlobAbove (base.getD .nil) p) :
    ∃ out, pushPath F cfg base p = .ok out ∧
      ((published base out).at p).map entryValue = c.newEntry.map entryValue := by
  obtain ⟨u, hu, -⟩ := isUnchanged_ok hp hb hc
  obtain ⟨out, hout, hvalue⟩ := pushScoped_one hp hb hc
  refine ⟨out, ?_, hvalue⟩
  rw [pushPath, if_neg (by rw [hign]; exact Bool.false_ne_true)]
  refine bind_eq_ok.mpr ⟨_, hcap, bind_eq_ok.mpr ⟨u, hu, ?_⟩⟩
  rw [if_pos rfl]
  exact hout

omit hp in
theorem push_of_nothing (hcap : capturePath F cfg p = .ok none) :
    pushPath F cfg base p = .ok none := by
  rw [pushPath, if_neg (by rw [hign]; exact Bool.false_ne_true), hcap]
  rfl

omit hp in
theorem push_captured {out : Option (Tree × Tree)} (h : pushPath F cfg base p = .ok out) :
    ∃ x, capturePath F cfg p = .ok x := by
  rw [pushPath, if_neg (by rw [hign]; exact Bool.false_ne_true)] at h
  obtain ⟨x, hx, -⟩ := bind_eq_ok.mp h
  exact ⟨x, hx⟩

end Captured

/-! ## The push and the scan -/

section Compare

variable {d : Disk} (cfg : ScanConfig) (F : Following d) (base : Option Tree) (p : Path)

/-- The working tree can be scanned as a whole. -/
def Scans (d : Disk) : Prop := ∃ r, scanImpl cfg [] (stillCalls d) (observe d) = .ok r

/-- A push that succeeds publishes at its path what the scan of the whole has there.  Where all that is
left of the path is a stub file that the scan could not read, it does not publish a deletion. -/
structure PublishesScan : Prop where
  agrees : ∀ r, scanImpl cfg [] (stillCalls d) (observe d) = .ok r →
    ∀ out, pushPath F cfg base p = .ok out →
      entriesMatch ((published base out).at p) (r.root.at p) = true
  keeps : d.get p = none → d.get (fileStubPath p) ≠ none → recordIn (d.get (fileStubPath p)) = none →
    ∀ out, pushPath F cfg base p = .ok out → (published base out).at p = none →
      (base.getD .nil).at p = none

/-- Where the push takes a path for something else than the scan does. -/
inductive Misread : Prop
  /-- a symlink that leads to a stubbed directory, or nowhere and has a stub file beside it -/
  | link {target : String} {m : Option Time} (scans : Scans cfg d)
      (splices : ¬ Tree.BlobAbove (base.getD .nil) p)
      (there : d.get p = some (.leaf (.symlink target m)))
      (stands : StandsForFile F p ∨ StandsForDir F p)
  /-- a directory with nothing but a marker, and that is a symlink to the record of a tree -/
  | marker {s : Disk} {target : String} {m : Option Time} {r : StubRecord} {t : Tree}
      (scans : Scans cfg d) (splices : ¬ Tree.BlobAbove (base.getD .nil) p)
      (there : d.at p = some (.sub s)) (only : ∀ n ∈ s.names, n = dirStubName)
      (linked : d.get (dirStubPath p) = some (.leaf (.symlink target m)))
      (reads : recordIn (F.stat (dirStubPath p)) = some r) (records : r.target = .tree t)
      (ne : t ≠ .nil)
  /-- a stub file that records a directory -/
  | treeRecord {r : StubRecord} {t : Tree} (scans : Scans cfg d)
      (splices : ¬ Tree.BlobAbove (base.getD .nil) p) (unmarked : ¬ MarkerAbove F p)
      (gone : d.get p = none) (reads : recordIn (d.get (fileStubPath p)) = some r)
      (records : r.target = .tree t)
  /-- a special file, where something else is published -/
  | special (scans : Scans cfg d) (unmarked : ¬ MarkerAbove F p)
      (there : d.get p = some (.leaf .special))
      (differs : entriesMatch ((base.getD .nil).at p) (markerEntry d p) = false)
  /-- nothing at all, but the marker of the working directory records it -/
  | recorded (scans : Scans cfg d) (splices : ¬ Tree.BlobAbove (base.getD .nil) p)
      (gone : d.get p = none) (alone : d.get (fileStubPath p) = none)
      (records : markerEntry d p ≠ none)
  /-- nothing but a stub file that cannot be read, and something published -/
  | unreadable (unmarked : ¬ MarkerAbove F p) (gone : d.get p = none)
      (there : d.get (fileStubPath p) ≠ none) (unread : recordIn (d.get (fileStubPath p)) = none)
      (stands : ¬ StandsForFile F p) (holds : (base.getD .nil).at p ≠ none)

end Compare

theorem entryValue_of_blob {e : TreeEntry} {hash : Hash} {mode : Option String}
    (h : entryNode e = .blob hash mode) : entryValue e = .inl (.blob hash mode) := by
  cases e <;> cases h
  rfl

theorem entryValue_of_symlink {e : TreeEntry} {target : String} (h : entryNode e = .symlink target) :
    entryValue e = .inl (.symlink target) := by
  cases e <;> cases h
  rfl

theorem not_ignored_above {isIgnored : Path → Bool} {p : Path} (h : isScopedPathIgnored isIgnored p = false)
    {a : Path} (ha : a ≠ []) (hpre : a <+: p) : isIgnored a = false := by
  unfold isScopedPathIgnored at h
  have hall := List.any_eq_false.mp h a ((List.mem_inits _ _).mpr hpre)
  simpa [ha] using hall

section Agreement

variable {d : Disk} {F : Following d} {cfg : ScanConfig} {base : Option Tree} {q : Path} {n : String}

theorem recordIn_eq_none_of_link {k : Option (Kind DiskLeaf)}
    (h : ∀ c stat, k ≠ some (.leaf (.file c stat))) : recordIn k = none := by
  unfold recordIn
  split
  · rename_i c stat
    exact absurd rfl (h c stat)
  · rfl

/-- A stub record by `lstat` is the one that is read by following. -/
theorem stat_of_record {p : Path} (hclear : Clear d p) {r : StubRecord}
    (hr : recordIn (d.get p) = some r) : F.stat p = d.get p := by
  refine stat_of_get F hclear fun target m hlink => ?_
  rw [hlink] at hr
  cases hr

/-- Without anything that answers to the name of a marker there is no marker. -/
theorem markerTree_of_unmarked {p a : Path} (h : ¬ MarkerAbove F p)
    (ha : a ∈ ancestors p) : markerTree d.get a = none := by
  have hstat : F.stat (dirStubPath a) = none := not_not.mp fun hne => h ⟨a, ha, hne⟩
  have hrecord : recordIn (d.get (a ++ [dirStubName])) = none := by
    by_contra hne
    obtain ⟨r, hr⟩ := Option.ne_none_iff_exists'.mp hne
    have hdir : d.get a = some .dir := parent_of_get (n := dirStubName) fun hno => by
      rw [hno] at hr
      cases hr
    have heq := stat_of_record (F := F) (clear_of_dir hdir) hr
    rw [dirStubPath] at hstat
    rw [← heq, hstat] at hr
    cases hr
  unfold markerTree
  rw [hrecord]
  rfl

theorem get_marker {s : Disk} {p : Path} (hat : d.at p = some (.sub s)) :
    d.get (dirStubPath p) = s.get [dirStubName] := by
  rw [dirStubPath, DirTree.get, DirTree.at_append, hat]
  rfl

/-- What the marker of a real directory records is what following its name reads. -/
theorem markerTree_of_reads {s : Disk} {p : Path} (hat : d.at p = some (.sub s))
    (hlink : ∀ target m, d.get (dirStubPath p) ≠ some (.leaf (.symlink target m))) {r : StubRecord}
    {t : Tree} (hr : recordIn (F.stat (dirStubPath p)) = some r) (ht : r.target = .tree t) :
    markerTree s.get [] = some t := by
  have hdir : d.get p = some .dir := DirTree.get_eq_dir_iff.mpr ⟨s, hat⟩
  have hstat : F.stat (dirStubPath p) = d.get (dirStubPath p) :=
    stat_of_get F (clear_of_dir hdir) hlink
  rw [hstat, get_marker hat] at hr
  unfold markerTree
  rw [List.nil_append, hr, Option.bind_some, ht]

theorem not_standsForFile {k : Kind DiskLeaf} {p : Path} (h : F.stat p = some k) :
    ¬ StandsForFile F p := by
  rintro ⟨hno, -⟩
  rw [h] at hno
  cases hno

theorem not_standsForDir {p : Path} (h : F.stat p ≠ some .dir) : ¬ StandsForDir F p :=
  fun hdir => h hdir.1

theorem not_blobAbove_of_at {t : Tree} {p : Path} (h : t.at p ≠ none) : ¬ Tree.BlobAbove t p := by
  rintro ⟨a, m, r, b, rfl, ha⟩
  obtain ⟨s, k, hs⟩ := Tree.isTree_of_at_append (List.cons_ne_nil m r) h
  rw [ha] at hs
  cases hs

variable (hcfg : Informed cfg d.get) (hd : d.Wf) (hnames : ∀ m ∈ q ++ [n], ValidName m)
  (hign : isScopedPathIgnored cfg.isIgnored (q ++ [n]) = false)

include hcfg hnames hign

/-- A file or symlink is in the scan as what it is. -/
theorem scanned_leaf {r : ScanResult} (h : scanImpl cfg [] (stillCalls d) (observe d) = .ok r)
    {a : DiskLeaf} (hget : d.get (q ++ [n]) = some (.leaf a)) {x : Scan.Node}
    (hx : kindNode (.leaf a) = some x) : (r.root.at (q ++ [n])).map entryNode = some x := by
  refine own_entry hcfg h hnames (fun a ha hpre => not_ignored_above hign ha hpre)
    (parent_of_get (by rw [hget]; rintro ⟨⟩)) ?_
  rw [ownNode_of_leaf (hnames n (by simp)) (not_ignored_above hign (by simp) (List.prefix_refl _)) hget,
    hx]

/-- A missing path with a stub file is in the scan as the blob of its record. -/
theorem scanned_sidecar {r : ScanResult} (h : scanImpl cfg [] (stillCalls d) (observe d) = .ok r)
    (hgone : d.get (q ++ [n]) = none) (hside : d.get (q ++ [n ++ stubSuffix]) ≠ none) :
    ∃ rec, recordIn (d.get (q ++ [n ++ stubSuffix])) = some rec ∧
      (r.root.at (q ++ [n])).map entryNode = some (entryNode (.blob (rec.blob cfg.treeHash))) := by
  have hign' : ∀ a, a ≠ [] → a <+: q ++ [n] → cfg.isIgnored a = false := fun a ha hpre =>
    not_ignored_above hign ha hpre
  obtain ⟨rec, hrec⟩ := Option.ne_none_iff_exists'.mp
    (sidecar_of_scan hcfg.strict hnames hign' h hgone hside)
  refine ⟨rec, hrec, own_entry hcfg h hnames hign' (parent_of_get hside) ?_⟩
  rw [ownNode_of_missing (hnames n (by simp)) (hign' _ (by simp) (List.prefix_refl _)) hgone, hrec]
  rfl

/-- A path with nothing of its own is in the scan as the marker of the working directory has it. -/
theorem scanned_unseen {r : ScanResult} (h : scanImpl cfg [] (stillCalls d) (observe d) = .ok r)
    (hclear : Clear d (q ++ [n])) (hno : ¬ MarkerAbove F (q ++ [n]))
    (hseen : d.get (q ++ [n]) = none ∧ d.get (q ++ [n ++ stubSuffix]) = none ∨
      d.get (q ++ [n]) = some (.leaf .special)) :
    r.root.at (q ++ [n]) = markerEntry d (q ++ [n]) := by
  refine unseen_entry hcfg h hnames (fun a ha hpre => not_ignored_above hign ha hpre) ?_ hseen
  intro a ha hpre
  have hmem : a ∈ ancestors (q ++ [n]) := by
    refine mem_ancestors.mpr ⟨ha, hpre.trans (List.prefix_append _ _), ?_⟩
    rintro rfl
    simpa using hpre.length_le
  exact ⟨hclear a hmem, markerTree_of_unmarked hno hmem⟩

include hd

theorem scanned_dir {r : ScanResult} (h : scanImpl cfg [] (stillCalls d) (observe d) = .ok r)
    {s : Disk} (hat : d.at (q ++ [n]) = some (.sub s)) :
    ∃ r' m, scanImpl cfg (q ++ [n]) (stillCalls s) (observe s) = .ok r' ∧
      r.root.at (q ++ [n]) = some (.tree r'.root m) :=
  scan_at_dir hcfg.strict (by simp) hd hat hnames (fun a ha hpre => not_ignored_above hign ha hpre) h

end Agreement

section Main

variable {d : Disk} {F : Following d} {cfg : ScanConfig} {base : Option Tree} {q : Path} {n : String}
  (hcfg : Informed cfg d.get) (hd : d.Wf) (hnames : ∀ m ∈ q ++ [n], ValidName m)
  (hign : isScopedPathIgnored cfg.isIgnored (q ++ [n]) = false)

include hcfg hd hnames hign

/-- **`agrees_of_not_misread`** — what is taken for what it is, is published as the scan has it. -/
theorem agrees_of_not_misread (hmis : ¬ Misread cfg F base (q ++ [n])) {r : ScanResult}
    (h : scanImpl cfg [] (stillCalls d) (observe d) = .ok r) {out : Option (Tree × Tree)}
    (hout : pushPath F cfg base (q ++ [n]) = .ok out) :
    ((published base out).at (q ++ [n])).map entryValue = (r.root.at (q ++ [n])).map entryValue := by
  have hp : q ++ [n] ≠ [] := by simp
  have hscans : Scans cfg d := ⟨r, h⟩
  obtain ⟨x, hx⟩ := push_captured hign hout
  have hclear := capture_clear hx
  -- what stands for a stub comes first, and a marker above stops the rest
  have hseen : resolveScopedStub F (q ++ [n]) = none → ¬ MarkerAbove F (q ++ [n]) ∧
      capturePath F cfg (q ++ [n]) = captureObserved F cfg (q ++ [n]) (d.at (q ++ [n])) := fun hno => by
    have hunmarked : ¬ MarkerAbove F (q ++ [n]) := fun hm => capture_of_marker hno hm hx
    exact ⟨hunmarked, capture_of_seen cfg hclear hno hunmarked⟩
  cases hat : d.at (q ++ [n]) with
  | none =>
      have hgone : d.get (q ++ [n]) = none := DirTree.get_eq_none_iff.mpr hat
      have hstat := stat_of_none F hclear hgone
      have hside : Clear d (q ++ [n ++ stubSuffix]) := clear_beside hclear
      by_cases hfile : StandsForFile F (q ++ [n])
      · obtain ⟨-, rec, hash, hr, ht⟩ := hfile
        have hcap := capture_of_stub cfg hclear (fileStubEntry_eq hstat hr ht)
        rw [fileStubPath_concat] at hr
        have hthere : d.get (q ++ [n ++ stubSuffix]) ≠ none := fun hno => by
          rw [stat_of_none F hside hno] at hr
          cases hr
        obtain ⟨rec', hrec', hentry⟩ := scanned_sidecar hcfg hnames hign h hgone hthere
        rw [stat_of_record hside hrec', hrec'] at hr
        cases hr
        obtain ⟨e, he, hnode⟩ := Option.map_eq_some_iff.mp hentry
        rw [(push_ok hp hign hcap trivial hout).2, he, Option.map_some, entryValue_of_blob hnode]
        simp only [Capture.newEntry, Option.map_some, entryValue, StubRecord.blob, ht]
      · have hno := resolve_eq_none hfile (not_standsForDir (by rw [hstat]; rintro ⟨⟩))
        obtain ⟨hunmarked, hcap⟩ := hseen hno
        rw [hat] at hcap
        obtain ⟨hb, hvalue⟩ := push_ok hp hign hcap trivial hout
        by_cases hthere : d.get (q ++ [n ++ stubSuffix]) = none
        · have hroot := scanned_unseen hcfg hnames hign h hclear hunmarked (.inl ⟨hgone, hthere⟩)
          have hnone : markerEntry d (q ++ [n]) = none := not_not.mp fun hne =>
            hmis (.recorded hscans hb hgone (by rw [fileStubPath_concat, hthere]) hne)
          rw [hvalue, hroot, hnone]
          rfl
        · -- the scan has read the stub file, and it is not that of a blob
          obtain ⟨rec, hrec, -⟩ := scanned_sidecar hcfg hnames hign h hgone hthere
          cases ht : rec.target with
          | blob hash =>
              refine absurd ⟨hstat, rec, hash, ?_, ht⟩ hfile
              rw [fileStubPath_concat, stat_of_record hside hrec, hrec]
          | tree t =>
              exact absurd (.treeRecord hscans hb hunmarked hgone
                (by rw [fileStubPath_concat, hrec]) ht) hmis
  | some y =>
      cases y with
      | sub s =>
          have hget : d.get (q ++ [n]) = some .dir := DirTree.get_eq_dir_iff.mpr ⟨s, hat⟩
          have hstat : F.stat (q ++ [n]) = some .dir := by
            rw [stat_of_get F hclear (by rw [hget]; rintro _ _ ⟨⟩), hget]
          have hfile := not_standsForFile hstat
          obtain ⟨r', m, hr', hroot⟩ := scanned_dir hcfg hd hnames hign h hat
          by_cases hdir : StandsForDir F (q ++ [n])
          · obtain ⟨-, honly, rec, t, hr, ht⟩ := hdir
            have hcap := capture_of_stub cfg hclear (dirStubEntry_eq hstat honly hr ht)
            obtain ⟨hb, hvalue⟩ := push_ok hp hign hcap trivial hout
            rw [F.list_eq _ _ hat] at honly
            have htree : r'.root = (markerTree s.get []).getD .nil :=
              scope_of_marker (wf_of_at hd hat) honly hr'
            have heq : r'.root = t := by
              by_cases hlink : ∃ target m, d.get (dirStubPath (q ++ [n])) =
                  some (.leaf (.symlink target m))
              · obtain ⟨target, m, hlink⟩ := hlink
                have hnil : t = .nil := not_not.mp fun hne =>
                  hmis (.marker hscans hb hat honly hlink hr ht hne)
                rw [htree, hnil, markerTree, List.nil_append, ← get_marker hat, hlink]
                rfl
              · push Not at hlink
                rw [htree, markerTree_of_reads hat hlink hr ht]
                rfl
            rw [hvalue, hroot, heq]
            rfl
          · obtain ⟨hunmarked, hcap⟩ := hseen (resolve_eq_none hfile hdir)
            simp only [hat, captureObserved, hr'] at hcap
            rw [(push_ok hp hign hcap trivial hout).2, hroot]
            rfl
      | leaf a =>
          have hget : d.get (q ++ [n]) = some (.leaf a) := DirTree.get_eq_leaf_iff.mpr hat
          cases a with
          | symlink target m =>
              have hentry := scanned_leaf hcfg hnames hign h hget rfl
              obtain ⟨e, he, hnode⟩ := Option.map_eq_some_iff.mp hentry
              by_cases hstub : StandsForFile F (q ++ [n]) ∨ StandsForDir F (q ++ [n])
              · obtain ⟨e', he'⟩ : ∃ e', resolveScopedStub F (q ++ [n]) = some e' := by
                  rcases hstub with ⟨hs, rec, hash, hr, ht⟩ | ⟨hs, honly, rec, t, hr, ht⟩
                  · exact ⟨_, fileStubEntry_eq hs hr ht⟩
                  · exact ⟨_, dirStubEntry_eq hs honly hr ht⟩
                have hb := (push_ok hp hign (capture_of_stub cfg hclear he')
                  (hasHash_of_resolve he') hout).1
                exact absurd (.link hscans hb hget hstub) hmis
              · rw [not_or] at hstub
                obtain ⟨hunmarked, hcap⟩ := hseen (resolve_eq_none hstub.1 hstub.2)
                simp only [hat, captureObserved] at hcap
                rw [(push_ok hp hign hcap trivial hout).2, he, Option.map_some,
                  entryValue_of_symlink hnode]
                rfl
          | file c stat =>
              have hstat : F.stat (q ++ [n]) = some (.leaf (.file c stat)) := by
                rw [stat_of_get F hclear (by rw [hget]; rintro _ _ ⟨⟩), hget]
              obtain ⟨hunmarked, hcap⟩ := hseen (resolve_eq_none (not_standsForFile hstat)
                (not_standsForDir (by rw [hstat]; rintro ⟨⟩)))
              simp only [hat, captureObserved] at hcap
              have hentry := scanned_leaf hcfg hnames hign h hget rfl
              obtain ⟨e, he, hnode⟩ := Option.map_eq_some_iff.mp hentry
              rw [(push_ok hp hign hcap trivial hout).2, he, Option.map_some,
                entryValue_of_blob hnode]
              rfl
          | special =>
              have hstat : F.stat (q ++ [n]) = some (.leaf .special) := by
                rw [stat_of_get F hclear (by rw [hget]; rintro _ _ ⟨⟩), hget]
              obtain ⟨hunmarked, hcap⟩ := hseen (resolve_eq_none (not_standsForFile hstat)
                (not_standsForDir (by rw [hstat]; rintro ⟨⟩)))
              simp only [hat, captureObserved] at hcap
              cases hout.symm.trans (push_of_nothing hign hcap)
              rw [scanned_unseen hcfg hnames hign h hclear hunmarked (.inr hget),
                ← entriesMatch_iff, published]
              by_contra hne
              exact hmis (.special hscans hunmarked hget (by simpa using hne))

/-- **`differs_of_misread`** — what is taken for something else is published as something else. -/
theorem differs_of_misread (hmis : Misread cfg F base (q ++ [n])) :
    ¬ PublishesScan cfg F base (q ++ [n]) := by
  have hp : q ++ [n] ≠ [] := by simp
  intro hpub
  cases hmis with
  | @link target m scans splices there stands =>
      obtain ⟨r, h⟩ := scans
      have hclear : Clear d (q ++ [n]) := clear_of_get (by rw [there]; rintro ⟨⟩)
      obtain ⟨e, he, hne⟩ : ∃ e, resolveScopedStub F (q ++ [n]) = some e ∧
          entryValue e ≠ .inl (.symlink target) := by
        rcases stands with ⟨hs, rec, hash, hr, ht⟩ | ⟨hs, honly, rec, t, hr, ht⟩
        · exact ⟨_, fileStubEntry_eq hs hr ht, by rintro ⟨⟩⟩
        · exact ⟨_, dirStubEntry_eq hs honly hr ht, by rintro ⟨⟩⟩
      obtain ⟨out, hout, hvalue⟩ := push_succeeds hp hign (capture_of_stub cfg hclear he)
        (hasHash_of_resolve he) splices
      have hmatch := entriesMatch_iff.mp (hpub.agrees r h out hout)
      obtain ⟨e', he', hnode⟩ := Option.map_eq_some_iff.mp
        (scanned_leaf hcfg hnames hign h there rfl)
      rw [hvalue, he', Option.map_some, entryValue_of_symlink hnode] at hmatch
      exact hne (Option.some.inj hmatch)
  | @marker s target m rec t scans splices there only linked reads records ne =>
      obtain ⟨r, h⟩ := scans
      have hget : d.get (q ++ [n]) = some .dir := DirTree.get_eq_dir_iff.mpr ⟨s, there⟩
      have hclear : Clear d (q ++ [n]) := clear_of_get (by rw [hget]; rintro ⟨⟩)
      have hstat : F.stat (q ++ [n]) = some .dir := by
        rw [stat_of_get F hclear (by rw [hget]; rintro _ _ ⟨⟩), hget]
      have he := dirStubEntry_eq hstat (by rwa [F.list_eq _ _ there]) reads records
      obtain ⟨out, hout, hvalue⟩ := push_succeeds hp hign (capture_of_stub cfg hclear he)
        (hasHash_of_resolve he) splices
      have hmatch := entriesMatch_iff.mp (hpub.agrees r h out hout)
      obtain ⟨r', k, hr', hroot⟩ := scanned_dir hcfg hd hnames hign h there
      have hnil : r'.root = .nil := by
        rw [scope_of_marker (wf_of_at hd there) only hr', markerTree, List.nil_append,
          ← get_marker there, linked]
        rfl
      rw [hvalue, hroot, hnil] at hmatch
      exact ne (Sum.inr.inj (Option.some.inj hmatch))
  | @treeRecord rec t scans splices unmarked gone reads records =>
      obtain ⟨r, h⟩ := scans
      rw [fileStubPath_concat] at reads
      have hthere : d.get (q ++ [n ++ stubSuffix]) ≠ none := by
        rintro hno
        rw [hno] at reads
        cases reads
      have hclear : Clear d (q ++ [n]) := clear_beside (clear_of_get hthere)
      have hstat := stat_of_none F hclear gone
      have hno := resolve_eq_none (F := F) (p := q ++ [n]) ?_
        (not_standsForDir (by rw [hstat]; rintro ⟨⟩))
      · have hcap := capture_of_seen cfg hclear hno unmarked
        rw [DirTree.get_eq_none_iff.mp gone] at hcap
        obtain ⟨out, hout, hvalue⟩ := push_succeeds hp hign hcap trivial splices
        have hmatch := entriesMatch_iff.mp (hpub.agrees r h out hout)
        obtain ⟨_, -, hentry⟩ := scanned_sidecar hcfg hnames hign h gone hthere
        obtain ⟨e, he, -⟩ := Option.map_eq_some_iff.mp hentry
        rw [hvalue, he] at hmatch
        cases hmatch
      · rintro ⟨-, rec', hash, hr, ht⟩
        rw [fileStubPath_concat, stat_of_record (clear_of_get hthere) reads, reads] at hr
        cases hr
        rw [records] at ht
        cases ht
  | special scans unmarked there differs =>
      obtain ⟨r, h⟩ := scans
      have hclear : Clear d (q ++ [n]) := clear_of_get (by rw [there]; rintro ⟨⟩)
      have hstat : F.stat (q ++ [n]) = some (.leaf .special) := by
        rw [stat_of_get F hclear (by rw [there]; rintro _ _ ⟨⟩), there]
      have hno := resolve_eq_none (not_standsForFile hstat)
        (not_standsForDir (by rw [hstat]; rintro ⟨⟩))
      have hcap := capture_of_seen cfg hclear hno unmarked
      rw [DirTree.get_eq_leaf_iff.mp there] at hcap
      have hmatch := hpub.agrees r h none (push_of_nothing hign hcap)
      rw [scanned_unseen hcfg hnames hign h hclear unmarked (.inr there), published, differs] at hmatch
      cases hmatch
  | recorded scans splices gone alone records =>
      obtain ⟨r, h⟩ := scans
      have hnone := gone_above gone records
      have hclear : Clear d (q ++ [n]) := fun a ha x hx => by
        rw [hnone a ha] at hx
        cases hx
      have hunmarked : ¬ MarkerAbove F (q ++ [n]) := by
        rintro ⟨a, ha, hne⟩
        have hbelow : d.get (a ++ [dirStubName]) = none :=
          DirTree.get_append_of_not_dir (by rw [hnone a ha]; rintro ⟨⟩) _ []
        have hclear' : Clear d (a ++ [dirStubName]) := by
          intro b hb x hx
          obtain ⟨hnil, hpre, hne'⟩ := mem_ancestors.mp hb
          rcases List.prefix_concat_iff.mp hpre with heq | hba
          · exact hne' heq
          · obtain ⟨-, hap, hane⟩ := mem_ancestors.mp ha
            refine hclear b (mem_ancestors.mpr ⟨hnil, hba.trans hap, ?_⟩) x hx
            rintro rfl
            exact hane (hap.eq_of_length_le hba.length_le)
        exact hne (stat_of_none F hclear' hbelow)
      have hstat := stat_of_none F hclear gone
      rw [fileStubPath_concat] at alone
      have hno := resolve_eq_none (F := F) (p := q ++ [n]) ?_
        (not_standsForDir (by rw [hstat]; rintro ⟨⟩))
      · have hcap := capture_of_seen cfg hclear hno hunmarked
        rw [DirTree.get_eq_none_iff.mp gone] at hcap
        obtain ⟨out, hout, hvalue⟩ := push_succeeds hp hign hcap trivial splices
        have hmatch := entriesMatch_iff.mp (hpub.agrees r h out hout)
        rw [hvalue, scanned_unseen hcfg hnames hign h hclear hunmarked (.inl ⟨gone, alone⟩)] at hmatch
        exact records (Option.map_eq_none_iff.mp hmatch.symm)
      · rintro ⟨-, rec, hash, hr, -⟩
        rw [fileStubPath_concat, stat_of_none F (clear_beside hclear) alone] at hr
        cases hr
  | unreadable unmarked gone there unread stands holds =>
      have hclear : Clear d (q ++ [n]) := by
        rw [fileStubPath_concat] at there
        exact clear_beside (clear_of_get there)
      have hstat := stat_of_none F hclear gone
      have hno := resolve_eq_none stands (not_standsForDir (by rw [hstat]; rintro ⟨⟩))
      have hcap := capture_of_seen cfg hclear hno unmarked
      rw [DirTree.get_eq_none_iff.mp gone] at hcap
      obtain ⟨out, hout, hvalue⟩ := push_succeeds hp hign hcap trivial (not_blobAbove_of_at holds)
      exact holds (hpub.keeps gone there unread out hout (Option.map_eq_none_iff.mp hvalue))

omit hd hcfg hnames in
/-- The last sentence: a stub file that cannot be read is not taken for a deletion. -/
theorem keeps_of_not_misread (hmis : ¬ Misread cfg F base (q ++ [n])) (gone : d.get (q ++ [n]) = none)
    (there : d.get (fileStubPath (q ++ [n])) ≠ none)
    (unread : recordIn (d.get (fileStubPath (q ++ [n]))) = none) {out : Option (Tree × Tree)}
    (hout : pushPath F cfg base (q ++ [n]) = .ok out)
    (hnone : (published base out).at (q ++ [n]) = none) : (base.getD .nil).at (q ++ [n]) = none := by
  obtain ⟨x, hx⟩ := push_captured hign hout
  have hclear := capture_clear hx
  have hstat := stat_of_none F hclear gone
  by_cases hfile : StandsForFile F (q ++ [n])
  · obtain ⟨-, rec, hash, hr, ht⟩ := hfile
    have hcap := capture_of_stub cfg hclear (fileStubEntry_eq hstat hr ht)
    have hvalue := (push_ok (by simp) hign hcap trivial hout).2
    rw [hnone] at hvalue
    cases hvalue
  · have hno := resolve_eq_none hfile (not_standsForDir (by rw [hstat]; rintro ⟨⟩))
    have hunmarked : ¬ MarkerAbove F (q ++ [n]) := fun hm => capture_of_marker hno hm hx
    by_contra holds
    exact hmis (.unreadable hunmarked gone there unread hfile holds)

end Main

/-- Where there are no symlinks, following them finds nothing else. -/
def noLinks (d : Disk) : Following d where
  stat := d.get
  list p := ((d.at p).map fun x => x.children.names).getD []
  isLivePathRace _ := true
  stat_eq _ _ _ := rfl
  list_eq p s h := by rw [h]; rfl

/-- One file, in a directory. -/
def fileInDir : Disk := .sub "d" (.leaf "f" (.file ⟨1, none⟩ ⟨some 7, 3, none⟩) .nil) .nil

def plainScan : ScanConfig := stillConfig (fun _ => false) (fun _ => .ok ()) fun _ => 0

end Omemfs.Sync.Push
