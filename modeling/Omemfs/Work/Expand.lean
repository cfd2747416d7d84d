/-
# Omemfs.Work.Expand — stubs turned into what they record.

`expand` lists the stubs of the working tree, picks those in its scope that are small enough or named,
and writes out what each of them records: a file in place of its stub file, the entries of a tree beside
the marker of their directory.  Then it removes the stub.  An entry of a tree that is as large as the
threshold stays a stub, unless Git would see the stub.

What is written beside a marker is told as a layer over the directory (`LaidAs`).  Which entries of the
layer are stubs is left open, because the answers of Git may change while the entries are written.
-/
import Omemfs.Lib.Overlay
import Omemfs.Sync.CheckedApply
import Omemfs.Work.Clone

namespace Omemfs.Work

open Lib Scan Fsguard
open Omemfs.Sync.Checked (fileStubPath dirStubPath)

structure ExpandConfig where
  mach : Machine
  stubThreshold : Nat
  /-- Git would see a stub at this path. -/
  visibleToGit : Disk → Path → Bool

namespace ExpandConfig

variable (cfg : ExpandConfig)

def atThreshold (size : Nat) : Bool := decide (0 < cfg.stubThreshold) && decide (cfg.stubThreshold ≤ size)

def keepStubbed (d : Disk) (size : Nat) (stubPath : Path) : Bool :=
  cfg.atThreshold size && !cfg.visibleToGit d stubPath

end ExpandConfig

/-! ## The stubs of a working tree -/

/-- The stub that a listed file is, in the directory `dir`. -/
def stubAt (dir : Path) (n : String) : DiskLeaf → Option (Path × StubRecord)
  | .file c _ =>
      if n = metadataDirName then none
      else if n = dirStubName then
        if dir = [] then none else c.record.map fun r => (dir, r)
      else (logicalName n).bind fun l => c.record.map fun r => (dir ++ [l], r)
  | _ => none

/-- The stubs a directory lists itself. -/
def stubsHere (dir : Path) : Disk → List (Path × StubRecord)
  | .nil => []
  | .leaf n a rest => (stubAt dir n a).toList ++ stubsHere dir rest
  | .sub _ _ rest => stubsHere dir rest

/-- A marker keeps the walk from going further down. -/
def hasDirStub (d : Disk) : Bool := Sync.Checked.isFile (d.get [dirStubName])

/-- The stubs below the directories that a directory lists. -/
def collectSubs (dir : Path) : Disk → List (Path × StubRecord)
  | .nil => []
  | .leaf _ _ rest => collectSubs dir rest
  | .sub n s rest =>
      (if n = metadataDirName then []
        else stubsHere (dir ++ [n]) s ++ if hasDirStub s then [] else collectSubs (dir ++ [n]) s) ++
      collectSubs dir rest

def collect (dir : Path) (d : Disk) : List (Path × StubRecord) :=
  stubsHere dir d ++ if hasDirStub d then [] else collectSubs dir d

/-- `stub::list`. -/
def stubList (d : Disk) : List (Path × StubRecord) := collect [] d

/-! ## Writing out what is recorded -/

/-- The entries of a tree, in a directory that is there. -/
def expandEntries (cfg : ExpandConfig) : Tree → Path → Guarded DiskLeaf PUnit
  | .nil, _ => pure ⟨⟩
  | .blob n b rest, dir =>
      (fun d =>
        if cfg.keepStubbed d b.size (dir ++ [n ++ stubSuffix]) then
          atomicWrite (dir ++ [n ++ stubSuffix]) (cfg.mach.stubFile (blobRecord b)) d
        else atomicWrite (dir ++ [n]) (cfg.mach.file b) d) >>= fun _ =>
      expandEntries cfg rest dir
  | .tree n t m rest, dir =>
      (fun d =>
        if cfg.keepStubbed d m.size (dir ++ [n] ++ [dirStubName]) then
          (createDirAll (dir ++ [n]) >>= fun _ =>
            atomicWrite (dir ++ [n] ++ [dirStubName]) (cfg.mach.stubFile (treeRecord t m))) d
        else (createDirAll (dir ++ [n]) >>= fun _ => expandEntries cfg t (dir ++ [n])) d) >>= fun _ =>
      expandEntries cfg rest dir
  | .symlink n l rest, dir =>
      replaceSymlink (dir ++ [n]) (cfg.mach.link l) >>= fun _ => expandEntries cfg rest dir

def expandTreeMaterialise (cfg : ExpandConfig) (t : Tree) (dir : Path) : Guarded DiskLeaf PUnit :=
  createDirAll dir >>= fun _ => expandEntries cfg t dir

/-- One stub: the stub goes once all it records is there. -/
def expandStub (cfg : ExpandConfig) (rel : Path) (r : StubRecord) : Guarded DiskLeaf PUnit :=
  match r.target with
  | .tree t =>
      expandTreeMaterialise cfg t rel >>= fun _ => removeFileTolerant (dirStubPath rel)
  | .blob h =>
      atomicWrite rel (cfg.mach.file ⟨h, r.mtime, r.size, r.mode⟩) >>= fun _ =>
      removeFileTolerant (fileStubPath rel)

/-- The stubs to expand. -/
def toExpand (cfg : ExpandConfig) (scopes named : List Path) (d : Disk) : List (Path × StubRecord) :=
  (stubList d).filter fun x =>
    (scopes.any fun s => decide (s <+: x.1)) &&
      (decide (cfg.stubThreshold = 0) || decide (x.2.size < cfg.stubThreshold) || decide (x.1 ∈ named))

def expandAll (cfg : ExpandConfig) (scopes named : List Path) : Guarded DiskLeaf PUnit := fun d =>
  (toExpand cfg scopes named d).forM (fun x => expandStub cfg x.1 x.2) d

/-! ## What is laid out -/

/-- A layer that may be written for a tree. -/
def LaidAs (cfg : ExpandConfig) : Tree → Disk → Prop
  | .nil, l => l = .nil
  | .blob n b rest, l => ∃ l', LaidAs cfg rest l' ∧
      (l = .leaf n (cfg.mach.file b) l' ∨
        cfg.atThreshold b.size ∧ l = .leaf (n ++ stubSuffix) (cfg.mach.stubFile (blobRecord b)) l')
  | .tree n t m rest, l => ∃ l' s, LaidAs cfg rest l' ∧ l = .sub n s l' ∧
      (LaidAs cfg t s ∨
        cfg.atThreshold m.size ∧ s = .leaf dirStubName (cfg.mach.stubFile (treeRecord t m)) .nil)
  | .symlink n k rest, l => ∃ l', LaidAs cfg rest l' ∧ l = .leaf n (cfg.mach.link k) l'

/-- What a layer has under the names that belong to an entry. -/
def LaidEntry (cfg : ExpandConfig) (l : Disk) (n : String) : TreeEntry → Prop
  | .blob b =>
      (l.find? n = some (.leaf (cfg.mach.file b)) ∧ l.find? (n ++ stubSuffix) = none) ∨
        cfg.atThreshold b.size ∧ l.find? n = none ∧
          l.find? (n ++ stubSuffix) = some (.leaf (cfg.mach.stubFile (blobRecord b)))
  | .tree t m => l.find? (n ++ stubSuffix) = none ∧ ∃ s, l.find? n = some (.sub s) ∧
      (LaidAs cfg t s ∨
        cfg.atThreshold m.size ∧ s = .leaf dirStubName (cfg.mach.stubFile (treeRecord t m)) .nil)
  | .symlink k => l.find? n = some (.leaf (cfg.mach.link k)) ∧ l.find? (n ++ stubSuffix) = none

section Laid

variable {cfg : ExpandConfig} {t : Tree} {l : Disk} {n m : String} {e : TreeEntry}

/-- Nothing is laid under a name that belongs to none of the entries. -/
theorem LaidAs.find?_eq_none (h : LaidAs cfg t l) (hm : ∀ k ∈ t.names, ¬ Belongs k m) :
    l.find? m = none := by
  induction t generalizing l with
  | nil =>
      obtain rfl : l = .nil := h
      rfl
  | blob n b rest ih =>
      obtain ⟨hn, hrest⟩ := List.forall_mem_cons.mp hm
      obtain ⟨l', hl', rfl | ⟨-, rfl⟩⟩ := h
      · rw [DirTree.find?, if_neg fun heq => hn (.inl heq), ih hl' hrest]
      · rw [DirTree.find?, if_neg fun heq => hn (.inr heq), ih hl' hrest]
  | tree n t tm rest _ ih =>
      obtain ⟨hn, hrest⟩ := List.forall_mem_cons.mp hm
      obtain ⟨l', s, hl', rfl, -⟩ := h
      rw [DirTree.find?, if_neg fun heq => hn (.inl heq), ih hl' hrest]
  | symlink n k rest ih =>
      obtain ⟨hn, hrest⟩ := List.forall_mem_cons.mp hm
      obtain ⟨l', hl', rfl⟩ := h
      rw [DirTree.find?, if_neg fun heq => hn (.inl heq), ih hl' hrest]

theorem LaidEntry.congr {l' : Disk} (h : LaidEntry cfg l' n e)
    (hl : ∀ m, Belongs n m → l.find? m = l'.find? m) : LaidEntry cfg l n e := by
  have hself := hl n (.inl rfl)
  have hside := hl (n ++ stubSuffix) (.inr rfl)
  cases e <;> simpa only [LaidEntry, hself, hside] using h

/-- **`LaidAs.entry`** — what is laid for an entry. -/
theorem LaidAs.entry (hnamed : t.WellNamed) (h : LaidAs cfg t l) (he : t.find? n = some e) :
    LaidEntry cfg l n e := by
  induction t using Tree.induction_cons generalizing l with
  | nil => cases he
  | cons k e' rest _ ih =>
      obtain ⟨hfresh, hk, -, hrest⟩ := Tree.wellNamed_cons.mp hnamed
      have hother : ∀ m, Belongs k m → ∀ j ∈ rest.names, ¬ Belongs j m := others_apart hk hfresh hrest
      rw [Tree.find?_cons] at he
      by_cases hkn : n = k
      · subst hkn
        rw [if_pos rfl] at he
        cases he
        have hself : n ≠ n ++ stubSuffix := ne_stubName hk
        cases e with
        | blob b =>
            obtain ⟨l', hl', rfl | ⟨hat, rfl⟩⟩ := h
            · left
              refine ⟨by rw [DirTree.find?, if_pos rfl], ?_⟩
              rw [DirTree.find?, if_neg hself.symm, hl'.find?_eq_none (hother _ (.inr rfl))]
            · right
              refine ⟨hat, ?_, by rw [DirTree.find?, if_pos rfl]⟩
              rw [DirTree.find?, if_neg hself, hl'.find?_eq_none (hother _ (.inl rfl))]
        | tree t' m =>
            obtain ⟨l', s, hl', rfl, hs⟩ := h
            refine ⟨?_, s, by rw [DirTree.find?, if_pos rfl], hs⟩
            rw [DirTree.find?, if_neg hself.symm, hl'.find?_eq_none (hother _ (.inr rfl))]
        | symlink j =>
            obtain ⟨l', hl', rfl⟩ := h
            refine ⟨by rw [DirTree.find?, if_pos rfl], ?_⟩
            rw [DirTree.find?, if_neg hself.symm, hl'.find?_eq_none (hother _ (.inr rfl))]
      · rw [if_neg hkn] at he
        have hmem : n ∈ rest.names := by
          by_contra hno
          rw [Tree.find?_eq_none_iff.mpr hno] at he
          cases he
        -- none of these names is the first entry's
        have hne : ∀ j m, Belongs k j → Belongs n m → m ≠ j := fun j m hj hm heq =>
          hother m (heq ▸ hj) n hmem hm
        cases e' with
        | blob b =>
            obtain ⟨l', hl', rfl | ⟨-, rfl⟩⟩ := h
            · refine (ih hrest hl' he).congr fun m hm => ?_
              rw [DirTree.find?, if_neg (hne _ m (.inl rfl) hm)]
            · refine (ih hrest hl' he).congr fun m hm => ?_
              rw [DirTree.find?, if_neg (hne _ m (.inr rfl) hm)]
        | tree t' tm =>
            obtain ⟨l', s, hl', rfl, -⟩ := h
            refine (ih hrest hl' he).congr fun m hm => ?_
            rw [DirTree.find?, if_neg (hne _ m (.inl rfl) hm)]
        | symlink j =>
            obtain ⟨l', hl', rfl⟩ := h
            refine (ih hrest hl' he).congr fun m hm => ?_
            rw [DirTree.find?, if_neg (hne _ m (.inl rfl) hm)]

end Laid

/-! ## What a run writes -/

section Run

variable {cfg : ExpandConfig} {d d' : Disk} {dir : Path} {n : String}

theorem atomicWrite_ok (hdir : d.get dir = some .dir) {a : DiskLeaf}
    (h : atomicWrite (dir ++ [n]) a d = .ok ⟨⟩ d') :
    LaidOver (.leaf n a .nil) dir d.get d'.get :=
  LaidOver.leaf hdir ((atomicWrite_footprint hdir n a).lands d' h)

theorem replaceSymlink_ok (hdir : d.get dir = some .dir) {a : DiskLeaf}
    (h : replaceSymlink (dir ++ [n]) a d = .ok ⟨⟩ d') :
    LaidOver (.leaf n a .nil) dir d.get d'.get :=
  LaidOver.leaf hdir ((replaceSymlink_footprint hdir n a).lands d' h)

/-- A directory is made, and then something is laid over it. -/
theorem createDirAll_ok (hdir : d.get dir = some .dir) {s : Disk} {d₁ : Disk}
    (hmk : createDirAll (dir ++ [n]) d = .ok ⟨⟩ d₁)
    (h : d₁.get (dir ++ [n]) = some .dir → LaidOver s (dir ++ [n]) d₁.get d'.get) :
    LaidOver (.sub n s .nil) dir d.get d'.get := by
  have hget := (createDirAll_footprint hdir n).lands d₁ hmk
  exact LaidOver.sub hdir hget (h (by rw [hget, if_pos rfl]))

/-- **`expandEntries_ok`** — the entries of a tree are laid over the directory. -/
theorem expandEntries_ok {t : Tree} (hnamed : t.WellNamed) (hdir : d.get dir = some .dir)
    (h : expandEntries cfg t dir d = .ok ⟨⟩ d') :
    ∃ l, LaidAs cfg t l ∧ LaidOver l dir d.get d'.get := by
  induction t generalizing dir d d' with
  | nil =>
      cases h
      exact ⟨.nil, rfl, LaidOver.nil hdir⟩
  | blob n b rest ih =>
      obtain ⟨hfresh, hn, hrest⟩ := hnamed
      have hother := others_apart hn hfresh hrest
      obtain ⟨⟨⟩, d₁, h₁, h⟩ := bind_ok h
      split_ifs at h₁ with hkeep
      · have hput := atomicWrite_ok hdir h₁
        obtain ⟨l, hl, hover⟩ := ih hrest hput.inside.get_dir h
        rw [ExpandConfig.keepStubbed, Bool.and_eq_true] at hkeep
        exact ⟨_, ⟨l, hl, .inr ⟨hkeep.1, rfl⟩⟩,
          LaidOver.cons (x := .leaf _) hput hover (hl.find?_eq_none (hother _ (.inr rfl)))⟩
      · have hput := atomicWrite_ok hdir h₁
        obtain ⟨l, hl, hover⟩ := ih hrest hput.inside.get_dir h
        exact ⟨_, ⟨l, hl, .inl rfl⟩,
          LaidOver.cons (x := .leaf _) hput hover (hl.find?_eq_none (hother _ (.inl rfl)))⟩
  | tree n t m rest iht ih =>
      obtain ⟨hfresh, hn, ht, hrest⟩ := hnamed
      have hother := others_apart hn hfresh hrest
      obtain ⟨⟨⟩, d₁, h₁, h⟩ := bind_ok h
      -- the directory of the entry, filled one way or the other
      obtain ⟨s, hs, hsub⟩ : ∃ s, (LaidAs cfg t s ∨ cfg.atThreshold m.size ∧
          s = .leaf dirStubName (cfg.mach.stubFile (treeRecord t m)) .nil) ∧
          LaidOver (.sub n s .nil) dir d.get d₁.get := by
        split_ifs at h₁ with hkeep
        · obtain ⟨⟨⟩, d₂, hmk, h₁⟩ := bind_ok h₁
          rw [ExpandConfig.keepStubbed, Bool.and_eq_true] at hkeep
          exact ⟨_, .inr ⟨hkeep.1, rfl⟩, createDirAll_ok hdir hmk fun hdir' => atomicWrite_ok hdir' h₁⟩
        · obtain ⟨⟨⟩, d₂, hmk, h₁⟩ := bind_ok h₁
          have hdir' : d₂.get (dir ++ [n]) = some .dir := by
            rw [(createDirAll_footprint hdir n).lands d₂ hmk, if_pos rfl]
          obtain ⟨s, hs, hover⟩ := iht ht hdir' h₁
          exact ⟨s, .inl hs, createDirAll_ok hdir hmk fun _ => hover⟩
      obtain ⟨l, hl, hover⟩ := ih hrest hsub.inside.get_dir h
      exact ⟨_, ⟨l, s, hl, rfl, hs⟩,
        LaidOver.cons (x := .sub _) hsub hover (hl.find?_eq_none (hother _ (.inl rfl)))⟩
  | symlink n k rest ih =>
      obtain ⟨hfresh, hn, hrest⟩ := hnamed
      have hother := others_apart hn hfresh hrest
      obtain ⟨⟨⟩, d₁, h₁, h⟩ := bind_ok h
      have hput := replaceSymlink_ok hdir h₁
      obtain ⟨l, hl, hover⟩ := ih hrest hput.inside.get_dir h
      exact ⟨_, ⟨l, hl, rfl⟩,
        LaidOver.cons (x := .leaf _) hput hover (hl.find?_eq_none (hother _ (.inl rfl)))⟩

end Run

end Omemfs.Work
