/-
# Omemfs.Work.Clone — a root laid down in a working tree.

`expandOrStub` goes through the entries of a tree in their order.  A large entry becomes a stub, unless a
Git working tree is around it; any other is written out.  With `--force` an entry is left out where the
destination has something already, as `exists` sees it: a symlink is followed there, and counts as
nothing where it leads nowhere.  The branch for symlinks does not ask, and neither do the writers of stub
records.

Where a symlink leads is answered by `leads`, for each path the one time the clone asks.
-/
import Omemfs.Scan.WellFormed
import Omemfs.Sync.Diff
import Omemfs.Work.Write

namespace Omemfs.Work

open Lib Scan Fsguard

structure CloneConfig where
  mach : Machine
  threshold : Nat
  force : Bool
  /-- what the symlink at a path leads to -/
  leads : Path → Option EntryKind

namespace CloneConfig

variable (cfg : CloneConfig)

/-- `Path::exists`. -/
def present (g : Lstat) (p : Path) : Bool :=
  match g p with
  | none => false
  | some (.leaf (.symlink _ _)) => (cfg.leads p).isSome
  | some _ => true

/-- `Path::is_dir`. -/
def presentDir (g : Lstat) (p : Path) : Bool :=
  match g p with
  | some .dir => true
  | some (.leaf (.symlink _ _)) => cfg.leads p == some .dir
  | _ => false

def skipsBlob (g : Lstat) (p : Path) : Bool := cfg.force && cfg.present g p

def skipsTree (g : Lstat) (p : Path) : Bool := cfg.force && cfg.present g p && !cfg.presentDir g p

def shouldStub (size : Nat) (inGit : Bool) : Bool :=
  decide (0 < cfg.threshold) && decide (cfg.threshold ≤ size) && !inGit

/-- Where a blob goes, and as what. -/
def blobName (inGit : Bool) (n : String) (b : Blob) : String :=
  if cfg.shouldStub b.size inGit then n ++ stubSuffix else n

def blobLeaf (inGit : Bool) (b : Blob) : DiskLeaf :=
  if cfg.shouldStub b.size inGit then cfg.mach.stubFile (blobRecord b) else cfg.mach.file b

end CloneConfig

/-! ## The walk -/

def cloneBlob (cfg : CloneConfig) (dir : Path) (inGit : Bool) (n : String) (b : Blob) :
    Guarded DiskLeaf PUnit := fun d =>
  if cfg.skipsBlob d.get (dir ++ [n]) then .ok ⟨⟩ d
  else atomicWrite (dir ++ [cfg.blobName inGit n b]) (cfg.blobLeaf inGit b) d

/-- `descend` lays down the entries of the directory, once it is there. -/
def cloneTree (cfg : CloneConfig) (dir : Path) (inGit : Bool) (n : String) (t : Tree) (m : TreeMeta)
    (descend : Guarded DiskLeaf PUnit) : Guarded DiskLeaf PUnit := fun d =>
  if cfg.skipsTree d.get (dir ++ [n]) then .ok ⟨⟩ d
  else
    (createDirAll (dir ++ [n]) >>= fun _ =>
      if cfg.shouldStub m.size inGit then
        atomicWrite (dir ++ [n] ++ [dirStubName]) (cfg.mach.stubFile (treeRecord t m))
      else descend) d

def cloneSymlink (cfg : CloneConfig) (dir : Path) (n : String) (l : Symlink) :
    Guarded DiskLeaf PUnit := replaceSymlink (dir ++ [n]) (cfg.mach.link l)

/-- The entries of one directory.  The directory is in a Git working tree when it is inside one or has a
directory named `.git` itself, as well as below one of that name. -/
def cloneEntries (cfg : CloneConfig) : Tree → Path → Bool → Guarded DiskLeaf PUnit
  | .nil, _, _ => pure ⟨⟩
  | .blob n b rest, dir, inGit =>
      cloneBlob cfg dir inGit n b >>= fun _ => cloneEntries cfg rest dir inGit
  | .tree n t m rest, dir, inGit =>
      cloneTree cfg dir inGit n t m (cloneEntries cfg t (dir ++ [n]) (Sync.childInGit inGit n t)) >>=
        fun _ => cloneEntries cfg rest dir inGit
  | .symlink n l rest, dir, inGit =>
      cloneSymlink cfg dir n l >>= fun _ => cloneEntries cfg rest dir inGit

def expandOrStub (cfg : CloneConfig) (t : Tree) (dir : Path) (inGit : Bool) : Guarded DiskLeaf PUnit :=
  createDirAll dir >>= fun _ => cloneEntries cfg t dir (inGit || Sync.treeContainsGitDir t)


/-! ## Whose name a name is -/

/-- The names in a directory that an entry of a tree may be found under. -/
def Belongs (n m : String) : Prop := m = n ∨ m = n ++ stubSuffix

theorem ne_stubName {n k : String} (hn : ValidName n) : n ≠ k ++ stubSuffix := by
  intro h
  have hl : logicalName n = some k := stripSuffix_eq_some.mpr h
  rw [(kept_of_valid hn).2] at hl
  cases hl

theorem Belongs.unique {n k m : String} (hn : ValidName n) (hk : ValidName k) (h : Belongs n m)
    (h' : Belongs k m) : n = k := by
  rcases h with rfl | rfl <;> rcases h' with h' | h'
  · exact h'
  · exact absurd h' (ne_stubName hn)
  · exact absurd h'.symm (ne_stubName hk)
  · have hs : stripSuffix (n ++ stubSuffix) stubSuffix = some n := stripSuffix_eq_some.mpr rfl
    rw [stripSuffix_eq_some.mpr h'] at hs
    exact (Option.some.inj hs).symm

/-- What an entry may touch in its directory. -/
def Own (dir : Path) (n : String) (q : Path) : Prop := ∃ m r, Belongs n m ∧ q = dir ++ m :: r

def Territory (dir : Path) (t : Tree) (q : Path) : Prop := ∃ n ∈ t.names, Own dir n q

theorem own_self (dir : Path) (n : String) (r : Path) : Own dir n (dir ++ n :: r) :=
  ⟨n, r, .inl rfl, rfl⟩

theorem not_own_dir (dir : Path) (n : String) : ¬ Own dir n dir := by
  rintro ⟨m, r, -, h⟩
  simpa using congrArg List.length h

theorem own_apart {dir q : Path} {n k : String} (hn : ValidName n) (hk : ValidName k) (hne : n ≠ k)
    (h : Own dir n q) : ¬ Own dir k q := by
  rintro ⟨m, r, hm, rfl⟩
  obtain ⟨m', r', hm', heq⟩ := h
  obtain ⟨rfl, -⟩ := List.cons.inj (List.append_cancel_left heq)
  exact hne (hm'.unique hn hk hm)

theorem territory_apart {dir q : Path} {n : String} {rest : Tree} (hn : ValidName n)
    (hfresh : n ∉ rest.names) (hrest : rest.WellNamed) (h : Own dir n q) : ¬ Territory dir rest q := by
  rintro ⟨k, hk, hown⟩
  exact own_apart hn (hrest.valid hk) (fun heq => hfresh (heq ▸ hk)) h hown

/-- The names of the other entries belong to them alone. -/
theorem others_apart {n : String} {rest : Tree} (hn : ValidName n) (hfresh : n ∉ rest.names)
    (hrest : rest.WellNamed) (m : String) (hm : Belongs n m) : ∀ k ∈ rest.names, ¬ Belongs k m :=
  fun _ hk hb => hfresh (hm.unique hn (hrest.valid hk) hb ▸ hk)

/-! ## What is in the way -/

section Obstacles

variable (cfg : CloneConfig) (g : Lstat)

/-- No file can take the place of a directory. -/
def blobStops (dir : Path) (inGit : Bool) (n : String) (b : Blob) : Prop :=
  cfg.skipsBlob g (dir ++ [n]) = false ∧ g (dir ++ [cfg.blobName inGit n b]) = some .dir

/-- A file or symlink is in the place of what is written. -/
def blobOverwrites (dir : Path) (inGit : Bool) (n : String) (b : Blob) : Prop :=
  cfg.skipsBlob g (dir ++ [n]) = false ∧
    ∃ k, g (dir ++ [cfg.blobName inGit n b]) = some (.leaf k) ∧ k ≠ cfg.blobLeaf inGit b

def treeStops (dir : Path) (inGit : Bool) (n : String) (m : TreeMeta) (inside : Prop) : Prop :=
  cfg.skipsTree g (dir ++ [n]) = false ∧
    ((∃ k, g (dir ++ [n]) = some (.leaf k)) ∨
      if cfg.shouldStub m.size inGit then g (dir ++ [n] ++ [dirStubName]) = some .dir else inside)

def treeOverwrites (dir : Path) (inGit : Bool) (n : String) (t : Tree) (m : TreeMeta)
    (inside : Prop) : Prop :=
  cfg.skipsTree g (dir ++ [n]) = false ∧ (∀ k, g (dir ++ [n]) ≠ some (.leaf k)) ∧
    if cfg.shouldStub m.size inGit then
      ∃ k, g (dir ++ [n] ++ [dirStubName]) = some (.leaf k) ∧ k ≠ cfg.mach.stubFile (treeRecord t m)
    else inside

def linkStops (dir : Path) (n : String) : Prop :=
  g (dir ++ [n]) = some .dir ∧ ∃ m, g (dir ++ [n] ++ [m]) ≠ none

/-- A symlink takes the place of a file, of another symlink and of an empty directory. -/
def linkOverwrites (dir : Path) (n : String) (l : Symlink) : Prop :=
  (∃ k, g (dir ++ [n]) = some (.leaf k) ∧ k ≠ cfg.mach.link l) ∨
    (g (dir ++ [n]) = some .dir ∧ ∀ m, g (dir ++ [n] ++ [m]) = none)

/-- One of the entries cannot be laid down, and the clone ends there. -/
def Stops : Tree → Path → Bool → Prop
  | .nil, _, _ => False
  | .blob n b rest, dir, inGit => blobStops cfg g dir inGit n b ∨ Stops rest dir inGit
  | .tree n t m rest, dir, inGit =>
      treeStops cfg g dir inGit n m (Stops t (dir ++ [n]) (Sync.childInGit inGit n t)) ∨
        Stops rest dir inGit
  | .symlink n _ rest, dir, inGit => linkStops g dir n ∨ Stops rest dir inGit

/-- Up to the entry where the clone ends, one of them is laid down over something else. -/
def Overwrites : Tree → Path → Bool → Prop
  | .nil, _, _ => False
  | .blob n b rest, dir, inGit =>
      blobOverwrites cfg g dir inGit n b ∨ ¬ blobStops cfg g dir inGit n b ∧ Overwrites rest dir inGit
  | .tree n t m rest, dir, inGit =>
      treeOverwrites cfg g dir inGit n t m (Overwrites t (dir ++ [n]) (Sync.childInGit inGit n t)) ∨
        ¬ treeStops cfg g dir inGit n m (Stops cfg g t (dir ++ [n]) (Sync.childInGit inGit n t)) ∧
          Overwrites rest dir inGit
  | .symlink n l rest, dir, inGit =>
      linkOverwrites cfg g dir n l ∨ ¬ linkStops g dir n ∧ Overwrites rest dir inGit

end Obstacles


/-! ## One entry -/

section Entry

variable {cfg : CloneConfig} {d : Disk} {dir : Path} {inGit : Bool} {n : String}

theorem blobName_belongs (cfg : CloneConfig) (inGit : Bool) (n : String) (b : Blob) :
    Belongs n (cfg.blobName inGit n b) := by
  unfold CloneConfig.blobName
  split_ifs
  · exact .inr rfl
  · exact .inl rfl

theorem cloneBlob_footprint (hdir : d.get dir = some .dir) (b : Blob) :
    Footprint (cloneBlob cfg dir inGit n b) d (Own dir n) (¬ blobStops cfg d.get dir inGit n b)
      (blobOverwrites cfg d.get dir inGit n b) fun d' =>
        cfg.skipsBlob d.get (dir ++ [n]) = false → ∀ q, d'.get q =
          if q = dir ++ [cfg.blobName inGit n b] then some (.leaf (cfg.blobLeaf inGit b)) else d.get q := by
  unfold blobStops blobOverwrites
  cases hskip : cfg.skipsBlob d.get (dir ++ [n]) with
  | true =>
      have hrun : cloneBlob cfg dir inGit n b d = (pure ⟨⟩ : Guarded DiskLeaf PUnit) d := by
        simp only [cloneBlob, hskip, if_true]
        rfl
      exact ((Footprint.pure d).of_run hrun).congr (fun _ h => h.elim) (by simp) (by simp)
        fun _ _ _ h => by cases h
  | false =>
      have hrun : cloneBlob cfg dir inGit n b d =
          atomicWrite (dir ++ [cfg.blobName inGit n b]) (cfg.blobLeaf inGit b) d := by
        simp only [cloneBlob, hskip, Bool.false_eq_true, if_false]
      refine ((atomicWrite_footprint hdir _ _).of_run hrun).congr ?_ (by simp) (by simp)
        fun _ _ hpost _ => hpost
      rintro q rfl
      exact ⟨_, [], blobName_belongs cfg inGit n b, rfl⟩

theorem cloneSymlink_footprint (hdir : d.get dir = some .dir) (l : Symlink) :
    Footprint (cloneSymlink cfg dir n l) d (Own dir n) (¬ linkStops d.get dir n)
      (linkOverwrites cfg d.get dir n l) fun d' => ∀ q, d'.get q =
        if q = dir ++ [n] then some (.leaf (cfg.mach.link l)) else d.get q := by
  refine (replaceSymlink_footprint hdir n (cfg.mach.link l)).congr ?_ ?_ Iff.rfl fun _ _ hpost => hpost
  · rintro q rfl
    exact own_self dir n []
  · simp [linkStops]

/-- What a descent does is told by what it does once the directory is there. -/
theorem cloneTree_footprint (hdir : d.get dir = some .dir) (t : Tree) (m : TreeMeta)
    {descend : Guarded DiskLeaf PUnit} {R : Path → Prop} {stops spoils : Prop} {post : Disk → Prop}
    (hsub : ∀ d', (∀ q, d'.get q = if q = dir ++ [n] then some .dir else d.get q) →
      Footprint descend d' R (¬ stops) spoils post)
    (hR : ∀ q, R q → ∃ k r, q = dir ++ [n] ++ k :: r) :
    Footprint (cloneTree cfg dir inGit n t m descend) d (Own dir n)
      (¬ treeStops cfg d.get dir inGit n m stops) (treeOverwrites cfg d.get dir inGit n t m spoils)
      fun d'' => cfg.skipsTree d.get (dir ++ [n]) = false →
        if cfg.shouldStub m.size inGit then ∀ q, d''.get q =
          if q = dir ++ [n] ++ [dirStubName] then some (.leaf (cfg.mach.stubFile (treeRecord t m)))
          else if q = dir ++ [n] then some .dir else d.get q
        else (∀ q, ¬ R q → d''.get q = if q = dir ++ [n] then some .dir else d.get q) ∧ post d'' := by
  unfold treeStops treeOverwrites
  cases hskip : cfg.skipsTree d.get (dir ++ [n]) with
  | true =>
      have hrun : cloneTree cfg dir inGit n t m descend d = (pure ⟨⟩ : Guarded DiskLeaf PUnit) d := by
        simp only [cloneTree, hskip, if_true]
        rfl
      exact ((Footprint.pure d).of_run hrun).congr (fun _ h => h.elim) (by simp) (by simp)
        fun _ _ _ h => by cases h
  | false =>
      have hmk := createDirAll_footprint hdir n
      have hne : ∀ k r, dir ++ [n] ++ k :: r ≠ dir ++ [n] := fun k r h => by
        simpa using congrArg List.length h
      by_cases hstub : cfg.shouldStub m.size inGit = true
      · have hrun : cloneTree cfg dir inGit n t m descend d =
            (createDirAll (dir ++ [n]) >>= fun _ =>
              atomicWrite (dir ++ [n] ++ [dirStubName]) (cfg.mach.stubFile (treeRecord t m))) d := by
          simp only [cloneTree, hskip, hstub, Bool.false_eq_true, if_false, if_true]
        have hmark : ∀ d' : Disk, (∀ q, d'.get q = if q = dir ++ [n] then some .dir else d.get q) →
            Footprint (atomicWrite (dir ++ [n] ++ [dirStubName]) (cfg.mach.stubFile (treeRecord t m)))
              d' (· = dir ++ [n] ++ [dirStubName]) (d.get (dir ++ [n] ++ [dirStubName]) ≠ some .dir)
              (∃ k, d.get (dir ++ [n] ++ [dirStubName]) = some (.leaf k) ∧
                k ≠ cfg.mach.stubFile (treeRecord t m)) fun d'' =>
              d''.get (dir ++ [n] ++ [dirStubName]) =
                some (.leaf (cfg.mach.stubFile (treeRecord t m))) := by
          intro d' hget
          have hthere : d'.get (dir ++ [n]) = some .dir := by rw [hget, if_pos rfl]
          have hsame : d'.get (dir ++ [n] ++ [dirStubName]) = d.get (dir ++ [n] ++ [dirStubName]) := by
            rw [hget, if_neg (hne _ _)]
          have h := atomicWrite_footprint hthere dirStubName (cfg.mach.stubFile (treeRecord t m))
          rw [hsame] at h
          exact h.congr (fun _ h => h) Iff.rfl Iff.rfl fun d'' _ hpost => by rw [hpost, if_pos rfl]
        have hall := hmk.bind (fun d' _ hget _ => hmark d' hget) fun q hq h => hne _ _ (h.symm.trans hq)
        refine (hall.of_run hrun).congr ?_ ?_ ?_ ?_
        · rintro q (rfl | rfl)
          · exact own_self dir n []
          · rw [List.append_assoc]
            exact own_self dir n [dirStubName]
        · simp [hstub]
        · simp [hstub]
        · rintro d'' - ⟨d', hget, -, hframe, hpost⟩ -
          rw [if_pos hstub]
          intro q
          split_ifs with h1 h2
          · rw [h1, hpost]
          · rw [hframe q h1, hget, if_pos h2]
          · rw [hframe q h1, hget, if_neg h2]
      · have hrun : cloneTree cfg dir inGit n t m descend d =
            (createDirAll (dir ++ [n]) >>= fun _ => descend) d := by
          simp only [cloneTree, hskip, hstub, Bool.false_eq_true, if_false]
        have hall := hmk.bind (fun d' _ hget _ => hsub d' hget) (by
          rintro q rfl h
          obtain ⟨k, r, h⟩ := hR _ h
          exact hne k r h.symm)
        refine (hall.of_run hrun).congr ?_ ?_ ?_ ?_
        · rintro q (rfl | h)
          · exact own_self dir n []
          · obtain ⟨k, r, rfl⟩ := hR q h
            rw [List.append_assoc]
            exact own_self dir n (k :: r)
        · simp [hstub]
        · simp [hstub]
        · rintro d'' - ⟨d', hget, -, hframe, hpost⟩ -
          rw [if_neg hstub]
          exact ⟨fun q hq => by rw [hframe q hq, hget], hpost⟩

end Entry


/-! ## What is laid down where nothing was -/

/-- The entries of a tree, laid down in an empty directory. -/
def laidDown (cfg : CloneConfig) : Tree → Bool → Disk
  | .nil, _ => .nil
  | .blob n b rest, inGit =>
      .leaf (cfg.blobName inGit n b) (cfg.blobLeaf inGit b) (laidDown cfg rest inGit)
  | .tree n t m rest, inGit =>
      .sub n
        (if cfg.shouldStub m.size inGit then .leaf dirStubName (cfg.mach.stubFile (treeRecord t m)) .nil
          else laidDown cfg t (Sync.childInGit inGit n t))
        (laidDown cfg rest inGit)
  | .symlink n l rest, inGit => .leaf n (cfg.mach.link l) (laidDown cfg rest inGit)

/-- Nothing is laid down under a name that belongs to none of the entries. -/
theorem find?_laidDown (cfg : CloneConfig) {t : Tree} (inGit : Bool) {m : String}
    (h : ∀ k ∈ t.names, ¬ Belongs k m) : (laidDown cfg t inGit).find? m = none := by
  induction t with
  | nil => rfl
  | blob n b rest ih =>
      obtain ⟨hn, hrest⟩ := List.forall_mem_cons.mp h
      have hne : m ≠ cfg.blobName inGit n b := fun heq => hn (heq ▸ blobName_belongs cfg inGit n b)
      rw [laidDown, DirTree.find?, if_neg hne, ih hrest]
  | tree n t m' rest _ ih =>
      obtain ⟨hn, hrest⟩ := List.forall_mem_cons.mp h
      rw [laidDown, DirTree.find?, if_neg fun heq => hn (.inl heq), ih hrest]
  | symlink n l rest ih =>
      obtain ⟨hn, hrest⟩ := List.forall_mem_cons.mp h
      rw [laidDown, DirTree.find?, if_neg fun heq => hn (.inl heq), ih hrest]

/-- Under the names of one entry there is what the clone has laid down, and else what was there. -/
def Laid (cfg : CloneConfig) (t : Tree) (dir : Path) (inGit : Bool) (g : Lstat) (n : String)
    (d : Disk) : Prop :=
  ∀ m r, Belongs n m →
    d.get (dir ++ m :: r) = ((laidDown cfg t inGit).get (m :: r)).or (g (dir ++ m :: r))

/-- Every entry of whose name there was nothing is laid down. -/
def Lands (cfg : CloneConfig) (t : Tree) (dir : Path) (inGit : Bool) (g : Lstat) (d : Disk) : Prop :=
  ∀ n ∈ t.names, g (dir ++ [n]) = none → Laid cfg t dir inGit g n d

theorem Laid.congr {cfg : CloneConfig} {t : Tree} {dir : Path} {inGit : Bool} {g g' : Lstat}
    {n : String} {d d' : Disk} (h : Laid cfg t dir inGit g n d)
    (hg : ∀ q, Own dir n q → g' q = g q) (hd : ∀ q, Own dir n q → d'.get q = d.get q) :
    Laid cfg t dir inGit g' n d' := by
  intro m r hm
  rw [hd _ ⟨m, r, hm, rfl⟩, hg _ ⟨m, r, hm, rfl⟩]
  exact h m r hm

theorem Lands.congr {cfg : CloneConfig} {t : Tree} {dir : Path} {inGit : Bool} {g g' : Lstat} {d : Disk}
    (h : Lands cfg t dir inGit g d) (hg : ∀ q, Territory dir t q → g q = g' q) :
    Lands cfg t dir inGit g' d := by
  intro n hn hnone
  refine (h n hn ?_).congr (fun q hq => (hg q ⟨n, hn, hq⟩).symm) fun _ _ => rfl
  rw [hg _ ⟨n, hn, own_self dir n []⟩, hnone]

/-- The directory that was empty before. -/
theorem Lands.get {cfg : CloneConfig} {t : Tree} {dir : Path} {inGit : Bool} {g : Lstat} {d : Disk}
    (h : Lands cfg t dir inGit g d) (hempty : ∀ m r, g (dir ++ m :: r) = none)
    (hframe : ∀ q, ¬ Territory dir t q → q ≠ dir → d.get q = g q) (m : String) (r : Path) :
    d.get (dir ++ m :: r) = (laidDown cfg t inGit).get (m :: r) := by
  by_cases hm : ∃ n ∈ t.names, Belongs n m
  · obtain ⟨n, hn, hm⟩ := hm
    rw [h n hn (hempty n []) m r hm, hempty, Option.or_none]
  · have hout : ¬ Territory dir t (dir ++ m :: r) := by
      rintro ⟨n, hn, m', r', hm', heq⟩
      obtain ⟨rfl, -⟩ := List.cons.inj (List.append_cancel_left heq)
      exact hm ⟨n, hn, hm'⟩
    have hne : dir ++ m :: r ≠ dir := fun heq => by simpa using congrArg List.length heq
    have hnone : (laidDown cfg t inGit).find? m = none :=
      find?_laidDown cfg inGit fun n hn hb => hm ⟨n, hn, hb⟩
    rw [hframe _ hout hne, hempty, DirTree.get, DirTree.at_cons, hnone]
    rfl

/-! ## What the way depends on -/

section Congr

variable {cfg : CloneConfig} {g g' : Lstat}

theorem skipsBlob_congr {p : Path} (h : g p = g' p) : cfg.skipsBlob g p = cfg.skipsBlob g' p := by
  simp only [CloneConfig.skipsBlob, CloneConfig.present, h]

theorem skipsTree_congr {p : Path} (h : g p = g' p) : cfg.skipsTree g p = cfg.skipsTree g' p := by
  simp only [CloneConfig.skipsTree, CloneConfig.present, CloneConfig.presentDir, h]

theorem territory_below {dir q : Path} {n : String} {t : Tree} (h : Territory (dir ++ [n]) t q) :
    Own dir n q := by
  obtain ⟨k, -, m, r, -, rfl⟩ := h
  rw [List.append_assoc]
  exact own_self dir n (m :: r)

/-- Only the names of the entries are looked at. -/
theorem obstacles_congr (cfg : CloneConfig) {t : Tree} {dir : Path} (inGit : Bool)
    (h : ∀ q, Territory dir t q → g q = g' q) :
    (Stops cfg g t dir inGit ↔ Stops cfg g' t dir inGit) ∧
      (Overwrites cfg g t dir inGit ↔ Overwrites cfg g' t dir inGit) := by
  induction t generalizing dir inGit with
  | nil => exact ⟨Iff.rfl, Iff.rfl⟩
  | blob n b rest ih =>
      have hn : ∀ q, Own dir n q → g q = g' q := fun q hq => h q ⟨n, List.mem_cons_self, hq⟩
      obtain ⟨hs, ho⟩ := ih inGit fun q ⟨k, hk, hq⟩ => h q ⟨k, List.mem_cons_of_mem _ hk, hq⟩
      have hself := hn _ (own_self dir n [])
      have hplace := hn _ ⟨_, [], blobName_belongs cfg inGit n b, rfl⟩
      simp only [Stops, Overwrites, blobStops, blobOverwrites, skipsBlob_congr hself, hplace, hs, ho,
        and_self]
  | tree n t m rest iht ih =>
      have hn : ∀ q, Own dir n q → g q = g' q := fun q hq => h q ⟨n, List.mem_cons_self, hq⟩
      obtain ⟨hs, ho⟩ := ih inGit fun q ⟨k, hk, hq⟩ => h q ⟨k, List.mem_cons_of_mem _ hk, hq⟩
      obtain ⟨hs', ho'⟩ := iht (Sync.childInGit inGit n t) fun q hq => hn q (territory_below hq)
      have hself := hn _ (own_self dir n [])
      have hmarker : g (dir ++ [n] ++ [dirStubName]) = g' (dir ++ [n] ++ [dirStubName]) := by
        rw [List.append_assoc]
        exact hn _ (own_self dir n [dirStubName])
      simp only [Stops, Overwrites, treeStops, treeOverwrites, skipsTree_congr hself, hself, hmarker, hs,
        ho, hs', ho', and_self]
  | symlink n l rest ih =>
      have hn : ∀ q, Own dir n q → g q = g' q := fun q hq => h q ⟨n, List.mem_cons_self, hq⟩
      obtain ⟨hs, ho⟩ := ih inGit fun q ⟨k, hk, hq⟩ => h q ⟨k, List.mem_cons_of_mem _ hk, hq⟩
      have hself := hn _ (own_self dir n [])
      have hbelow : ∀ m, g (dir ++ [n] ++ [m]) = g' (dir ++ [n] ++ [m]) := fun m => by
        rw [List.append_assoc]
        exact hn _ (own_self dir n [m])
      simp only [Stops, Overwrites, linkStops, linkOverwrites, hself, hbelow, hs, ho, and_self]

end Congr


/-! ## The whole walk -/

section Walk

variable {cfg : CloneConfig}

/-- What running through the entries of a directory does. -/
def Lays (cfg : CloneConfig) (t : Tree) (dir : Path) (inGit : Bool) (d : Disk) : Prop :=
  Footprint (cloneEntries cfg t dir inGit) d (Territory dir t) (¬ Stops cfg d.get t dir inGit)
    (Overwrites cfg d.get t dir inGit) (Lands cfg t dir inGit d.get)

/-- The first entry, and then the others: they keep to their own names. -/
theorem lays_cons {first : Guarded DiskLeaf PUnit} {n : String} {rest : Tree} {dir : Path} {inGit : Bool}
    {d : Disk} {stops spoils : Prop} {post : Disk → Prop} (hdir : d.get dir = some .dir)
    (hn : ValidName n) (hfresh : n ∉ rest.names) (hrest : rest.WellNamed)
    (hfirst : Footprint first d (Own dir n) (¬ stops) spoils post)
    (ih : ∀ d' : Disk, d'.get dir = some .dir → Lays cfg rest dir inGit d') :
    Footprint (first >>= fun _ => cloneEntries cfg rest dir inGit) d
      (fun q => Own dir n q ∨ Territory dir rest q) (¬ (stops ∨ Stops cfg d.get rest dir inGit))
      (spoils ∨ ¬ stops ∧ Overwrites cfg d.get rest dir inGit) fun d'' =>
        (∃ d', post d' ∧ ∀ q, Own dir n q → d''.get q = d'.get q) ∧
          Lands cfg rest dir inGit d.get d'' := by
  have hapart : ∀ q, Own dir n q → ¬ Territory dir rest q :=
    fun q hq => territory_apart hn hfresh hrest hq
  have hall := hfirst.bind (fun d' _ _ hframe => by
    have hdir' : d'.get dir = some .dir := by rw [hframe _ (not_own_dir dir n), hdir]
    have hsame : ∀ q, Territory dir rest q → d'.get q = d.get q :=
      fun q hq => hframe q fun h => hapart q h hq
    obtain ⟨hs, ho⟩ := obstacles_congr cfg inGit hsame
    exact (ih d' hdir').congr (fun _ h => h) (not_congr hs) ho
      fun d'' _ hlands => hlands.congr hsame) hapart
  refine hall.congr (fun _ h => h) not_or.symm Iff.rfl ?_
  rintro d'' - ⟨d', hpost, -, hframe, hlands⟩
  exact ⟨⟨d', hpost, fun q hq => hframe q (hapart q hq)⟩, hlands⟩

/-- The names of the others are laid down as without the first entry. -/
theorem Lands.cons {t rest : Tree} {n : String} {dir : Path} {inGit : Bool} {g : Lstat} {d : Disk}
    (hnames : t.names = n :: rest.names)
    (hlaid : ∀ k ∈ rest.names, ∀ m, Belongs k m →
      (laidDown cfg t inGit).find? m = (laidDown cfg rest inGit).find? m)
    (hfirst : g (dir ++ [n]) = none → Laid cfg t dir inGit g n d)
    (hrest : Lands cfg rest dir inGit g d) : Lands cfg t dir inGit g d := by
  intro k hk hnone
  rw [hnames] at hk
  rcases List.mem_cons.mp hk with rfl | hk
  · exact hfirst hnone
  · intro m r hm
    rw [hrest k hk hnone m r hm, DirTree.get, DirTree.get, DirTree.at_cons, DirTree.at_cons,
      hlaid k hk m hm]

/-- A leaf laid down under one of the entry's names. -/
theorem laid_of_leaf {t : Tree} {dir : Path} {inGit : Bool} {g : Lstat} {d : Disk} {n nm : String}
    {x : DiskLeaf} (hfind : ∀ m, Belongs n m →
      (laidDown cfg t inGit).find? m = if m = nm then some (.leaf x) else none)
    (hput : ∀ q, d.get q = if q = dir ++ [nm] then some (.leaf x) else g q) :
    Laid cfg t dir inGit g n d := by
  intro m r hm
  have hfind := hfind m hm
  rw [hput]
  by_cases hname : m = nm
  · subst hname
    rw [if_pos rfl] at hfind
    rw [DirTree.get_cons_of_leaf hfind]
    by_cases hr : r = []
    · simp [hr]
    · have hne : ¬ dir ++ m :: r = dir ++ [m] := fun heq => by
        simp at heq
        exact hr heq
      rw [if_neg hne, if_neg hr, Option.none_or]
  · rw [if_neg hname] at hfind
    have hne : ¬ dir ++ m :: r = dir ++ [nm] := fun heq =>
      hname (List.cons.inj (List.append_cancel_left heq)).1
    rw [if_neg hne, DirTree.get_cons_of_none hfind, Option.none_or]

/-- A directory laid down under the entry's name. -/
theorem laid_of_dir {t : Tree} {dir : Path} {inGit : Bool} {g : Lstat} {d s : Disk} {n : String}
    (hfind : ∀ m, Belongs n m → (laidDown cfg t inGit).find? m = if m = n then some (.sub s) else none)
    (hnone : ∀ r, g (dir ++ n :: r) = none) (hget : ∀ r, d.get (dir ++ [n] ++ r) = s.get r)
    (hother : ∀ m r, m ≠ n → d.get (dir ++ m :: r) = g (dir ++ m :: r)) : Laid cfg t dir inGit g n d := by
  intro m r hm
  have hfind := hfind m hm
  by_cases hname : m = n
  · subst hname
    rw [if_pos rfl] at hfind
    rw [DirTree.get_cons_of_sub hfind, hnone, Option.or_none, ← hget]
    simp
  · rw [if_neg hname] at hfind
    rw [hother m r hname, DirTree.get_cons_of_none hfind, Option.none_or]

/-- A directory laid down as a stub: its marker alone. -/
theorem get_of_marker {dir : Path} {n : String} {g : Lstat} {d : Disk} {x : DiskLeaf}
    (hnone : ∀ k r, g (dir ++ [n] ++ k :: r) = none)
    (hput : ∀ q, d.get q = if q = dir ++ [n] ++ [dirStubName] then some (.leaf x)
      else if q = dir ++ [n] then some .dir else g q) (r : Path) :
    d.get (dir ++ [n] ++ r) = (DirTree.leaf dirStubName x .nil).get r := by
  rw [hput]
  cases r with
  | nil => simp
  | cons k r =>
      by_cases hk : k = dirStubName
      · have hfind : (DirTree.leaf dirStubName x .nil).find? k = some (.leaf x) := by
          rw [DirTree.find?, if_pos hk]
        rw [DirTree.get_cons_of_leaf hfind, hnone]
        by_cases hr : r = [] <;> simp [hk, hr]
      · have hfind : (DirTree.leaf dirStubName x .nil).find? k = none := by
          rw [DirTree.find?, if_neg hk]
          rfl
        rw [DirTree.get_cons_of_none hfind, hnone]
        simp [hk]

theorem territory_cons {dir : Path} {t rest : Tree} {n : String} (hnames : t.names = n :: rest.names)
    (q : Path) (h : Own dir n q ∨ Territory dir rest q) : Territory dir t q := by
  unfold Territory
  rw [hnames]
  rcases h with h | ⟨k, hk, h⟩
  · exact ⟨n, List.mem_cons_self, h⟩
  · exact ⟨k, List.mem_cons_of_mem _ hk, h⟩

/-- What lies below a directory of which only that was known. -/
theorem territory_below_ne {dir : Path} {n : String} {t : Tree} (q : Path)
    (h : Territory (dir ++ [n]) t q) : ∃ k r, q = dir ++ [n] ++ k :: r := by
  obtain ⟨k, -, j, r, -, rfl⟩ := h
  exact ⟨j, r, rfl⟩

theorem append_cons_ne {dir : Path} {m n : String} (h : m ≠ n) (r s : Path) :
    dir ++ m :: r ≠ dir ++ n :: s := fun heq =>
  h (List.cons.inj (List.append_cancel_left heq)).1

/-- **`cloneEntries_lays`** — what a clone into a directory does. -/
theorem cloneEntries_lays {t : Tree} (hnamed : t.WellNamed) {dir : Path} (inGit : Bool) {d : Disk}
    (hdir : d.get dir = some .dir) : Lays cfg t dir inGit d := by
  induction t generalizing dir inGit d with
  | nil =>
      refine (Footprint.pure d).congr (fun _ h => h.elim) ?_ ?_ ?_
      · simp [Stops]
      · simp [Overwrites]
      · intro d' _ _ n hn
        cases hn
  | blob n b rest ih =>
      obtain ⟨hfresh, hn, hrest⟩ := hnamed
      have hother := others_apart hn hfresh hrest
      refine (lays_cons hdir hn hfresh hrest (cloneBlob_footprint hdir b)
        fun d' hd' => ih hrest inGit hd').congr (territory_cons rfl) Iff.rfl Iff.rfl ?_
      rintro d'' - ⟨⟨d', hpost, hsame⟩, hlands⟩
      refine Lands.cons rfl (fun k hk m hm => ?_) (fun hnone => ?_) hlands
      · have hne : m ≠ cfg.blobName inGit n b := fun heq =>
          hother m (heq ▸ blobName_belongs cfg inGit n b) k hk hm
        rw [laidDown, DirTree.find?, if_neg hne]
      · have hskip : cfg.skipsBlob d.get (dir ++ [n]) = false := by
          simp [CloneConfig.skipsBlob, CloneConfig.present, hnone]
        refine Laid.congr (laid_of_leaf (fun m hm => ?_) (hpost hskip)) (fun _ _ => rfl) hsame
        rw [laidDown, DirTree.find?, find?_laidDown cfg inGit (hother m hm)]
  | tree n t m rest iht ih =>
      obtain ⟨hfresh, hn, ht, hrest⟩ := hnamed
      have hother := others_apart hn hfresh hrest
      have hsub : ∀ d' : Disk, (∀ q, d'.get q = if q = dir ++ [n] then some .dir else d.get q) →
          Footprint (cloneEntries cfg t (dir ++ [n]) (Sync.childInGit inGit n t)) d'
            (Territory (dir ++ [n]) t)
            (¬ Stops cfg d.get t (dir ++ [n]) (Sync.childInGit inGit n t))
            (Overwrites cfg d.get t (dir ++ [n]) (Sync.childInGit inGit n t))
            (Lands cfg t (dir ++ [n]) (Sync.childInGit inGit n t) d.get) := by
        intro d' hget
        have hsame : ∀ q, Territory (dir ++ [n]) t q → d'.get q = d.get q := by
          intro q hq
          obtain ⟨k, r, rfl⟩ := territory_below_ne q hq
          rw [hget, if_neg fun heq => by simpa using congrArg List.length heq]
        obtain ⟨hs, ho⟩ := obstacles_congr cfg (Sync.childInGit inGit n t) hsame
        exact (iht ht (Sync.childInGit inGit n t) (by rw [hget, if_pos rfl])).congr (fun _ h => h)
          (not_congr hs) ho fun d'' _ hlands => hlands.congr hsame
      refine (lays_cons hdir hn hfresh hrest (cloneTree_footprint hdir t m hsub territory_below_ne)
        fun d' hd' => ih hrest inGit hd').congr (territory_cons rfl) Iff.rfl Iff.rfl ?_
      rintro d'' - ⟨⟨d', hpost, hsame⟩, hlands⟩
      refine Lands.cons rfl (fun k hk j hj => ?_) (fun hnone => ?_) hlands
      · have hne : j ≠ n := fun heq => hother j (.inl heq) k hk hj
        rw [laidDown, DirTree.find?, if_neg hne]
      · have hskip : cfg.skipsTree d.get (dir ++ [n]) = false := by
          simp [CloneConfig.skipsTree, CloneConfig.present, hnone]
        have hgone : ∀ k r, d.get (dir ++ [n] ++ k :: r) = none := fun k r =>
          DirTree.get_append_of_not_dir (by simp [hnone]) k r
        have hall : ∀ r, d.get (dir ++ n :: r) = none := by
          intro r
          cases r with
          | nil => exact hnone
          | cons k r => simpa using hgone k r
        have hpost := hpost hskip
        have hinside : ∀ r, d'.get (dir ++ [n] ++ r) = (if cfg.shouldStub m.size inGit then
            DirTree.leaf dirStubName (cfg.mach.stubFile (treeRecord t m)) .nil
            else laidDown cfg t (Sync.childInGit inGit n t)).get r := by
          by_cases hstub : cfg.shouldStub m.size inGit = true
          · rw [if_pos hstub] at hpost ⊢
            exact get_of_marker hgone hpost
          · rw [if_neg hstub] at hpost ⊢
            obtain ⟨hframe, hlands⟩ := hpost
            intro r
            cases r with
            | nil =>
                have hself : ¬ Territory (dir ++ [n]) t (dir ++ [n]) := fun h => by
                  obtain ⟨k, r, heq⟩ := territory_below_ne _ h
                  simpa using congrArg List.length heq
                rw [List.append_nil, hframe _ hself, if_pos rfl, DirTree.get_nil]
            | cons k r =>
                refine hlands.get hgone (fun q hq hne => ?_) k r
                rw [hframe q hq, if_neg hne]
        refine Laid.congr (laid_of_dir (fun j hj => ?_) hall hinside ?_) (fun _ _ => rfl) hsame
        · rw [laidDown, DirTree.find?, find?_laidDown cfg inGit (hother j hj)]
        · intro j r hj
          have hne : dir ++ j :: r ≠ dir ++ [n] := append_cons_ne hj r []
          by_cases hstub : cfg.shouldStub m.size inGit = true
          · rw [if_pos hstub] at hpost
            have hne' : dir ++ j :: r ≠ dir ++ [n] ++ [dirStubName] := by
              rw [List.append_assoc]
              exact append_cons_ne hj r [dirStubName]
            rw [hpost, if_neg hne', if_neg hne]
          · rw [if_neg hstub] at hpost
            have hout : ¬ Territory (dir ++ [n]) t (dir ++ j :: r) := fun h => by
              obtain ⟨k, s, heq⟩ := territory_below_ne _ h
              rw [List.append_assoc] at heq
              exact append_cons_ne hj r (k :: s) heq
            rw [hpost.1 _ hout, if_neg hne]
  | symlink n l rest ih =>
      obtain ⟨hfresh, hn, hrest⟩ := hnamed
      have hother := others_apart hn hfresh hrest
      refine (lays_cons hdir hn hfresh hrest (cloneSymlink_footprint hdir l)
        fun d' hd' => ih hrest inGit hd').congr (territory_cons rfl) Iff.rfl Iff.rfl ?_
      rintro d'' - ⟨⟨d', hpost, hsame⟩, hlands⟩
      refine Lands.cons rfl (fun k hk m hm => ?_) (fun _ => ?_) hlands
      · have hne : m ≠ n := fun heq => hother m (.inl heq) k hk hm
        rw [laidDown, DirTree.find?, if_neg hne]
      · refine Laid.congr (laid_of_leaf (fun m hm => ?_) hpost) (fun _ _ => rfl) hsame
        rw [laidDown, DirTree.find?, find?_laidDown cfg inGit (hother m hm)]

end Walk

end Omemfs.Work
