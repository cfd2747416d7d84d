/-
# Omemfs.Sync.Quiescent — a pull of a working tree that nobody else changes.

Between its scan and its last write such a pull is alone with its own changes: deleted files and pruned
directories, which it notes as removed, and paths already written, of which none lies above or below one
still to be checked.  So a check finds a path as the scan left it (`unchanged_of_settled`), or as the pull
itself did.

That is true of the paths the scan takes note of (`sees`).  What it leaves out it takes for absent: an
entry that is ignored, a special file, whatever is reached through a symlink.  The first round of checks
fails exactly where the diff names one of these (`verify_iff`), and then the pull aborts.
-/
import Omemfs.Sync.CheckedApply
import Omemfs.Sync.Reach

namespace Omemfs.Sync.Checked

open Omemfs Lib Fsguard Scan

/-! ## What the scan has of a path -/

/-- Of these the scan keeps something to compare. -/
def keeps : Kind DiskLeaf → Bool
  | .dir => true
  | .leaf (.symlink _ _) => true
  | .leaf (.file _ stat) => stat.mtime.isSome
  | .leaf .special => false

/-- There is something at the path that the scan takes note of. -/
def sees (isIgnored : Path → Bool) (d : Disk) (p : Path) : Bool :=
  passes isIgnored [] p && (d.get p).any keeps

section Observation

variable {cfg : ScanConfig} {d : Disk} {r : ScanResult} {p : Path}

theorem sees_iff {isIgnored : Path → Bool} : sees isIgnored d p = true ↔
    passes isIgnored [] p = true ∧ ∃ k, d.get p = some k ∧ keeps k = true := by
  rw [sees, Bool.and_eq_true, Option.any_eq_true]

/-- What the scan takes note of is reached without a symlink. -/
theorem noLinkAbove_of_get (h : d.get p ≠ none) : NoLinkAbove d p := by
  intro a ha hne target m hlink
  obtain ⟨q, rfl⟩ := ha
  cases q with
  | nil => exact hne (List.append_nil a).symm
  | cons n q =>
      rw [DirTree.get_of_append h] at hlink
      cases hlink

theorem lstat_of_sees {isIgnored : Path → Bool} (res : Resolution) (h : sees isIgnored d p = true) :
    res.lstat d p = d.get p ∧ d.get p ≠ none := by
  obtain ⟨-, k, hk, -⟩ := sees_iff.mp h
  have hne : d.get p ≠ none := by rw [hk]; exact nofun
  exact ⟨res.lstat_eq d p (noLinkAbove_of_get hne), hne⟩

/-- What is kept of a file is what it has. -/
theorem lookup_files (h : scanImpl cfg [] (stillCalls d) (observe d) = .ok r) {m : Time} {n : Nat}
    (hl : (ScanObservation.withStubs r).files.lookup p = some (m, n)) :
    passes cfg.isIgnored [] p = true ∧
      ∃ c stat, d.get p = some (.leaf (.file c stat)) ∧ stat.mtime = some m ∧ stat.size = n := by
  obtain ⟨l₁, l₂, hfiles, -⟩ := List.lookup_eq_some_iff.mp hl
  have hmem : (p, m, n) ∈ (ScanObservation.withStubs r).files := by simp [hfiles]
  obtain ⟨⟨q, f⟩, hf, heq⟩ := List.mem_map.mp hmem
  obtain ⟨rfl, rfl, rfl⟩ : q = p ∧ f.fsMtime = m ∧ f.fsSize = n := by simpa using heq
  obtain ⟨q', c, stat, rfl, hp, hat, hm, hn⟩ := (scan_seen h).file q f hf
  exact ⟨hp, c, stat, DirTree.get_eq_leaf_iff.mpr hat, hm, hn⟩

/-- A file that the scan goes to is kept. -/
theorem lookup_files_ne_none (h : scanImpl cfg [] (stillCalls d) (observe d) = .ok r) {c : Scan.Content}
    {stat : FileStat} (hp : passes cfg.isIgnored [] p = true)
    (hat : d.get p = some (.leaf (.file c stat))) (hm : stat.mtime ≠ none) :
    (ScanObservation.withStubs r).files.lookup p ≠ none := by
  obtain ⟨f, hf⟩ := (scan_seen h).found p c stat hp (DirTree.get_eq_leaf_iff.mp hat) hm
  intro hno
  have hmem : (p, f.fsMtime, f.fsSize) ∈ (ScanObservation.withStubs r).files :=
    List.mem_map.mpr ⟨_, hf, rfl⟩
  simpa using List.lookup_eq_none_iff.mp hno _ hmem

theorem mem_other (h : scanImpl cfg [] (stillCalls d) (observe d) = .ok r) (hp : p ≠ []) :
    p ∈ (ScanObservation.withStubs r).other ↔
      passes cfg.isIgnored [] p = true ∧ ∃ k, d.get p = some k ∧ isFile (some k) = false ∧
        keeps k = true := by
  have hother := (scan_seen h).other p
  have hmem : p ∈ [] :: r.side.seenOther ↔ p ∈ (ScanObservation.withStubs r).other := by
    simp [ScanObservation.withStubs, hp]
  rw [← hmem, hother]
  constructor
  · rintro ⟨q, y, rfl, hq, hy, ho⟩
    refine ⟨hq, y.kind, congrArg (Option.map Item.kind) hy, ?_⟩
    cases y with
    | sub s => exact ⟨rfl, rfl⟩
    | leaf a => cases a <;> first | exact ⟨rfl, rfl⟩ | cases ho
  · rintro ⟨hq, k, hk, hfile, hkept⟩
    obtain ⟨y, hy, rfl⟩ := Option.map_eq_some_iff.mp hk
    refine ⟨p, y, rfl, hq, hy, ?_⟩
    cases y with
    | sub s => rfl
    | leaf a =>
        cases a with
        | file c stat => cases hfile
        | symlink target m => rfl
        | special => cases hkept

/-- **`unchanged_of_sees`** — a path that is as the scan left it has not changed. -/
theorem unchanged_of_sees (h : scanImpl cfg [] (stillCalls d) (observe d) = .ok r) (hp : p ≠ [])
    (hsees : sees cfg.isIgnored d p = true) {removed : List Path} (hr : p ∉ removed) :
    changedSinceScan (.withStubs r) removed p (d.get p) = false := by
  obtain ⟨hpass, k, hk, hkept⟩ := sees_iff.mp hsees
  unfold changedSinceScan
  rw [if_neg hr]
  cases hl : (ScanObservation.withStubs r).files.lookup p with
  | some x =>
      obtain ⟨m, n⟩ := x
      obtain ⟨-, c, stat, hat, hm, hn⟩ := lookup_files h hl
      simp [hat, hm, hn]
  | none =>
      have hnot : isFile (some k) = false := by
        by_contra hfile
        cases k with
        | dir => exact hfile rfl
        | leaf a =>
            cases a with
            | file c stat => exact lookup_files_ne_none h hpass hk (Option.isSome_iff_ne_none.mp hkept) hl
            | symlink target m => exact hfile rfl
            | special => exact hfile rfl
      have hother : p ∈ (ScanObservation.withStubs r).other :=
        (mem_other h hp).mpr ⟨hpass, k, hk, hnot, hkept⟩
      simp only [hk, hnot, if_pos hother]

/-- Of a path that it does not take note of the scan has nothing. -/
theorem unseen (h : scanImpl cfg [] (stillCalls d) (observe d) = .ok r) (hp : p ≠ [])
    (hsees : sees cfg.isIgnored d p = false) :
    (ScanObservation.withStubs r).files.lookup p = none ∧ p ∉ (ScanObservation.withStubs r).other := by
  have hno : ∀ k, passes cfg.isIgnored [] p = true → d.get p = some k → keeps k ≠ true := by
    intro k hpass hk hkept
    have hyes : sees cfg.isIgnored d p = true := sees_iff.mpr ⟨hpass, k, hk, hkept⟩
    rw [hsees] at hyes
    cases hyes
  constructor
  · rw [Option.eq_none_iff_forall_ne_some]
    rintro ⟨m, n⟩ hl
    obtain ⟨hpass, c, stat, hat, hm, -⟩ := lookup_files h hl
    exact hno _ hpass hat (by simp [keeps, hm])
  · intro hmem
    obtain ⟨hpass, k, hk, -, hkept⟩ := (mem_other h hp).mp hmem
    exact hno k hpass hk hkept

/-- So it is unchanged exactly if there is nothing. -/
theorem changed_of_unseen (h : scanImpl cfg [] (stillCalls d) (observe d) = .ok r) (hp : p ≠ [])
    (hsees : sees cfg.isIgnored d p = false) (removed : List Path) (now : Option (Kind DiskLeaf)) :
    changedSinceScan (.withStubs r) removed p now = now.isSome := by
  obtain ⟨hl, ho⟩ := unseen h hp hsees
  unfold changedSinceScan
  simp [hl, ho]

theorem changed_of_removed {obs : ScanObservation} {removed : List Path} (hr : p ∈ removed)
    (now : Option (Kind DiskLeaf)) : changedSinceScan obs removed p now = now.isSome := by
  unfold changedSinceScan
  rw [if_pos hr]

end Observation

/-! ## The first round of checks -/

section Checks

variable {cfg : ScanConfig} {d : Disk} {r : ScanResult} (res : Resolution)

/-- Where there is something at the path, the scan takes note of it. -/
def Noted (isIgnored : Path → Bool) (res : Resolution) (d : Disk) (p : Path) : Prop :=
  res.lstat d p ≠ none → sees isIgnored d p = true

/-- **`verify_iff`** — no offender is reported exactly if the scan takes note of every path of the diff
that a file is put to or taken from, where there is something. -/
theorem verify_iff (h : scanImpl cfg [] (stillCalls d) (observe d) = .ok r)
    {diff : List (Path × DiffEntry)} (hkeys : ∀ x ∈ diff, x.1 ≠ []) :
    verifyUnchangedSinceScan res (.withStubs r) d diff = [] ↔
      ∀ x ∈ diff, touchesAFile x.2 = true → Noted cfg.isIgnored res d x.1 := by
  simp only [verifyUnchangedSinceScan, List.map_eq_nil_iff, List.filter_eq_nil_iff, Bool.and_eq_true,
    not_and, Bool.not_eq_true]
  refine forall₂_congr fun x hx => imp_congr_right fun _ => ?_
  cases hsees : sees cfg.isIgnored d x.1 with
  | true =>
      rw [(lstat_of_sees res hsees).1, unchanged_of_sees h (hkeys x hx) hsees List.not_mem_nil]
      exact iff_of_true rfl fun _ => hsees
  | false =>
      rw [changed_of_unseen h (hkeys x hx) hsees, Option.isSome_eq_false_iff, Option.isNone_iff_eq_none]
      simp [Noted, hsees]

end Checks

/-! ## What the pull has taken away -/

/-- Nothing is missing but what the pull has noted as removed, and stub files. -/
structure Shrunk (d : Disk) (s : PullState) : Prop where
  sub : ∀ q, s.disk.get q = d.get q ∨ s.disk.get q = none
  absent : ∀ q ∈ s.removed, s.disk.get q = none
  noted : ∀ q, d.get q ≠ none → s.disk.get q = none → q ∈ s.removed ∨ ∃ p, q = fileStubPath p

theorem Shrunk.start (d : Disk) : Shrunk d ⟨d, []⟩ where
  sub _ := .inl rfl
  absent := nofun
  noted _ hne hno := absurd hno hne

/-- A path that was deleted, or a directory that was pruned. -/
theorem Shrunk.remove {d : Disk} {s t : PullState} (h : Shrunk d s) {p : Path}
    (hget : ∀ q, t.disk.get q = if q = p then none else s.disk.get q)
    (hremoved : t.removed = p :: s.removed) : Shrunk d t where
  sub q := by
    rw [hget]
    split_ifs
    · exact .inr rfl
    · exact h.sub q
  absent q hq := by
    rw [hget]
    split_ifs with hqp
    · rfl
    · rw [hremoved, List.mem_cons] at hq
      exact h.absent q (hq.resolve_left hqp)
  noted q hne hno := by
    rw [hremoved, List.mem_cons]
    by_cases hqp : q = p
    · exact .inl (.inl hqp)
    · rw [hget, if_neg hqp] at hno
      exact (h.noted q hne hno).imp_left .inr

/-- A stub file that was removed. -/
theorem Shrunk.removeStub {d : Disk} {s t : PullState} (h : Shrunk d s) {p : Path}
    (hget : ∀ q, t.disk.get q = if q = fileStubPath p then none else s.disk.get q)
    (hremoved : t.removed = s.removed) : Shrunk d t where
  sub q := by
    rw [hget]
    split_ifs
    · exact .inr rfl
    · exact h.sub q
  absent q hq := by
    rw [hget]
    split_ifs
    · rfl
    · exact h.absent q (hremoved ▸ hq)
  noted q hne hno := by
    rw [hremoved]
    by_cases hqp : q = fileStubPath p
    · exact .inr ⟨p, hqp⟩
    · rw [hget, if_neg hqp] at hno
      exact h.noted q hne hno

theorem fileStubPath_ne_nil (p : Path) : fileStubPath p ≠ [] := by simp [fileStubPath]

/-- A scan does not go to stub files. -/
theorem sees_fileStubPath (isIgnored : Path → Bool) (d : Disk) (p : Path) :
    sees isIgnored d (fileStubPath p) = false := by
  unfold fileStubPath
  generalize p.getLastD "" = n
  have hl : (logicalName (n ++ stubSuffix)).isNone = false := by
    rw [show logicalName (n ++ stubSuffix) = some n from stripSuffix_eq_some.mpr rfl]
    rfl
  rw [sees, passes_append, passes, passesName, hl]
  simp

section Settled

variable {cfg : ScanConfig} {d : Disk} {r : ScanResult} {res : Resolution} {s : PullState} {p : Path}

/-- **`unchanged_of_settled`** — the check of a path that is as the removals have left it succeeds, unless
a symlink above it leads to something. -/
theorem unchanged_of_settled (h : scanImpl cfg [] (stillCalls d) (observe d) = .ok r) (hp : p ≠ [])
    (hnoted : Noted cfg.isIgnored res d p) (hs : Shrunk d s) {e : Disk}
    (hat : e.get p = s.disk.get p)
    (hlinks : ∀ a, a <+: p → ∀ target m, e.get a = some (.leaf (.symlink target m)) →
      s.disk.get a = some (.leaf (.symlink target m)))
    (hthrough : ¬ NoLinkAbove e p → res.lstat e p = none) :
    changedSinceScan (.withStubs r) s.removed p (res.lstat e p) = false := by
  by_cases hway : NoLinkAbove e p
  · rw [res.lstat_eq e p hway, hat]
    by_cases hr : p ∈ s.removed
    · rw [changed_of_removed hr, hs.absent p hr]
      rfl
    · cases hsees : sees cfg.isIgnored d p with
      | true =>
          have hne := (lstat_of_sees res hsees).2
          have hsame : s.disk.get p = d.get p := by
            refine (hs.sub p).resolve_right fun hno => ?_
            obtain hmem | ⟨p', rfl⟩ := hs.noted p hne hno
            · exact hr hmem
            · rw [sees_fileStubPath] at hsees
              cases hsees
          rw [hsame]
          exact unchanged_of_sees h hp hsees hr
      | false =>
          have hno : d.get p = none := by
            by_contra hne
            have hl := res.lstat_eq d p (noLinkAbove_of_get hne)
            have hyes := hnoted (by rw [hl]; exact hne)
            rw [hsees] at hyes
            cases hyes
          have hnone : s.disk.get p = none := (hs.sub p).elim (fun heq => heq.trans hno) id
          rw [changed_of_unseen h hp hsees, hnone]
          rfl
  · rw [hthrough hway]
    by_cases hr : p ∈ s.removed
    · rw [changed_of_removed hr]
      rfl
    · cases hsees : sees cfg.isIgnored d p with
      | false =>
          rw [changed_of_unseen h hp hsees]
          rfl
      | true =>
          refine absurd (fun a ha hne target m hlink => ?_) hway
          have hlink := hlinks a ha target m hlink
          rcases hs.sub a with heq | hno
          · exact noLinkAbove_of_get (lstat_of_sees res hsees).2 a ha hne target m (heq ▸ hlink)
          · rw [hno] at hlink
            cases hlink

/-- While nothing but removals has happened no symlink leads to anything new. -/
theorem unchanged_of_shrunk (h : scanImpl cfg [] (stillCalls d) (observe d) = .ok r) (hp : p ≠ [])
    (hnoted : Noted cfg.isIgnored res d p) (hs : Shrunk d s) :
    changedSinceScan (.withStubs r) s.removed p (res.lstat s.disk p) = false := by
  refine unchanged_of_settled h hp hnoted hs rfl (fun _ _ _ _ hl => hl) fun hway => ?_
  refine res.lstat_mono d s.disk p hs.sub ?_
  by_contra hne
  refine hway fun a ha hap target m hlink => ?_
  rcases hs.sub a with heq | hno
  · exact noLinkAbove_of_get (lstat_of_sees res (hnoted hne)).2 a ha hap target m (heq ▸ hlink)
  · rw [hno] at hlink
    cases hlink

end Settled

/-! ## Phase 2a -/

/-- The pull does not end in a failed check. -/
def NotChanged (e : PullError) : Prop := ∀ l, e ≠ .changed l

theorem onDisk_triple {m : Guarded DiskLeaf PUnit} {Q : Disk → Disk → Prop}
    (h : ∀ d d', m d = .ok ⟨⟩ d' → Q d d') (s : PullState) :
    Triple (· = s) (onDisk m) NotChanged
      fun _ t => t.removed = s.removed ∧ Q s.disk t.disk := by
  apply Triple.intro
  · rintro _ ⟨⟩ t rfl hrun
    unfold onDisk at hrun
    split at hrun
    · next d' hm =>
        cases hrun
        exact ⟨rfl, h _ _ hm⟩
    · cases hrun
  · rintro _ e t rfl hrun l
    unfold onDisk at hrun
    split at hrun
    · cases hrun
    · cases hrun
      exact nofun

theorem removeFile_get {p : Path} (hp : p ≠ []) (d d' : Disk) (h : removeFileTolerant p d = .ok ⟨⟩ d') :
    ∀ q, d'.get q = if q = p then none else d.get q :=
  ((removeFileTolerant_effect d hp).of_ok h).2

theorem verifyOne_triple {env : PullEnv} {obs : ScanObservation} {p : Path} {s : PullState}
    (h : changedSinceScan obs s.removed p (env.resolution.lstat s.disk p) = false) :
    Triple (· = s) (verifyOneBeforeWrite env obs p) NotChanged fun _ t => t = s := by
  have hrun : verifyOneBeforeWrite env obs p s = .ok ⟨⟩ s := by
    unfold verifyOneBeforeWrite
    rw [if_neg (by simp [h])]
  intro _ hs
  rw [hs, hrun]

section Deletions

variable {cfg : ScanConfig} {d : Disk} {r : ScanResult} {env : PullEnv}

/-- `rest` is left to delete. -/
structure Deleting (d : Disk) (order rest : List (Path × DiffEntry)) (s : PullState) : Prop where
  shrunk : Shrunk d s
  deleted : ∀ q ∈ s.removed, (q, .deleted) ∈ order ∧ (q, .deleted) ∉ rest

theorem Deleting.mono {order rest rest' : List (Path × DiffEntry)} {s : PullState}
    (h : Deleting d order rest s) (hsub : ∀ x ∈ rest', x ∈ rest) : Deleting d order rest' s :=
  ⟨h.shrunk, fun q hq => ⟨(h.deleted q hq).1, fun hmem => (h.deleted q hq).2 (hsub _ hmem)⟩⟩

theorem applyDeleted_triple (h : scanImpl cfg [] (stillCalls d) (observe d) = .ok r)
    {order rest : List (Path × DiffEntry)} {p : Path} (hp : p ≠ [])
    (hmem : (p, .deleted) ∈ order) (hnew : (p, .deleted) ∉ rest)
    (hnoted : Noted cfg.isIgnored env.resolution d p) :
    Triple (Deleting d order ((p, .deleted) :: rest)) (applyDeleted env (.withStubs r) p) NotChanged
      fun _ => Deleting d order rest := by
  show Triple _ (fun s => if stubExists env s.disk p then (pure [] : Pull (List Path)) s
    else deleteFile env (.withStubs r) p s) _ _
  refine Triple.ite ?_ ?_
  · exact Triple.pure fun s hs => hs.1.mono fun x hx => List.mem_cons_of_mem _ hx
  · refine Triple.of_each fun s ⟨hs, _⟩ => ?_
    have hchecked := @verifyOne_triple env _ _ _ (unchanged_of_shrunk h hp hnoted hs.shrunk)
    refine hchecked.bind fun _ => ?_
    refine (onDisk_triple (removeFile_get hp) s).bind fun _ => ?_
    refine Triple.of_each fun s₁ ⟨hr₁, hget₁⟩ => ?_
    have hrecord : Triple (· = s₁) (recordRemoved p) NotChanged
        fun _ t => t = { s₁ with removed := p :: s₁.removed } := by
      rintro _ rfl
      rfl
    refine hrecord.bind fun _ => ?_
    refine (onDisk_triple (removeFile_get (fileStubPath_ne_nil p)) _).bind fun _ => ?_
    refine Triple.pure fun t ⟨ht, hget⟩ => ⟨?_, ?_⟩
    · have h₁ : Shrunk d { s₁ with removed := p :: s₁.removed } :=
        hs.shrunk.remove hget₁ (by rw [hr₁])
      exact h₁.removeStub hget ht
    · intro q hq
      rw [ht, List.mem_cons, hr₁] at hq
      rcases hq with rfl | hq
      · exact ⟨hmem, hnew⟩
      · obtain ⟨hin, hout⟩ := hs.deleted q hq
        exact ⟨hin, fun hq' => hout (List.mem_cons_of_mem _ hq')⟩

/-- **`applyDeletions_triple`** — in whatever order, no deletion fails its check. -/
theorem applyDeletions_triple (h : scanImpl cfg [] (stillCalls d) (observe d) = .ok r)
    {order rest : List (Path × DiffEntry)} (hnd : (rest.map Prod.fst).Nodup)
    (hsub : ∀ x ∈ rest, x ∈ order) (hkeys : ∀ x ∈ rest, x.1 ≠ [])
    (hnoted : ∀ x ∈ rest, x.2 = .deleted → Noted cfg.isIgnored env.resolution d x.1) :
    Triple (Deleting d order rest) (applyDeletions env (.withStubs r) rest) NotChanged
      fun _ => Deleting d order [] := by
  induction rest with
  | nil => exact Triple.pure fun _ hs => hs
  | cons x rest ih =>
      obtain ⟨p, e⟩ := x
      rw [List.map_cons, List.nodup_cons] at hnd
      have hnext := ih hnd.2 (fun y hy => hsub y (List.mem_cons_of_mem _ hy))
        (fun y hy => hkeys y (List.mem_cons_of_mem _ hy))
        fun y hy => hnoted y (List.mem_cons_of_mem _ hy)
      by_cases he : e = .deleted
      · subst he
        have hnew : (p, .deleted) ∉ rest := fun hmem => hnd.1 (List.mem_map.mpr ⟨_, hmem, rfl⟩)
        have hone := @applyDeleted_triple cfg d r env h _ _ _ (hkeys _ (List.mem_cons_self ..))
          (hsub _ (List.mem_cons_self ..)) hnew (hnoted _ (List.mem_cons_self ..) rfl)
        exact hone.bind fun _ => hnext.bind fun _ => Triple.pure fun _ hs => hs
      · have hrun : applyDeletions env (.withStubs r) ((p, e) :: rest) =
            applyDeletions env (.withStubs r) rest := by
          cases e <;> first | rfl | exact absurd rfl he
        rw [hrun]
        exact hnext.mono (fun s hs => hs.mono fun y hy => List.mem_cons_of_mem _ hy) fun _ _ hs => hs

/-- What was removed was to be deleted, or is a directory that was pruned. -/
structure Cleared (d : Disk) (order : List (Path × DiffEntry)) (s : PullState) : Prop where
  shrunk : Shrunk d s
  removed : ∀ q ∈ s.removed, (q, .deleted) ∈ order ∨ d.get q = some .dir

theorem pruneDir_triple {order : List (Path × DiffEntry)} {p : Path} (hp : p ≠ []) :
    Triple (Cleared d order) (pruneDir p) NotChanged fun _ => Cleared d order := by
  intro s hs
  unfold pruneDir
  cases hat : s.disk.at p with
  | none => simpa [DirTree.rmdir, hat] using hs
  | some x =>
      by_cases hempty : x = .sub .nil
      · subst hempty
        obtain ⟨q, n, rfl⟩ := (List.eq_nil_or_concat' p).resolve_left hp
        obtain ⟨e, hrm, hget⟩ := DirTree.rmdir_of_empty hat
        rw [hrm]
        refine ⟨hs.shrunk.remove hget rfl, fun a ha => ?_⟩
        rcases List.mem_cons.mp ha with rfl | ha
        · refine .inr ?_
          have hdir := (DirTree.at_eq_empty_iff.mp hat).1
          rcases hs.shrunk.sub (q ++ [n]) with heq | hno
          · rw [← heq, hdir]
          · rw [hdir] at hno
            cases hno
        · exact hs.removed a ha
      · cases x with
        | leaf a => simpa [DirTree.rmdir, hat] using hs
        | sub t =>
            cases t with
            | nil => exact absurd rfl hempty
            | leaf m a rest => simpa [DirTree.rmdir, hat] using hs
            | sub m u rest => simpa [DirTree.rmdir, hat] using hs

/-- **`clearAway_triple`** — nor does pruning take away anything that is not noted. -/
theorem clearAway_triple (h : scanImpl cfg [] (stillCalls d) (observe d) = .ok r)
    {order : List (Path × DiffEntry)} (hnd : (order.map Prod.fst).Nodup)
    (hkeys : ∀ x ∈ order, x.1 ≠ [])
    (hnoted : ∀ x ∈ order, x.2 = .deleted → Noted cfg.isIgnored env.resolution d x.1)
    {listDirs : List Path → List Path} (hlist : DeepestFirst listDirs) :
    Triple (· = ⟨d, []⟩) (clearAway env (.withStubs r) listDirs order) NotChanged
      fun _ => Cleared d order := by
  have hdeleted := @applyDeletions_triple cfg d r env h _ _ hnd (fun x hx => hx) hkeys hnoted
  refine Triple.bind (hdeleted.mono ?_ fun _ _ hs => hs) fun dirs => ?_
  · rintro _ rfl
    exact ⟨.start d, nofun⟩
  · have hprune : Triple (fun s => (∀ q ∈ listDirs (cleanupDirs dirs), q ≠ []) ∧ Cleared d order s)
        ((listDirs (cleanupDirs dirs)).forM pruneDir) NotChanged
        fun _ s => (∀ q ∈ ([] : List Path), q ≠ []) ∧ Cleared d order s := by
      refine Triple.forM (fun l s => (∀ q ∈ l, q ≠ []) ∧ Cleared d order s)
        (fun p l => Triple.of_each fun s ⟨hne, hs⟩ => ?_) _
      have hone := @pruneDir_triple d order _ (hne p (List.mem_cons_self ..))
      refine hone.mono (by rintro _ rfl; exact hs) fun _ t ht => ⟨fun q hq => ?_, ht⟩
      exact hne q (List.mem_cons_of_mem _ hq)
    refine hprune.mono (fun s hs => ⟨fun q hq => ?_, hs.shrunk, fun q hq => .inl (hs.deleted q hq).1⟩)
      fun _ _ hs => hs.2
    exact (mem_cleanupDirs.mp ((hlist _).1.mem_iff.mp hq)).1

end Deletions

/-! ## Phase 2b -/

/-- What writing at `p` may change: the path and what is below it, its stub file, and the directories
above it, which are created. -/
def Stays (p : Path) (s t : PullState) : Prop :=
  t.removed = s.removed ∧ ∀ q, t.disk.get q = s.disk.get q ∨ p <+: q ∨
    (q <+: p ∧ t.disk.get q = some .dir) ∨
    (q = fileStubPath p ∧ ∀ target m, t.disk.get q ≠ some (.leaf (.symlink target m)))

theorem Stays.refl (p : Path) (s : PullState) : Stays p s s := ⟨rfl, fun _ => .inl rfl⟩

theorem Stays.trans {p : Path} {s t u : PullState} (h : Stays p s t) (h' : Stays p t u) :
    Stays p s u := by
  refine ⟨h'.1.trans h.1, fun q => ?_⟩
  rcases h'.2 q with heq | hmore
  · rw [heq]
    exact h.2 q
  · exact .inr hmore

theorem above_fileStubPath {p q : Path} (h : q <+: fileStubPath p) (hne : q ≠ fileStubPath p) :
    q <+: p := by
  unfold fileStubPath at h hne
  have hq := (List.prefix_concat_iff.mp h).resolve_left hne
  exact hq.trans (List.dropLast_prefix p)

/-- A leaf put below or at the path, or as its stub file. -/
theorem Stays.of_write {p p' : Path} {s t : PullState} {a : DiskLeaf}
    (hp : p <+: p' ∨ p' = fileStubPath p ∧ ∀ target m, a ≠ .symlink target m)
    (hremoved : t.removed = s.removed) (hget : ∀ q, t.disk.get q =
      if q = p' then some (.leaf a) else if q <+: p' then some .dir else s.disk.get q) :
    Stays p s t := by
  refine ⟨hremoved, fun q => ?_⟩
  rw [hget]
  split_ifs with hq habove
  · rcases hp with hp | ⟨rfl, ha⟩
    · exact .inr (.inl (hq ▸ hp))
    · exact .inr (.inr (.inr ⟨hq, by simpa using ha⟩))
  · rcases hp with hp | ⟨rfl, -⟩
    · rcases List.prefix_or_prefix_of_prefix habove hp with hqp | hpq
      · exact .inr (.inr (.inl ⟨hqp, rfl⟩))
      · exact .inr (.inl hpq)
    · exact .inr (.inr (.inl ⟨above_fileStubPath habove hq, rfl⟩))
  · exact .inl rfl

theorem Stays.of_remove {p p' : Path} {s t : PullState} (hp : p <+: p' ∨ p' = fileStubPath p)
    (hremoved : t.removed = s.removed)
    (hget : ∀ q, t.disk.get q = if q = p' then none else s.disk.get q) : Stays p s t := by
  refine ⟨hremoved, fun q => ?_⟩
  rw [hget]
  split_ifs with hq
  · rcases hp with hp | hp
    · exact .inr (.inl (hq ▸ hp))
    · exact .inr (.inr (.inr ⟨hq.trans hp, by rintro _ _ ⟨⟩⟩))
  · exact .inl rfl

section Writes

variable {env : PullEnv} {p : Path}

theorem leads_onDisk {m : Guarded DiskLeaf PUnit}
    (h : ∀ s t : PullState, t.removed = s.removed → m s.disk = .ok ⟨⟩ t.disk → Stays p s t) :
    Leads (onDisk m) (Stays p) := by
  rintro s ⟨⟩ t hrun
  unfold onDisk at hrun
  split at hrun
  · next d' hm =>
      cases hrun
      exact h s _ rfl hm
  · cases hrun

theorem leads_atomicWrite {p' : Path} {a : DiskLeaf} (hne : p' ≠ [])
    (hp : p <+: p' ∨ p' = fileStubPath p ∧ ∀ target m, a ≠ .symlink target m) :
    Leads (onDisk (atomicWrite p' a)) (Stays p) :=
  leads_onDisk fun s _ hr hm => .of_write hp hr ((atomicWrite_effect s.disk hne a).of_ok hm).2

theorem leads_replaceSymlink {p' : Path} {a : DiskLeaf} (hne : p' ≠ []) (hp : p <+: p') :
    Leads (onDisk (replaceSymlink p' a)) (Stays p) :=
  leads_onDisk fun s _ hr hm => .of_write (.inl hp) hr ((replaceSymlink_effect s.disk hne a).of_ok hm).2

theorem leads_removeFile {p' : Path} (hne : p' ≠ []) (hp : p <+: p' ∨ p' = fileStubPath p) :
    Leads (onDisk (removeFileTolerant p')) (Stays p) :=
  leads_onDisk fun s t hr hm => .of_remove hp hr (removeFile_get hne s.disk t.disk hm)

theorem leads_createDirAll {p' : Path} (hp : p <+: p') :
    Leads (onDisk (createDirAll p')) (Stays p) := by
  refine leads_onDisk fun s t hr hm => ⟨hr, fun q => ?_⟩
  rw [((createDirAll_effect s.disk p').of_ok hm).2 q]
  split_ifs with hq
  · rcases List.prefix_or_prefix_of_prefix hq hp with hqp | hpq
    · exact .inr (.inr (.inl ⟨hqp, rfl⟩))
    · exact .inr (.inl hpq)
  · exact .inl rfl

theorem leads_then {m : Pull PUnit} {f : PUnit → Pull PUnit} (h : Leads m (Stays p))
    (hf : ∀ a, Leads (f a) (Stays p)) : Leads (m >>= f) (Stays p) :=
  h.bind (fun _ _ _ h h' => h.trans h') hf

theorem leads_here (hash : Hash) : Leads (ensureBlobLocal env hash) (Stays p) := by
  unfold ensureBlobLocal
  split_ifs
  · exact Leads.pure (Stays.refl p) _
  · exact Leads.throw _

theorem leads_stubRemove : Leads (stubRemove p) (Stays p) :=
  leads_removeFile (fileStubPath_ne_nil p) (.inr rfl)

theorem leads_stubWrite (record : StubRecord) : Leads (stubWrite env p record) (Stays p) :=
  leads_atomicWrite (fileStubPath_ne_nil p) (.inr ⟨rfl, nofun⟩)

theorem leads_verifyOne (obs : ScanObservation) :
    Leads (verifyOneBeforeWrite env obs p) (Stays p) := by
  rintro s ⟨⟩ t hrun
  unfold verifyOneBeforeWrite at hrun
  split_ifs at hrun
  cases hrun
  exact .refl p s

theorem leads_materialiseBlob (obs : ScanObservation) (hp : p ≠ []) (b : Blob) :
    Leads (materialiseBlob env obs p b) (Stays p) :=
  leads_then (leads_here _) fun _ => leads_then (leads_verifyOne obs) fun _ =>
    leads_then (leads_atomicWrite hp (.inl List.prefix_rfl)) fun _ => leads_stubRemove

theorem leads_materialiseEntries (t : Tree) {dir : Path} (hp : p <+: dir) :
    Leads (materialiseEntries env t dir) (Stays p) := by
  have hin : ∀ {dir : Path} (n : String), p <+: dir → p <+: dir ++ [n] := fun n h =>
    h.trans (List.prefix_append _ _)
  induction t generalizing dir with
  | nil => exact Leads.pure (Stays.refl p) _
  | blob n b rest ih =>
      exact leads_then (leads_here _) fun _ =>
        leads_then (leads_atomicWrite (by simp) (.inl (hin n hp))) fun _ => ih hp
  | tree n t m rest iht ih =>
      exact leads_then (leads_createDirAll (hin n hp)) fun _ =>
        leads_then (iht (hin n hp)) fun _ => ih hp
  | symlink n l rest ih =>
      exact leads_then (leads_replaceSymlink (by simp) (hin n hp)) fun _ => ih hp

/-- **`leads_writeEntry`** — an entry is written at, above and below its path, and in its stub file. -/
theorem leads_writeEntry (obs : ScanObservation) (hp : p ≠ []) (e : DiffEntry) :
    Leads (writeEntry env obs p e) (Stays p) := by
  have hremove : Leads (onDisk (removeFileTolerant p)) (Stays p) :=
    leads_removeFile hp (.inl List.prefix_rfl)
  have hdone : Leads (pure ⟨⟩ : Pull PUnit) (Stays p) := Leads.pure (Stays.refl p) _
  cases e with
  | added b =>
      refine Leads.ite ?_ (leads_materialiseBlob obs hp b)
      exact leads_then (leads_stubWrite _) fun _ => Leads.ite hremove hdone
  | modified b => exact Leads.ite (leads_stubWrite _) (leads_materialiseBlob obs hp b)
  | deleted => exact hdone
  | addedEmptyDir => exact leads_createDirAll List.prefix_rfl
  | symlink l w =>
      exact leads_then leads_stubRemove fun _ => leads_then (leads_verifyOne obs) fun _ =>
        leads_replaceSymlink hp List.prefix_rfl
  | addedTree t m =>
      refine leads_then leads_stubRemove fun _ => leads_then (Leads.ite hremove hdone) fun _ => ?_
      refine Leads.ite ?_ ?_
      · exact leads_then (leads_createDirAll List.prefix_rfl) fun _ =>
          leads_materialiseEntries t List.prefix_rfl
      · exact leads_then (leads_createDirAll List.prefix_rfl) fun _ =>
          leads_atomicWrite (by simp [dirStubPath]) (.inl (List.prefix_append _ _))

/-- **`leads_applyWrite`** — so is one that is skipped. -/
theorem leads_applyWrite (obs : ScanObservation) {x : Path × DiffEntry} (hp : x.1 ≠ []) :
    Leads (applyWrite env obs x) (Stays x.1) := by
  refine Leads.of_choice (f := fun s => Pull.lift (skipped env s.disk x.1) >>= writeUnless env obs x)
    fun s => ?_
  have hlift : Leads (Pull.lift (skipped env s.disk x.1)) (Stays x.1) := by
    rintro s' a t hrun
    unfold Pull.lift at hrun
    split at hrun
    · cases hrun
      exact .refl _ _
    · cases hrun
  refine hlift.bind (fun _ _ _ h h' => h.trans h') fun skip => ?_
  cases skip with
  | true => exact Leads.pure (Stays.refl x.1) _
  | false => exact leads_writeEntry obs hp x.2

end Writes

/-! ## The paths of a diff -/

section Diff

variable {base : Option Tree} {remote : Tree} {thr : Nat}

/-- Something that is not deleted is something of the remote's. -/
theorem remote_of_nodeDiff {g : Bool} {b t : Option TreeEntry} {e : DiffEntry}
    (h : nodeDiff thr g b t = some e) (he : e ≠ .deleted) : t ≠ none := by
  rintro rfl
  cases b with
  | none => cases h
  | some b =>
      cases b <;> simp only [nodeDiff, Option.map_some, Option.some.injEq, reduceCtorEq] at h <;>
        exact he h.symm

/-- A new directory that is not kept whole is empty. -/
theorem empty_of_nodeDiff {g : Bool} {b t : Option TreeEntry}
    (h : nodeDiff thr g b t = some .addedEmptyDir) : ∃ m, t = some (.tree .nil m) := by
  have hdir : leafOf t = none := (leaf_of_nodeDiff h).symm
  cases t with
  | none => exact absurd rfl (remote_of_nodeDiff h nofun)
  | some t =>
      cases t with
      | blob x => cases hdir
      | symlink x => cases hdir
      | tree s m =>
          by_cases hs : s = .nil
          · exact ⟨m, by rw [hs]⟩
          · exfalso
            cases b with
            | none =>
                simp only [nodeDiff, if_neg hs] at h
                split_ifs at h <;> cases h
            | some b =>
                cases b <;> simp only [nodeDiff, reduceCtorEq, if_neg hs] at h
                all_goals split_ifs at h <;> cases h

theorem isTree_of_leafOf {o : Option TreeEntry} {s : Tree} {m : TreeMeta} (h : leafOf o ≠ none) :
    o ≠ some (.tree s m) := by
  rintro rfl
  exact h rfl

/-- **`apart_of_diff`** — a file or symlink of the diff lies neither above nor below another entry of it
that is not deleted. -/
theorem apart_of_diff (hb : (base.getD .nil).Wf) (hr : remote.Wf) {p q : Path} {e f : DiffEntry}
    (hp : (diffTrees base (some remote) thr).get p = some e) (he : e.leaf ≠ none)
    (hq : (diffTrees base (some remote) thr).get q = some f) (hf : f ≠ .deleted) (hne : q ≠ p) :
    ¬ q <+: p ∧ ¬ p <+: q := by
  have hat : ∀ {p e}, (diffTrees base (some remote) thr).get p = some e →
      ∃ g, nodeDiff thr g ((base.getD .nil).at p) (remote.at p) = some e := by
    intro p e hp
    rcases @get_remoteDiff base (some remote) hb hr thr p with ⟨-, -, -, -, -, -, -, hno⟩ | ⟨g, hg⟩
    · rw [hno] at hp
      cases hp
    · exact ⟨g, hg ▸ hp⟩
  obtain ⟨g, hg⟩ := hat hp
  obtain ⟨g', hg'⟩ := hat hq
  have hleaf : leafOf (remote.at p) ≠ none := leaf_of_nodeDiff hg ▸ he
  have hsome := remote_of_nodeDiff hg' hf
  constructor
  · rintro ⟨a, rfl⟩
    obtain ⟨n, a, rfl⟩ : ∃ n a', a = n :: a' := by
      cases a with
      | nil => exact absurd (List.append_nil q).symm hne
      | cons n a => exact ⟨n, a, rfl⟩
    have hthere : remote.at (q ++ n :: a) ≠ none := fun hno => hleaf (by rw [hno]; rfl)
    obtain ⟨s, m, hs⟩ := Tree.isTree_of_at_append (by simp) hthere
    have hlf := leaf_of_nodeDiff hg'
    rw [hs] at hlf
    cases f with
    | added b => cases hlf
    | modified b => cases hlf
    | deleted => exact hf rfl
    | symlink l w => cases hlf
    | addedEmptyDir =>
        obtain ⟨m', hm'⟩ := empty_of_nodeDiff hg'
        rw [Tree.at_append, hm'] at hthere
        exact hthere rfl
    | addedTree t m' =>
        rw [@get_below_addedTree base (some remote) _ hb hr _ _ _ hq n a] at hp
        cases hp
  · rintro ⟨a, rfl⟩
    obtain ⟨n, a, rfl⟩ : ∃ n a', a = n :: a' := by
      cases a with
      | nil => exact absurd (List.append_nil p) hne
      | cons n a => exact ⟨n, a, rfl⟩
    obtain ⟨s, m, hs⟩ := Tree.isTree_of_at_append (by simp) hsome
    exact isTree_of_leafOf hleaf hs

/-- No path of the diff is a stub file's. -/
theorem ne_fileStubPath_of_diff (hr : remote.WellNamed) {q : Path} (hq : remote.at q ≠ none) (p : Path) :
    q ≠ fileStubPath p := by
  rintro rfl
  have hvalid := hr.valid_at hq (p.getLastD "" ++ stubSuffix) (by simp [fileStubPath])
  have hl := (kept_of_valid hvalid).2
  rw [show logicalName (p.getLastD "" ++ stubSuffix) = some (p.getLastD "") from
    stripSuffix_eq_some.mpr rfl] at hl
  cases hl

end Diff

/-! ## The checks of phase 2b -/

/-- The write of this entry is checked. -/
def isChecked (env : PullEnv) (d : Disk) (p : Path) : DiffEntry → Bool
  | .added b => !shouldStub env d p b
  | .modified _ => !updatesStub env d p
  | .symlink _ _ => true
  | .deleted => false
  | .addedEmptyDir => false
  | .addedTree _ _ => false

/-- If its write is going to be checked, no symlink above the path leads to something there. -/
def LedNowhere (env : PullEnv) (x : Path × DiffEntry) (s : PullState) : Prop :=
  skipped env s.disk x.1 = .ok false → isChecked env s.disk x.1 x.2 = true →
    ¬ NoLinkAbove s.disk x.1 → env.resolution.lstat s.disk x.1 = none

/-- `rest` is left to write, after the deletions have left `s₁`. -/
structure Pending (s₁ : PullState) (rest : List (Path × DiffEntry)) (s : PullState) : Prop where
  removed : s.removed = s₁.removed
  still : ∀ x ∈ rest, x.2.leaf ≠ none → s.disk.get x.1 = s₁.disk.get x.1
  links : ∀ x ∈ rest, x.2.leaf ≠ none → ∀ a, a <+: x.1 → ∀ target m,
    s.disk.get a = some (.leaf (.symlink target m)) → s₁.disk.get a = some (.leaf (.symlink target m))

theorem Pending.start (s : PullState) (rest : List (Path × DiffEntry)) : Pending s rest s :=
  ⟨rfl, fun _ _ _ => rfl, fun _ _ _ _ _ _ _ h => h⟩

/-- A write elsewhere. -/
theorem Pending.step {s₁ s t : PullState} {y : Path × DiffEntry} {rest : List (Path × DiffEntry)}
    (h : Pending s₁ (y :: rest) s) (hstays : Stays y.1 s t)
    (hapart : ∀ x ∈ rest, x.2.leaf ≠ none →
      ¬ x.1 <+: y.1 ∧ ¬ y.1 <+: x.1 ∧ x.1 ≠ fileStubPath y.1) : Pending s₁ rest t where
  removed := hstays.1.trans h.removed
  still x hx hl := by
    obtain ⟨habove, hbelow, hstub⟩ := hapart x hx hl
    rw [← h.still x (List.mem_cons_of_mem _ hx) hl]
    rcases hstays.2 x.1 with heq | hb | ⟨ha, -⟩ | ⟨hs, -⟩
    · exact heq
    · exact absurd hb hbelow
    · exact absurd ha habove
    · exact absurd hs hstub
  links x hx hl a ha target m hlink := by
    obtain ⟨-, hbelow, -⟩ := hapart x hx hl
    refine h.links x (List.mem_cons_of_mem _ hx) hl a ha target m ?_
    rcases hstays.2 a with heq | hb | ⟨-, hdir⟩ | ⟨-, hno⟩
    · rw [← heq, hlink]
    · exact absurd (hb.trans ha) hbelow
    · rw [hdir] at hlink
      cases hlink
    · exact absurd hlink (hno target m)

/-- Of the entries that are left nothing but the first has been dealt with. -/
theorem Pending.tail {s₁ s : PullState} {y : Path × DiffEntry} {rest : List (Path × DiffEntry)}
    (h : Pending s₁ (y :: rest) s) : Pending s₁ rest s where
  removed := h.removed
  still x hx := h.still x (List.mem_cons_of_mem _ hx)
  links x hx := h.links x (List.mem_cons_of_mem _ hx)

section Checked

variable {cfg : ScanConfig} {d : Disk} {r : ScanResult} {env : PullEnv} {s₁ s : PullState}
  {x : Path × DiffEntry} {rest : List (Path × DiffEntry)}

/-- **`check_of_pending`** — the check right before a write succeeds, also where the path's stub file has
just gone. -/
theorem check_of_pending (h : scanImpl cfg [] (stillCalls d) (observe d) = .ok r) (hp : x.1 ≠ [])
    (hleaf : x.2.leaf ≠ none) (hnoted : Noted cfg.isIgnored env.resolution d x.1)
    (hs₁ : Shrunk d s₁) (hs : Pending s₁ (x :: rest) s)
    (hled : ¬ NoLinkAbove s.disk x.1 → env.resolution.lstat s.disk x.1 = none) {t : PullState}
    (hremoved : t.removed = s.removed)
    (hless : ∀ q, t.disk.get q = s.disk.get q ∨ t.disk.get q = none)
    (hat : t.disk.get x.1 = s.disk.get x.1) :
    changedSinceScan (.withStubs r) t.removed x.1 (env.resolution.lstat t.disk x.1) = false := by
  have hmem : x ∈ x :: rest := List.mem_cons_self ..
  have hback : ∀ a target m, t.disk.get a = some (.leaf (.symlink target m)) →
      s.disk.get a = some (.leaf (.symlink target m)) := by
    intro a target m hlink
    rcases hless a with heq | hno
    · rw [← heq, hlink]
    · rw [hno] at hlink
      cases hlink
  rw [hremoved, hs.removed]
  refine unchanged_of_settled h hp hnoted hs₁ (hat.trans (hs.still x hmem hleaf)) ?_ fun hway => ?_
  · exact fun a ha target m hlink => hs.links x hmem hleaf a ha target m (hback a target m hlink)
  · refine env.resolution.lstat_mono s.disk t.disk x.1 hless (hled fun hno => hway ?_)
    exact fun a ha hne target m hlink => hno a ha hne target m (hback a target m hlink)

theorem onDisk_notChanged {P : PullState → Prop} (m : Guarded DiskLeaf PUnit) :
    Triple P (onDisk m) NotChanged fun _ _ => True := by
  refine Triple.of_each fun s _ => ?_
  exact (onDisk_triple (Q := fun _ _ => True) (fun _ _ _ => trivial) s).mono (fun _ h => h)
    fun _ _ _ => trivial

theorem ensureBlobLocal_triple {P : PullState → Prop} (hash : Hash) :
    Triple P (ensureBlobLocal env hash) NotChanged fun _ => P := by
  unfold ensureBlobLocal
  split_ifs
  · exact Triple.pure fun _ hs => hs
  · exact Triple.throw nofun

/-- A file is written after its check. -/
theorem materialiseBlob_triple {obs : ScanObservation} {p : Path} {b : Blob}
    (h : changedSinceScan obs s.removed p (env.resolution.lstat s.disk p) = false) :
    Triple (· = s) (materialiseBlob env obs p b) NotChanged fun _ _ => True := by
  refine (ensureBlobLocal_triple b.hash).bind fun _ => (verifyOne_triple h).bind fun _ => ?_
  exact (onDisk_notChanged _).bind fun _ => onDisk_notChanged _

/-- Writing a whole tree checks nothing. -/
theorem materialiseEntries_triple (t : Tree) (dir : Path) :
    Triple (fun _ => True) (materialiseEntries env t dir) NotChanged fun _ _ => True := by
  induction t generalizing dir with
  | nil => exact Triple.pure fun _ _ => trivial
  | blob n b rest ih =>
      refine (ensureBlobLocal_triple b.hash).bind fun _ => ?_
      exact (onDisk_notChanged _).bind fun _ => ih dir
  | tree n t m rest iht ih =>
      exact (onDisk_notChanged _).bind fun _ => (iht _).bind fun _ => ih dir
  | symlink n l rest ih => exact (onDisk_notChanged _).bind fun _ => ih dir

/-- **`writeEntry_triple`** — no entry that is left fails its check. -/
theorem writeEntry_triple (h : scanImpl cfg [] (stillCalls d) (observe d) = .ok r) (hp : x.1 ≠ [])
    (hstub : x.1 ≠ fileStubPath x.1)
    (hnoted : touchesAFile x.2 = true → Noted cfg.isIgnored env.resolution d x.1)
    (hs₁ : Shrunk d s₁) (hs : Pending s₁ (x :: rest) s)
    (hled : isChecked env s.disk x.1 x.2 = true → ¬ NoLinkAbove s.disk x.1 →
      env.resolution.lstat s.disk x.1 = none) :
    Triple (· = s) (writeEntry env (.withStubs r) x.1 x.2) NotChanged fun _ _ => True := by
  obtain ⟨p, e⟩ := x
  have hdone : Triple (fun _ => True) (pure ⟨⟩ : Pull PUnit) NotChanged fun _ _ => True :=
    Triple.pure fun _ _ => trivial
  have hnow (hl : e.leaf ≠ none) (hc : isChecked env s.disk p e = true) (ht : touchesAFile e = true) :=
    check_of_pending h hp hl (hnoted ht) hs₁ hs (hled hc) (t := s) rfl (fun _ => .inl rfl) rfl
  cases e with
  | added b =>
      refine Triple.ite ?_ ?_
      · refine (onDisk_notChanged _).bind fun _ => Triple.ite (onDisk_notChanged _) ?_
        exact Triple.pure fun _ _ => trivial
      · refine Triple.of_each ?_
        rintro _ ⟨rfl, hno⟩
        exact materialiseBlob_triple (hnow (by rintro ⟨⟩) (by simpa [isChecked] using hno) rfl)
  | modified b =>
      refine Triple.ite (onDisk_notChanged _) (Triple.of_each ?_)
      rintro _ ⟨rfl, hno⟩
      exact materialiseBlob_triple (hnow (by rintro ⟨⟩) (by simpa [isChecked] using hno) rfl)
  | deleted => exact hdone.mono (fun _ _ => trivial) fun _ _ _ => trivial
  | addedEmptyDir => exact onDisk_notChanged _
  | symlink l w =>
      refine (onDisk_triple (removeFile_get (fileStubPath_ne_nil p)) s).bind fun _ => ?_
      refine Triple.of_each fun t ht => ?_
      obtain ⟨hremoved, hget⟩ := ht
      have hless : ∀ q, t.disk.get q = s.disk.get q ∨ t.disk.get q = none := by
        intro q
        rw [hget]
        split_ifs
        · exact .inr rfl
        · exact .inl rfl
      have hcheck := check_of_pending h hp (by rintro ⟨⟩) (hnoted rfl) hs₁ hs (hled rfl) hremoved hless
        (by rw [hget, if_neg hstub])
      exact (verifyOne_triple hcheck).bind fun _ => onDisk_notChanged _
  | addedTree t m =>
      refine (onDisk_notChanged _).bind fun _ => ?_
      refine Triple.bind (Q := fun _ _ => True) ?_ fun _ => Triple.ite ?_ ?_
      · refine Triple.ite (onDisk_notChanged _) ?_
        exact hdone.mono (fun _ _ => trivial) fun _ _ _ => trivial
      · exact (onDisk_notChanged _).bind fun _ => materialiseEntries_triple t p
      · exact (onDisk_notChanged _).bind fun _ => onDisk_notChanged _

/-- Reading the stubs above a path fails in ways of its own. -/
theorem firstStub_error {d : Disk} {at' : Path → Path} {ps : List Path} {e : PullError}
    (h : firstStub env d at' ps = .error e) : NotChanged e := by
  induction ps with
  | nil => cases h
  | cons p ps ih =>
      unfold firstStub at h
      cases hread : readRecord env d (at' p) with
      | error e' =>
          rw [hread] at h
          cases h
          unfold readRecord at hread
          split at hread
          · cases hread
          · split_ifs at hread
            cases hread
            exact nofun
          · cases hread
            exact nofun
      | ok found =>
          rw [hread] at h
          cases found with
          | true => cases h
          | false => exact ih h

theorem skipped_error {d : Disk} {p : Path} {e : PullError} (h : skipped env d p = .error e) :
    NotChanged e := by
  unfold skipped at h
  cases habove : firstStub env d dirStubPath (ancestors p) with
  | error e' =>
      rw [habove] at h
      cases h
      exact firstStub_error habove
  | ok above =>
      rw [habove] at h
      simp only [bind, Except.bind] at h
      split_ifs at h
      cases hfound : firstStub env d fileStubPath (p :: ancestors p) with
      | error e' =>
          rw [hfound] at h
          cases h
          exact firstStub_error hfound
      | ok found =>
          rw [hfound] at h
          cases h

/-- **`applyWrite_triple`** — a step of phase 2b. -/
theorem applyWrite_triple (h : scanImpl cfg [] (stillCalls d) (observe d) = .ok r) (hp : x.1 ≠ [])
    (hstub : x.2 ≠ .deleted → x.1 ≠ fileStubPath x.1)
    (hnoted : touchesAFile x.2 = true → Noted cfg.isIgnored env.resolution d x.1)
    (hs₁ : Shrunk d s₁) (hs : Pending s₁ (x :: rest) s) (hled : LedNowhere env x s) :
    Triple (· = s) (applyWrite env (.withStubs r) x) NotChanged fun _ _ => True := by
  intro s' hs'
  have hrun : applyWrite env (.withStubs r) x s' = EStateM.bind (Pull.lift (skipped env s.disk x.1))
      (writeUnless env (.withStubs r) x) s := by
    rw [hs']
    rfl
  rw [hrun]
  cases hskip : skipped env s.disk x.1 with
  | error e =>
      simp only [EStateM.bind, Pull.lift]
      exact skipped_error hskip
  | ok skip =>
      simp only [EStateM.bind, Pull.lift]
      cases skip with
      | true => trivial
      | false =>
          by_cases hdel : x.2 = .deleted
          · obtain ⟨p, e⟩ := x
            subst hdel
            trivial
          · exact writeEntry_triple h hp (hstub hdel) hnoted hs₁ hs (hled hskip) s rfl

/-- A deletion is over when the writes begin. -/
theorem applyWrite_deleted {obs : ScanObservation} {p : Path} {s t : PullState}
    (h : applyWrite env obs (p, .deleted) s = .ok ⟨⟩ t) : t = s := by
  have h : EStateM.bind (Pull.lift (skipped env s.disk p)) (writeUnless env obs (p, .deleted)) s =
      .ok ⟨⟩ t := h
  cases hskip : skipped env s.disk p with
  | error e => simp [EStateM.bind, Pull.lift, hskip] at h
  | ok skip =>
      simp only [EStateM.bind, Pull.lift, hskip] at h
      cases skip <;> cases h <;> rfl

end Checked

/-! ## Main theorem -/

section Main

variable {cfg : ScanConfig} {d : Disk} {r : ScanResult} {env : PullEnv} {base : Option Tree}
  {remote : Tree} {thr : Nat} {listDirs : List Path → List Path} {order : List (Path × DiffEntry)}

/-- The pull has got so far that `done` is written. -/
def Reached (env : PullEnv) (obs : ScanObservation) (listDirs : List Path → List Path)
    (order done : List (Path × DiffEntry)) (d : Disk) (s : PullState) : Prop :=
  ∃ s₁, clearAway env obs listDirs order ⟨d, []⟩ = .ok ⟨⟩ s₁ ∧
    done.forM (applyWrite env obs) s₁ = .ok ⟨⟩ s

theorem forM_concat {f : Path × DiffEntry → Pull PUnit} {l : List (Path × DiffEntry)}
    {x : Path × DiffEntry} {s t u : PullState} (h : l.forM f s = .ok ⟨⟩ t) (hx : f x t = .ok ⟨⟩ u) :
    (l ++ [x]).forM f s = .ok ⟨⟩ u := by
  induction l generalizing s with
  | nil =>
      injection h with _ hst
      subst hst
      show EStateM.bind (f x) (fun _ => (pure ⟨⟩ : Pull PUnit)) s = .ok ⟨⟩ u
      simp only [EStateM.bind, hx]
      rfl
  | cons y l ih =>
      have h : EStateM.bind (f y) (fun _ => l.forM f) s = .ok ⟨⟩ t := h
      show EStateM.bind (f y) (fun _ => (l ++ [x]).forM f) s = .ok ⟨⟩ u
      cases hy : f y s with
      | error e s' => simp only [EStateM.bind, hy, reduceCtorEq] at h
      | ok a s' =>
          simp only [EStateM.bind, hy] at h ⊢
          exact ih h

/-- Of the diff of a remote root, in whatever order. -/
structure Listed (base : Option Tree) (remote : Tree) (thr : Nat) (order : List (Path × DiffEntry)) :
    Prop where
  base_wf : (base.getD .nil).Wf
  remote_wf : remote.Wf
  remote_named : remote.WellNamed
  perm : order.Perm (diffTrees base (some remote) thr).pairs

namespace Listed

theorem get (h : Listed base remote thr order) {x : Path × DiffEntry} (hx : x ∈ order) :
    (diffTrees base (some remote) thr).get x.1 = some x.2 :=
  KeyMap.get_eq_some_iff_mem.mpr (h.perm.mem_iff.mp hx)

theorem nodup (h : Listed base remote thr order) : (order.map Prod.fst).Nodup :=
  (h.perm.map Prod.fst).nodup_iff.mpr (KeyMap.nodup_keys _)

theorem nodeDiff_eq (h : Listed base remote thr order) {x : Path × DiffEntry} (hx : x ∈ order) :
    x.1 ≠ [] ∧ ∃ g, nodeDiff thr g ((base.getD .nil).at x.1) (remote.at x.1) = some x.2 := by
  have hget := h.get hx
  rcases @get_remoteDiff base (some remote) h.base_wf h.remote_wf thr x.1 with
    ⟨-, -, -, -, -, -, -, hno⟩ | ⟨g, hg⟩
  · rw [hno] at hget
    cases hget
  · rw [hg] at hget
    refine ⟨fun hnil => ?_, g, hget⟩
    rw [hnil] at hget
    simp [nodeDiff, Tree.at, Tree.root] at hget

theorem remote_at (h : Listed base remote thr order) {x : Path × DiffEntry} (hx : x ∈ order)
    (hdel : x.2 ≠ .deleted) : remote.at x.1 ≠ none := by
  obtain ⟨-, g, hg⟩ := h.nodeDiff_eq hx
  exact remote_of_nodeDiff hg hdel

/-- A write leaves the paths of other files and symlinks of the diff alone. -/
theorem apart (h : Listed base remote thr order) {x y : Path × DiffEntry} (hx : x ∈ order)
    (hy : y ∈ order) (hne : x.1 ≠ y.1) (hleaf : x.2.leaf ≠ none) (hdel : y.2 ≠ .deleted) :
    ¬ x.1 <+: y.1 ∧ ¬ y.1 <+: x.1 ∧ x.1 ≠ fileStubPath y.1 := by
  obtain ⟨habove, hbelow⟩ := apart_of_diff h.base_wf h.remote_wf (h.get hx) hleaf (h.get hy) hdel
    (Ne.symm hne)
  refine ⟨hbelow, habove, ne_fileStubPath_of_diff h.remote_named (h.remote_at hx fun hd => ?_) _⟩
  rw [hd] at hleaf
  exact hleaf rfl

end Listed

/-- **`writes_triple`** — the loop of phase 2b, from where the deletions have left the tree. -/
theorem writes_triple (h : scanImpl cfg [] (stillCalls d) (observe d) = .ok r)
    (hl : Listed base remote thr order)
    (hnoted : ∀ x ∈ order, touchesAFile x.2 = true → Noted cfg.isIgnored env.resolution d x.1)
    (hled : ∀ done x rest, order = done ++ x :: rest → ∀ s,
      Reached env (.withStubs r) listDirs order done d s → LedNowhere env x s)
    {s₁ : PullState} (hclear : clearAway env (.withStubs r) listDirs order ⟨d, []⟩ = .ok ⟨⟩ s₁)
    (hs₁ : Shrunk d s₁) :
    Triple (· = s₁) (order.forM (applyWrite env (.withStubs r))) NotChanged fun _ _ => True := by
  have hloop := Triple.forM (E := NotChanged) (f := applyWrite env (.withStubs r))
    (fun rest s => ∃ done, order = done ++ rest ∧ done.forM (applyWrite env (.withStubs r)) s₁ = .ok ⟨⟩ s ∧
      Pending s₁ rest s) (fun x rest => ?_) order
  · refine hloop.mono ?_ fun _ _ _ => trivial
    rintro _ rfl
    exact ⟨[], rfl, rfl, .start _ _⟩
  · refine Triple.of_each fun s ⟨done, hsplit, hdone, hs⟩ => ?_
    have hx : x ∈ order := by simp [hsplit]
    have hstep := applyWrite_triple h (hl.nodeDiff_eq hx).1
      (fun hdel => ne_fileStubPath_of_diff hl.remote_named (hl.remote_at hx hdel) x.1)
      (hnoted x hx) hs₁ hs (hled done x rest hsplit s ⟨s₁, hclear, hdone⟩)
    refine Triple.intro ?_ fun s' e t hs' hrun => hstep.of_error hs' hrun
    rintro s' ⟨⟩ t hs' hrun
    rw [hs'] at hrun
    refine ⟨done ++ [x], by simp [hsplit], forM_concat hdone hrun, ?_⟩
    by_cases hdel : x.2 = .deleted
    · obtain ⟨p, e⟩ := x
      cases hdel
      rw [applyWrite_deleted hrun]
      exact hs.tail
    · refine hs.step (leads_applyWrite _ (hl.nodeDiff_eq hx).1 s ⟨⟩ t hrun) fun y hy hleaf => ?_
      have hnd := hl.nodup
      rw [hsplit, List.map_append, List.map_cons] at hnd
      have hne : y.1 ≠ x.1 := fun heq =>
        (List.nodup_cons.mp (List.nodup_append.mp hnd).2.1).1 (heq ▸ List.mem_map_of_mem hy)
      exact hl.apart (by simp [hsplit, hy]) hx hne hleaf hdel

/-- **`quiescent_pull`** — the first round of checks succeeds exactly if the scan takes note of whatever
is at a path of the diff where a file is to be put or taken from.  And then no later check fails, in
whatever order the diff is gone through, as long as no symlink comes to lead to something at a path that
is about to be written. -/
theorem quiescent_pull (h : scanImpl cfg [] (stillCalls d) (observe d) = .ok r)
    (hl : Listed base remote thr order) (hlist : DeepestFirst listDirs) :
    (verifyUnchangedSinceScan env.resolution (.withStubs r) d order = [] ↔
      ∀ x ∈ order, touchesAFile x.2 = true → Noted cfg.isIgnored env.resolution d x.1) ∧
    ((∀ x ∈ order, touchesAFile x.2 = true → Noted cfg.isIgnored env.resolution d x.1) →
      (∀ done x rest, order = done ++ x :: rest → ∀ s,
        Reached env (.withStubs r) listDirs order done d s → LedNowhere env x s) →
      ∀ l s, applyDiff env (.withStubs r) listDirs order ⟨d, []⟩ ≠ .error (.changed l) s) := by
  have hkeys : ∀ x ∈ order, x.1 ≠ [] := fun x hx => (hl.nodeDiff_eq hx).1
  have hfirst := verify_iff env.resolution h hkeys
  refine ⟨hfirst, fun hnoted hled l s hrun => ?_⟩
  have hnone := hfirst.mpr hnoted
  have hcleared := @clearAway_triple cfg d r env h _ hl.nodup hkeys
    (fun x hx hdel => hnoted x hx (by rw [hdel]; rfl)) _ hlist
  simp only [applyDiff, hnone] at hrun
  have hrun : EStateM.bind (clearAway env (.withStubs r) listDirs order)
      (fun _ => order.forM (applyWrite env (.withStubs r))) ⟨d, []⟩ = .error (.changed l) s := hrun
  cases hclear : clearAway env (.withStubs r) listDirs order ⟨d, []⟩ with
  | error e s₁ =>
      simp only [EStateM.bind, hclear, EStateM.Result.error.injEq] at hrun
      exact hcleared.of_error rfl hclear l hrun.1
  | ok a s₁ =>
      simp only [EStateM.bind, hclear] at hrun
      have hs₁ := hcleared.of_ok rfl hclear
      exact (writes_triple h hl hnoted hled hclear hs₁.shrunk).of_error rfl hrun l rfl

/-- Where no symlink leads to anything. -/
def linksNowhere : Resolution where
  lstat := DirTree.get
  stat d p :=
    match d.get p with
    | some (.leaf (.symlink _ _)) => none
    | k => k
  lstat_eq _ _ _ := rfl
  lstat_mono _ _ p hless hno := (hless p).elim (fun heq => heq.trans hno) id

/-- Stubs are not in use. -/
def plainEnv : PullEnv where
  resolution := linksNowhere
  stubThreshold := 0
  visibleToGit _ _ := false
  fetched _ := true
  blobFile _ b := (⟨b.hash, none⟩, ⟨b.mtime, b.size, b.mode⟩)
  stubFile _ r := (⟨0, some r⟩, ⟨r.mtime, 0, none⟩)
  linkTime _ l := l.mtime

/-- A scan with nothing recorded before. -/
def ignoring (isIgnored : Path → Bool) : ScanConfig := stillConfig isIgnored (fun _ => .ok ()) fun _ => 0

/-- A file in a directory, and a symlink. -/
def dirAndLink : Disk :=
  .sub "d" (.leaf "f" (.file ⟨1, none⟩ ⟨some 0, 1, none⟩) .nil) (.leaf "l" (.symlink "d" none) .nil)

def dirAndLinkTree : Tree :=
  .tree "d" (.blob "f" ⟨1, some 0, 1, none⟩ .nil) ⟨none, 1, 1⟩ (.symlink "l" ⟨"d", none⟩ .nil)

/-- The directory is a file now, and the symlink leads elsewhere. -/
def fileAndLinkTree : Tree := .blob "d" ⟨2, none, 1, none⟩ (.symlink "l" ⟨"e", none⟩ .nil)

/-- A pull that replaces a directory by a file: the directory is missing at the check, since the pull has
removed it. -/
theorem dir_to_file_quiescent :
    ∃ r, scanImpl (ignoring fun _ => false) [] (stillCalls dirAndLink) (observe dirAndLink) = .ok r ∧
      ∀ l s, applyDiff plainEnv (.withStubs r) byDepth
        (diffTrees (some dirAndLinkTree) (some fileAndLinkTree) 0).pairs ⟨dirAndLink, []⟩ ≠
          .error (.changed l) s := by
  obtain ⟨r, hr⟩ : ∃ r, scanImpl (ignoring fun _ => false) [] (stillCalls dirAndLink)
      (observe dirAndLink) = .ok r := ⟨_, rfl⟩
  have hl : Listed (some dirAndLinkTree) fileAndLinkTree 0
      (diffTrees (some dirAndLinkTree) (some fileAndLinkTree) 0).pairs :=
    ⟨⟨by decide, ⟨by decide, .inl rfl, trivial⟩, ⟨by decide, trivial⟩⟩,
      ⟨by decide, .inl rfl, by decide, trivial⟩,
      ⟨by decide, by decide, by decide, by decide, trivial⟩, .refl _⟩
  have hnoted : ∀ x ∈ (diffTrees (some dirAndLinkTree) (some fileAndLinkTree) 0).pairs,
      touchesAFile x.2 = true → dirAndLink.get x.1 ≠ none →
        sees (fun _ => false) dirAndLink x.1 = true := by
    decide
  refine ⟨r, hr, (@quiescent_pull _ _ _ plainEnv _ _ _ _ _ hr hl byDepth_deepest).2 hnoted ?_⟩
  intro _ _ _ _ s _ _ _ hway
  by_contra hne
  exact hway (noLinkAbove_of_get hne)

/-- **`ignored_path_changed`** — an ignored file where the remote has added one: no conflict is reported,
nobody touches the file, and the pull aborts. -/
theorem ignored_path_changed :
    ∃ r, scanImpl (ignoring fun p => p == ["a"]) []
        (stillCalls (.leaf "a" (.file ⟨1, none⟩ ⟨some 0, 1, none⟩) .nil))
        (observe (.leaf "a" (.file ⟨1, none⟩ ⟨some 0, 1, none⟩) .nil)) = .ok r ∧
      (classifyConflicts (diffTrees none (some r.root) 0)
        (diffTrees none (some (.blob "a" ⟨2, none, 1, none⟩ .nil)) 0).pairs (.empty, [])).2 = [] ∧
      ∃ s, applyDiff plainEnv (.withStubs r) byDepth
        (diffTrees none (some (.blob "a" ⟨2, none, 1, none⟩ .nil)) 0).pairs
        ⟨.leaf "a" (.file ⟨1, none⟩ ⟨some 0, 1, none⟩) .nil, []⟩ = .error (.changed [["a"]]) s :=
  ⟨_, rfl, by decide, _, rfl⟩

end Main

end Omemfs.Sync.Checked
