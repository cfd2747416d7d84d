/-
# Omemfs.Scan.Withdraw — histories of scans that set, believe and withdraw seals.

At most one scan that writes blobs runs at a time, under the repository lock; read-only scans run
beside it without the lock.  The fresh read and the write of a writeback are two steps.  What a look
at the local store finds is a parameter of the step that looks, so objects may come and go at any
time; the marker may be lost with the objects.  A new epoch is one that no copy of the file has.

`withdrawn` is the number of the last scan that withheld trust and wrote the cache back, `verified`
lists what each finished scan has looked at and found, or stored.  `seals_stay_withdrawn` says that
a bit under the marker's epoch is one that this scan or a later one has verified.  A read-only scan
that sits between its fresh read and its write has to be excluded where the epoch does not change:
`seal_comes_back` is a history that does not.
-/
import Omemfs.Lib.Runs
import Omemfs.Scan.Seals

namespace Omemfs.Scan

open Lib

/-! ## The scans -/

/-- What a scan meets at one path. -/
structure FileJob where
  path : String
  now : Time
  cloneRootEntry : Option TreeEntry
  blobFullyCached : Hash → Bool
  stat : FileStat
  read : FileRead

def FileJob.config (j : FileJob) (c : StatCache) (writeBlobs : Bool) : FileJobConfig where
  writeBlobs := writeBlobs
  now := j.now
  statCache := c.entries.get j.path
  sealsTrusted := c.sealsTrusted
  cloneRootEntry := j.cloneRootEntry
  blobFullyCached := j.blobFullyCached

def FileJob.scanned (j : FileJob) (c : StatCache) (writeBlobs : Bool) : Option ScannedFile :=
  (processFileJob (j.config c writeBlobs) j.stat j.read).scanned

/-- The hit was taken on the word of the bit, without a look at the blob. -/
def FileJob.believed (j : FileJob) (c : StatCache) : Bool :=
  match cacheHit (j.config c true) j.stat with
  | some (_, e) => e.sealed && c.sealsTrusted
  | none => false

inductive PushStage where
  | scanning
  | finalized
  | writing (file : CacheFile)

/-- A scan that writes blobs; the empty scope is a full scan, or a push of several paths. -/
structure Push where
  number : Nat
  scope : String
  cache : StatCache
  files : List (String × ScannedFile)
  stage : PushStage
  /-- the marker has been given a new epoch -/
  rotated : Bool
  /-- the blobs this scan has looked at and found, or stored -/
  checked : List (String × Hash)

def Push.process (w : Push) (j : FileJob) : Option Push :=
  match w.stage with
  | .scanning =>
      match j.scanned w.cache true with
      | none => some w
      | some f =>
          some { w with
            files := w.files ++ [(j.path, f)]
            checked := if j.believed w.cache then w.checked else (j.path, f.hash) :: w.checked }
  | _ => none

/-- `apply_scanned`; a push of several paths does it after each. -/
def Push.apply (w : Push) : Option Push :=
  match w.stage with
  | .scanning => some { w with cache := w.cache.applyScanned w.files, files := [] }
  | _ => none

/-- The last `apply_scanned` and `finalize_seal_epoch`; writing the marker may fail. -/
def Push.finalize (w : Push) (newEpoch : Epoch) (persisted : Bool) : Option Push :=
  match w.stage with
  | .scanning =>
      let c := w.cache.applyScanned w.files
      some { w with
        cache := c.finalizeSealEpoch newEpoch
        files := []
        stage := .finalized
        rotated := c.needsNewEpoch && persisted }
  | _ => none

/-- A read-only scan, with the copy it is about to write once it has read the file afresh. -/
structure ReadScan where
  cache : StatCache
  files : List (String × ScannedFile)
  copy : Option CacheFile

def ReadScan.process (r : ReadScan) (j : FileJob) : Option ReadScan :=
  match r.copy, j.scanned r.cache false with
  | none, some f => some { r with files := r.files ++ [(j.path, f)] }
  | none, none => some r
  | some _, _ => none

/-- `refresh_stat_cache` up to the fresh read: nothing remains to do where nothing has changed. -/
def ReadScan.load (r : ReadScan) (file : CacheFile) : Option ReadScan :=
  let c := r.cache.applyScanned r.files
  (c.writeReadonlyMerge file).map fun f => { cache := c, files := [], copy := some f }

/-! ## Steps -/

structure SealState where
  disk : CacheFile
  marker : Option Epoch
  push : Option Push
  readers : List ReadScan
  /-- the scans that write blobs so far -/
  scans : Nat
  verified : List (Nat × String × Hash)
  withdrawn : Option Nat

/-- The STAT_CACHE and the copies about to replace it. -/
def SealState.copies (s : SealState) : List CacheFile :=
  s.disk :: s.readers.filterMap ReadScan.copy

inductive SealEvent where
  | loseMarker
  | pushBegin (scope : String) (sampleMax : Nat) (probe : Hash → Bool × Nat)
  | pushProcess (j : FileJob)
  | pushApply
  | pushFinalize (newEpoch : Epoch) (persisted : Bool)
  | pushLoad
  | pushWrite
  | pushAbandon
  | readBegin (scope : String)
  | readProcess (i : Nat) (j : FileJob)
  | readLoad (i : Nat)
  | readWrite (i : Nat)
  | readAbandon (i : Nat)

namespace SealState

def pushBegin (s : SealState) (scope : String) (sampleMax : Nat) (probe : Hash → Bool × Nat) :
    Option SealState :=
  match s.push with
  | some _ => none
  | none =>
      some { s with
        scans := s.scans + 1
        push := some
          { number := s.scans, scope
            cache := (StatCache.readScoped s.disk scope).computeSealsTrusted s.marker sampleMax
              probe
            files := [], stage := .scanning, rotated := false, checked := [] } }

def pushFinalize (s : SealState) (newEpoch : Epoch) (persisted : Bool) : Option SealState :=
  if newEpoch ≠ noSealEpoch ∧ ∀ f ∈ s.copies, newEpoch ≠ f.sealEpoch then
    (s.push.bind fun w => w.finalize newEpoch persisted).map fun w =>
      { s with marker := if w.rotated then some newEpoch else s.marker, push := some w }
  else none

/-- The fresh read; a scan that has changed nothing is done. -/
def pushLoad (s : SealState) : Option SealState :=
  match s.push with
  | none => none
  | some w =>
      match w.stage with
      | .finalized =>
          some { s with
            push := (w.cache.writeScopedMerge w.scope s.disk).map fun f =>
              { w with stage := .writing f } }
      | _ => none

def pushWrite (s : SealState) : Option SealState :=
  match s.push with
  | none => none
  | some w =>
      match w.stage with
      | .writing f =>
          some { s with
            disk := f
            push := none
            verified := w.checked.map (fun x => (w.number, x.1, x.2)) ++ s.verified
            withdrawn := if w.cache.sealsInvalidated then some w.number else s.withdrawn }
      | _ => none

def readLoad (s : SealState) (i : Nat) : Option SealState :=
  match s.readers[i]? with
  | none => none
  | some r =>
      match r.copy with
      | some _ => none
      | none =>
          match r.load s.disk with
          | some r' => some { s with readers := s.readers.set i r' }
          | none => some { s with readers := s.readers.eraseIdx i }

def readWrite (s : SealState) (i : Nat) : Option SealState :=
  match (s.readers[i]?).bind ReadScan.copy with
  | some f => some { s with disk := f, readers := s.readers.eraseIdx i }
  | none => none

end SealState

def stepSeal (s : SealState) : SealEvent → Option SealState
  | .loseMarker => some { s with marker := none }
  | .pushBegin scope sampleMax probe => s.pushBegin scope sampleMax probe
  | .pushProcess j => (s.push.bind fun w => w.process j).map fun w => { s with push := some w }
  | .pushApply => (s.push.bind Push.apply).map fun w => { s with push := some w }
  | .pushFinalize newEpoch persisted => s.pushFinalize newEpoch persisted
  | .pushLoad => s.pushLoad
  | .pushWrite => s.pushWrite
  | .pushAbandon => some { s with push := none }
  | .readBegin scope =>
      some { s with
        readers := s.readers ++ [{ cache := .readScoped s.disk scope, files := [], copy := none }] }
  | .readProcess i j =>
      ((s.readers[i]?).bind fun r => r.process j).map fun r =>
        { s with readers := s.readers.set i r }
  | .readLoad i => s.readLoad i
  | .readWrite i => s.readWrite i
  | .readAbandon i => some { s with readers := s.readers.eraseIdx i }

/-- The bit has been verified by the last scan that withheld trust, or by a later one. -/
def SealState.Vouched (s : SealState) (p : String) (h : Hash) : Prop :=
  ∀ n, s.withdrawn = some n → ∃ k, n ≤ k ∧ (k, p, h) ∈ s.verified

/-- No withdrawn bit is on disk under the marker's epoch. -/
def StayWithdrawn (s : SealState) : Prop :=
  s.marker = some s.disk.sealEpoch → ∀ p h, SealedAt s.disk.entries p h → s.Vouched p h

/-- What has to be asked of the history: a scan that withheld trust and has not given the marker a
new epoch does not write while a copy under the marker's epoch has a bit that it has not verified. -/
def NoStaleCopy (s : SealState) : SealEvent → Prop
  | .pushWrite => ∀ w, s.push = some w → w.cache.sealsInvalidated = true → w.rotated = false →
      ∀ r ∈ s.readers, ∀ f, r.copy = some f → s.marker = some f.sealEpoch →
        ∀ p h, SealedAt f.entries p h → (p, h) ∈ w.checked
  | _ => True

/-! ## One file -/

/-- What a scan that writes blobs says of a file: the blob is one that may be sealed, and at a hit
either the bit is there already or the blob of the entry may be. -/
def FileOk (own : String → Hash → Prop) (c : StatCache) (x : String × ScannedFile) : Prop :=
  x.2.blobSealed = true ∧ (x.2.cacheHit = false → own x.1 x.2.hash) ∧
    (x.2.cacheHit = true → ∃ e, c.entries.get x.1 = some e ∧ (e.sealed = true ∨ own x.1 e.hash))

theorem FileOk.mono {own own' : String → Hash → Prop} {c : StatCache} {x : String × ScannedFile}
    (hx : FileOk own c x) (h : ∀ p b, own p b → own' p b) : FileOk own' c x := by
  obtain ⟨hseal, hmiss, hhit⟩ := hx
  refine ⟨hseal, fun hm => h _ _ (hmiss hm), fun hh => ?_⟩
  obtain ⟨e, hget, he⟩ := hhit hh
  exact ⟨e, hget, he.imp_right (h _ _)⟩

/-- What `apply_scanned` records of a file whose blob is sealed. -/
theorem sealed_of_applyScanned {c : Option StatCacheEntry} {f : ScannedFile}
    {e : StatCacheEntry} (hseal : f.blobSealed = true) (he : applyScanned c (some f) = some e) :
    e.sealed = true := by
  unfold applyScanned at he
  simp only at he
  split_ifs at he
  · cases he
    exact hseal
  · obtain ⟨e', -, rfl⟩ := Option.map_eq_some_iff.mp he
    rfl

theorem sealedAt_applyFile {own : String → Hash → Prop} {c : StatCache}
    {x : String × ScannedFile} (hc : ∀ p h, SealedAt c.entries p h → own p h)
    (hx : FileOk own c x) (p : String) (h : Hash) (hs : SealedAt (c.applyFile x).entries p h) :
    own p h := by
  obtain ⟨hseal, hmiss, hhit⟩ := hx
  obtain ⟨e, hget, he, rfl⟩ := hs
  rw [StatCache.get_applyFile] at hget
  by_cases hp : p = x.1
  · subst hp
    rw [if_pos rfl] at hget
    unfold applyScanned at hget
    simp only [hseal, if_true] at hget
    by_cases hh : x.2.cacheHit = true
    · obtain ⟨e', hget', he'⟩ := hhit hh
      rw [if_neg (by simp [hh]), hget'] at hget
      cases hget
      rcases he' with he' | he'
      · exact hc _ _ ⟨e', hget', he', rfl⟩
      · exact he'
    · rw [if_pos (by simp [hh])] at hget
      cases hget
      exact hmiss (Bool.eq_false_iff.mpr hh)
  · rw [if_neg hp] at hget
    exact hc _ _ ⟨e, hget, he, rfl⟩

theorem FileOk.applyFile {own : String → Hash → Prop} {c : StatCache}
    {x y : String × ScannedFile} (hx : FileOk own c x) (hy : FileOk own c y) :
    FileOk own (c.applyFile y) x := by
  obtain ⟨hseal, hmiss, hhit⟩ := hx
  refine ⟨hseal, hmiss, fun hh => ?_⟩
  obtain ⟨e, hget, he⟩ := hhit hh
  by_cases hp : x.1 = y.1
  · have hsome : ∃ e', applyScanned (c.entries.get x.1) (some y.2) = some e' := by
      rw [hget]
      unfold applyScanned
      simp only [hy.1, if_true, Option.map_some]
      split_ifs
      · exact ⟨_, rfl⟩
      · exact ⟨_, rfl⟩
    obtain ⟨e', he'⟩ := hsome
    refine ⟨e', ?_, .inl (sealed_of_applyScanned hy.1 he')⟩
    rw [StatCache.get_applyFile, if_pos hp, he']
  · exact ⟨e, by rw [StatCache.get_applyFile, if_neg hp, hget], he⟩

/-- **`sealedAt_applyScanned`** — `apply_scanned` seals only what may be sealed. -/
theorem sealedAt_applyScanned {own : String → Hash → Prop} {c : StatCache}
    {files : List (String × ScannedFile)} (hc : ∀ p h, SealedAt c.entries p h → own p h)
    (hf : ∀ x ∈ files, FileOk own c x) (p : String) (h : Hash)
    (hs : SealedAt (c.applyScanned files).entries p h) : own p h := by
  induction files generalizing c with
  | nil => exact hc p h hs
  | cons x files ih =>
      have hx := hf x (List.mem_cons_self ..)
      apply ih (c := c.applyFile x) (sealedAt_applyFile hc hx) _ hs
      intro y hy
      exact (hf y (List.mem_cons_of_mem _ hy)).applyFile hx

theorem applyFile_frame (c : StatCache) (x : String × ScannedFile) :
    (c.applyFile x).sealsInvalidated = c.sealsInvalidated := by
  unfold StatCache.applyFile
  split_ifs
  · unfold StatCache.update
    split_ifs <;> rfl
  · unfold StatCache.markSealed
    split
    · split_ifs <;> rfl
    · rfl
  · rfl

theorem applyScanned_frame (c : StatCache) (files : List (String × ScannedFile)) :
    (c.applyScanned files).sealsInvalidated = c.sealsInvalidated := by
  induction files generalizing c with
  | nil => rfl
  | cons x files ih => exact (ih (c.applyFile x)).trans (applyFile_frame c x)

/-- **`scanned_spec`** — the word of a bit is taken only where there is one. -/
theorem scanned_spec {j : FileJob} {c : StatCache} {writeBlobs : Bool} {f : ScannedFile}
    (h : j.scanned c writeBlobs = some f) :
    f.blobSealed = writeBlobs ∧ (f.cacheHit = true → ∃ e, c.entries.get j.path = some e ∧
      e.hash = f.hash ∧ (writeBlobs = true → j.believed c = true → e.sealed = true)) ∧
      (f.cacheHit = false → writeBlobs = true → j.believed c = false) := by
  unfold FileJob.scanned processFileJob at h
  unfold FileJob.believed
  cases hhit : cacheHit (j.config c writeBlobs) j.stat with
  | some te =>
      obtain ⟨t, e⟩ := te
      rw [hhit] at h
      cases h
      have hentry : c.entries.get j.path = some e := by
        unfold cacheHit at hhit
        obtain ⟨t', -, hhit⟩ := Option.bind_eq_some_iff.mp hhit
        obtain ⟨e', he', hhit⟩ := Option.bind_eq_some_iff.mp hhit
        have heq : e' = e := by
          split_ifs at hhit
          exact (Prod.mk.inj (Option.some.inj hhit)).2
        subst heq
        exact (lookupCurrentEntry_eq_some he').1
      refine ⟨rfl, fun _ => ⟨e, hentry, rfl, ?_⟩, fun hf => nomatch hf⟩
      rintro rfl hb
      rw [hhit] at hb
      exact (Bool.and_eq_true_iff.mp hb).1
  | none =>
      rw [hhit] at h
      have hmiss : f.cacheHit = false ∧ f.blobSealed = writeBlobs := by
        simp only at h
        split at h
        · obtain ⟨m, -, rfl⟩ := Option.map_eq_some_iff.mp h
          exact ⟨rfl, rfl⟩
        · split at h
          · cases h
          · obtain ⟨m, -, rfl⟩ := Option.map_eq_some_iff.mp h
            exact ⟨rfl, rfl⟩
      refine ⟨hmiss.2, fun hf => absurd (hmiss.1.symm.trans hf) Bool.false_ne_true, ?_⟩
      rintro - rfl
      rw [hhit]

/-! ## The invariant -/

namespace SealState

/-- The blob has been verified by the running scan, or, where it holds on to what it has loaded,
since the last withdrawal. -/
def Own (s : SealState) (w : Push) (p : String) (h : Hash) : Prop :=
  (p, h) ∈ w.checked ∨ (w.cache.sealsInvalidated = false ∧ s.Vouched p h)

def CopyOk (s : SealState) (f : CacheFile) : Prop :=
  s.marker = some f.sealEpoch → ∀ p h, SealedAt f.entries p h → s.Vouched p h

structure PushOk (s : SealState) (w : Push) : Prop where
  cache : ∀ p h, SealedAt w.cache.entries p h → s.Own w p h
  files : ∀ x ∈ w.files, FileOk (s.Own w) w.cache x
  content : ∀ f, w.stage = .writing f →
    (w.cache.sealsInvalidated = true ∨ s.marker = some f.sealEpoch) →
      ∀ p h, SealedAt f.entries p h → s.Own w p h
  rotated : w.rotated = true → ∀ f ∈ s.copies, s.marker ≠ some f.sealEpoch
  number : ∀ n, s.withdrawn = some n → n ≤ w.number
  bound : w.number ≤ s.scans

end SealState

/-- A read-only scan seals nothing. -/
structure ReadScan.Ok (r : ReadScan) : Prop where
  files : ∀ x ∈ r.files, x.2.blobSealed = false
  changed : ∀ p ∈ r.cache.changed, ∀ e, r.cache.entries.get p = some e → e.sealed = false

structure Sound (s : SealState) : Prop where
  copies : ∀ f ∈ s.copies, s.CopyOk f
  push : ∀ w, s.push = some w → s.PushOk w
  readers : ∀ r ∈ s.readers, r.Ok
  scans : ∀ n, s.withdrawn = some n → n ≤ s.scans

/-- A step that verifies and withdraws nothing, gives the marker no new epoch, and makes no copy
with a bit that another copy of its epoch does not have. -/
structure Quiet (s t : SealState) : Prop where
  withdrawn : t.withdrawn = s.withdrawn
  verified : t.verified = s.verified
  scans : s.scans ≤ t.scans
  marker : ∀ e, t.marker = some e → s.marker = some e
  copies : ∀ f ∈ t.copies, ∃ g ∈ s.copies, f.sealEpoch = g.sealEpoch ∧
    ∀ p h, SealedAt f.entries p h → SealedAt g.entries p h

theorem mem_copies {s : SealState} {f : CacheFile} :
    f ∈ s.copies ↔ f = s.disk ∨ ∃ r ∈ s.readers, r.copy = some f := by
  simp only [SealState.copies, List.mem_cons, List.mem_filterMap]

theorem Quiet.vouched {s t : SealState} (hq : Quiet s t) {p : String} {h : Hash} :
    t.Vouched p h ↔ s.Vouched p h := by
  unfold SealState.Vouched
  rw [hq.withdrawn, hq.verified]

theorem Quiet.own {s t : SealState} (hq : Quiet s t) {w : Push} {p : String} {h : Hash} :
    t.Own w p h ↔ s.Own w p h := by
  unfold SealState.Own
  rw [hq.vouched]

theorem Quiet.pushOk {s t : SealState} (hq : Quiet s t) {w : Push} (hw : s.PushOk w) :
    t.PushOk w where
  cache := fun p h hs => hq.own.mpr (hw.cache p h hs)
  files := fun x hx => (hw.files x hx).mono fun _ _ h => hq.own.mpr h
  content := fun f hf hm p h hs =>
    hq.own.mpr (hw.content f hf (hm.imp_right (hq.marker _)) p h hs)
  rotated := by
    intro hr f hf hm
    obtain ⟨g, hg, hepoch, -⟩ := hq.copies f hf
    rw [hepoch] at hm
    exact hw.rotated hr g hg (hq.marker _ hm)
  number := fun n hn => hw.number n (hq.withdrawn ▸ hn)
  bound := hw.bound.trans hq.scans

/-- **`Sound.quiet`** — a quiet step keeps the invariant, if the scans it leaves running are in
order. -/
theorem Sound.quiet {s t : SealState} (hs : Sound s) (hq : Quiet s t)
    (hpush : ∀ w, t.push = some w → s.PushOk w) (hread : ∀ r ∈ t.readers, r.Ok) : Sound t where
  copies := by
    intro f hf hm p h hp
    obtain ⟨g, hg, hepoch, hsub⟩ := hq.copies f hf
    apply hq.vouched.mpr
    rw [hepoch] at hm
    exact hs.copies g hg (hq.marker _ hm) p h (hsub p h hp)
  push := fun w hw => hq.pushOk (hpush w hw)
  readers := hread
  scans := fun n hn => (hs.scans n (hq.withdrawn ▸ hn)).trans hq.scans

/-- A step of a scan that writes blobs leaves the rest of the state alone. -/
theorem Quiet.setPush (s : SealState) (o : Option Push) : Quiet s { s with push := o } :=
  ⟨rfl, rfl, le_rfl, fun _ h => h, fun f hf => ⟨f, hf, rfl, fun _ _ h => h⟩⟩

theorem Quiet.setReaders (s : SealState) {rs : List ReadScan}
    (h : ∀ r ∈ rs, ∀ f, r.copy = some f → ∃ g ∈ s.copies, f.sealEpoch = g.sealEpoch ∧
      ∀ p h, SealedAt f.entries p h → SealedAt g.entries p h) :
    Quiet s { s with readers := rs } := by
  refine ⟨rfl, rfl, le_rfl, fun _ h => h, fun f hf => ?_⟩
  rcases mem_copies.mp hf with rfl | ⟨r, hr, hcopy⟩
  · exact ⟨_, mem_copies.mpr (.inl rfl), rfl, fun _ _ h => h⟩
  · exact h r hr f hcopy

/-- A copy that is there already. -/
theorem copy_mem {s : SealState} {r : ReadScan} {f : CacheFile} (hr : r ∈ s.readers)
    (hf : r.copy = some f) : ∃ g ∈ s.copies, f.sealEpoch = g.sealEpoch ∧
      ∀ p h, SealedAt f.entries p h → SealedAt g.entries p h :=
  ⟨f, mem_copies.mpr (.inr ⟨r, hr, hf⟩), rfl, fun _ _ h => h⟩

/-! ## Scans that write blobs -/

section Push

variable {s t : SealState}

theorem Sound.pushBegin {scope : String} {sampleMax : Nat} {probe : Hash → Bool × Nat}
    (hs : Sound s) (h : s.pushBegin scope sampleMax probe = some t) : Sound t := by
  unfold SealState.pushBegin at h
  split at h
  · cases h
  · cases h
    have hq : Quiet s { s with scans := s.scans + 1 } :=
      ⟨rfl, rfl, Nat.le_succ _, fun _ h => h, fun f hf => ⟨f, hf, rfl, fun _ _ h => h⟩⟩
    obtain ⟨hepoch, hinv, -, -⟩ := StatCache.readScoped_spec s.disk scope
    have hcases := StatCache.computeSealsTrusted_cases hinv s.marker sampleMax probe
    rw [hepoch] at hcases
    refine ⟨fun f hf => (hs.quiet hq (fun w hw => hs.push w hw) hs.readers).copies f hf, ?_,
      hs.readers, fun n hn => (hs.scans n hn).trans (Nat.le_succ _)⟩
    intro w hw
    cases hw
    refine ⟨?_, (fun x hx => nomatch hx), (fun f hf => nomatch hf), (fun hr => nomatch hr),
      hs.scans, Nat.le_succ _⟩
    intro p b hsealed
    rcases hcases with ⟨htrust, hentries, hmarker⟩ | ⟨-, hclear, -⟩
    · -- what is believed at the start is under the marker's epoch, so it is vouched for
      rw [hentries] at hsealed
      have hdisk := hs.copies s.disk (mem_copies.mpr (.inl rfl)) hmarker
      exact .inr ⟨htrust, hdisk p b (StatCache.sealedAt_of_readScoped hsealed)⟩
    · exact absurd hsealed (hclear p b)

theorem SealState.PushOk.process {w w' : Push} {j : FileJob} (hw : s.PushOk w)
    (h : w.process j = some w') : s.PushOk w' := by
  unfold Push.process at h
  split at h
  case h_2 => cases h
  case h_1 hstage =>
    split at h
    · cases h
      exact hw
    · rename_i f hf
      cases h
      obtain ⟨hseal, hhit, hmiss⟩ := scanned_spec hf
      have hmono : ∀ p b, s.Own w p b → s.Own { w with
          files := w.files ++ [(j.path, f)]
          checked := if j.believed w.cache then w.checked
            else (j.path, f.hash) :: w.checked } p b := by
        rintro p b (hc | hv)
        · left
          split_ifs
          · exact hc
          · exact List.mem_cons_of_mem _ hc
        · exact .inr hv
      refine ⟨fun p b hp => hmono p b (hw.cache p b hp), ?_, ?_, hw.rotated, hw.number, hw.bound⟩
      · intro x hx
        rcases List.mem_append.mp hx with hx | hx
        · exact (hw.files x hx).mono hmono
        · rw [List.mem_singleton] at hx
          subst hx
          refine ⟨hseal, fun hm => ?_, fun hh => ?_⟩
          · left
            rw [if_neg (by rw [hmiss hm rfl]; exact Bool.false_ne_true)]
            exact List.mem_cons_self ..
          · obtain ⟨e, hget, hhash, hbel⟩ := hhit hh
            refine ⟨e, hget, ?_⟩
            by_cases hb : j.believed w.cache = true
            · exact .inl (hbel rfl hb)
            · right
              left
              rw [if_neg hb, hhash]
              exact List.mem_cons_self ..
      · intro f' hf'
        rw [hstage] at hf'
        cases hf'

theorem SealState.PushOk.apply {w w' : Push} (hw : s.PushOk w) (h : w.apply = some w') :
    s.PushOk w' := by
  unfold Push.apply at h
  split at h
  case h_2 => cases h
  case h_1 hstage =>
    cases h
    have hown : ∀ p b, s.Own w p b →
        s.Own { w with cache := w.cache.applyScanned w.files, files := [] } p b := by
      intro p b
      unfold SealState.Own
      rw [applyScanned_frame]
      exact id
    refine ⟨fun p b hp => hown p b (sealedAt_applyScanned hw.cache hw.files p b hp),
      (fun x hx => nomatch hx), ?_, hw.rotated, hw.number, hw.bound⟩
    intro f hf
    rw [hstage] at hf
    cases hf

theorem Sound.setPush {w' : Push} (hs : Sound s) (hw' : s.PushOk w') :
    Sound { s with push := some w' } := by
  apply hs.quiet (Quiet.setPush s (some w')) _ hs.readers
  intro v hv
  cases hv
  exact hw'

theorem Sound.pushFinalize {newEpoch : Epoch} {persisted : Bool} (hs : Sound s)
    (h : s.pushFinalize newEpoch persisted = some t) : Sound t := by
  unfold SealState.pushFinalize at h
  split_ifs at h with hfresh
  obtain ⟨w', hw', rfl⟩ := Option.map_eq_some_iff.mp h
  obtain ⟨w, hw, hfin⟩ := Option.bind_eq_some_iff.mp hw'
  have hok := hs.push w hw
  unfold Push.finalize at hfin
  split at hfin
  case h_2 => cases hfin
  case h_1 hstage =>
    obtain ⟨-, hnew⟩ := hfresh
    have hinv : ((w.cache.applyScanned w.files).finalizeSealEpoch newEpoch).sealsInvalidated =
        w.cache.sealsInvalidated := by
      unfold StatCache.finalizeSealEpoch
      split_ifs
      · exact applyScanned_frame _ _
      · exact applyScanned_frame _ _
    have hentries : ((w.cache.applyScanned w.files).finalizeSealEpoch newEpoch).entries =
        (w.cache.applyScanned w.files).entries := by
      unfold StatCache.finalizeSealEpoch
      split_ifs <;> rfl
    have hsealed := sealedAt_applyScanned hok.cache hok.files
    cases hfin
    by_cases hrot : ((w.cache.applyScanned w.files).needsNewEpoch && persisted) = true
    · -- nothing on disk or in a copy has the new epoch
      rw [if_pos hrot]
      have hne : ∀ f ∈ s.copies, some newEpoch ≠ some f.sealEpoch :=
        fun f hf heq => hnew f hf (Option.some.inj heq)
      refine ⟨fun f hf hm => absurd hm (hne f hf), ?_, hs.readers, hs.scans⟩
      intro v hv
      cases hv
      refine ⟨?_, (fun x hx => nomatch hx), (fun f hf => nomatch hf), fun _ => hne, hok.number,
        hok.bound⟩
      intro p b hp
      show _ ∨ _
      rw [hinv]
      exact hsealed p b (hentries ▸ hp)
    · rw [if_neg hrot]
      refine hs.setPush ⟨?_, (fun x hx => nomatch hx), (fun f hf => nomatch hf), fun hr => absurd hr hrot,
        hok.number, hok.bound⟩
      intro p b hp
      show _ ∨ _
      rw [hinv]
      exact hsealed p b (hentries ▸ hp)

theorem Sound.pushLoad (hs : Sound s) (h : s.pushLoad = some t) : Sound t := by
  unfold SealState.pushLoad at h
  split at h
  · cases h
  · rename_i w hw
    have hok := hs.push w hw
    split at h
    case h_2 => cases h
    case h_1 =>
      cases h
      refine hs.quiet (Quiet.setPush s _) (fun v hv => ?_) hs.readers
      obtain ⟨file, hfile, rfl⟩ := Option.map_eq_some_iff.mp hv
      refine ⟨hok.cache, hok.files, ?_, hok.rotated, hok.number, hok.bound⟩
      intro f hf hm p b hp
      cases hf
      rcases StatCache.sealedAt_writeScopedMerge hfile hp with hp | ⟨hinv, hepoch, hp⟩
      · exact hok.cache p b hp
      · -- a bit of the file as the fresh read found it, under the file's own epoch
        rcases hm with hm | hm
        · exact absurd (hinv.symm.trans hm) Bool.false_ne_true
        · rw [hepoch] at hm
          exact .inr ⟨hinv, hs.copies s.disk (mem_copies.mpr (.inl rfl)) hm p b hp⟩

/-- **`Sound.pushWrite`** — the write is where seals are withdrawn. -/
theorem Sound.pushWrite (hs : Sound s) (hcare : NoStaleCopy s .pushWrite)
    (h : s.pushWrite = some t) : Sound t := by
  unfold SealState.pushWrite at h
  split at h
  · cases h
  · rename_i w hw
    have hok := hs.push w hw
    split at h
    case h_1 file hstage =>
      cases h
      have hvouched : ∀ p b, s.Own w p b → SealState.Vouched { s with
          disk := file
          push := none
          verified := w.checked.map (fun x => (w.number, x.1, x.2)) ++ s.verified
          withdrawn := if w.cache.sealsInvalidated then some w.number else s.withdrawn } p b := by
        rintro p b (hc | ⟨hinv, hv⟩) n hn
        · refine ⟨w.number, ?_, List.mem_append_left _ (List.mem_map.mpr ⟨(p, b), hc, rfl⟩)⟩
          simp only at hn
          split_ifs at hn
          · exact (Option.some.inj hn).ge
          · exact hok.number n hn
        · simp only [hinv, Bool.false_eq_true, if_false] at hn
          obtain ⟨k, hk, hmem⟩ := hv n hn
          exact ⟨k, hk, List.mem_append_right _ hmem⟩
      refine ⟨?_, (fun v hv => nomatch hv), hs.readers, ?_⟩
      · intro f hf hm p b hp
        rcases mem_copies.mp hf with rfl | ⟨r, hr, hcopy⟩
        · exact hvouched p b (hok.content _ hstage (.inr hm) p b hp)
        · have hmem : f ∈ s.copies := mem_copies.mpr (.inr ⟨r, hr, hcopy⟩)
          apply hvouched
          by_cases hinv : w.cache.sealsInvalidated = true
          · by_cases hrot : w.rotated = true
            · exact absurd hm (hok.rotated hrot f hmem)
            · exact .inl (hcare w hw hinv (Bool.eq_false_iff.mpr hrot) r hr f hcopy hm p b hp)
          · exact .inr ⟨Bool.eq_false_iff.mpr hinv, hs.copies f hmem hm p b hp⟩
      · intro n hn
        simp only at hn
        split_ifs at hn
        · exact (Option.some.inj hn).symm ▸ hok.bound
        · exact hs.scans n hn
    all_goals cases h

end Push

/-! ## Read-only scans -/

section Read

variable {s t : SealState}

theorem changed_applyFile {c : StatCache} {x : String × ScannedFile}
    (hc : ∀ p ∈ c.changed, ∀ e, c.entries.get p = some e → e.sealed = false)
    (hx : x.2.blobSealed = false) :
    ∀ p ∈ (c.applyFile x).changed, ∀ e, (c.applyFile x).entries.get p = some e →
      e.sealed = false := by
  intro p hp e hget
  rw [StatCache.get_applyFile] at hget
  by_cases hh : x.2.cacheHit = true
  · have hsame : c.applyFile x = c := by simp [StatCache.applyFile, hh, hx]
    rw [hsame] at hp
    have hentry : c.entries.get p = some e := by
      simpa [applyScanned, hh, hx] using hget
    exact hc p hp e hentry
  · by_cases heq : p = x.1
    · rw [if_pos heq] at hget
      simp only [applyScanned, hh, Bool.not_false, if_true] at hget
      cases hget
      exact hx
    · rw [if_neg heq] at hget
      refine hc p ?_ e hget
      simp only [StatCache.applyFile, hh, Bool.not_false, if_true] at hp
      unfold StatCache.update at hp
      split_ifs at hp
      · exact hp
      · exact (List.mem_cons.mp hp).resolve_left heq

theorem changed_applyScanned {c : StatCache} {files : List (String × ScannedFile)}
    (hc : ∀ p ∈ c.changed, ∀ e, c.entries.get p = some e → e.sealed = false)
    (hf : ∀ x ∈ files, x.2.blobSealed = false) :
    ∀ p ∈ (c.applyScanned files).changed, ∀ e, (c.applyScanned files).entries.get p = some e →
      e.sealed = false := by
  induction files generalizing c with
  | nil => exact hc
  | cons x files ih =>
      exact ih (changed_applyFile hc (hf x (List.mem_cons_self ..)))
        fun y hy => hf y (List.mem_cons_of_mem _ hy)

theorem Sound.readBegin (hs : Sound s) (scope : String) : Sound { s with
    readers := s.readers ++ [{ cache := .readScoped s.disk scope, files := [], copy := none }] } := by
  refine hs.quiet (Quiet.setReaders s ?_) hs.push ?_
  · intro r hr f hf
    rcases List.mem_append.mp hr with hr | hr
    · exact copy_mem hr hf
    · rw [List.mem_singleton] at hr
      subst hr
      cases hf
  · intro r hr
    rcases List.mem_append.mp hr with hr | hr
    · exact hs.readers r hr
    · rw [List.mem_singleton] at hr
      subst hr
      refine ⟨(fun x hx => nomatch hx), fun p hp => ?_⟩
      rw [(StatCache.readScoped_spec s.disk scope).2.2.2] at hp
      cases hp

/-- A read-only scan replaced by one in order. -/
theorem Sound.setReader {i : Nat} {r : ReadScan} (hs : Sound s) (hr : r.Ok)
    (hcopy : ∀ f, r.copy = some f → ∃ g ∈ s.copies, f.sealEpoch = g.sealEpoch ∧
      ∀ p h, SealedAt f.entries p h → SealedAt g.entries p h) :
    Sound { s with readers := s.readers.set i r } := by
  refine hs.quiet (Quiet.setReaders s ?_) hs.push ?_
  · intro r' hr' f hf
    rcases List.mem_or_eq_of_mem_set hr' with hr' | rfl
    · exact copy_mem hr' hf
    · exact hcopy f hf
  · intro r' hr'
    rcases List.mem_or_eq_of_mem_set hr' with hr' | rfl
    · exact hs.readers r' hr'
    · exact hr

theorem Sound.eraseReader (hs : Sound s) (i : Nat) :
    Sound { s with readers := s.readers.eraseIdx i } := by
  refine hs.quiet (Quiet.setReaders s ?_) hs.push ?_
  · intro r hr f hf
    exact copy_mem (List.mem_of_mem_eraseIdx hr) hf
  · intro r hr
    exact hs.readers r (List.mem_of_mem_eraseIdx hr)

theorem Sound.readProcess {i : Nat} {j : FileJob} {r r' : ReadScan} (hs : Sound s)
    (hi : s.readers[i]? = some r) (h : r.process j = some r') :
    Sound { s with readers := s.readers.set i r' } := by
  have hr := List.mem_of_getElem? hi
  have hok := hs.readers r hr
  unfold ReadScan.process at h
  split at h
  case h_1 f hcopy hf =>
    cases h
    apply hs.setReader
    · refine ⟨fun x hx => ?_, hok.changed⟩
      rcases List.mem_append.mp hx with hx | hx
      · exact hok.files x hx
      · rw [List.mem_singleton] at hx
        subst hx
        exact (scanned_spec hf).1
    · intro f' hf'
      exact copy_mem hr hf'
  case h_2 =>
    cases h
    exact hs.setReader hok fun f' hf' => copy_mem hr hf'
  case h_3 => cases h

theorem Sound.readLoad {i : Nat} (hs : Sound s) (h : s.readLoad i = some t) : Sound t := by
  unfold SealState.readLoad at h
  split at h
  · cases h
  · rename_i r hi
    have hok := hs.readers r (List.mem_of_getElem? hi)
    split at h
    · cases h
    · split at h
      · rename_i r' hr'
        cases h
        obtain ⟨f, hf, rfl⟩ := Option.map_eq_some_iff.mp hr'
        have hchanged := changed_applyScanned hok.changed hok.files
        obtain ⟨hepoch, hsub⟩ := StatCache.sealedAt_writeReadonlyMerge hf hchanged
        refine hs.setReader ⟨(fun x hx => nomatch hx), hchanged⟩ fun f' hf' => ?_
        cases hf'
        exact ⟨s.disk, mem_copies.mpr (.inl rfl), hepoch, hsub⟩
      · cases h
        exact hs.eraseReader i

theorem Sound.readWrite {i : Nat} (hs : Sound s) (h : s.readWrite i = some t) : Sound t := by
  unfold SealState.readWrite at h
  split at h
  · rename_i f hf
    obtain ⟨r, hi, hcopy⟩ := Option.bind_eq_some_iff.mp hf
    cases h
    have hq : Quiet s { s with disk := f, readers := s.readers.eraseIdx i } := by
      refine ⟨rfl, rfl, le_rfl, fun _ h => h, fun f' hf' => ?_⟩
      rcases mem_copies.mp hf' with rfl | ⟨r', hr', hcopy'⟩
      · exact copy_mem (List.mem_of_getElem? hi) hcopy
      · exact copy_mem (List.mem_of_mem_eraseIdx hr') hcopy'
    exact hs.quiet hq hs.push fun r' hr' => hs.readers r' (List.mem_of_mem_eraseIdx hr')
  · cases h

end Read

/-! ## Whole histories -/

/-- **`Sound.step`** — every step keeps the invariant. -/
theorem Sound.step {s t : SealState} {e : SealEvent} (hs : Sound s)
    (hstep : stepSeal s e = some t) (hcare : NoStaleCopy s e) : Sound t := by
  cases e with
  | loseMarker =>
      cases hstep
      have hq : Quiet s { s with marker := none } :=
        ⟨rfl, rfl, le_rfl, (fun e he => nomatch he), fun f hf => ⟨f, hf, rfl, fun _ _ h => h⟩⟩
      exact hs.quiet hq hs.push hs.readers
  | pushBegin scope sampleMax probe => exact hs.pushBegin hstep
  | pushProcess j =>
      obtain ⟨w', hw', rfl⟩ := Option.map_eq_some_iff.mp hstep
      obtain ⟨w, hw, hproc⟩ := Option.bind_eq_some_iff.mp hw'
      exact hs.setPush ((hs.push w hw).process hproc)
  | pushApply =>
      obtain ⟨w', hw', rfl⟩ := Option.map_eq_some_iff.mp hstep
      obtain ⟨w, hw, happly⟩ := Option.bind_eq_some_iff.mp hw'
      exact hs.setPush ((hs.push w hw).apply happly)
  | pushFinalize newEpoch persisted => exact hs.pushFinalize hstep
  | pushLoad => exact hs.pushLoad hstep
  | pushWrite => exact hs.pushWrite hcare hstep
  | pushAbandon =>
      cases hstep
      exact hs.quiet (Quiet.setPush s none) (fun v hv => nomatch hv) hs.readers
  | readBegin scope =>
      cases hstep
      exact hs.readBegin scope
  | readProcess i j =>
      obtain ⟨r', hr', rfl⟩ := Option.map_eq_some_iff.mp hstep
      obtain ⟨r, hi, hproc⟩ := Option.bind_eq_some_iff.mp hr'
      exact hs.readProcess hi hproc
  | readLoad i => exact hs.readLoad hstep
  | readWrite i => exact hs.readWrite hstep
  | readAbandon i =>
      cases hstep
      exact hs.eraseReader i

/-- A repository with any STAT_CACHE and any marker, before the scans of the history. -/
def SealState.start (disk : CacheFile) (marker : Option Epoch) : SealState :=
  ⟨disk, marker, none, [], 0, [], none⟩

theorem Sound.start (disk : CacheFile) (marker : Option Epoch) : Sound (.start disk marker) where
  copies := fun _ _ _ _ _ _ _ hn => nomatch hn
  push := fun _ hw => nomatch hw
  readers := fun _ hr => nomatch hr
  scans := fun _ hn => nomatch hn

/-- **`seals_stay_withdrawn`** — in every history in which no stale copy survives a withdrawal, a
withdrawn bit is never on disk under the marker's epoch. -/
theorem seals_stay_withdrawn {disk : CacheFile} {marker : Option Epoch} {es : List SealEvent}
    {s : SealState} (hrun : Run (fun a e b => stepSeal a e = some b ∧ NoStaleCopy a e)
      (.start disk marker) es s) : StayWithdrawn s := by
  have hsound : Sound s := by
    apply hrun.invariant (Sound.start disk marker)
    intro a e b _ hstep ha
    exact ha.step hstep.1 hstep.2
  exact hsound.copies s.disk (mem_copies.mpr (.inl rfl))

/-- A file that is in neither cache, so that it is read. -/
def newFile (path : String) (hash : Hash) : FileJob where
  path := path
  now := 20000000000
  cloneRootEntry := none
  blobFullyCached := fun _ => false
  stat := ⟨some 10000000000, 3, none⟩
  read := .ok hash ⟨some 10000000000, 3, none⟩

/-- A STAT_CACHE with a seal for the file `b` under the epoch 7. -/
def sealedFile : CacheFile := ⟨KeyMap.empty.insert "b" ⟨(10, 0), 3, 1, false, true⟩, 7⟩

/-- The marker is lost with the objects while a read-only scan holds a copy: the push that follows
gives it a new epoch and stores `b` again, and the copy is written after that. -/
theorem seals_stay_withdrawn_rotated : ∃ s, StayWithdrawn s ∧ s.withdrawn = some 0 ∧
    s.marker = some 9 ∧ s.disk.sealEpoch = 7 ∧ SealedAt s.disk.entries "b" 1 := by
  have hrun : ∃ s, Run (fun a e b => stepSeal a e = some b ∧ NoStaleCopy a e)
      (.start sealedFile (some 7))
      [.readBegin "", .readProcess 0 (newFile "d" 4), .readLoad 0, .loseMarker,
        .pushBegin "" 256 (fun _ => (false, 1)), .pushProcess (newFile "b" 1),
        .pushFinalize 9 true, .pushLoad, .pushWrite, .readWrite 0] s ∧ s.withdrawn = some 0 ∧
      s.marker = some 9 ∧ s.disk.sealEpoch = 7 ∧ SealedAt s.disk.entries "b" 1 := by
    refine ⟨_, .cons ⟨rfl, trivial⟩ <| .cons ⟨rfl, trivial⟩ <| .cons ⟨rfl, trivial⟩ <|
      .cons ⟨rfl, trivial⟩ <| .cons ⟨rfl, trivial⟩ <| .cons ⟨rfl, trivial⟩ <|
      .cons ⟨rfl, trivial⟩ <| .cons ⟨rfl, trivial⟩ <| .cons ⟨rfl, ?written⟩ <|
      .cons ⟨rfl, trivial⟩ <| .nil _, rfl, rfl, rfl, _, rfl, rfl, rfl⟩
    case written =>
      intro w hw _ hrot
      cases hw
      cases hrot
  obtain ⟨s, hrun, hrest⟩ := hrun
  exact ⟨s, seals_stay_withdrawn hrun, hrest⟩

/-- **`seal_comes_back`** — a read-only scan has read the file afresh, a push of the paths `a` and
`c` misses the blob of `b` in its sample and clears every bit without a new epoch, and the copy is
written after that: the bit of `b` is on disk again under the marker's epoch, and nothing has looked
at its blob. -/
theorem seal_comes_back : ∃ s, Run (fun a e b => stepSeal a e = some b)
      (.start sealedFile (some 7))
      [.readBegin "", .readProcess 0 (newFile "d" 4), .readLoad 0,
        .pushBegin "" 256 (fun _ => (false, 1)), .pushProcess (newFile "a" 2),
        .pushProcess (newFile "c" 3), .pushFinalize 9 true, .pushLoad, .pushWrite,
        .readWrite 0] s ∧ s.withdrawn = some 0 ∧ ¬ StayWithdrawn s := by
  obtain ⟨s, hrun, hw, hv, hm, hs⟩ : ∃ s, Run (fun a e b => stepSeal a e = some b)
      (.start sealedFile (some 7))
      [.readBegin "", .readProcess 0 (newFile "d" 4), .readLoad 0,
        .pushBegin "" 256 (fun _ => (false, 1)), .pushProcess (newFile "a" 2),
        .pushProcess (newFile "c" 3), .pushFinalize 9 true, .pushLoad, .pushWrite,
        .readWrite 0] s ∧ s.withdrawn = some 0 ∧ s.verified = [(0, "c", 3), (0, "a", 2)] ∧
      s.marker = some s.disk.sealEpoch ∧ SealedAt s.disk.entries "b" 1 :=
    ⟨_, run_of_foldlM rfl, rfl, rfl, rfl, _, rfl, rfl, rfl⟩
  refine ⟨s, hrun, hw, fun hstay => ?_⟩
  obtain ⟨k, -, hmem⟩ := hstay hm "b" 1 hs 0 hw
  rw [hv] at hmem
  simp at hmem

end Omemfs.Scan
