/-
# Omemfs.Scan.Freshness — histories of one file under writes and scans.

A write stamps the file with the clock rounded down to the granularity of the file system.  Any
number of scans run side by side; each looks at the file, resolves its hash, writes its record back
to the STAT_CACHE, and, if it belongs to a push, publishes its entry as the new `clone_root` entry.
A content is named by its hash, and `sizeOf` is its size.

`scan_fresh` says that a scan during which the file is not written reports the hash of the current
content.  The STAT_CACHE keeps its part by itself: a safe entry is older than any later stamp.  The
`clone_root` entry has no such protection, and `Careful` is what has to be asked of the history in
its place; `stale_hash_reported` is a history that breaks it.
-/
import Omemfs.Lib.Runs
import Omemfs.Scan.StatCache

namespace Omemfs.Scan

open Lib

/-! ## The file, its caches and the scans -/

/-- The file on disk; its size is that of the content. -/
structure DiskFile where
  hash : Hash
  mtime : Time
  mode : Option String
  deriving DecidableEq

def DiskFile.stat (sizeOf : Hash → Nat) (f : DiskFile) : FileStat :=
  ⟨some f.mtime, sizeOf f.hash, f.mode⟩

/-- How far a scan has come with the file. -/
inductive Stage where
  | started
  | looked (stat : FileStat)
  | processed (res : FileJobResult)
  | recorded (entry : Option TreeEntry)

/-- A running scan, with what it loaded when it started. -/
structure Running where
  writeBlobs : Bool
  now : Time
  statCache : Option StatCacheEntry
  sealsTrusted : Bool
  cloneRootEntry : Option TreeEntry
  stage : Stage
  /-- the file was not written since the scan started -/
  undisturbed : Bool

structure FileState where
  clock : Time
  file : DiskFile
  statCache : Option StatCacheEntry
  cloneRoot : Option TreeEntry
  scans : List Running

/-- A file at the start of its history: nothing is recorded of it. -/
def FileState.start (clock : Time) (file : DiskFile) : FileState := ⟨clock, file, none, none, []⟩

/-- The clock rounded down to the granularity. -/
def stamp (granularity clock : Int) : Int := clock - clock % granularity

/-! ## Steps -/

inductive FileEvent where
  | tick (t : Time)
  | write (h : Hash) (mode : Option String)
  | begin (writeBlobs sealsTrusted : Bool)
  | look (i : Nat)
  | process (i : Nat) (blobFullyCached : Hash → Bool) (torn : Bool)
  | writeback (i : Nat) (dirty : Bool)
  | publish (i : Nat)
  | abandon (i : Nat)

/-- The cache a scan has loaded: without trust in the seals, a scan that writes blobs drops them. -/
def loadedCache (c : Option StatCacheEntry) (writeBlobs sealsTrusted : Bool) :
    Option StatCacheEntry :=
  if writeBlobs && !sealsTrusted then c.map fun e => { e with sealed := false } else c

/-- What the scan does with the file. -/
def Running.process (sizeOf : Hash → Nat) (x : Running) (file : DiskFile) (stat : FileStat)
    (blobFullyCached : Hash → Bool) (torn : Bool) : FileJobResult :=
  processFileJob
    { writeBlobs := x.writeBlobs, now := x.now, statCache := x.statCache
      sealsTrusted := x.sealsTrusted, cloneRootEntry := x.cloneRootEntry, blobFullyCached }
    stat (if torn then .sourceChanged else .ok file.hash (file.stat sizeOf))

/-- The cache after the scan's writeback: a push writes the whole file when anything changed, a
read-only scan lays its own change over what is there. -/
def Running.writeback (x : Running) (onDisk : Option StatCacheEntry)
    (scanned : Option ScannedFile) (dirty : Bool) : Option StatCacheEntry :=
  let mine := applyScanned x.statCache scanned
  if mine ≠ x.statCache || (x.writeBlobs && dirty) then mine else onDisk

/-- One step of the history, if it is possible: a read is torn only by a write during the scan. -/
def stepFile (sizeOf : Hash → Nat) (granularity : Int) (s : FileState) :
    FileEvent → Option FileState
  | .tick t => if s.clock ≤ t then some { s with clock := t } else none
  | .write h mode =>
      some { s with
        file := ⟨h, stamp granularity s.clock, mode⟩
        scans := s.scans.map fun x => { x with undisturbed := false } }
  | .begin writeBlobs sealsTrusted =>
      some { s with
        scans := s.scans ++ [
          { writeBlobs, now := s.clock, sealsTrusted
            statCache := loadedCache s.statCache writeBlobs sealsTrusted
            cloneRootEntry := s.cloneRoot, stage := .started, undisturbed := true }] }
  | .look i =>
      match s.scans[i]? with
      | some x =>
          match x.stage with
          | .started =>
              some { s with scans := s.scans.set i { x with stage := .looked (s.file.stat sizeOf) } }
          | _ => none
      | none => none
  | .process i blobFullyCached torn =>
      match s.scans[i]? with
      | some x =>
          match x.stage with
          | .looked stat =>
              if torn && x.undisturbed then none
              else
                let res := x.process sizeOf s.file stat blobFullyCached torn
                some { s with scans := s.scans.set i { x with stage := .processed res } }
          | _ => none
      | none => none
  | .writeback i dirty =>
      match s.scans[i]? with
      | some x =>
          match x.stage with
          | .processed res =>
              some { s with
                statCache := x.writeback s.statCache res.scanned dirty
                scans := s.scans.set i { x with stage := .recorded res.entry } }
          | _ => none
      | none => none
  | .publish i =>
      match s.scans[i]? with
      | some x =>
          match x.stage with
          | .recorded entry =>
              if x.writeBlobs then
                some { s with cloneRoot := entry, scans := s.scans.eraseIdx i }
              else none
          | _ => none
      | none => none
  | .abandon i => some { s with scans := s.scans.eraseIdx i }

/-! ## The condition -/

/-- An entry with the file's time and size has the file's content. -/
def Discerns (sizeOf : Hash → Nat) (file : DiskFile) (entry : Option TreeEntry) : Prop :=
  ∀ b, entry = some (.blob b) → b.size = sizeOf file.hash →
    b.mtime = systemTimeToDatetime (some file.mtime) → b.hash = file.hash

/-- What the step must not do: write another content under the time and size of the `clone_root`
entry, or publish an entry whose time and size another content has taken on since. -/
def Careful (sizeOf : Hash → Nat) (granularity : Int) (s : FileState) : FileEvent → Prop
  | .write h mode => Discerns sizeOf ⟨h, stamp granularity s.clock, mode⟩ s.cloneRoot
  | .publish i => ∀ x entry, s.scans[i]? = some x → x.stage = .recorded entry →
      Discerns sizeOf s.file entry
  | _ => True

/-! ## The invariant -/

/-- A hit in the cache is older than any stamp to come, and right if it is one for the file now. -/
def CacheOk (sizeOf : Hash → Nat) (clock : Time) (file : DiskFile)
    (c : Option StatCacheEntry) : Prop :=
  ∀ m n e, lookupCurrentEntry c m n = some e → m + 2 * nanosPerSec < clock ∧
    (m = file.mtime → n = sizeOf file.hash → e.hash = file.hash)

/-- What the stage of a scan guarantees. -/
def StageOk (sizeOf : Hash → Nat) (file : DiskFile) (x : Running) : Prop :=
  match x.stage with
  | .started => True
  | .looked stat => x.undisturbed → stat = file.stat sizeOf
  | .processed res =>
      (x.undisturbed → ∃ b, res.entry = some (.blob b) ∧ b.hash = file.hash ∧
        res.unstable = false) ∧
      ∀ f, res.scanned = some f → f.cacheHit = false → f.observedAt = x.now ∧
        (f.fsMtime + 2 * nanosPerSec < x.now → f.fsMtime = file.mtime → f.hash = file.hash)
  | .recorded _ => True

structure RunningOk (sizeOf : Hash → Nat) (s : FileState) (x : Running) : Prop where
  now_le : x.now ≤ s.clock
  cache : CacheOk sizeOf s.clock s.file x.statCache
  clone : x.undisturbed → Discerns sizeOf s.file x.cloneRootEntry
  disturbed : x.undisturbed = false → x.now < s.file.mtime + 2 * nanosPerSec
  stage : StageOk sizeOf s.file x

structure Fresh (sizeOf : Hash → Nat) (s : FileState) : Prop where
  cache : CacheOk sizeOf s.clock s.file s.statCache
  clone : Discerns sizeOf s.file s.cloneRoot
  scans : ∀ x ∈ s.scans, RunningOk sizeOf s x

/-! ## Lookups under change -/

section Lookups

variable {sizeOf : Hash → Nat} {clock : Time} {file : DiskFile} {c : Option StatCacheEntry}

theorem CacheOk.none : CacheOk sizeOf clock file none := by
  intro m n e h
  cases h

theorem CacheOk.tick {t : Time} (h : CacheOk sizeOf clock file c) (ht : clock ≤ t) :
    CacheOk sizeOf t file c := by
  intro m n e hl
  have hold := (h m n e hl).1
  exact ⟨lt_of_lt_of_le hold ht, (h m n e hl).2⟩

/-- A cache whose hits are hits of `c` with the same hash is as good as `c`. -/
theorem CacheOk.of_hits {c' : Option StatCacheEntry} (h : CacheOk sizeOf clock file c)
    (hits : ∀ m n e', lookupCurrentEntry c' m n = some e' →
      ∃ e, lookupCurrentEntry c m n = some e ∧ e.hash = e'.hash) :
    CacheOk sizeOf clock file c' := by
  intro m n e' hl
  obtain ⟨e, he, hhash⟩ := hits m n e' hl
  refine ⟨(h m n e he).1, ?_⟩
  intro hm hn
  rw [← hhash]
  exact (h m n e he).2 hm hn

/-- The seal of an entry plays no part in a lookup. -/
theorem lookupCurrentEntry_seal {b : Bool} {m : Time} {n : Nat} {e' : StatCacheEntry}
    (h : lookupCurrentEntry (c.map fun e => { e with sealed := b }) m n = some e') :
    ∃ e, lookupCurrentEntry c m n = some e ∧ e.hash = e'.hash := by
  cases c with
  | none => cases h
  | some e =>
      obtain ⟨hc, hsafe, hsize, hmtime⟩ := lookupCurrentEntry_eq_some h
      have he := Option.some.inj hc
      subst he
      refine ⟨e, ?_, rfl⟩
      show (if e.isUnsafe then _ else _) = _
      simp_all

theorem CacheOk.loadedCache {writeBlobs trusted : Bool} (h : CacheOk sizeOf clock file c) :
    CacheOk sizeOf clock file (loadedCache c writeBlobs trusted) := by
  unfold Scan.loadedCache
  split_ifs with hdrop
  · exact h.of_hits fun m n e' hl => lookupCurrentEntry_seal hl
  · exact h

theorem CacheOk.markSealed (h : CacheOk sizeOf clock file c) :
    CacheOk sizeOf clock file (c.map markSealed) :=
  h.of_hits fun _ _ _ hl => lookupCurrentEntry_seal hl

end Lookups

/-! ## Stamps -/

theorem stamp_gt {g : Int} (hg : 0 < g) (clock : Int) : clock - g < stamp g clock := by
  have := Int.emod_lt_of_pos clock hg
  unfold stamp
  omega

/-- **`lt_stamp`** — a time more than two seconds old is older than the stamp of a write now. -/
theorem lt_stamp {g clock m : Int} (hg : 0 < g) (hg2 : g ≤ 2 * nanosPerSec)
    (h : m + 2 * nanosPerSec < clock) : m < stamp g clock := by
  have := stamp_gt hg clock
  omega

/-- A scan that started before the write is less than two seconds younger than the stamp. -/
theorem lt_stamp_add {g clock now : Int} (hg : 0 < g) (hg2 : g ≤ 2 * nanosPerSec)
    (h : now ≤ clock) : now < stamp g clock + 2 * nanosPerSec := by
  have := stamp_gt hg clock
  omega

/-- A write puts every safe entry out of use. -/
theorem CacheOk.write {sizeOf : Hash → Nat} {g clock : Int} {file : DiskFile}
    {c : Option StatCacheEntry} (hg : 0 < g) (hg2 : g ≤ 2 * nanosPerSec)
    (h : CacheOk sizeOf clock file c) (hash : Hash) (mode : Option String) :
    CacheOk sizeOf clock ⟨hash, stamp g clock, mode⟩ c := by
  intro m n e hl
  have hold := (h m n e hl).1
  refine ⟨hold, ?_⟩
  intro hm
  have hlt := lt_stamp hg hg2 hold
  exact absurd hm (ne_of_lt hlt)

/-! ## One file of a scan -/

section Process

variable {sizeOf : Hash → Nat} {s : FileState} {x : Running}

theorem cacheHit_eq_some {cfg : FileJobConfig} {stat : FileStat} {t : Time} {e : StatCacheEntry}
    (h : cacheHit cfg stat = some (t, e)) :
    stat.mtime = some t ∧ lookupCurrentEntry cfg.statCache t stat.size = some e := by
  unfold cacheHit at h
  cases hm : stat.mtime with
  | none => simp [hm] at h
  | some t' =>
      cases hl : lookupCurrentEntry cfg.statCache t' stat.size with
      | none => simp [hm, hl] at h
      | some e' =>
          simp [hm, hl] at h
          simp [← h.2.1, ← h.2.2, hl]

theorem fallbackHit_eq_some {cfg : FileJobConfig} {stat : FileStat} {b : Blob}
    (h : fallbackHit cfg stat = some b) :
    cfg.cloneRootEntry = some (.blob b) ∧
      canSkipHash (.blob b) stat.size stat.mtime cfg.now = true := by
  unfold fallbackHit at h
  cases hc : cfg.cloneRootEntry with
  | none => simp [hc] at h
  | some entry =>
      cases entry with
      | tree t m => simp [hc] at h
      | symlink l => simp [hc] at h
      | blob b' =>
          simp [hc] at h
          simp [← h.2, h.1.1]

/-- The clone-root fallback is right while the recorded entry tells the file from others. -/
theorem fallbackHit_right {cfg : FileJobConfig} {file : DiskFile} {b : Blob}
    (h : fallbackHit cfg (file.stat sizeOf) = some b)
    (hd : Discerns sizeOf file cfg.cloneRootEntry) : b.hash = file.hash := by
  obtain ⟨hclone, hskip⟩ := fallbackHit_eq_some h
  obtain ⟨b', hb', hsize, hmtime, -⟩ := canSkipHash_eq_true hskip
  cases hb'
  exact hd b hclone hsize hmtime

/-- **`process_right`** — an undisturbed scan reports the hash of the content, whichever way it
takes. -/
theorem process_right (hx : RunningOk sizeOf s x) (hu : x.undisturbed = true)
    (cached : Hash → Bool) :
    ∃ b, (x.process sizeOf s.file (s.file.stat sizeOf) cached false).entry = some (.blob b) ∧
      b.hash = s.file.hash ∧
      (x.process sizeOf s.file (s.file.stat sizeOf) cached false).unstable = false := by
  unfold Running.process processFileJob
  split
  · next t e hhit =>
    obtain ⟨ht, hl⟩ := cacheHit_eq_some hhit
    have hmtime : s.file.mtime = t := Option.some.inj ht
    exact ⟨_, rfl, (hx.cache _ _ _ hl).2 hmtime.symm rfl, rfl⟩
  · split
    · next b hfall =>
      have hright := fallbackHit_right hfall
      exact ⟨_, rfl, hright (hx.clone hu), rfl⟩
    · exact ⟨_, rfl, rfl, rfl⟩

/-- **`process_scanned`** — a new record has the hash of the content if it will be safe and has the
time of the file.  A scan that was overtaken by a write started before the stamp grew old. -/
theorem process_scanned (hx : RunningOk sizeOf s x) {stat : FileStat}
    (hstat : x.undisturbed = true → stat = s.file.stat sizeOf) {cached : Hash → Bool} {torn : Bool}
    {f : ScannedFile} (hf : (x.process sizeOf s.file stat cached torn).scanned = some f)
    (hmiss : f.cacheHit = false) :
    f.observedAt = x.now ∧
      (f.fsMtime + 2 * nanosPerSec < x.now → f.fsMtime = s.file.mtime → f.hash = s.file.hash) := by
  unfold Running.process processFileJob at hf
  split at hf
  · cases hf
    cases hmiss
  · split at hf
    · next b hfall =>
      obtain ⟨t, ht, rfl⟩ := Option.map_eq_some_iff.mp hf
      refine ⟨rfl, ?_⟩
      intro hold hmtime
      cases hu : x.undisturbed with
      | true =>
          rw [hstat hu] at hfall
          have hright := fallbackHit_right hfall
          exact hright (hx.clone hu)
      | false =>
          have hyoung := hx.disturbed hu
          rw [← hmtime] at hyoung
          exact absurd hold (not_lt.mpr hyoung.le)
    · cases torn with
      | true => cases hf
      | false =>
          obtain ⟨t, -, rfl⟩ := Option.map_eq_some_iff.mp hf
          exact ⟨rfl, fun _ _ => rfl⟩

end Process

/-! ## Writeback -/

/-- The entry of a new record is never used while the file is young. -/
theorem CacheOk.updated {sizeOf : Hash → Nat} {clock : Time} {file : DiskFile} {f : ScannedFile}
    (hnow : f.observedAt ≤ clock)
    (hf : f.fsMtime + 2 * nanosPerSec < f.observedAt → f.fsMtime = file.mtime →
      f.hash = file.hash) :
    CacheOk sizeOf clock file
      (some (updatedEntry f.fsMtime f.fsSize f.hash f.blobSealed f.observedAt)) := by
  intro m n e hl
  obtain ⟨he, hsafe, -, hmtime⟩ := lookupCurrentEntry_eq_some hl
  have he := Option.some.inj he
  subst he
  have hm : f.fsMtime = m := systemtimeToParts_inj hmtime
  have hold : f.fsMtime + 2 * nanosPerSec < f.observedAt := mtime_of_safe hsafe
  subst hm
  exact ⟨lt_of_lt_of_le hold hnow, fun heq _ => hf hold heq⟩

theorem CacheOk.applyScanned {sizeOf : Hash → Nat} {s : FileState} {x : Running}
    {res : FileJobResult} (hx : RunningOk sizeOf s x) (hres : x.stage = .processed res) :
    CacheOk sizeOf s.clock s.file (applyScanned x.statCache res.scanned) := by
  have hstage := hx.stage
  unfold StageOk at hstage
  rw [hres] at hstage
  unfold Scan.applyScanned
  cases hsc : res.scanned with
  | none => exact hx.cache
  | some f =>
      simp only
      split_ifs with hmiss hseal
      · obtain ⟨hobs, hright⟩ := hstage.2 f hsc (by simpa using hmiss)
        rw [← hobs] at hright
        exact .updated (hobs ▸ hx.now_le) hright
      · exact hx.cache.markSealed
      · exact hx.cache

theorem CacheOk.writeback {sizeOf : Hash → Nat} {s : FileState} {x : Running}
    {res : FileJobResult} (hs : CacheOk sizeOf s.clock s.file s.statCache)
    (hx : RunningOk sizeOf s x) (hres : x.stage = .processed res) (dirty : Bool) :
    CacheOk sizeOf s.clock s.file (x.writeback s.statCache res.scanned dirty) := by
  unfold Running.writeback
  simp only
  split_ifs
  · exact .applyScanned hx hres
  · exact hs

/-! ## What each step keeps -/

section Steps

variable {sizeOf : Hash → Nat} {granularity : Int} {s s' : FileState}

theorem RunningOk.tick {x : Running} {t : Time} (hx : RunningOk sizeOf s x) (ht : s.clock ≤ t) :
    RunningOk sizeOf { s with clock := t } x where
  now_le := le_trans hx.now_le ht
  cache := hx.cache.tick ht
  clone := hx.clone
  disturbed := hx.disturbed
  stage := hx.stage

/-- A write disturbs the scan; every time the scan could vouch for is older than the stamp. -/
theorem RunningOk.write {x : Running} (hg : 0 < granularity) (hg2 : granularity ≤ 2 * nanosPerSec)
    (hx : RunningOk sizeOf s x) (h : Hash) (mode : Option String) (scans : List Running) :
    RunningOk sizeOf
      { s with file := ⟨h, stamp granularity s.clock, mode⟩, scans := scans }
      { x with undisturbed := false } where
  now_le := hx.now_le
  cache := hx.cache.write hg hg2 h mode
  clone := fun hu => nomatch hu
  disturbed := by
    intro _
    show x.now < stamp granularity s.clock + 2 * nanosPerSec
    exact lt_stamp_add hg hg2 hx.now_le
  stage := by
    have hstage := hx.stage
    unfold StageOk at hstage ⊢
    cases hst : x.stage with
    | started => simp only
    | looked stat => exact fun hu => nomatch hu
    | recorded entry => simp only
    | processed res =>
        rw [hst] at hstage
        refine ⟨fun hu => absurd hu Bool.false_ne_true, ?_⟩
        intro f hf hmiss
        refine ⟨(hstage.2 f hf hmiss).1, ?_⟩
        intro hold hmtime
        have hlt := lt_stamp hg hg2 (lt_of_lt_of_le hold hx.now_le)
        exact absurd hmtime (ne_of_lt hlt)

/-- The list of scans and the caches of the client are not part of what a scan relies on. -/
theorem RunningOk.frame {x : Running} (hx : RunningOk sizeOf s x) (c : Option StatCacheEntry)
    (r : Option TreeEntry) (scans : List Running) :
    RunningOk sizeOf { s with statCache := c, cloneRoot := r, scans := scans } x :=
  ⟨hx.now_le, hx.cache, hx.clone, hx.disturbed, hx.stage⟩

theorem RunningOk.withStage {x : Running} (hx : RunningOk sizeOf s x) {stage : Stage}
    (hstage : StageOk sizeOf s.file { x with stage := stage }) :
    RunningOk sizeOf s { x with stage := stage } :=
  ⟨hx.now_le, hx.cache, hx.clone, hx.disturbed, hstage⟩

theorem Fresh.tick {t : Time} (hs : Fresh sizeOf s) (ht : s.clock ≤ t) :
    Fresh sizeOf { s with clock := t } :=
  ⟨hs.cache.tick ht, hs.clone, fun x hx => (hs.scans x hx).tick ht⟩

theorem Fresh.write (hg : 0 < granularity) (hg2 : granularity ≤ 2 * nanosPerSec)
    (hs : Fresh sizeOf s) {h : Hash} {mode : Option String}
    (hcareful : Discerns sizeOf ⟨h, stamp granularity s.clock, mode⟩ s.cloneRoot) :
    Fresh sizeOf
      { s with
        file := ⟨h, stamp granularity s.clock, mode⟩
        scans := s.scans.map fun x => { x with undisturbed := false } } where
  cache := hs.cache.write hg hg2 h mode
  clone := hcareful
  scans := by
    intro y hy
    obtain ⟨x, hx, rfl⟩ := List.mem_map.mp hy
    exact (hs.scans x hx).write hg hg2 h mode _

theorem Fresh.begin (hs : Fresh sizeOf s) (writeBlobs trusted : Bool) :
    Fresh sizeOf
      { s with
        scans := s.scans ++ [
          { writeBlobs, now := s.clock, sealsTrusted := trusted
            statCache := loadedCache s.statCache writeBlobs trusted
            cloneRootEntry := s.cloneRoot, stage := .started, undisturbed := true }] } where
  cache := hs.cache
  clone := hs.clone
  scans := by
    intro y hy
    rcases List.mem_append.mp hy with hold | hnew
    · exact (hs.scans y hold).frame _ _ _
    · rw [List.mem_singleton.mp hnew]
      exact ⟨le_refl _, hs.cache.loadedCache, fun _ => hs.clone, fun hu => (nomatch hu), trivial⟩

/-- One scan moves on to its next stage. -/
theorem Fresh.setStage (hs : Fresh sizeOf s) {i : Nat} {x : Running} (hi : s.scans[i]? = some x)
    {stage : Stage} (hstage : StageOk sizeOf s.file { x with stage := stage })
    {c : Option StatCacheEntry} (hc : CacheOk sizeOf s.clock s.file c) :
    Fresh sizeOf
      { s with statCache := c, scans := s.scans.set i { x with stage := stage } } where
  cache := hc
  clone := hs.clone
  scans := by
    intro y hy
    rcases List.mem_or_eq_of_mem_set hy with hold | rfl
    · exact (hs.scans y hold).frame _ _ _
    · have hx := hs.scans x (List.mem_of_getElem? hi)
      exact (hx.withStage hstage).frame _ _ _

theorem Fresh.eraseIdx (hs : Fresh sizeOf s) (i : Nat) {r : Option TreeEntry}
    (hr : Discerns sizeOf s.file r) :
    Fresh sizeOf { s with cloneRoot := r, scans := s.scans.eraseIdx i } where
  cache := hs.cache
  clone := hr
  scans := fun x hx => (hs.scans x (List.mem_of_mem_eraseIdx hx)).frame _ _ _

/-- A scan takes one step if it is there and in the right stage. -/
theorem Fresh.look {i : Nat} (hs : Fresh sizeOf s)
    (h : stepFile sizeOf granularity s (.look i) = some s') : Fresh sizeOf s' := by
  simp only [stepFile] at h
  split at h
  · next x hi =>
    split at h
    · cases h
      apply hs.setStage hi _ hs.cache
      exact fun _ => rfl
    · cases h
  · cases h

theorem Fresh.process {i : Nat} {cached : Hash → Bool} {torn : Bool} (hs : Fresh sizeOf s)
    (h : stepFile sizeOf granularity s (.process i cached torn) = some s') :
    Fresh sizeOf s' := by
  simp only [stepFile] at h
  split at h
  · next x hi =>
    have hx := hs.scans x (List.mem_of_getElem? hi)
    split at h
    · next stat hst =>
      have hstat := hx.stage
      unfold StageOk at hstat
      rw [hst] at hstat
      split_ifs at h with htorn
      cases h
      apply hs.setStage hi _ hs.cache
      refine ⟨?_, fun f hf hmiss => process_scanned hx hstat hf hmiss⟩
      intro hu
      -- nothing is torn while the scan is undisturbed
      have hwhole : torn = false := by simpa [show x.undisturbed = true from hu] using htorn
      rw [hwhole, hstat hu]
      exact process_right hx hu cached
    · cases h
  · cases h

theorem Fresh.writeback {i : Nat} {dirty : Bool} (hs : Fresh sizeOf s)
    (h : stepFile sizeOf granularity s (.writeback i dirty) = some s') : Fresh sizeOf s' := by
  simp only [stepFile] at h
  split at h
  · next x hi =>
    have hx := hs.scans x (List.mem_of_getElem? hi)
    split at h
    · next res hst =>
      cases h
      have hc := hs.cache.writeback hx hst dirty
      apply hs.setStage hi _ hc
      exact trivial
    · cases h
  · cases h

theorem Fresh.publish {i : Nat} (hs : Fresh sizeOf s)
    (hcareful : Careful sizeOf granularity s (.publish i))
    (h : stepFile sizeOf granularity s (.publish i) = some s') : Fresh sizeOf s' := by
  simp only [stepFile] at h
  split at h
  · next x hi =>
    split at h
    · next entry hst =>
      split_ifs at h
      cases h
      exact hs.eraseIdx i (hcareful x entry hi hst)
    · cases h
  · cases h

/-- **`Fresh.step`** — a careful step keeps the invariant. -/
theorem Fresh.step {e : FileEvent} (hg : 0 < granularity) (hg2 : granularity ≤ 2 * nanosPerSec)
    (hs : Fresh sizeOf s) (h : stepFile sizeOf granularity s e = some s')
    (hcareful : Careful sizeOf granularity s e) : Fresh sizeOf s' := by
  cases e with
  | tick t =>
      simp only [stepFile] at h
      split_ifs at h with ht
      cases h
      exact hs.tick ht
  | write hash mode =>
      cases h
      exact hs.write hg hg2 hcareful
  | begin writeBlobs trusted =>
      cases h
      exact hs.begin writeBlobs trusted
  | look i => exact hs.look h
  | process i cached torn => exact hs.process h
  | writeback i dirty => exact hs.writeback h
  | publish i => exact hs.publish hcareful h
  | abandon i =>
      cases h
      exact hs.eraseIdx i hs.clone

theorem Fresh.start (clock : Time) (file : DiskFile) :
    Fresh sizeOf (.start clock file) where
  cache := .none
  clone := fun _ hb => nomatch hb
  scans := fun _ hx => nomatch hx

end Steps

/-! ## Whole histories -/

/-- **`scan_fresh`** — in every history whose steps are careful, a scan during which the file is not
written reports the hash of its content. -/
theorem scan_fresh {sizeOf : Hash → Nat} {granularity : Int} {clock : Time} {file : DiskFile}
    {es : List FileEvent} {s : FileState} (hg : 0 < granularity)
    (hg2 : granularity ≤ 2 * nanosPerSec)
    (hrun : Run (fun a e b => stepFile sizeOf granularity a e = some b ∧
      Careful sizeOf granularity a e) (.start clock file) es s) :
    ∀ x ∈ s.scans, x.undisturbed = true → ∀ res, x.stage = .processed res →
      ∃ b, res.entry = some (.blob b) ∧ b.hash = s.file.hash ∧ res.unstable = false := by
  have hfresh : Fresh sizeOf s := by
    apply hrun.invariant (Fresh.start clock file)
    intro a e b _ hstep ha
    exact ha.step hg hg2 hstep.1 hstep.2
  intro x hx hu res hres
  have hstage := (hfresh.scans x hx).stage
  unfold StageOk at hstage
  rw [hres] at hstage
  exact hstage.1 hu

/-- The file is replaced two seconds after a push read it, and read again later. -/
theorem scan_fresh_sample : ∃ s : FileState, s.file.hash = 2 ∧ ∃ x ∈ s.scans, ∃ res,
    x.stage = .processed res ∧ ∃ b, res.entry = some (.blob b) ∧ b.hash = 2 := by
  have hrun : ∃ s, Run (fun a e b => stepFile (fun _ => 5) 1000000000 a e = some b ∧
      Careful (fun _ => 5) 1000000000 a e)
      (.start 10500000000 ⟨1, 10000000000, none⟩)
      [.begin true true, .look 0, .process 0 (fun _ => false) false, .writeback 0 false,
        .publish 0, .tick 12500000000, .write 2 none, .tick 20000000000, .begin false true,
        .look 0, .process 0 (fun _ => false) false] s ∧
      s.file.hash = 2 ∧ ∃ x ∈ s.scans, x.undisturbed = true ∧ ∃ res, x.stage = .processed res := by
    refine ⟨_, .cons ⟨rfl, trivial⟩ <| .cons ⟨rfl, trivial⟩ <| .cons ⟨rfl, trivial⟩ <|
      .cons ⟨rfl, trivial⟩ <| .cons ⟨rfl, ?published⟩ <| .cons ⟨rfl, trivial⟩ <|
      .cons ⟨rfl, ?written⟩ <| .cons ⟨rfl, trivial⟩ <| .cons ⟨rfl, trivial⟩ <|
      .cons ⟨rfl, trivial⟩ <| .cons ⟨rfl, trivial⟩ <| .nil _,
      rfl, _, List.mem_singleton_self _, rfl, _, rfl⟩
    case published =>
      intro x entry hx hst b hb _ _
      cases hx
      cases hst
      cases hb
      rfl
    case written =>
      -- the stamp of the write is not the recorded time
      intro b hb _ hm
      cases hb
      exact absurd hm (by decide)
  obtain ⟨s, hrun, hfile, x, hx, hu, res, hres⟩ := hrun
  obtain ⟨b, hb, hhash, -⟩ := scan_fresh (by decide) (by decide) hrun x hx hu res hres
  exact ⟨s, hfile, x, hx, res, hres, b, hb, hhash.trans hfile⟩

/-- **`stale_hash_reported`** — a push records the file half a second after its stamp, another
content of the same size is written within the same second, and a scan three seconds later takes the
recorded hash: the STAT_CACHE entry is refused as too young, the `clone_root` entry is not. -/
theorem stale_hash_reported : ∃ s : FileState,
    Run (fun a e b => stepFile (fun _ => 5) 1000000000 a e = some b)
      (.start 10500000000 ⟨1, 10000000000, none⟩)
      [.begin true true, .look 0, .process 0 (fun _ => false) false, .writeback 0 false,
        .publish 0, .tick 10700000000, .write 2 none, .tick 14000000000, .begin false true,
        .look 0, .process 0 (fun _ => false) false] s ∧
      s.file.hash = 2 ∧ ∃ x ∈ s.scans, x.undisturbed = true ∧ ∃ res, x.stage = .processed res ∧
        ∃ b, res.entry = some (.blob b) ∧ b.hash = 1 := by
  refine ⟨_, run_of_foldlM rfl, rfl, _, List.mem_singleton_self _, rfl, _, rfl, _, rfl, rfl⟩

end Omemfs.Scan
