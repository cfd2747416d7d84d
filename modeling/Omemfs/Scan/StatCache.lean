/-
# Omemfs.Scan.StatCache — how a scan decides that a file need not be read.

A scan takes the hash of a regular file from three places, in this order: the STAT_CACHE entry of
its path, the entry of its path in `clone_root`, and the file itself.  The first two are judged by
the file's modification time and size alone.  A STAT_CACHE entry records whether the file was young
when it was observed (`isRacilyClean`) and is never used then; a `clone_root` entry does not, and is
judged by the age of the file at the time of the scan (`canSkipHash`).
-/
import Omemfs.Tree

namespace Omemfs.Scan

def racyThresholdSecs : Nat := 3

def nanosPerSec : Int := 1000000000

/-! ## Times -/

/-- Whole seconds and the rest in nanoseconds, rounded towards the past. -/
def systemtimeToParts (t : Time) : Int × Int := (t / nanosPerSec, t % nanosPerSec)

/-- A time before the epoch has no calendar form. -/
def systemTimeToDatetime (t : Option Time) : Option Time :=
  t.bind fun t => if t < 0 then none else some t

theorem systemtimeToParts_inj {t u : Time} (h : systemtimeToParts t = systemtimeToParts u) :
    t = u := by
  rcases Prod.mk.inj h with ⟨hdiv, hmod⟩
  have ht := Int.mul_ediv_add_emod t nanosPerSec
  rw [hdiv, hmod, Int.mul_ediv_add_emod] at ht
  exact ht.symm

/-! ## The STAT_CACHE entry of one path -/

structure StatCacheEntry where
  mtime : Int × Int
  fsSize : Nat
  hash : Hash
  isUnsafe : Bool
  sealed : Bool
  deriving DecidableEq

/-- The file was modified less than three seconds before `now`, in whole seconds. -/
def isRacilyClean (mtimeSecs : Int) (now : Time) : Bool :=
  if now < 0 then true
  else decide (now / nanosPerSec - mtimeSecs < racyThresholdSecs)

/-- The entry of a path, if it is safe and has this time and size. -/
def lookupCurrentEntry (cache : Option StatCacheEntry) (mtime : Time) (fsSize : Nat) :
    Option StatCacheEntry :=
  match cache with
  | none => none
  | some e =>
      if e.isUnsafe then none
      else if e.fsSize ≠ fsSize then none
      else if e.mtime ≠ systemtimeToParts mtime then none
      else some e

/-- The entry `update` records. -/
def updatedEntry (mtime : Time) (fsSize : Nat) (hash : Hash) (sealed : Bool) (observedAt : Time) :
    StatCacheEntry where
  mtime := systemtimeToParts mtime
  fsSize := fsSize
  hash := hash
  isUnsafe := isRacilyClean (systemtimeToParts mtime).1 observedAt
  sealed := sealed

def markSealed (e : StatCacheEntry) : StatCacheEntry := { e with sealed := true }

theorem lookupCurrentEntry_eq_some {cache : Option StatCacheEntry} {m : Time} {n : Nat}
    {e : StatCacheEntry} (h : lookupCurrentEntry cache m n = some e) :
    cache = some e ∧ e.isUnsafe = false ∧ e.fsSize = n ∧ e.mtime = systemtimeToParts m := by
  unfold lookupCurrentEntry at h
  cases cache with
  | none => cases h
  | some e' =>
      simp only at h
      split_ifs at h with hu hs hm
      cases h
      exact ⟨rfl, by simpa using hu, not_not.mp hs, not_not.mp hm⟩

/-- **`mtime_of_safe`** — a time recorded as safe lies more than two seconds before the
observation. -/
theorem mtime_of_safe {m now : Int} (h : isRacilyClean (systemtimeToParts m).1 now = false) :
    m + 2 * nanosPerSec < now := by
  unfold isRacilyClean at h
  split_ifs at h with hneg
  have hsecs : ¬ now / 1000000000 - m / 1000000000 < (3 : Int) := of_decide_eq_false h
  show m + 2 * 1000000000 < now
  omega

/-! ## The clone-root fallback -/

/-- The recorded entry has the file's size and time, and the file is old enough now. -/
def canSkipHash (cached : TreeEntry) (fsSize : Nat) (fsMtime : Option Time) (now : Time) : Bool :=
  match cached with
  | .blob b =>
      if fsSize ≠ b.size then false
      else match fsMtime with
        | none => false
        | some t =>
            if systemTimeToDatetime (some t) ≠ b.mtime then false
            else decide ((racyThresholdSecs : Int) ≤ max (now - t) 0 / nanosPerSec)
  | _ => false

/-- The recorded time, if the recorded content is the one computed. -/
def mtimeForEntry (cloneEntry : Option TreeEntry) (computedHash : Hash) : Option Time :=
  match cloneEntry with
  | some (.blob b) => if b.hash = computedHash then b.mtime else none
  | _ => none

def mtimeStable (cloneMtime fsMtime : Option Time) : Option Time := cloneMtime.or fsMtime

theorem canSkipHash_eq_true {cached : TreeEntry} {n : Nat} {t now : Int}
    (h : canSkipHash cached n (some t) now = true) :
    ∃ b, cached = .blob b ∧ b.size = n ∧ b.mtime = systemTimeToDatetime (some t) ∧
      t + 3 * nanosPerSec ≤ now := by
  unfold canSkipHash at h
  cases cached with
  | tree t m => cases h
  | symlink l => cases h
  | blob b =>
      simp only at h
      split_ifs at h with hs hm
      have hage : (3 : Int) ≤ max (now - t) 0 / 1000000000 := of_decide_eq_true h
      refine ⟨b, rfl, (not_not.mp hs).symm, (not_not.mp hm).symm, ?_⟩
      show t + 3 * 1000000000 ≤ now
      have hmax : (3000000000 : Int) ≤ max (now - t) 0 := by omega
      rcases le_max_iff.mp hmax with hle | hle
      · omega
      · omega

/-! ## One file of a scan -/

/-- What `lstat` says of a regular file. -/
structure FileStat where
  mtime : Option Time
  size : Nat
  mode : Option String
  deriving DecidableEq

/-- The settings of a scan, and what it has loaded for this path. -/
structure FileJobConfig where
  writeBlobs : Bool
  now : Time
  statCache : Option StatCacheEntry
  sealsTrusted : Bool
  cloneRootEntry : Option TreeEntry
  /-- every chunk of the blob is in the local store -/
  blobFullyCached : Hash → Bool

structure ScannedFile where
  fsMtime : Time
  fsSize : Nat
  hash : Hash
  cacheHit : Bool
  fallbackHit : Bool
  blobSealed : Bool
  observedAt : Time
  deriving DecidableEq

/-- Reading a file: it changed under the reader, or its content with the state it was read in. -/
inductive FileRead where
  | sourceChanged
  | ok (hash : Hash) (stat : FileStat)

/-- The tree entry of a file, the record for the cache, and whether the file was unstable. -/
structure FileJobResult where
  entry : Option TreeEntry
  scanned : Option ScannedFile
  unstable : Bool
  deriving DecidableEq

/-- A hit that the scan may use: a scan that writes blobs also needs the blob in the local store. -/
def cacheHit (cfg : FileJobConfig) (stat : FileStat) : Option (Time × StatCacheEntry) := do
  let fsMtime ← stat.mtime
  let e ← lookupCurrentEntry cfg.statCache fsMtime stat.size
  if !cfg.writeBlobs || (e.sealed && cfg.sealsTrusted) || cfg.blobFullyCached e.hash then
    some (fsMtime, e)
  else none

/-- The `clone_root` blob that stands in for reading the file. -/
def fallbackHit (cfg : FileJobConfig) (stat : FileStat) : Option Blob :=
  match cfg.cloneRootEntry with
  | some (.blob b) =>
      if canSkipHash (.blob b) stat.size stat.mtime cfg.now &&
          (!cfg.writeBlobs || cfg.blobFullyCached b.hash) then some b
      else none
  | _ => none

/-- `process_file_job`: `stat` was taken when the directory was listed, `read` is what reading the
file gives when it comes to that.  A read-only scan keeps the listed state next to the hash. -/
def processFileJob (cfg : FileJobConfig) (stat : FileStat) (read : FileRead) : FileJobResult :=
  match cacheHit cfg stat with
  | some (fsMtime, e) =>
      { entry := some (.blob
          { hash := e.hash
            mtime := mtimeStable (mtimeForEntry cfg.cloneRootEntry e.hash)
              (systemTimeToDatetime stat.mtime)
            size := stat.size
            mode := stat.mode })
        scanned := some
          { fsMtime, fsSize := stat.size, hash := e.hash, cacheHit := true, fallbackHit := false
            blobSealed := cfg.writeBlobs, observedAt := cfg.now }
        unstable := false }
  | none =>
      match fallbackHit cfg stat with
      | some b =>
          { entry := some (.blob
              { hash := b.hash, mtime := b.mtime, size := stat.size, mode := stat.mode })
            scanned := stat.mtime.map fun fsMtime =>
              { fsMtime, fsSize := stat.size, hash := b.hash, cacheHit := false
                fallbackHit := true, blobSealed := cfg.writeBlobs, observedAt := cfg.now }
            unstable := false }
      | none =>
          match read with
          | .sourceChanged =>
              { entry := cfg.cloneRootEntry, scanned := none, unstable := true }
          | .ok hash captured =>
              let effective := if cfg.writeBlobs then
                { captured with mtime := captured.mtime.or stat.mtime } else stat
              { entry := some (.blob
                  { hash
                    mtime := mtimeStable (mtimeForEntry cfg.cloneRootEntry hash)
                      (systemTimeToDatetime effective.mtime)
                    size := effective.size
                    mode := effective.mode })
                scanned := effective.mtime.map fun fsMtime =>
                  { fsMtime, fsSize := effective.size, hash, cacheHit := false
                    fallbackHit := false, blobSealed := cfg.writeBlobs, observedAt := cfg.now }
                unstable := false }

/-- `apply_scanned` on the path's entry. -/
def applyScanned (cache : Option StatCacheEntry) (scanned : Option ScannedFile) :
    Option StatCacheEntry :=
  match scanned with
  | none => cache
  | some f =>
      if !f.cacheHit then
        some (updatedEntry f.fsMtime f.fsSize f.hash f.blobSealed f.observedAt)
      else if f.blobSealed then cache.map markSealed
      else cache

end Omemfs.Scan
