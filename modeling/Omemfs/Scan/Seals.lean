/-
# Omemfs.Scan.Seals — the STAT_CACHE as a file, and when its SEALED bits are believed.

A SEALED bit says that a blob is in the local store.  A scan that writes blobs believes the bits it
loads when the epoch in the trailer of the file is the one in the marker next to the objects, and a
sample of the bits is found to be right; else it clears what it has loaded and looks at every blob.

There are three ways to write the file back: a full scan that writes blobs writes what it holds, a
scoped one lays its entries over the file as it is by then, and a read-only scan lays only what it
changed over the file.  `SealedAt` is what the lemmas say of each: where the bits of the result come
from.
-/
import Mathlib.Data.List.Sort
import Omemfs.Lib.KeyMap
import Omemfs.Scan.StatCache

namespace Omemfs.Scan

open Lib

/-- The identifier in the trailer and in the marker: sixteen random bytes. -/
abbrev Epoch := Nat

/-- All zeros: no epoch recorded. -/
def noSealEpoch : Epoch := 0

/-- What the file STAT_CACHE holds; a missing or damaged file holds nothing. -/
structure CacheFile where
  entries : KeyMap String StatCacheEntry
  sealEpoch : Epoch

structure StatCache where
  entries : KeyMap String StatCacheEntry
  dirty : Bool
  sealEpoch : Epoch
  sealsTrusted : Bool
  needsNewEpoch : Bool
  sealsInvalidated : Bool
  changed : List String

/-- The entry of `p` is sealed and names `h`. -/
def SealedAt (m : KeyMap String StatCacheEntry) (p : String) (h : Hash) : Prop :=
  ∃ e, m.get p = some e ∧ e.sealed = true ∧ e.hash = h

def clearSealed (e : StatCacheEntry) : StatCacheEntry := { e with sealed := false }

theorem SealedAt.of_insert {m : KeyMap String StatCacheEntry} {p q : String} {e : StatCacheEntry}
    {h : Hash} (hs : SealedAt (m.insert p e) q h) :
    (q = p ∧ e.sealed = true ∧ e.hash = h) ∨ SealedAt m q h := by
  obtain ⟨e', hget, hseal, hhash⟩ := hs
  rw [KeyMap.get_insert] at hget
  by_cases hq : q = p
  · rw [if_pos hq] at hget
    cases hget
    exact .inl ⟨hq, hseal, hhash⟩
  · rw [if_neg hq] at hget
    exact .inr ⟨e', hget, hseal, hhash⟩

theorem not_sealedAt_clear (m : KeyMap String StatCacheEntry) (p : String) (h : Hash) :
    ¬ SealedAt (m.mapValues clearSealed) p h := by
  rintro ⟨e, hget, hseal, -⟩
  rw [KeyMap.get_mapValues, Option.map_eq_some_iff] at hget
  obtain ⟨e', -, rfl⟩ := hget
  exact Bool.false_ne_true hseal

theorem SealedAt.of_filterKeys {f : String → Bool} {m : KeyMap String StatCacheEntry} {p : String}
    {h : Hash} (hs : SealedAt (m.filterKeys f) p h) : SealedAt m p h := by
  obtain ⟨e, hget, hrest⟩ := hs
  rw [KeyMap.get_filterKeys] at hget
  split_ifs at hget
  exact ⟨e, hget, hrest⟩

/-! ## Loading -/

/-- `path` is the scope or lies below it. -/
def pathInScope (path scope : String) : Bool := path == scope || path.startsWith (scope ++ "/")

namespace StatCache

def read (file : CacheFile) : StatCache where
  entries := file.entries
  dirty := false
  sealEpoch := file.sealEpoch
  sealsTrusted := false
  needsNewEpoch := false
  sealsInvalidated := false
  changed := []

/-- The empty scope is the whole repository. -/
def readScoped (file : CacheFile) (scope : String) : StatCache :=
  if scope = "" then read file
  else { read file with entries := file.entries.filterKeys fun p => pathInScope p scope }

/-- What loading does not set. -/
theorem readScoped_spec (file : CacheFile) (scope : String) :
    (readScoped file scope).sealEpoch = file.sealEpoch ∧
      (readScoped file scope).sealsInvalidated = false ∧
      (readScoped file scope).needsNewEpoch = false ∧ (readScoped file scope).changed = [] := by
  unfold readScoped
  split_ifs
  · exact ⟨rfl, rfl, rfl, rfl⟩
  · exact ⟨rfl, rfl, rfl, rfl⟩

theorem sealedAt_of_readScoped {file : CacheFile} {scope p : String} {h : Hash}
    (hs : SealedAt (readScoped file scope).entries p h) : SealedAt file.entries p h := by
  unfold readScoped at hs
  split_ifs at hs
  · exact hs
  · exact hs.of_filterKeys

/-! ## Changing entries -/

/-- `update`, given the entry it records: nothing is marked as changed when it was there before. -/
def update (c : StatCache) (path : String) (e : StatCacheEntry) : StatCache :=
  let c := if c.entries.get path = some e then c
    else { c with dirty := true, changed := path :: c.changed }
  { c with entries := c.entries.insert path e }

def markSealed (c : StatCache) (path : String) : StatCache :=
  match c.entries.get path with
  | some e =>
      if e.sealed then c
      else { c with
        entries := c.entries.insert path (Scan.markSealed e)
        dirty := true
        changed := path :: c.changed }
  | none => c

def clearAllSealed (c : StatCache) : StatCache :=
  { c with
    entries := c.entries.mapValues clearSealed
    dirty := c.dirty || c.entries.pairs.any fun x => x.2.sealed }

/-- One file of `apply_scanned`. -/
def applyFile (c : StatCache) (x : String × ScannedFile) : StatCache :=
  if !x.2.cacheHit then
    c.update x.1
      (updatedEntry x.2.fsMtime x.2.fsSize x.2.hash x.2.blobSealed x.2.observedAt)
  else if x.2.blobSealed then c.markSealed x.1
  else c

def applyScanned (c : StatCache) (files : List (String × ScannedFile)) : StatCache :=
  files.foldl applyFile c

theorem update_entries (c : StatCache) (path : String) (e : StatCacheEntry) :
    (c.update path e).entries = c.entries.insert path e := by
  unfold update
  split_ifs <;> rfl

/-- **`get_applyFile`** — at each path `apply_scanned` does what it does to one entry. -/
theorem get_applyFile (c : StatCache) (x : String × ScannedFile) (p : String) :
    (c.applyFile x).entries.get p =
      if p = x.1 then Scan.applyScanned (c.entries.get p) (some x.2) else c.entries.get p := by
  obtain ⟨path, f⟩ := x
  unfold applyFile Scan.applyScanned
  by_cases hhit : f.cacheHit = true
  · by_cases hseal : f.blobSealed = true
    · simp only [hhit, hseal, Bool.not_true, Bool.false_eq_true, if_false, if_true]
      unfold markSealed
      by_cases hp : p = path
      · subst hp
        cases hget : c.entries.get p with
        | none => simp [hget]
        | some e =>
            by_cases hs : e.sealed = true
            · have heq : Scan.markSealed e = e := by rw [Scan.markSealed, ← hs]
              simp [hs, hget, heq]
            · simp [hs]
      · rw [if_neg hp]
        split
        · split_ifs
          · rfl
          · exact KeyMap.get_insert_ne _ _ hp
        · rfl
    · simp [hhit, hseal]
  · simp only [hhit, Bool.not_false, if_true]
    rw [update_entries, KeyMap.get_insert]

/-! ## Trust -/

/-- The sampled position: the first and the last entry are always among the samples. -/
def sampleIndex (n sampleN k : Nat) : Nat :=
  if sampleN = 1 then 0 else k * (n - 1) / (sampleN - 1)

/-- The samples at the positions `ks`.  `probe` says of a blob whether it is fully cached and how
many lookups that took; past the budget a sample counts as found, the first is always looked at. -/
def sampleLoop (probe : Hash → Bool × Nat) (budget : Nat) (found : List StatCacheEntry)
    (sampleN : Nat) : List Nat → Nat → Bool
  | [], _ => true
  | k :: ks, spent =>
      if 0 < k && budget ≤ spent then sampleLoop probe budget found sampleN ks spent
      else match found[sampleIndex found.length sampleN k]? with
        | none => false
        | some e =>
            if (probe e.hash).1 then
              sampleLoop probe budget found sampleN ks (spent + (probe e.hash).2)
            else false

/-- The sealed entries, by path. -/
def sealedEntries (c : StatCache) : List StatCacheEntry :=
  ((c.entries.pairs.filter fun x => x.2.sealed).insertionSort fun a b => a.1 ≤ b.1).map Prod.snd

def sampleVerify (sampleMax : Nat) (probe : Hash → Bool × Nat) (c : StatCache) : Bool :=
  let found := c.sealedEntries
  let sampleN := min sampleMax found.length
  sampleLoop probe (8 * sampleMax) found sampleN (List.range sampleN) 0

def computeSealsTrusted (c : StatCache) (marker : Option Epoch) (sampleMax : Nat)
    (probe : Hash → Bool × Nat) : StatCache :=
  if c.sealEpoch ≠ noSealEpoch ∧ marker = some c.sealEpoch then
    let c := { c with needsNewEpoch := false, sealsTrusted := c.sampleVerify sampleMax probe }
    if c.sealsTrusted then c else { c with sealsInvalidated := true }.clearAllSealed
  else
    { c with sealsTrusted := false, needsNewEpoch := true, sealsInvalidated := true }.clearAllSealed

def finalizeSealEpoch (c : StatCache) (newEpoch : Epoch) : StatCache :=
  if c.needsNewEpoch then
    { c with sealEpoch := newEpoch, dirty := true, needsNewEpoch := false }
  else c

/-- A sample is missed only where there is a sealed entry. -/
theorem exists_sealed_of_miss {c : StatCache} {sampleMax : Nat} {probe : Hash → Bool × Nat}
    (h : c.sampleVerify sampleMax probe = false) :
    (c.entries.pairs.any fun x => x.2.sealed) = true := by
  have hne : c.sealedEntries ≠ [] := by
    intro hnil
    have hzero : min sampleMax c.sealedEntries.length = 0 := by simp [hnil]
    rw [sampleVerify, hzero, List.range_zero, sampleLoop] at h
    exact Bool.noConfusion h
  obtain ⟨e, he⟩ := List.exists_mem_of_ne_nil _ hne
  obtain ⟨x, hx, -⟩ := List.mem_map.mp he
  rw [List.mem_insertionSort, List.mem_filter] at hx
  exact List.any_eq_true.mpr ⟨x, hx⟩

/-- **`computeSealsTrusted_cases`** — either the epoch is the marker's and nothing is cleared, or
every bit is. -/
theorem computeSealsTrusted_cases {c : StatCache} (hc : c.sealsInvalidated = false)
    (marker : Option Epoch) (sampleMax : Nat) (probe : Hash → Bool × Nat) :
    ((c.computeSealsTrusted marker sampleMax probe).sealsInvalidated = false ∧
        (c.computeSealsTrusted marker sampleMax probe).entries = c.entries ∧
        marker = some c.sealEpoch) ∨
      ((c.computeSealsTrusted marker sampleMax probe).sealsInvalidated = true ∧
        (∀ p h, ¬ SealedAt (c.computeSealsTrusted marker sampleMax probe).entries p h) ∧
        ((c.computeSealsTrusted marker sampleMax probe).needsNewEpoch = true ∨
          (c.computeSealsTrusted marker sampleMax probe).dirty = true)) := by
  unfold computeSealsTrusted
  by_cases hepoch : c.sealEpoch ≠ noSealEpoch ∧ marker = some c.sealEpoch
  · rw [if_pos hepoch]
    by_cases hs : c.sampleVerify sampleMax probe = true
    · simp only [hs, if_true]
      exact .inl ⟨hc, trivial, hepoch.2⟩
    · right
      simp only [hs, if_false, Bool.false_eq_true]
      have hany := exists_sealed_of_miss (Bool.eq_false_iff.mpr hs)
      refine ⟨rfl, not_sealedAt_clear _, .inr ?_⟩
      simp [clearAllSealed, hany]
  · rw [if_neg hepoch]
    exact .inr ⟨rfl, not_sealedAt_clear _, .inl rfl⟩

/-! ## Writing back -/

def write (c : StatCache) : CacheFile := ⟨c.entries, c.sealEpoch⟩

/-- The file after `write_if_dirty`, if it writes. -/
def writeIfDirty (c : StatCache) : Option CacheFile := if c.dirty then some c.write else none

def overlay (base : KeyMap String StatCacheEntry) (xs : List (String × StatCacheEntry)) :
    KeyMap String StatCacheEntry :=
  xs.foldl (fun m x => m.insert x.1 x.2) base

/-- The file after `write_scoped_merge`, if it writes; `file` is what the fresh read has found. -/
def writeScopedMerge (c : StatCache) (scope : String) (file : CacheFile) : Option CacheFile :=
  if scope = "" then c.writeIfDirty
  else if !c.dirty then none
  else
    let full := read file
    let full := if c.sealsInvalidated then { full.clearAllSealed with sealEpoch := c.sealEpoch }
      else full
    some ⟨overlay full.entries c.entries.pairs, full.sealEpoch⟩

/-- The entries this scan has changed. -/
def changedEntries (c : StatCache) : List (String × StatCacheEntry) :=
  c.changed.filterMap fun p => (c.entries.get p).map fun e => (p, e)

/-- The file after `write_readonly_merge`, if it writes. -/
def writeReadonlyMerge (c : StatCache) (file : CacheFile) : Option CacheFile :=
  if c.changed = [] then none
  else some ⟨overlay file.entries c.changedEntries, file.sealEpoch⟩

theorem sealedAt_overlay {base : KeyMap String StatCacheEntry}
    {xs : List (String × StatCacheEntry)} {p : String} {h : Hash}
    (hs : SealedAt (overlay base xs) p h) :
    (∃ e, (p, e) ∈ xs ∧ e.sealed = true ∧ e.hash = h) ∨ SealedAt base p h := by
  induction xs generalizing base with
  | nil => exact .inr hs
  | cons x xs ih =>
      have htail : SealedAt (overlay (base.insert x.1 x.2) xs) p h := hs
      rcases ih htail with ⟨e, he, hrest⟩ | hbase
      · exact .inl ⟨e, List.mem_cons_of_mem _ he, hrest⟩
      · rcases hbase.of_insert with ⟨rfl, hrest⟩ | hbase
        · exact .inl ⟨x.2, List.mem_cons_self .., hrest⟩
        · exact .inr hbase

/-- **`sealedAt_writeScopedMerge`** — a bit in the file written by a scan that writes blobs is one
the scan holds, or, where it did not withhold trust, one of the file under the file's own epoch. -/
theorem sealedAt_writeScopedMerge {c : StatCache} {scope : String} {file file' : CacheFile}
    (hw : c.writeScopedMerge scope file = some file') {p : String} {h : Hash}
    (hs : SealedAt file'.entries p h) :
    SealedAt c.entries p h ∨
      (c.sealsInvalidated = false ∧ file'.sealEpoch = file.sealEpoch ∧ SealedAt file.entries p h) := by
  unfold writeScopedMerge writeIfDirty at hw
  split_ifs at hw with _ _ _ hinv
  · cases hw
    exact .inl hs
  · cases hw
    rcases sealedAt_overlay hs with ⟨e, he, hrest⟩ | hbase
    · exact .inl ⟨e, KeyMap.get_eq_some_iff_mem.mpr he, hrest⟩
    · exact absurd hbase (not_sealedAt_clear _ p h)
  · cases hw
    rcases sealedAt_overlay hs with ⟨e, he, hrest⟩ | hbase
    · exact .inl ⟨e, KeyMap.get_eq_some_iff_mem.mpr he, hrest⟩
    · exact .inr ⟨Bool.eq_false_iff.mpr hinv, rfl, hbase⟩

/-- **`sealedAt_writeReadonlyMerge`** — a read-only scan adds no bit to what its fresh read found. -/
theorem sealedAt_writeReadonlyMerge {c : StatCache} {file file' : CacheFile}
    (hw : c.writeReadonlyMerge file = some file')
    (hc : ∀ p ∈ c.changed, ∀ e, c.entries.get p = some e → e.sealed = false) :
    file'.sealEpoch = file.sealEpoch ∧
      ∀ p h, SealedAt file'.entries p h → SealedAt file.entries p h := by
  unfold writeReadonlyMerge at hw
  split_ifs at hw
  cases hw
  refine ⟨rfl, fun p h hs => ?_⟩
  rcases sealedAt_overlay hs with ⟨e, he, hseal, -⟩ | hbase
  · obtain ⟨q, hq, hmap⟩ := List.mem_filterMap.mp he
    obtain ⟨e', hget, heq⟩ := Option.map_eq_some_iff.mp hmap
    cases heq
    rw [hc p hq e hget] at hseal
    exact absurd hseal Bool.false_ne_true
  · exact hbase

/-! ## A scan that withheld trust writes -/

/-- The cache will be written once the epoch is finalised. -/
def WillWrite (c : StatCache) : Prop := c.needsNewEpoch = true ∨ c.dirty = true

theorem willWrite_applyFile {c : StatCache} (h : c.WillWrite) (x : String × ScannedFile) :
    (c.applyFile x).WillWrite := by
  unfold applyFile
  split_ifs
  · unfold update
    split_ifs
    · exact h
    · exact .inr rfl
  · unfold markSealed
    split
    · split_ifs
      · exact h
      · exact .inr rfl
    · exact h
  · exact h

/-- **`withheld_writes`** — a scan that withheld trust has something to write, whatever it scanned. -/
theorem withheld_writes {c : StatCache} (hc : c.sealsInvalidated = false) {marker : Option Epoch}
    {sampleMax : Nat} {probe : Hash → Bool × Nat}
    (h : (c.computeSealsTrusted marker sampleMax probe).sealsInvalidated = true)
    (files : List (String × ScannedFile)) (newEpoch : Epoch) (scope : String) (file : CacheFile) :
    ∃ file', (((c.computeSealsTrusted marker sampleMax probe).applyScanned
      files).finalizeSealEpoch newEpoch).writeScopedMerge scope file = some file' := by
  have hwill : (c.computeSealsTrusted marker sampleMax probe).WillWrite := by
    rcases computeSealsTrusted_cases hc marker sampleMax probe with ⟨htrust, -⟩ | ⟨-, -, hwill⟩
    · exact absurd (htrust.symm.trans h) Bool.false_ne_true
    · exact hwill
  have hscanned : ((c.computeSealsTrusted marker sampleMax probe).applyScanned files).WillWrite :=
    List.foldlRecOn files applyFile hwill fun c hc x _ => willWrite_applyFile hc x
  have hdirty : (((c.computeSealsTrusted marker sampleMax probe).applyScanned
      files).finalizeSealEpoch newEpoch).dirty = true := by
    unfold finalizeSealEpoch
    split_ifs with hneeds
    · rfl
    · exact hscanned.resolve_left hneeds
  unfold writeScopedMerge writeIfDirty
  rw [hdirty]
  by_cases hscope : scope = ""
  · exact ⟨_, by rw [if_pos hscope, if_pos rfl]⟩
  · exact ⟨_, by rw [if_neg hscope]; rfl⟩

end StatCache

end Omemfs.Scan
