/-
# Omemfs.Store.Shards — what a call does to the sharded directory.

Seven calls change the disk (`Effect`).  None of them removes the last copy of an object
(`Effect.below`): a rename takes a copy one directory down, and a flat copy is removed only where a
deeper one was seen, which can only have moved deeper since.

A directory is `Plain` while it has neither the marker nor a depth, and its files stay where they are.
A disk is `Sound` when only directories that are reached through depths are not plain, and those with a
depth have no files left; on such a disk an object is where a search looks for it (`Sound.copy_seen`).
-/
import Mathlib.Data.List.Induction
import Mathlib.Tactic.Common
import Omemfs.Store.ObjectsDir

namespace Omemfs.Store.ObjectsDir

open Lib

variable {k k' : Disk} {pc pc' : Pc} {proc : Nat} {s s' : Shared} {listing : List Hex}

/-! ## The calls that change the disk -/

inductive Effect (k : Disk) : Pc → Disk → Prop
  | none (pc : Pc) : Effect k pc k
  | persist (p : Spot) : Effect k (.persist p) { k with files := insert p k.files }
  | rename (j : Job) (name : Hex) (rest : List Hex) :
      Effect k (.rename j name rest) (k.rename ⟨j.spot.dir, name⟩)
  | remove (j : Job) (name : Hex) (rest : List Hex) :
      Effect k (.remove j name rest) { k with files := k.files.erase ⟨j.spot.dir, name⟩ }
  | setDepth (j : Job) :
      Effect k (.setDepth j) { k with depth := insert j.spot.dir k.depth }
  | mark (p : Spot) : Effect k (.mark p) { k with migrating := insert p.dir k.migrating }
  | clearMarker (j : Job) :
      Effect k (.clearMarker j) { k with migrating := k.migrating.erase j.spot.dir }

theorem next_effect (h : next proc s listing pc = some (s', pc')) : Effect s.disk pc s'.disk := by
  cases pc with
  | idle => cases h
  | findMarker p due deep =>
      simp only [next] at h
      split_ifs at h <;> cases h <;> exact .none _
  | findFlat p due migrating =>
      simp only [next] at h
      split_ifs at h <;> cases h <;> exact .none _
  | lockResume p =>
      simp only [next] at h
      split_ifs at h
      cases h
      exact .none _
  | lockStart p =>
      simp only [next] at h
      split_ifs at h
      cases h
      exact .none _
  | readDepth p =>
      simp only [next] at h
      split_ifs at h <;> cases h <;> exact .none _
  | testFlat p =>
      simp only [next] at h
      split_ifs at h <;> cases h <;> exact .none _
  | count p =>
      simp only [next] at h
      split_ifs at h <;> cases h <;> exact .none _
  | list j =>
      simp only [next] at h
      split_ifs at h
      cases h
      exact .none _
  | unlock j =>
      simp only [next] at h
      split_ifs at h <;> cases h <;> exact .none _
  | findDepth p due => cases h; exact .none _
  | findSub p due => cases h; exact .none _
  | testMarker p => cases h; exact .none _
  | retestMarker p => cases h; exact .none _
  | testStart p => cases h; exact .none _
  | isFile j name rest => cases h; exact .none _
  | testNew j name rest => cases h; exact .none _
  | persist p => cases h; exact .persist p
  | mark p => cases h; exact .mark p
  | rename j name rest => cases h; exact .rename j name rest
  | remove j name rest => cases h; exact .remove j name rest
  | setDepth j => cases h; exact .setDepth j
  | clearMarker j => cases h; exact .clearMarker j

/-! ## No last copy is removed -/

/-- A copy of the object, at least so deep. -/
def Disk.Below (k : Disk) (h : Hex) (n : Nat) : Prop :=
  ∃ q ∈ k.files, q.bytes = h ∧ n ≤ q.dir.length

theorem Spot.bytes_sub (q : Spot) : q.sub.bytes = q.bytes := by
  unfold Spot.bytes Spot.sub
  rw [List.append_assoc, List.take_append_drop]

theorem Spot.length_le_sub (q : Spot) : q.dir.length ≤ q.sub.dir.length := by
  unfold Spot.sub
  rw [List.length_append]
  omega

theorem Spot.length_sub {q : Spot} (hq : q.hex ≠ []) : q.sub.dir.length = q.dir.length + 1 := by
  unfold Spot.sub
  cases hhex : q.hex with
  | nil => exact absurd hhex hq
  | cons b rest => simp

/-- A thread about to remove a flat copy has seen a deeper one. -/
structure Guarded (k : Disk) (pc : Pc) : Prop where
  named : ∀ j name rest, pc = .testNew j name rest → name ≠ []
  copied : ∀ j name rest, pc = .remove j name rest →
    k.Below (j.spot.dir ++ name) (j.spot.dir.length + 1)

theorem rename_below {q : Spot} {h : Hex} {n : Nat} (hb : k.Below h n) : (k.rename q).Below h n := by
  unfold Disk.rename
  split_ifs with hq
  · obtain ⟨p, hp, hbytes, hn⟩ := hb
    by_cases hpq : p = q
    · subst hpq
      exact ⟨p.sub, Finset.mem_insert_self .., p.bytes_sub.trans hbytes,
        Nat.le_trans hn p.length_le_sub⟩
    · exact ⟨p, Finset.mem_insert_of_mem (Finset.mem_erase.mpr ⟨hpq, hp⟩), hbytes, hn⟩
  · exact hb

/-- **`Effect.below`** — no call takes a copy up, and none removes the last one. -/
theorem Effect.below (he : Effect k pc k') (hg : Guarded k pc) {h : Hex} {n : Nat}
    (hb : k.Below h n) : k'.Below h n := by
  cases he with
  | none | setDepth | mark | clearMarker => exact hb
  | persist p =>
      obtain ⟨q, hq, hbytes, hn⟩ := hb
      exact ⟨q, Finset.mem_insert_of_mem hq, hbytes, hn⟩
  | rename j name rest => exact rename_below hb
  | remove j name rest =>
      obtain ⟨q, hq, hbytes, hn⟩ := hb
      by_cases heq : q = ⟨j.spot.dir, name⟩
      · -- the flat copy goes, the deeper one stays
        obtain ⟨q', hq', hbytes', hn'⟩ := hg.copied j name rest rfl
        have hdeep : j.spot.dir.length < q'.dir.length := hn'
        subst heq
        have hn : n ≤ j.spot.dir.length := hn
        refine ⟨q', Finset.mem_erase.mpr ⟨?_, hq'⟩, hbytes'.trans hbytes, by omega⟩
        rintro rfl
        exact Nat.lt_irrefl _ hdeep
      · exact ⟨q, Finset.mem_erase.mpr ⟨heq, hq⟩, hbytes, hn⟩

/-- Between a listing's entries there is no test of a new path, nor a removal. -/
theorem Pc.entry_cases (j : Job) (rest : List Hex) :
    Pc.entry j rest = .setDepth j ∨ ∃ name rest', Pc.entry j rest = .isFile j name rest' := by
  cases rest with
  | nil => exact Or.inl rfl
  | cons name rest => exact Or.inr ⟨name, rest, rfl⟩

theorem testNew_from {j : Job} {name : Hex} {rest : List Hex}
    (h : next proc s listing pc = some (s', .testNew j name rest)) : name ≠ [] := by
  have hentry : ∀ (j' : Job) (rest' : List Hex), Pc.entry j' rest' ≠ .testNew j name rest := by
    intro j' rest' heq
    rcases Pc.entry_cases j' rest' with h | ⟨_, _, h⟩ <;> simp [h] at heq
  cases pc with
  | isFile j' name' rest' =>
      simp only [next, Option.some.injEq, Prod.mk.injEq] at h
      split_ifs at h with hfile
      · cases h.2
        exact hfile.1
      · exact absurd h.2 (hentry _ _)
  | idle => cases h
  | _ =>
      simp only [next] at h
      (try split_ifs at h) <;> simp [hentry] at h

theorem remove_from {j : Job} {name : Hex} {rest : List Hex}
    (h : next proc s listing pc = some (s', .remove j name rest)) :
    pc = .testNew j name rest ∧ Spot.sub ⟨j.spot.dir, name⟩ ∈ s'.disk.files := by
  have hentry : ∀ (j' : Job) (rest' : List Hex), Pc.entry j' rest' ≠ .remove j name rest := by
    intro j' rest' heq
    rcases Pc.entry_cases j' rest' with h | ⟨_, _, h⟩ <;> simp [h] at heq
  cases pc with
  | testNew j' name' rest' =>
      simp only [next, Option.some.injEq, Prod.mk.injEq] at h
      obtain ⟨rfl, h⟩ := h
      split_ifs at h with hnew
      cases h
      exact ⟨rfl, hnew⟩
  | idle => cases h
  | _ =>
      simp only [next] at h
      (try split_ifs at h) <;> simp [hentry] at h

theorem next_guarded (hg : Guarded s.disk pc) (h : next proc s listing pc = some (s', pc')) :
    Guarded s'.disk pc' := by
  constructor
  · rintro j name rest rfl
    exact testNew_from h
  · rintro j name rest rfl
    obtain ⟨rfl, hnew⟩ := remove_from h
    have hname := hg.named j name rest rfl
    have hdeep := Spot.length_sub (q := ⟨j.spot.dir, name⟩) hname
    exact ⟨_, hnew, Spot.bytes_sub _, Nat.le_of_eq hdeep.symm⟩

/-! ## Sound disks -/

/-- Neither marked nor sharded: no file of the directory is being moved. -/
def Disk.Plain (k : Disk) (dir : Hex) : Prop := dir ∉ k.migrating ∧ dir ∉ k.depth

theorem Disk.not_plain_of_depth {dir : Hex} (h : dir ∈ k.depth) : ¬ k.Plain dir := fun hp => hp.2 h

theorem Disk.not_plain_of_marker {dir : Hex} (h : dir ∈ k.migrating) : ¬ k.Plain dir :=
  fun hp => hp.1 h

theorem Disk.marker_of_not_plain {dir : Hex} (h : ¬ k.Plain dir) (hd : dir ∉ k.depth) :
    dir ∈ k.migrating := by
  by_contra hm
  exact h ⟨hm, hd⟩

structure Disk.Sound (k : Disk) : Prop where
  length : ∀ q ∈ k.files, q.bytes.length = 32
  /-- A directory with a depth has no files of its own. -/
  emptied : ∀ q ∈ k.files, q.dir ∉ k.depth
  parentOfFile : ∀ q ∈ k.files, q.dir ≠ [] → ¬ k.Plain q.dir.dropLast
  parentOfDir : ∀ d, ¬ k.Plain d → d ≠ [] → d.dropLast ∈ k.depth
  short : ∀ d, ¬ k.Plain d → d.length < 31

theorem dropLast_sub {p : Spot} (hp : p.hex ≠ []) : p.sub.dir.dropLast = p.dir ∧ p.sub.dir ≠ [] := by
  unfold Spot.sub
  cases hhex : p.hex with
  | nil => exact absurd hhex hp
  | cons b rest => simp

/-- Two spots of one object in one directory are the same. -/
theorem Spot.eq_of_dir {p q : Spot} (hbytes : q.bytes = p.bytes) (hdir : q.dir = p.dir) : q = p := by
  obtain ⟨pd, ph⟩ := p
  obtain ⟨qd, qh⟩ := q
  unfold Spot.bytes at hbytes
  simp only at hdir hbytes
  subst hdir
  rw [List.append_cancel_left hbytes]

theorem Spot.prefix_bytes (p : Spot) : p.dir <+: p.bytes := List.prefix_append _ _

/-- A spot of an object next below another is its `sub`. -/
theorem Spot.eq_sub {p q : Spot} (hbytes : q.bytes = p.bytes) (hne : q.dir ≠ [])
    (hdir : q.dir.dropLast = p.dir) : q = p.sub := by
  apply Spot.eq_of_dir (hbytes.trans p.bytes_sub.symm)
  have hlen : q.dir.length = p.dir.length + 1 := by
    have hpos := List.length_pos_iff.mpr hne
    have hdrop := congrArg List.length hdir
    rw [List.length_dropLast] at hdrop
    omega
  have hhex : p.hex ≠ [] := by
    intro hnil
    have hle := q.prefix_bytes.length_le
    have hb : p.bytes.length = p.dir.length := by simp [Spot.bytes, hnil]
    rw [hbytes, hb] at hle
    omega
  have hsub : p.sub.dir <+: p.bytes := by
    rw [← p.bytes_sub]
    exact p.sub.prefix_bytes
  have hq : q.dir <+: p.bytes := by
    rw [← hbytes]
    exact q.prefix_bytes
  exact (List.prefix_of_prefix_length_le hq hsub (by rw [Spot.length_sub hhex, hlen])).eq_of_length
    (by rw [Spot.length_sub hhex, hlen])

namespace Disk.Sound

/-- All directories above one that is not plain have a depth. -/
theorem above (hk : k.Sound) {d d' : Hex} (hd : ¬ k.Plain d) (hpre : d' <+: d) (hne : d' ≠ d) :
    d' ∈ k.depth := by
  induction d using List.reverseRecOn with
  | nil => exact absurd (List.prefix_nil.mp hpre) hne
  | append_singleton l b ih =>
      have hl : l ∈ k.depth := by simpa using hk.parentOfDir _ hd (by simp)
      rcases List.prefix_concat_iff.mp hpre with h | h
      · exact absurd h hne
      · by_cases heq : d' = l
        · exact heq ▸ hl
        · exact ih (Disk.not_plain_of_depth hl) h heq

/-- Below a directory without a depth every directory is plain. -/
theorem plain_sub (hk : k.Sound) {p : Spot} (hp : p.hex ≠ []) (hd : p.dir ∉ k.depth) :
    k.Plain p.sub.dir := by
  by_contra hn
  obtain ⟨hdrop, hne⟩ := dropLast_sub hp
  have h := hk.parentOfDir _ hn hne
  rw [hdrop] at h
  exact hd h

/-- **`copy_seen`** — where a walk along the depths stops, an object that has a copy has one there, or
one directory down beside the marker. -/
theorem copy_seen (hk : k.Sound) {p : Spot} (hcopy : k.Below p.bytes 0)
    (habove : p.dir ≠ [] → p.dir.dropLast ∈ k.depth) (hd : p.dir ∉ k.depth) :
    k.Plain p.dir ∧ p ∈ k.files ∨ p.dir ∈ k.migrating ∧ (p ∈ k.files ∨ p.sub ∈ k.files) := by
  have hplain : p ∈ k.files →
      k.Plain p.dir ∧ p ∈ k.files ∨ p.dir ∈ k.migrating ∧ (p ∈ k.files ∨ p.sub ∈ k.files) := by
    intro hp
    by_cases h : k.Plain p.dir
    · exact Or.inl ⟨h, hp⟩
    · exact Or.inr ⟨Disk.marker_of_not_plain h hd, Or.inl hp⟩
  obtain ⟨q, hq, hbytes, _⟩ := hcopy
  have hqpre : q.dir <+: p.bytes := by
    rw [← hbytes]
    exact q.prefix_bytes
  rcases Nat.lt_or_ge p.dir.length q.dir.length with hlt | hge
  · -- a deeper copy: its parent is not plain, and no deeper than this directory
    have hne : q.dir ≠ [] := List.length_pos_iff.mp (by omega)
    have hparent := hk.parentOfFile q hq hne
    have hpre : p.dir <+: q.dir.dropLast := by
      apply List.prefix_of_prefix_length_le p.prefix_bytes ((List.dropLast_prefix _).trans hqpre)
      rw [List.length_dropLast]
      omega
    by_cases heq : p.dir = q.dir.dropLast
    · refine Or.inr ⟨Disk.marker_of_not_plain (heq ▸ hparent) hd, Or.inr ?_⟩
      rwa [← Spot.eq_sub hbytes hne heq.symm]
    · exact absurd (hk.above hparent hpre heq) hd
  · have hpre : q.dir <+: p.dir := List.prefix_of_prefix_length_le hqpre p.prefix_bytes hge
    by_cases heq : q.dir = p.dir
    · rw [Spot.eq_of_dir hbytes heq] at hq
      exact hplain hq
    · -- a copy further up: that directory has a depth, and no files
      refine absurd ?_ (hk.emptied q hq)
      have hne : p.dir ≠ [] := by
        rintro h
        rw [h] at hpre heq
        exact heq (List.prefix_nil.mp hpre)
      have hlast := habove hne
      have hpre' : q.dir <+: p.dir.dropLast := by
        apply List.prefix_of_prefix_length_le hpre (List.dropLast_prefix _)
        have hl := hpre.length_le
        have hlne : q.dir.length ≠ p.dir.length := fun h => heq (hpre.eq_of_length h)
        rw [List.length_dropLast]
        omega
      by_cases hq' : q.dir = p.dir.dropLast
      · exact hq' ▸ hlast
      · exact hk.above (Disk.not_plain_of_depth hlast) hpre' hq'

end Disk.Sound

end Omemfs.Store.ObjectsDir
