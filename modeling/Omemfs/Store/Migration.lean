/-
# Omemfs.Store.Migration — when a migration loses no object to a search.

Two windows are open to a migration.  A write between its test of the marker and its rename to a flat
name, and a search between reading depth zero and its last test, both go by a layout that is no longer
so once the directory is migrated (`Inside`); and a search that read depth zero takes a marker already
removed for one never placed (`Unsure`).  The lock of a directory closes neither, since nobody takes it
there.

A step is calm when it places no marker on a directory somebody is inside of, and removes none from one
somebody is unsure about.  `At` is what a thread can rely on at its place, and calm steps keep it for
every thread (`At.shift`, `next_at`): in every calm run a search for a stored object finds it
(`calm_keeps_objects`).
-/
import Omemfs.Store.Shards

namespace Omemfs.Store.ObjectsDir

open Lib

variable {k k' : Disk} {pc pc' : Pc} {proc : Nat} {s s' : Shared} {listing : List Hex}

/-! ## What a thread relies on -/

/-- The spot of a walk along the depths. -/
structure Reached (k : Disk) (p : Spot) : Prop where
  length : p.bytes.length = 32
  above : p.dir ≠ [] → p.dir.dropLast ∈ k.depth

/-- A migration between its listing and its end. -/
structure Working (k : Disk) (j : Job) : Prop where
  reached : Reached k j.spot
  busy : ¬ k.Plain j.spot.dir
  copied : j.resumed = false → k.Below j.spot.bytes 0

/-- The files of the directory are on the list. -/
def Pending (k : Disk) (j : Job) (names : List Hex) : Prop :=
  ∀ q ∈ k.files, q.dir = j.spot.dir → q.hex ∈ names

def At (k : Disk) : Pc → Prop
  | .idle => True
  | .findDepth p due => Reached k p ∧ (due = true → k.Below p.bytes 0)
  | .findMarker p due true => Reached k p ∧ p.dir ∈ k.depth ∧ (due = true → k.Below p.bytes 0)
  | .findMarker p due false => Reached k p ∧ (due = true → k.Plain p.sub.dir ∧
      (k.Plain p.dir ∧ p ∈ k.files ∨ p.dir ∈ k.migrating ∧ (p ∈ k.files ∨ p.sub ∈ k.files)))
  | .findFlat p due false => Reached k p ∧ (due = true → k.Plain p.dir ∧ p ∈ k.files)
  | .findFlat p due true =>
      Reached k p ∧ (due = true → k.Plain p.sub.dir ∧ (p ∈ k.files ∨ p.sub ∈ k.files))
  | .findSub p due => Reached k p ∧ (due = true → k.Plain p.sub.dir ∧ p.sub ∈ k.files)
  | .testMarker p => Reached k p
  | .lockResume p => Reached k p ∧ ¬ k.Plain p.dir
  | .retestMarker p => Reached k p ∧ ¬ k.Plain p.dir
  | .readDepth p => Reached k p ∧ (p.dir ∉ k.migrating ∨ p.dir ∈ k.depth)
  | .testFlat p => Reached k p ∧ k.Plain p.dir
  | .persist p => Reached k p ∧ k.Plain p.dir
  | .count p => Reached k p ∧ k.Below p.bytes 0
  | .lockStart p => Reached k p ∧ k.Below p.bytes 0 ∧ p.dir.length < 31
  | .testStart p => Reached k p ∧ k.Below p.bytes 0 ∧ p.dir.length < 31
  | .mark p => Reached k p ∧ k.Below p.bytes 0 ∧ p.dir.length < 31
  | .list j => Working k j
  | .isFile j name rest => Working k j ∧ Pending k j (name :: rest)
  | .testNew j name rest => Working k j ∧ Pending k j (name :: rest) ∧ name ≠ []
  | .rename j name rest => Working k j ∧ Pending k j (name :: rest) ∧ name ≠ []
  | .remove j name rest => Working k j ∧ Pending k j (name :: rest) ∧
      (Spot.sub ⟨j.spot.dir, name⟩ ∈ k.files ∨ ¬ k.Plain (Spot.sub ⟨j.spot.dir, name⟩).dir)
  | .setDepth j => Working k j ∧ Pending k j []
  | .clearMarker j => Working k j ∧ j.spot.dir ∈ k.depth
  | .unlock j => Working k j ∧ j.spot.dir ∈ k.depth

/-- By a flat layout of the directory that a marker would end. -/
inductive Inside (d : Hex) : Pc → Prop
  | readDepth (p : Spot) : p.dir = d → Inside d (.readDepth p)
  | testFlat (p : Spot) : p.dir = d → Inside d (.testFlat p)
  | persist (p : Spot) : p.dir = d → Inside d (.persist p)
  | findMarker (p : Spot) (due : Bool) : p.dir = d ∨ p.sub.dir = d → Inside d (.findMarker p due false)
  | findFlat (p : Spot) (due : Bool) : p.dir = d → Inside d (.findFlat p due false)
  | findBoth (p : Spot) (due : Bool) : p.sub.dir = d → Inside d (.findFlat p due true)
  | findSub (p : Spot) (due : Bool) : p.sub.dir = d → Inside d (.findSub p due)

/-- A search that read depth zero and has not tested the marker. -/
inductive Unsure (d : Hex) : Pc → Prop
  | findMarker (p : Spot) (due : Bool) : p.dir = d → Unsure d (.findMarker p due false)

/-! ## The others' steps -/

/-- What a call changes for the others. -/
structure Shift (k : Disk) (pc : Pc) (k' : Disk) : Prop where
  depth : ∀ d, d ∈ k.depth → d ∈ k'.depth
  busy : ∀ d, ¬ k.Plain d → ¬ k'.Plain d
  plain : ∀ d, k.Plain d → k'.Plain d ∨ ∃ p, pc = .mark p ∧ p.dir = d
  unmarked : ∀ d, d ∉ k.migrating → d ∉ k'.migrating ∨ ∃ p, pc = .mark p ∧ p.dir = d
  marker : ∀ d, d ∈ k.migrating → d ∈ k'.migrating ∨ ∃ j, pc = .clearMarker j ∧ j.spot.dir = d
  fresh : ∀ q ∈ k'.files, ¬ k.Plain q.dir → q ∈ k.files
  stays : ∀ q ∈ k.files, k.Plain q.dir → q ∈ k'.files
  moved : ∀ q ∈ k.files, k.Plain q.sub.dir → q ∈ k'.files ∨ q.sub ∈ k'.files
  below : ∀ h n, k.Below h n → k'.Below h n

theorem Working.hex_ne (hk : k.Sound) {j : Job} (hw : Working k j) {q : Spot} (hq : q ∈ k.files)
    (hdir : q.dir = j.spot.dir) : q.hex ≠ [] := by
  intro hnil
  have hlen := hk.length q hq
  have hshort := hk.short _ hw.busy
  rw [Spot.bytes, hnil, List.append_nil, hdir] at hlen
  omega

theorem shift_of_effect (hk : k.Sound) (hat : At k pc) (hg : Guarded k pc) (he : Effect k pc k') :
    Shift k pc k' := by
  have hbelow : ∀ h n, k.Below h n → k'.Below h n := fun h n hb => he.below hg hb
  cases he with
  | none =>
      exact ⟨fun _ h => h, fun _ h => h, fun _ h => Or.inl h, fun _ h => Or.inl h,
        fun _ h => Or.inl h, fun _ h _ => h, fun _ h _ => h, fun _ h _ => Or.inl h, hbelow⟩
  | persist p =>
      refine ⟨fun _ h => h, fun _ h => h, fun _ h => Or.inl h, fun _ h => Or.inl h,
        fun _ h => Or.inl h, ?_, fun q hq _ => Finset.mem_insert_of_mem hq,
        fun q hq _ => Or.inl (Finset.mem_insert_of_mem hq), hbelow⟩
      intro q hq hbusy
      rcases Finset.mem_insert.mp hq with rfl | h
      · exact absurd hat.2 hbusy
      · exact h
  | rename j name rest =>
      obtain ⟨hw, hpending, hname⟩ := hat
      unfold Disk.rename at hbelow ⊢
      split_ifs at hbelow ⊢ with hfile
      · refine ⟨fun _ h => h, fun _ h => h, fun _ h => Or.inl h, fun _ h => Or.inl h,
          fun _ h => Or.inl h, ?_, ?_, ?_, hbelow⟩
        · -- the file was there, so nothing of the directory below has moved
          intro q hq hbusy
          rcases Finset.mem_insert.mp hq with rfl | h
          · exact absurd (hk.plain_sub hname (hk.emptied _ hfile)) hbusy
          · exact (Finset.mem_erase.mp h).2
        · intro q hq hplain
          refine Finset.mem_insert_of_mem (Finset.mem_erase.mpr ⟨?_, hq⟩)
          rintro rfl
          exact hw.busy hplain
        · intro q hq hplain
          by_cases heq : q = ⟨j.spot.dir, name⟩
          · subst heq
            exact Or.inr (Finset.mem_insert_self ..)
          · exact Or.inl (Finset.mem_insert_of_mem (Finset.mem_erase.mpr ⟨heq, hq⟩))
      · exact ⟨fun _ h => h, fun _ h => h, fun _ h => Or.inl h, fun _ h => Or.inl h,
          fun _ h => Or.inl h, fun _ h _ => h, fun _ h _ => h, fun _ h _ => Or.inl h, hbelow⟩
  | remove j name rest =>
      obtain ⟨hw, hpending, hdeep⟩ := hat
      refine ⟨fun _ h => h, fun _ h => h, fun _ h => Or.inl h, fun _ h => Or.inl h,
        fun _ h => Or.inl h, fun q hq _ => (Finset.mem_erase.mp hq).2, ?_, ?_, hbelow⟩
      · intro q hq hplain
        refine Finset.mem_erase.mpr ⟨?_, hq⟩
        rintro rfl
        exact hw.busy hplain
      · intro q hq hplain
        by_cases heq : q = ⟨j.spot.dir, name⟩
        · subst heq
          rcases hdeep with h | h
          · refine Or.inr (Finset.mem_erase.mpr ⟨?_, h⟩)
            intro hsub
            rw [hsub] at hplain
            exact hw.busy hplain
          · exact absurd hplain h
        · exact Or.inl (Finset.mem_erase.mpr ⟨heq, hq⟩)
  | setDepth j =>
      refine ⟨fun _ h => Finset.mem_insert_of_mem h, ?_, ?_, fun _ h => Or.inl h,
        fun _ h => Or.inl h, fun _ h _ => h, fun _ h _ => h, fun _ h _ => Or.inl h, hbelow⟩
      · exact fun d hbusy hplain =>
          hbusy ⟨hplain.1, fun h => hplain.2 (Finset.mem_insert_of_mem h)⟩
      · intro d hplain
        refine Or.inl ⟨hplain.1, fun h => ?_⟩
        rcases Finset.mem_insert.mp h with rfl | h
        · exact hat.1.busy hplain
        · exact hplain.2 h
  | mark p =>
      refine ⟨fun _ h => h, ?_, ?_, ?_, fun _ h => Or.inl (Finset.mem_insert_of_mem h),
        fun _ h _ => h, fun _ h _ => h, fun _ h _ => Or.inl h, hbelow⟩
      · exact fun d hbusy hplain =>
          hbusy ⟨fun h => hplain.1 (Finset.mem_insert_of_mem h), hplain.2⟩
      · intro d hplain
        by_cases heq : p.dir = d
        · exact Or.inr ⟨p, rfl, heq⟩
        · exact Or.inl ⟨by simpa [Ne.symm heq] using hplain.1, hplain.2⟩
      · intro d hd
        by_cases heq : p.dir = d
        · exact Or.inr ⟨p, rfl, heq⟩
        · exact Or.inl (by simpa [Ne.symm heq] using hd)
  | clearMarker j =>
      refine ⟨fun _ h => h, ?_, ?_, fun _ h => Or.inl fun hm => h (Finset.mem_erase.mp hm).2, ?_,
        fun _ h _ => h, fun _ h _ => h, fun _ h _ => Or.inl h, hbelow⟩
      · -- its depth keeps the directory from being plain
        intro d hbusy hplain
        refine hbusy ⟨fun hm => hplain.1 (Finset.mem_erase.mpr ⟨?_, hm⟩), hplain.2⟩
        rintro rfl
        exact hplain.2 hat.2
      · exact fun d hplain => Or.inl ⟨fun hm => hplain.1 (Finset.mem_erase.mp hm).2, hplain.2⟩
      · intro d hd
        by_cases heq : j.spot.dir = d
        · exact Or.inr ⟨j, rfl, heq⟩
        · exact Or.inl (Finset.mem_erase.mpr ⟨Ne.symm heq, hd⟩)

theorem Reached.shift {p : Spot} (h : Reached k p) (hs : Shift k pc k') : Reached k' p :=
  ⟨h.length, fun hne => hs.depth _ (h.above hne)⟩

theorem Working.shift {j : Job} (h : Working k j) (hs : Shift k pc k') : Working k' j :=
  ⟨h.reached.shift hs, hs.busy _ h.busy, fun hr => hs.below _ _ (h.copied hr)⟩

theorem Pending.shift {j : Job} {names : List Hex} (h : Pending k j names) (hw : Working k j)
    (hs : Shift k pc k') : Pending k' j names := by
  intro q hq hdir
  exact h q (hs.fresh q hq (by rw [hdir]; exact hw.busy)) hdir

/-- A file of a plain directory or its copy further down stays one of the two. -/
theorem Shift.either {p : Spot} (hs : Shift k pc k') (hplain : k.Plain p.sub.dir)
    (h : p ∈ k.files ∨ p.sub ∈ k.files) : p ∈ k'.files ∨ p.sub ∈ k'.files := by
  rcases h with h | h
  · exact hs.moved p h hplain
  · exact Or.inr (hs.stays _ h hplain)

/-- **`At.shift`** — what a thread relies on survives a call of another, if that call places no marker
it is inside of and removes none it is unsure about. -/
theorem At.shift {mine : Pc} (hat : At k mine) (hs : Shift k pc k')
    (hmark : ∀ p, pc = .mark p → ¬ Inside p.dir mine)
    (hclear : ∀ j, pc = .clearMarker j → ¬ Unsure j.spot.dir mine) : At k' mine := by
  have hplain : ∀ d, Inside d mine → k.Plain d → k'.Plain d := by
    intro d hin hd
    rcases hs.plain d hd with h | ⟨p, hp, rfl⟩
    · exact h
    · exact absurd hin (hmark p hp)
  cases mine with
  | idle => trivial
  | findDepth p due => exact ⟨hat.1.shift hs, fun hdue => hs.below _ _ (hat.2 hdue)⟩
  | findMarker p due deep =>
      cases deep with
      | true => exact ⟨hat.1.shift hs, hs.depth _ hat.2.1, fun hdue => hs.below _ _ (hat.2.2 hdue)⟩
      | false =>
          refine ⟨hat.1.shift hs, fun hdue => ?_⟩
          obtain ⟨hsub, hseen⟩ := hat.2 hdue
          refine ⟨hplain _ (.findMarker p due (Or.inr rfl)) hsub, ?_⟩
          rcases hseen with ⟨hdir, hfile⟩ | ⟨hm, hfile⟩
          · exact Or.inl ⟨hplain _ (.findMarker p due (Or.inl rfl)) hdir, hs.stays _ hfile hdir⟩
          · rcases hs.marker _ hm with h | ⟨j, hj, hdir⟩
            · exact Or.inr ⟨h, hs.either hsub hfile⟩
            · exact absurd (.findMarker p due hdir.symm) (hclear j hj)
  | findFlat p due migrating =>
      cases migrating with
      | true =>
          refine ⟨hat.1.shift hs, fun hdue => ?_⟩
          obtain ⟨hsub, hfile⟩ := hat.2 hdue
          exact ⟨hplain _ (.findBoth p due rfl) hsub, hs.either hsub hfile⟩
      | false =>
          refine ⟨hat.1.shift hs, fun hdue => ?_⟩
          obtain ⟨hdir, hfile⟩ := hat.2 hdue
          exact ⟨hplain _ (.findFlat p due rfl) hdir, hs.stays _ hfile hdir⟩
  | findSub p due =>
      refine ⟨hat.1.shift hs, fun hdue => ?_⟩
      obtain ⟨hsub, hfile⟩ := hat.2 hdue
      exact ⟨hplain _ (.findSub p due rfl) hsub, hs.stays _ hfile hsub⟩
  | testMarker p => exact Reached.shift hat hs
  | lockResume p => exact ⟨hat.1.shift hs, hs.busy _ hat.2⟩
  | retestMarker p => exact ⟨hat.1.shift hs, hs.busy _ hat.2⟩
  | readDepth p =>
      refine ⟨hat.1.shift hs, ?_⟩
      rcases hat.2 with h | h
      · rcases hs.unmarked _ h with h | ⟨q, hq, hdir⟩
        · exact Or.inl h
        · exact absurd (.readDepth p hdir.symm) (hmark q hq)
      · exact Or.inr (hs.depth _ h)
  | testFlat p => exact ⟨hat.1.shift hs, hplain _ (.testFlat p rfl) hat.2⟩
  | persist p => exact ⟨hat.1.shift hs, hplain _ (.persist p rfl) hat.2⟩
  | count p => exact ⟨hat.1.shift hs, hs.below _ _ hat.2⟩
  | lockStart p => exact ⟨hat.1.shift hs, hs.below _ _ hat.2.1, hat.2.2⟩
  | testStart p => exact ⟨hat.1.shift hs, hs.below _ _ hat.2.1, hat.2.2⟩
  | mark p => exact ⟨hat.1.shift hs, hs.below _ _ hat.2.1, hat.2.2⟩
  | list j => exact Working.shift hat hs
  | isFile j name rest => exact ⟨hat.1.shift hs, hat.2.shift hat.1 hs⟩
  | testNew j name rest => exact ⟨hat.1.shift hs, hat.2.1.shift hat.1 hs, hat.2.2⟩
  | rename j name rest => exact ⟨hat.1.shift hs, hat.2.1.shift hat.1 hs, hat.2.2⟩
  | remove j name rest =>
      refine ⟨hat.1.shift hs, hat.2.1.shift hat.1 hs, ?_⟩
      by_cases hp : k.Plain (Spot.sub ⟨j.spot.dir, name⟩).dir
      · rcases hat.2.2 with h | h
        · exact Or.inl (hs.stays _ h hp)
        · exact absurd hp h
      · exact Or.inr (hs.busy _ hp)
  | setDepth j => exact ⟨hat.1.shift hs, hat.2.shift hat.1 hs⟩
  | clearMarker j => exact ⟨hat.1.shift hs, hs.depth _ hat.2⟩
  | unlock j => exact ⟨hat.1.shift hs, hs.depth _ hat.2⟩

/-! ## A thread's own step -/

theorem Disk.mem_namesIn {dir name : Hex} : name ∈ k.namesIn dir ↔ (⟨dir, name⟩ : Spot) ∈ k.files := by
  unfold Disk.namesIn
  rw [Finset.mem_image]
  constructor
  · rintro ⟨⟨d, x⟩, hq, rfl⟩
    obtain ⟨hmem, rfl⟩ := Finset.mem_filter.mp hq
    exact hmem
  · intro h
    exact ⟨⟨dir, name⟩, Finset.mem_filter.mpr ⟨h, rfl⟩, rfl⟩

/-- A directory of names of one byte stays below the threshold. -/
theorem Disk.Sound.countObjects_le (hk : k.Sound) {dir : Hex} (hdir : dir.length = 31) :
    k.countObjects dir ≤ 256 := by
  have hone : ∀ name ∈ k.namesIn dir, name.length = 1 := by
    intro name hname
    have hlen := hk.length _ (Disk.mem_namesIn.mp hname)
    rw [Spot.bytes, List.length_append] at hlen
    simp only at hlen
    omega
  have hle : k.countObjects dir ≤ (Finset.range 256).card := by
    apply Finset.card_le_card_of_injOn fun name : Hex => (name.headD 0).toNat
    · exact fun name _ => Finset.mem_coe.mpr (Finset.mem_range.mpr (UInt8.toNat_lt _))
    · intro a ha b hb hab
      obtain ⟨x, rfl⟩ := List.length_eq_one_iff.mp (hone a ha)
      obtain ⟨y, rfl⟩ := List.length_eq_one_iff.mp (hone b hb)
      exact congrArg (fun b => [b]) (UInt8.toNat_inj.mp hab)
  rwa [Finset.card_range] at hle

/-- A walk along the depths does not come to the end of a hash. -/
theorem Reached.hex_ne (hk : k.Sound) {p : Spot} (h : Reached k p) : p.hex ≠ [] := by
  intro hnil
  have hlen := h.length
  rw [Spot.bytes, hnil, List.append_nil] at hlen
  have hne : p.dir ≠ [] := List.length_pos_iff.mp (by omega)
  have hshort := hk.short _ (Disk.not_plain_of_depth (h.above hne))
  rw [List.length_dropLast] at hshort
  omega

theorem Reached.sub (hk : k.Sound) {p : Spot} (h : Reached k p) (hd : p.dir ∈ k.depth) :
    Reached k p.sub := by
  refine ⟨by rw [p.bytes_sub]; exact h.length, fun _ => ?_⟩
  rw [(dropLast_sub (h.hex_ne hk)).1]
  exact hd

theorem Effect.sound (hk : k.Sound) (hat : At k pc) (he : Effect k pc k') : k'.Sound := by
  cases he with
  | none => exact hk
  | persist p =>
      obtain ⟨hr, hplain⟩ := hat
      refine ⟨?_, ?_, ?_, hk.parentOfDir, hk.short⟩
      · exact Finset.forall_mem_insert .. |>.mpr ⟨hr.length, hk.length⟩
      · exact Finset.forall_mem_insert .. |>.mpr ⟨hplain.2, hk.emptied⟩
      · exact Finset.forall_mem_insert .. |>.mpr
          ⟨fun hne => Disk.not_plain_of_depth (hr.above hne), hk.parentOfFile⟩
  | rename j name rest =>
      obtain ⟨hw, _, hname⟩ := hat
      unfold Disk.rename
      split_ifs with hfile
      · obtain ⟨hdrop, hne⟩ := @dropLast_sub ⟨j.spot.dir, name⟩ hname
        have hplain := @Disk.Sound.plain_sub k hk ⟨j.spot.dir, name⟩ hname (hk.emptied _ hfile)
        refine ⟨?_, ?_, ?_, hk.parentOfDir, hk.short⟩
        · refine Finset.forall_mem_insert .. |>.mpr ⟨?_, fun q hq => hk.length q (Finset.mem_erase.mp hq).2⟩
          rw [Spot.bytes_sub]
          exact hk.length _ hfile
        · exact Finset.forall_mem_insert .. |>.mpr
            ⟨hplain.2, fun q hq => hk.emptied q (Finset.mem_erase.mp hq).2⟩
        · refine Finset.forall_mem_insert .. |>.mpr
            ⟨fun _ => ?_, fun q hq => hk.parentOfFile q (Finset.mem_erase.mp hq).2⟩
          show ¬ k.Plain _
          rw [hdrop]
          exact hw.busy
      · exact hk
  | remove j name rest =>
      exact ⟨fun q hq => hk.length q (Finset.mem_erase.mp hq).2,
        fun q hq => hk.emptied q (Finset.mem_erase.mp hq).2,
        fun q hq => hk.parentOfFile q (Finset.mem_erase.mp hq).2, hk.parentOfDir, hk.short⟩
  | setDepth j =>
      obtain ⟨hw, hpending⟩ := hat
      have hbusy : ∀ d, ¬ Disk.Plain { k with depth := insert j.spot.dir k.depth } d → ¬ k.Plain d := by
        intro d hd hp
        refine hd ⟨hp.1, fun h => ?_⟩
        rcases Finset.mem_insert.mp h with rfl | h
        · exact hw.busy hp
        · exact hp.2 h
      refine ⟨hk.length, ?_, ?_, ?_, fun d hd => hk.short d (hbusy d hd)⟩
      · intro q hq hd
        rcases Finset.mem_insert.mp hd with h | h
        · cases hpending q hq h
        · exact hk.emptied q hq h
      · exact fun q hq hne hp => hk.parentOfFile q hq hne
          ⟨hp.1, fun h => hp.2 (Finset.mem_insert_of_mem h)⟩
      · exact fun d hd hne => Finset.mem_insert_of_mem (hk.parentOfDir d (hbusy d hd) hne)
  | mark p =>
      obtain ⟨hr, _, hlen⟩ := hat
      have hbusy : ∀ d, ¬ Disk.Plain { k with migrating := insert p.dir k.migrating } d →
          d = p.dir ∨ ¬ k.Plain d := by
        intro d hd
        by_cases heq : d = p.dir
        · exact Or.inl heq
        · refine Or.inr fun hp => hd ⟨fun h => ?_, hp.2⟩
          rcases Finset.mem_insert.mp h with h | h
          · exact heq h
          · exact hp.1 h
      refine ⟨hk.length, hk.emptied, ?_, ?_, ?_⟩
      · exact fun q hq hne hp => hk.parentOfFile q hq hne
          ⟨fun h => hp.1 (Finset.mem_insert_of_mem h), hp.2⟩
      · intro d hd hne
        rcases hbusy d hd with rfl | h
        · exact hr.above hne
        · exact hk.parentOfDir d h hne
      · intro d hd
        rcases hbusy d hd with rfl | h
        · exact hlen
        · exact hk.short d h
  | clearMarker j =>
      have hbusy : ∀ d, Disk.Plain { k with migrating := k.migrating.erase j.spot.dir } d →
          k.Plain d := by
        intro d hd
        refine ⟨fun hm => hd.1 (Finset.mem_erase.mpr ⟨?_, hm⟩), hd.2⟩
        rintro rfl
        exact hd.2 hat.2
      refine ⟨hk.length, hk.emptied, ?_, ?_, ?_⟩
      · exact fun q hq hne hp => hk.parentOfFile q hq hne (hbusy _ hp)
      · exact fun d hd hne => hk.parentOfDir d
          (fun hp => hd ⟨fun h => hp.1 (Finset.mem_erase.mp h).2, hp.2⟩) hne
      · exact fun d hd => hk.short d
          (fun hp => hd ⟨fun h => hp.1 (Finset.mem_erase.mp h).2, hp.2⟩)

theorem entry_at {j : Job} {rest : List Hex} (hw : Working k j) (hp : Pending k j rest) :
    At k (.entry j rest) := by
  cases rest with
  | nil => exact ⟨hw, hp⟩
  | cons name rest => exact ⟨hw, hp⟩

/-- An entry that is no file any more is off the list. -/
theorem Pending.tail {j : Job} {name : Hex} {rest : List Hex} (hp : Pending k j (name :: rest))
    (hgone : (⟨j.spot.dir, name⟩ : Spot) ∉ k.files) : Pending k j rest := by
  intro q hq hdir
  rcases List.mem_cons.mp (hp q hq hdir) with h | h
  · refine absurd ?_ hgone
    have heq : q = ⟨j.spot.dir, name⟩ := by rw [← hdir, ← h]
    exact heq ▸ hq
  · exact h

theorem next_at (hk : s.disk.Sound) (hg : Guarded s.disk pc) (hat : At s.disk pc)
    (h : next proc s listing pc = some (s', pc')) : At s'.disk pc' := by
  have hshift := shift_of_effect hk hat hg (next_effect h)
  cases pc with
  | idle => cases h
  | findDepth p due =>
      cases h
      by_cases hd : p.dir ∈ s.disk.depth
      · rw [decide_eq_true hd]
        exact ⟨hat.1, hd, hat.2⟩
      · rw [decide_eq_false hd]
        exact ⟨hat.1, fun hdue => ⟨hk.plain_sub (hat.1.hex_ne hk) hd,
          hk.copy_seen (hat.2 hdue) hat.1.above hd⟩⟩
  | findMarker p due deep =>
      cases deep with
      | true =>
          simp only [next, if_true] at h
          split_ifs at h with hnil
          · cases h
            trivial
          · cases h
            refine ⟨hat.1.sub hk hat.2.1, fun hdue => ?_⟩
            rw [p.bytes_sub]
            exact hat.2.2 hdue
      | false =>
          simp only [next, Bool.false_eq_true, if_false] at h
          cases h
          by_cases hm : p.dir ∈ s.disk.migrating
          · rw [decide_eq_true hm]
            refine ⟨hat.1, fun hdue => ⟨(hat.2 hdue).1, ?_⟩⟩
            rcases (hat.2 hdue).2 with ⟨_, hfile⟩ | ⟨_, hfile⟩
            · exact Or.inl hfile
            · exact hfile
          · rw [decide_eq_false hm]
            refine ⟨hat.1, fun hdue => ?_⟩
            rcases (hat.2 hdue).2 with hfile | ⟨hm', _⟩
            · exact hfile
            · exact absurd hm' hm
  | findFlat p due migrating =>
      simp only [next] at h
      split_ifs at h with hfile hm
      · cases h
        trivial
      · cases h
        rw [hm.1] at hat
        refine ⟨hat.1, fun hdue => ⟨(hat.2 hdue).1, ?_⟩⟩
        rcases (hat.2 hdue).2 with h | h
        · exact absurd h hfile
        · exact h
      · cases h
        trivial
  | findSub p due => cases h; trivial
  | testMarker p =>
      cases h
      split_ifs with hm
      · exact ⟨hat, Disk.not_plain_of_marker hm⟩
      · exact ⟨hat, Or.inl hm⟩
  | lockResume p =>
      simp only [next] at h
      split_ifs at h
      cases h
      exact hat
  | retestMarker p =>
      cases h
      split_ifs with hm
      · exact ⟨hat.1, hat.2, by simp⟩
      · -- a marker that was there is only gone once the depth is written
        have hd : p.dir ∈ s.disk.depth := by
          by_contra hd
          exact hm (Disk.marker_of_not_plain hat.2 hd)
        exact ⟨⟨hat.1, hat.2, by simp⟩, hd⟩
  | readDepth p =>
      simp only [next] at h
      split_ifs at h with hd hnil
      · cases h
        trivial
      · cases h
        exact hat.1.sub hk hd
      · cases h
        refine ⟨hat.1, ?_, hd⟩
        rcases hat.2 with h | h
        · exact h
        · exact absurd h hd
  | testFlat p =>
      simp only [next] at h
      split_ifs at h
      · cases h
        trivial
      · cases h
        exact hat
  | persist p =>
      cases h
      exact ⟨hat.1.shift hshift, p, Finset.mem_insert_self .., rfl, Nat.zero_le _⟩
  | count p =>
      simp only [next] at h
      split_ifs at h with hfull
      · cases h
        refine ⟨hat.1, hat.2, ?_⟩
        by_contra hlen
        have hsum := hat.1.length
        have hpos := List.length_pos_iff.mpr hfull.1
        rw [Spot.bytes, List.length_append] at hsum
        have hle : s.disk.countObjects p.dir ≤ 256 := hk.countObjects_le (by omega)
        have hgt := hfull.2
        unfold threshold at hgt
        omega
      · cases h
        trivial
  | lockStart p =>
      simp only [next] at h
      split_ifs at h
      cases h
      exact hat
  | testStart p =>
      cases h
      split_ifs with hm
      · exact ⟨hat.1, Disk.not_plain_of_marker hm, fun _ => hat.2.1⟩
      · exact hat
  | mark p =>
      cases h
      exact ⟨hat.1.shift hshift, Disk.not_plain_of_marker (Finset.mem_insert_self ..),
        fun _ => hshift.below _ _ hat.2.1⟩
  | list j =>
      simp only [next] at h
      split_ifs at h with hlist
      cases h
      refine entry_at hat fun q hq hdir => ?_
      rw [← List.mem_toFinset, hlist, Disk.mem_namesIn, ← hdir]
      exact hq
  | isFile j name rest =>
      cases h
      split_ifs with hfile
      · exact ⟨hat.1, hat.2, hfile.1⟩
      · refine entry_at hat.1 (hat.2.tail fun hmem => hfile ⟨?_, hmem⟩)
        exact hat.1.hex_ne hk hmem rfl
  | testNew j name rest =>
      cases h
      split_ifs with hnew
      · exact ⟨hat.1, hat.2.1, Or.inl hnew⟩
      · exact hat
  | rename j name rest =>
      cases h
      refine entry_at (hat.1.shift hshift) ((hat.2.1.shift hat.1 hshift).tail ?_)
      dsimp only
      unfold Disk.rename
      split_ifs with hfile
      · intro hmem
        rcases Finset.mem_insert.mp hmem with heq | hmem
        · have hlen := Spot.length_sub (q := ⟨j.spot.dir, name⟩) hat.2.2
          rw [← heq] at hlen
          omega
        · exact (Finset.mem_erase.mp hmem).1 rfl
      · exact hfile
  | remove j name rest =>
      cases h
      exact entry_at (hat.1.shift hshift) ((hat.2.1.shift hat.1 hshift).tail
        fun hmem => (Finset.mem_erase.mp hmem).1 rfl)
  | setDepth j =>
      cases h
      exact ⟨hat.1.shift hshift, Finset.mem_insert_self ..⟩
  | clearMarker j =>
      cases h
      exact ⟨hat.1.shift hshift, hat.2⟩
  | unlock j =>
      simp only [next] at h
      split_ifs at h
      · cases h
        exact ⟨hat.1.reached, Or.inr hat.2⟩
      · cases h
        trivial

/-! ## What is recorded -/

/-- A search for a stored object has found it. -/
def Answer.Good (k : Disk) (a : Answer) : Prop :=
  a.due = true → ∃ q, a.path = some q ∧ q ∈ k.files ∧ q.bytes = a.hash

theorem next_stored (hat : At s.disk pc) (h : next proc s listing pc = some (s', pc')) :
    ∀ x ∈ s'.stored, x ∈ s.stored ∨ s.disk.Below x 0 := by
  have hwrote : ∀ (r : Shared) (p : Spot), r.stored = s.stored → s.disk.Below p.bytes 0 →
      ∀ x ∈ (r.wrote p).stored, x ∈ s.stored ∨ s.disk.Below x 0 := by
    intro r p hr hb x hx
    rcases Finset.mem_insert.mp hx with rfl | hx
    · exact Or.inr hb
    · exact Or.inl (hr ▸ hx)
  cases pc with
  | testFlat p =>
      simp only [next] at h
      split_ifs at h with hfile
      · cases h
        exact hwrote _ _ rfl ⟨p, hfile, rfl, Nat.zero_le _⟩
      · cases h
        exact fun x hx => Or.inl hx
  | count p =>
      simp only [next] at h
      split_ifs at h
      · cases h
        exact fun x hx => Or.inl hx
      · cases h
        exact hwrote _ _ rfl hat.2
  | unlock j =>
      simp only [next] at h
      split_ifs at h with hr
      · cases h
        exact fun x hx => Or.inl hx
      · cases h
        exact hwrote _ _ rfl (hat.1.copied (Bool.eq_false_iff.mpr hr))
  | idle => cases h
  | _ =>
      simp only [next] at h
      (try split_ifs at h) <;> cases h <;> exact fun x hx => Or.inl hx

theorem next_answers (hk : s.disk.Sound) (hat : At s.disk pc)
    (h : next proc s listing pc = some (s', pc')) :
    s'.answers = s.answers ∨ ∃ a, s'.answers = a :: s.answers ∧ a.Good s.disk := by
  cases pc with
  | findMarker p due deep =>
      simp only [next] at h
      split_ifs at h with hdeep hnil
      · exact absurd hnil (by
          cases deep with
          | true => exact hat.1.hex_ne hk
          | false => cases hdeep)
      · cases h
        exact Or.inl rfl
      · cases h
        exact Or.inl rfl
  | findFlat p due migrating =>
      simp only [next] at h
      split_ifs at h with hfile hm
      · cases h
        exact Or.inr ⟨_, rfl, fun _ => ⟨p, rfl, hfile, rfl⟩⟩
      · cases h
        exact Or.inl rfl
      · cases h
        refine Or.inr ⟨_, rfl, fun hdue => ?_⟩
        cases migrating with
        | true => exact absurd ⟨rfl, hat.1.hex_ne hk⟩ hm
        | false => exact absurd (hat.2 hdue).2 hfile
  | findSub p due =>
      cases h
      refine Or.inr ⟨_, rfl, fun hdue => ⟨p.sub, ?_, (hat.2 hdue).2, p.bytes_sub⟩⟩
      exact if_pos (hat.2 hdue).2
  | idle => cases h
  | _ =>
      simp only [next] at h
      (try split_ifs at h) <;> cases h <;> exact Or.inl rfl

/-! ## Runs -/

/-- No marker is placed where somebody is inside, nor removed where somebody is unsure. -/
def Calm (s : State) : Event → Prop
  | .go t _ =>
      (∀ p, s.pcs t = .mark p → ∀ u, u ≠ t → ¬ Inside p.dir (s.pcs u)) ∧
        ∀ j, s.pcs t = .clearMarker j → ∀ u, u ≠ t → ¬ Unsure j.spot.dir (s.pcs u)
  | _ => True

/-- A step that is calm. -/
def CalmSteps (procOf : Nat → Nat) (s : State) (e : Event) (s' : State) : Prop :=
  Calm s e ∧ Steps procOf s e s'

structure Inv (s : State) : Prop where
  sound : s.shared.disk.Sound
  guarded : ∀ t, Guarded s.shared.disk (s.pcs t)
  places : ∀ t, At s.shared.disk (s.pcs t)
  stored : ∀ h ∈ s.shared.stored, s.shared.disk.Below h 0

theorem start_inv : Inv start := by
  refine ⟨⟨?_, ?_, ?_, ?_, ?_⟩, fun t => ⟨?_, ?_⟩, fun t => trivial, ?_⟩
  all_goals simp [start, Disk.Plain]

theorem abandon_eq (proc : Nat) (s : Shared) (pc : Pc) :
    (abandon proc s pc).disk = s.disk ∧ (abandon proc s pc).stored = s.stored ∧
      (abandon proc s pc).answers = s.answers := by
  cases pc <;> exact ⟨rfl, rfl, rfl⟩

theorem forall_update {P : Pc → Prop} {pcs : Nat → Pc} {t : Nat} (hself : P pc)
    (hothers : ∀ u, u ≠ t → P (pcs u)) : ∀ u, P (Function.update pcs t pc u) := by
  intro u
  by_cases hu : u = t
  · subst hu
    rwa [Function.update_self]
  · rw [Function.update_of_ne hu]
    exact hothers u hu

theorem guarded_idle : Guarded k .idle := ⟨by simp, by simp⟩

variable {procOf : Nat → Nat} {r r' : State} {e : Event}

/-- A step is a thread's call, or leaves the disk and the records as they are. -/
theorem step_cases (h : Steps procOf r e r') :
    (∃ t listing sh pc, e = .go t listing ∧
      next (procOf t) r.shared listing (r.pcs t) = some (sh, pc) ∧
      r' = ⟨sh, Function.update r.pcs t pc⟩) ∨
    r'.shared.disk = r.shared.disk ∧ r'.shared.stored = r.shared.stored ∧
      r'.shared.answers = r.shared.answers ∧
      ∀ u, r'.pcs u = r.pcs u ∨ r'.pcs u = .idle ∨
        ∃ h, r'.pcs u = .testMarker (Spot.root h) ∨
          r'.pcs u = .findDepth (Spot.root h) (decide (h.toBytes ∈ r.shared.stored)) := by
  have hupdate : ∀ (pcs : Nat → Pc) (t : Nat) (pc : Pc) (u : Nat),
      Function.update pcs t pc u = pcs u ∨ Function.update pcs t pc u = pc := by
    intro pcs t pc u
    by_cases hu : u = t
    · subst hu
      exact Or.inr (Function.update_self ..)
    · exact Or.inl (Function.update_of_ne hu ..)
  unfold Steps at h
  cases e with
  | write t x =>
      simp only [step] at h
      split_ifs at h
      cases h
      refine Or.inr ⟨rfl, rfl, rfl, fun u => ?_⟩
      rcases hupdate r.pcs t (.testMarker (Spot.root x)) u with h | h
      · exact Or.inl h
      · exact Or.inr (Or.inr ⟨x, Or.inl h⟩)
  | find t x =>
      simp only [step] at h
      split_ifs at h
      cases h
      refine Or.inr ⟨rfl, rfl, rfl, fun u => ?_⟩
      rcases hupdate r.pcs t
        (.findDepth (Spot.root x) (decide (x.toBytes ∈ r.shared.stored))) u with h | h
      · exact Or.inl h
      · exact Or.inr (Or.inr ⟨x, Or.inr h⟩)
  | go t listing =>
      obtain ⟨⟨sh, pc⟩, hnext, rfl⟩ := Option.map_eq_some_iff.mp h
      exact Or.inl ⟨t, listing, sh, pc, rfl, hnext, rfl⟩
  | fail t =>
      simp only [step] at h
      split_ifs at h
      cases h
      obtain ⟨hdisk, hstored, hanswers⟩ := abandon_eq (procOf t) r.shared (r.pcs t)
      refine Or.inr ⟨hdisk, hstored, hanswers, fun u => ?_⟩
      rcases hupdate r.pcs t .idle u with h | h
      · exact Or.inl h
      · exact Or.inr (Or.inl h)
  | crash proc =>
      cases h
      refine Or.inr ⟨rfl, rfl, rfl, fun u => ?_⟩
      dsimp only
      split_ifs
      · exact Or.inr (Or.inl rfl)
      · exact Or.inl rfl

/-- Every thread about to remove a flat copy has seen a deeper one. -/
def AllGuarded (r : State) : Prop := ∀ t, Guarded r.shared.disk (r.pcs t)

theorem Guarded.keep (hg : Guarded k pc) (hb : ∀ h n, k.Below h n → k'.Below h n) : Guarded k' pc :=
  ⟨hg.named, fun j name rest heq => hb _ _ (hg.copied j name rest heq)⟩

/-- **`step_below`** — in any state where the removals are guarded, no step removes the last copy of an
object, and they stay guarded. -/
theorem step_below (hg : AllGuarded r) (h : Steps procOf r e r') :
    AllGuarded r' ∧ ∀ x n, r.shared.disk.Below x n → r'.shared.disk.Below x n := by
  rcases step_cases h with ⟨t, listing, sh, pc, rfl, hnext, rfl⟩ | ⟨hdisk, _, _, hpcs⟩
  · have hb : ∀ x n, r.shared.disk.Below x n → sh.disk.Below x n := fun x n hx =>
      (next_effect hnext).below (hg t) hx
    exact ⟨forall_update (next_guarded (hg t) hnext) fun u _ => (hg u).keep hb, hb⟩
  · refine ⟨fun u => ?_, fun x n hx => hdisk ▸ hx⟩
    rw [hdisk]
    rcases hpcs u with h | h | ⟨x, h | h⟩
    · rw [h]
      exact hg u
    · rw [h]
      exact guarded_idle
    · rw [h]
      exact ⟨by simp, by simp⟩
    · rw [h]
      exact ⟨by simp, by simp⟩

theorem Spot.bytes_root (h : Hash) : (Spot.root h).bytes = h.toBytes := List.nil_append _

theorem reached_root (k : Disk) (h : Hash) : Reached k (Spot.root h) := by
  refine ⟨?_, fun hne => absurd rfl hne⟩
  rw [Spot.bytes_root]
  exact Hash.length_toBytes h

theorem step_inv (hi : Inv r) (h : CalmSteps procOf r e r') : Inv r' := by
  obtain ⟨hcalm, h⟩ := h
  obtain ⟨hguarded, hb⟩ := step_below hi.guarded h
  rcases step_cases h with ⟨t, listing, sh, pc, rfl, hnext, rfl⟩ | ⟨hdisk, hstored, _, hpcs⟩
  · have heffect := next_effect hnext
    have hshift := shift_of_effect hi.sound (hi.places t) (hi.guarded t) heffect
    refine ⟨heffect.sound hi.sound (hi.places t), hguarded, ?_, ?_⟩
    · apply forall_update (next_at hi.sound (hi.guarded t) (hi.places t) hnext)
      intro u hu
      exact (hi.places u).shift hshift (fun p hp => hcalm.1 p hp u hu) fun j hj => hcalm.2 j hj u hu
    · intro x hx
      rcases next_stored (hi.places t) hnext x hx with hx | hx
      · exact hb _ _ (hi.stored x hx)
      · exact hb _ _ hx
  · refine ⟨hdisk ▸ hi.sound, hguarded, fun u => ?_, ?_⟩
    · rw [hdisk]
      rcases hpcs u with h | h | ⟨x, h | h⟩
      · rw [h]
        exact hi.places u
      · rw [h]
        trivial
      · rw [h]
        exact reached_root _ x
      · rw [h]
        refine ⟨reached_root _ x, fun hdue => ?_⟩
        rw [Spot.bytes_root]
        exact hi.stored _ (of_decide_eq_true hdue)
    · rw [hdisk, hstored]
      exact hi.stored

theorem inv_of_run {es : List Event} (hrun : Run (CalmSteps procOf) start es r) : Inv r :=
  hrun.invariant start_inv fun _ _ _ _ hstep hi => step_inv hi hstep

/-- How far a search is from its end. -/
def Pc.searchRank : Pc → Option Nat
  | .findDepth p _ => some (4 * p.hex.length + 3)
  | .findMarker p _ _ => some (4 * p.hex.length + 2)
  | .findFlat p _ _ => some (4 * p.hex.length + 1)
  | .findSub p _ => some (4 * p.hex.length)
  | _ => none

/-- A search is never blocked, and each of its calls takes it nearer to its end. -/
theorem search_ends (proc : Nat) (s : Shared) {n : Nat} (h : pc.searchRank = some n) :
    ∃ s' pc', next proc s [] pc = some (s', pc') ∧
      (pc' = .idle ∨ ∃ m < n, pc'.searchRank = some m) := by
  cases pc with
  | findDepth p due =>
      cases h
      exact ⟨_, _, rfl, Or.inr ⟨_, Nat.lt_succ_self _, rfl⟩⟩
  | findMarker p due deep =>
      cases h
      simp only [next]
      split_ifs with hdeep hnil
      · exact ⟨_, _, rfl, Or.inl rfl⟩
      · refine ⟨_, _, rfl, Or.inr ⟨_, ?_, rfl⟩⟩
        have hpos := List.length_pos_iff.mpr hnil
        unfold Spot.sub
        rw [List.length_drop]
        omega
      · exact ⟨_, _, rfl, Or.inr ⟨_, Nat.lt_succ_self _, rfl⟩⟩
  | findFlat p due migrating =>
      cases h
      simp only [next]
      split_ifs
      · exact ⟨_, _, rfl, Or.inl rfl⟩
      · exact ⟨_, _, rfl, Or.inr ⟨_, Nat.lt_succ_self _, rfl⟩⟩
      · exact ⟨_, _, rfl, Or.inl rfl⟩
  | findSub p due =>
      exact ⟨_, _, rfl, Or.inl rfl⟩
  | _ => cases h

/-- **`calm_keeps_objects`** — in any run, no step removes the last copy of an object.  In a run of calm
steps every stored object has a copy, and a search that began when its object was stored returns a file
of it; and no search is ever kept from its end. -/
theorem calm_keeps_objects (procOf : Nat → Nat) :
    (∀ es r e r', Run (Steps procOf) start es r → Steps procOf r e r' →
      ∀ h n, r.shared.disk.Below h n → r'.shared.disk.Below h n) ∧
    (∀ es r, Run (CalmSteps procOf) start es r →
      (∀ h ∈ r.shared.stored, r.shared.disk.Below h 0) ∧
      ∀ e r', CalmSteps procOf r e r' → r'.shared.answers = r.shared.answers ∨
        ∃ a, r'.shared.answers = a :: r.shared.answers ∧ a.Good r.shared.disk) ∧
    ∀ r t n, (r.pcs t).searchRank = some n → ∃ r', Steps procOf r (.go t []) r' ∧
      (r'.pcs t = .idle ∨ ∃ m < n, (r'.pcs t).searchRank = some m) := by
  refine ⟨?_, ?_, ?_⟩
  · intro es r e r' hrun hstep
    have hg : AllGuarded r := hrun.invariant (fun _ => guarded_idle)
      fun _ _ _ _ hab ha => (step_below ha hab).1
    exact (step_below hg hstep).2
  · intro es r hrun
    have hi := inv_of_run hrun
    refine ⟨hi.stored, fun e r' hstep => ?_⟩
    rcases step_cases hstep.2 with ⟨t, listing, sh, pc, rfl, hnext, rfl⟩ | ⟨_, _, hanswers, _⟩
    · exact next_answers hi.sound (hi.places t) hnext
    · exact Or.inl hanswers
  · intro r t n hn
    obtain ⟨s', pc', hnext, hend⟩ := search_ends (procOf t) r.shared hn
    refine ⟨⟨s', Function.update r.pcs t pc'⟩, ?_, ?_⟩
    · show step procOf r _ = _
      simp only [step, hnext]
      rfl
    · dsimp only
      rwa [Function.update_self]

end Omemfs.Store.ObjectsDir
