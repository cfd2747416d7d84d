/-
# Omemfs.Store.MigrationRace — an object that is stored and cannot be found.

A write that has read depth zero is about to rename its temporary to a flat name.  Another thread of the
same process stores one object more than the threshold allows and migrates the directory from beginning
to end.  The first write then puts its file beside the shards, where no search looks, and returns `Ok`
(`late_write_lost`).

The runs are put together from the moves of one thread: `filled` stores any number of objects up to
the threshold, and `loop_leads` takes a migration through whatever it has listed.
-/
import Omemfs.Store.Migration

namespace Omemfs.Store.ObjectsDir

open Lib

/-! ## The moves of one thread -/

def oneProcess : Nat → Nat := fun _ => 0

/-- Steps lead from one state to the other. -/
def Leads (steps : State → Event → State → Prop) (r r' : State) : Prop := ∃ es, Run steps r es r'

variable {steps : State → Event → State → Prop} {s s' : Shared} {f : Nat → Pc} {t : Nat}
  {pc pc' : Pc} {listing : List Hex}

theorem Leads.refl (r : State) : Leads steps r r := ⟨[], .nil r⟩

theorem Leads.trans {a b c : State} (hab : Leads steps a b) (hbc : Leads steps b c) :
    Leads steps a c := by
  obtain ⟨es, hes⟩ := hab
  obtain ⟨fs, hfs⟩ := hbc
  exact ⟨es ++ fs, run_append.mpr ⟨b, hes, hfs⟩⟩

theorem Leads.of_calm {r r' : State} (h : Leads (CalmSteps oneProcess) r r') :
    Leads (Steps oneProcess) r r' := by
  obtain ⟨es, hes⟩ := h
  exact ⟨es, hes.mono fun _ _ _ hstep => hstep.2⟩

theorem steps_go (h : next 0 s listing pc = some (s', pc')) :
    Steps oneProcess ⟨s, Function.update f t pc⟩ (.go t listing) ⟨s', Function.update f t pc'⟩ := by
  unfold Steps
  simp only [step, oneProcess, Function.update_self, h, Option.map_some, Function.update_idem]

/-- The thread can make its calls, whatever they are. -/
def Free (steps : State → Event → State → Prop) (f : Nat → Pc) (t : Nat) : Prop :=
  ∀ s s' pc pc' listing, next 0 s listing pc = some (s', pc') →
    steps ⟨s, Function.update f t pc⟩ (.go t listing) ⟨s', Function.update f t pc'⟩

theorem free_steps : Free (Steps oneProcess) f t := fun _ _ _ _ _ h => steps_go h

/-- Where nobody else is at work, every call is calm. -/
theorem free_calm (hothers : ∀ u, u ≠ t → f u = .idle) : Free (CalmSteps oneProcess) f t := by
  intro s s' pc pc' listing h
  have hidle : ∀ u, u ≠ t → Function.update f t pc u = .idle := by
    intro u hu
    rw [Function.update_of_ne hu]
    exact hothers u hu
  refine ⟨⟨fun p _ u hu hin => ?_, fun j _ u hu hin => ?_⟩, steps_go h⟩
  · dsimp only at hin
    rw [hidle u hu] at hin
    cases hin
  · dsimp only at hin
    rw [hidle u hu] at hin
    cases hin

theorem Free.leads (hfree : Free steps f t) (h : next 0 s listing pc = some (s', pc')) :
    Leads steps ⟨s, Function.update f t pc⟩ ⟨s', Function.update f t pc'⟩ :=
  ⟨[.go t listing], .cons (hfree _ _ _ _ _ h) (.nil _)⟩

/-- A call that neither places nor removes a marker is calm. -/
theorem calm_go (h : next 0 s listing pc = some (s', pc')) (hmark : ∀ p, pc ≠ .mark p)
    (hclear : ∀ j, pc ≠ .clearMarker j) :
    Leads (CalmSteps oneProcess) ⟨s, Function.update f t pc⟩ ⟨s', Function.update f t pc'⟩ := by
  refine ⟨[.go t listing], .cons ⟨⟨?_, ?_⟩, steps_go h⟩ (.nil _)⟩
  · intro p hp
    dsimp only at hp
    rw [Function.update_self] at hp
    exact absurd hp (hmark p)
  · intro j hj
    dsimp only at hj
    rw [Function.update_self] at hj
    exact absurd hj (hclear j)

/-- A write up to its rename, in a flat directory without the marker. -/
theorem leads_persist (h : Hash) (hdepth : [] ∉ s.disk.depth) (hmark : [] ∉ s.disk.migrating)
    (hnew : Spot.root h ∉ s.disk.files) :
    Leads (CalmSteps oneProcess) ⟨s, Function.update f t .idle⟩
      ⟨s, Function.update f t (.persist (Spot.root h))⟩ := by
  have hcall : Leads (CalmSteps oneProcess) ⟨s, Function.update f t .idle⟩
      ⟨s, Function.update f t (.testMarker (Spot.root h))⟩ := by
    refine ⟨[.write t h], .cons ⟨trivial, ?_⟩ (.nil _)⟩
    unfold Steps
    simp only [step, Function.update_self, if_true, Function.update_idem]
  have htest : next 0 s [] (.testMarker (Spot.root h)) = some (s, .readDepth (Spot.root h)) :=
    congrArg some (congrArg (Prod.mk s) (if_neg hmark))
  have hread : next 0 s [] (.readDepth (Spot.root h)) = some (s, .testFlat (Spot.root h)) :=
    if_neg hdepth
  have hflat : next 0 s [] (.testFlat (Spot.root h)) = some (s, .persist (Spot.root h)) := if_neg hnew
  exact hcall.trans ((calm_go htest (by simp) (by simp)).trans
    ((calm_go hread (by simp) (by simp)).trans (calm_go hflat (by simp) (by simp))))

/-- The disk with one file more. -/
def Shared.put (s : Shared) (p : Spot) : Shared :=
  { s with disk := { s.disk with files := insert p s.disk.files } }

theorem next_count_ok {p : Spot} (h : s.disk.countObjects p.dir ≤ threshold) :
    next 0 s [] (.count p) = some (s.wrote p, .idle) := by
  simp only [next]
  rw [if_neg]
  exact fun hfull => Nat.not_lt.mpr h hfull.2

/-- A write that ends below the threshold. -/
theorem leads_store {p : Spot} (hsmall : (s.put p).disk.countObjects p.dir ≤ threshold) :
    Leads (CalmSteps oneProcess) ⟨s, Function.update f t (.persist p)⟩
      ⟨(s.put p).wrote p, Function.update f t .idle⟩ := by
  have hpersist : next 0 s [] (.persist p) = some (s.put p, .count p) := rfl
  exact (calm_go hpersist (by simp) (by simp)).trans
    (calm_go (next_count_ok hsmall) (by simp) (by simp))

/-! ## A full directory -/

def hashNo (i : Nat) : Hash := BitVec.ofNat 256 i

theorem toBytes_hashNo_inj {i j : Nat} (hi : i < 2 ^ 256) (hj : j < 2 ^ 256)
    (h : (hashNo i).toBytes = (hashNo j).toBytes) : i = j := by
  have hhash : hashNo i = hashNo j := by
    rw [← Hash.ofBytes_toBytes (hashNo i), h, Hash.ofBytes_toBytes]
  have hnat := congrArg BitVec.toNat hhash
  rwa [hashNo, hashNo, BitVec.toNat_ofNat, BitVec.toNat_ofNat, Nat.mod_eq_of_lt hi,
    Nat.mod_eq_of_lt hj] at hnat

theorem root_hashNo_inj {i j : Nat} (hi : i < 2 ^ 256) (hj : j < 2 ^ 256)
    (h : Spot.root (hashNo i) = Spot.root (hashNo j)) : i = j := by
  rw [Spot.root, Spot.root, Spot.mk.injEq] at h
  exact toBytes_hashNo_inj hi hj h.2

/-- The first `n` hashes, all flat. -/
def flats (n : Nat) : Finset Spot := (Finset.range n).image fun i => Spot.root (hashNo i)

theorem root_notMem_flats {n i : Nat} (hn : n ≤ i) (hi : i < 2 ^ 256) :
    Spot.root (hashNo i) ∉ flats n := by
  intro hmem
  obtain ⟨j, hj, heq⟩ := Finset.mem_image.mp hmem
  have hlt := Finset.mem_range.mp hj
  have hji := root_hashNo_inj (by omega) hi heq
  omega

theorem flats_succ (n : Nat) : insert (Spot.root (hashNo n)) (flats n) = flats (n + 1) := by
  rw [flats, flats, Finset.range_add_one, Finset.image_insert]

theorem countObjects_flats {n : Nat} (hn : n < 2 ^ 256) {d m : Finset Hex} :
    (Disk.mk (flats n) d m).countObjects [] = n := by
  have hnames : (Disk.mk (flats n) d m).namesIn [] =
      (Finset.range n).image fun i => (hashNo i).toBytes := by
    ext name
    rw [Disk.mem_namesIn]
    unfold flats
    simp only [Finset.mem_image, Spot.root, Spot.mk.injEq, true_and]
  rw [Disk.countObjects, hnames, Finset.card_image_of_injOn, Finset.card_range]
  intro i hi j hj heq
  have hi := Finset.mem_range.mp (Finset.mem_coe.mp hi)
  have hj := Finset.mem_range.mp (Finset.mem_coe.mp hj)
  exact toBytes_hashNo_inj (lt_trans hi hn) (lt_trans hj hn) heq

/-- A flat directory of `n` objects, and nobody in it. -/
structure Filled (n : Nat) (r : State) : Prop where
  disk : r.shared.disk = ⟨flats n, ∅, ∅⟩
  locks : r.shared.locks = ∅
  idle : r.pcs = fun _ => .idle

/-- **`filled`** — calm steps fill the directory up to the threshold. -/
theorem filled (n : Nat) (hn : n ≤ threshold) :
    ∃ r, Leads (CalmSteps oneProcess) start r ∧ Filled n r := by
  induction n with
  | zero => exact ⟨start, Leads.refl _, rfl, rfl, rfl⟩
  | succ n ih =>
      obtain ⟨⟨s, f⟩, hrun, hdisk, hlocks, hidle⟩ := ih (by omega)
      unfold threshold at hn
      simp only at hdisk hlocks hidle
      have hbig : n < 2 ^ 256 := lt_of_lt_of_le hn (by norm_num)
      have hnew : Spot.root (hashNo n) ∉ s.disk.files := by
        rw [hdisk]
        exact root_notMem_flats (Nat.le_refl n) hbig
      have hself : f = Function.update f 0 .idle := by
        rw [hidle]
        exact (Function.update_eq_self 0 fun _ : Nat => Pc.idle).symm
      have hput : (s.put (Spot.root (hashNo n))).disk = ⟨flats (n + 1), ∅, ∅⟩ := by
        rw [Shared.put, hdisk, ← flats_succ]
      have hsmall : (s.put (Spot.root (hashNo n))).disk.countObjects [] ≤ threshold := by
        rw [hput, countObjects_flats (lt_of_le_of_lt hn (by norm_num))]
        exact hn
      have hflat := leads_persist (f := f) (t := 0) (hashNo n) (by simp [hdisk]) (by simp [hdisk])
        hnew
      rw [← hself] at hflat
      have hstore := leads_store (f := f) (t := 0) hsmall
      rw [← hself] at hstore
      exact ⟨_, hrun.trans (hflat.trans hstore), hput, hlocks, hidle⟩

/-! ## A migration to its end -/

/-- What a thread on its own can go by. -/
structure Held (s : Shared) (pc : Pc) : Prop where
  sound : s.disk.Sound
  guarded : Guarded s.disk pc
  place : At s.disk pc

theorem Held.next (hh : Held s pc) (h : next 0 s listing pc = some (s', pc')) : Held s' pc' :=
  ⟨(next_effect h).sound hh.sound hh.place, next_guarded hh.guarded h,
    next_at hh.sound hh.guarded hh.place h⟩

/-- Files have moved, and nothing else has changed. -/
structure Rearranged (s s' : Shared) : Prop where
  depth : s'.disk.depth = s.disk.depth
  migrating : s'.disk.migrating = s.disk.migrating
  objects : ∀ q ∈ s'.disk.files, ∃ p ∈ s.disk.files, p.bytes = q.bytes

theorem Rearranged.refl (s : Shared) : Rearranged s s := ⟨rfl, rfl, fun q hq => ⟨q, hq, rfl⟩⟩

theorem Rearranged.trans {a b c : Shared} (hab : Rearranged a b) (hbc : Rearranged b c) :
    Rearranged a c := by
  refine ⟨hbc.depth.trans hab.depth, hbc.migrating.trans hab.migrating, fun q hq => ?_⟩
  obtain ⟨p, hp, hpq⟩ := hbc.objects q hq
  obtain ⟨o, ho, hop⟩ := hab.objects p hp
  exact ⟨o, ho, hop.trans hpq⟩

/-- One entry of the listing. -/
theorem entry_leads (hfree : Free steps f t) {j : Job} {name : Hex} {rest : List Hex}
    (hh : Held s (.isFile j name rest)) :
    ∃ s', Leads steps ⟨s, Function.update f t (.isFile j name rest)⟩
        ⟨s', Function.update f t (.entry j rest)⟩ ∧
      Held s' (.entry j rest) ∧ Rearranged s s' := by
  by_cases hfile : name ≠ [] ∧ (⟨j.spot.dir, name⟩ : Spot) ∈ s.disk.files
  · have htest : next 0 s [] (.isFile j name rest) = some (s, .testNew j name rest) := by
      simp only [ObjectsDir.next]
      rw [if_pos hfile]
    by_cases hnew : Spot.sub ⟨j.spot.dir, name⟩ ∈ s.disk.files
    · have hremove : next 0 s [] (.testNew j name rest) = some (s, .remove j name rest) := by
        simp only [ObjectsDir.next]
        rw [if_pos hnew]
      have hdone : next 0 s [] (.remove j name rest) = some (_, .entry j rest) := rfl
      refine ⟨_, (hfree.leads htest).trans ((hfree.leads hremove).trans (hfree.leads hdone)),
        ((hh.next htest).next hremove).next hdone, rfl, rfl, ?_⟩
      exact fun q hq => ⟨q, (Finset.mem_erase.mp hq).2, rfl⟩
    · have hrename : next 0 s [] (.testNew j name rest) = some (s, .rename j name rest) := by
        simp only [ObjectsDir.next]
        rw [if_neg hnew]
      have hdone : next 0 s [] (.rename j name rest) =
          some ({ s with disk := s.disk.rename ⟨j.spot.dir, name⟩ }, .entry j rest) := rfl
      have hdisk : s.disk.rename ⟨j.spot.dir, name⟩ = { s.disk with
          files := insert (Spot.sub ⟨j.spot.dir, name⟩) (s.disk.files.erase ⟨j.spot.dir, name⟩) } :=
        if_pos hfile.2
      refine ⟨_, (hfree.leads htest).trans ((hfree.leads hrename).trans (hfree.leads hdone)),
        ((hh.next htest).next hrename).next hdone, by rw [hdisk], by rw [hdisk], ?_⟩
      intro q hq
      rw [hdisk] at hq
      rcases Finset.mem_insert.mp hq with rfl | hq
      · exact ⟨_, hfile.2, (Spot.bytes_sub _).symm⟩
      · exact ⟨q, (Finset.mem_erase.mp hq).2, rfl⟩
  · have hskip : next 0 s [] (.isFile j name rest) = some (s, .entry j rest) := by
      simp only [ObjectsDir.next]
      rw [if_neg hfile]
    exact ⟨s, hfree.leads hskip, hh.next hskip, Rearranged.refl s⟩

/-- **`loop_leads`** — a migration alone comes to the end of its list. -/
theorem loop_leads (hfree : Free steps f t) {j : Job} {rest : List Hex}
    (hh : Held s (.entry j rest)) :
    ∃ s', Leads steps ⟨s, Function.update f t (.entry j rest)⟩
        ⟨s', Function.update f t (.setDepth j)⟩ ∧
      Held s' (.setDepth j) ∧ Rearranged s s' := by
  induction rest generalizing s with
  | nil => exact ⟨s, Leads.refl _, hh, Rearranged.refl s⟩
  | cons name rest ih =>
      obtain ⟨s₁, hrun₁, hh₁, hs₁⟩ := entry_leads hfree hh
      obtain ⟨s₂, hrun₂, hh₂, hs₂⟩ := ih hh₁
      exact ⟨s₂, hrun₁.trans hrun₂, hh₂, hs₁.trans hs₂⟩

/-- A write that fills a flat directory migrates it. -/
theorem leads_migrated (hfree : Free steps f t) {p : Spot} (hh : Held s (.persist p)) (hdir : p.dir = []) (hhex : p.hex ≠ [])
    (hfull : threshold < (s.put p).disk.countObjects []) (hlock : (0, []) ∉ s.locks)
    (hdepth : s.disk.depth = ∅) (hmark : s.disk.migrating = ∅) :
    ∃ s', Leads steps ⟨s, Function.update f t (.persist p)⟩
        ⟨s', Function.update f t .idle⟩ ∧
      p.bytes ∈ s'.stored ∧ s'.disk.depth = {[]} ∧ s'.disk.migrating = ∅ ∧ (∀ q ∈ s'.disk.files, q.dir ≠ []) ∧
      ∀ q ∈ s'.disk.files, q.bytes = p.bytes ∨ ∃ o ∈ s.disk.files, o.bytes = q.bytes := by
  have hpersist : next 0 s [] (.persist p) = some (s.put p, .count p) := rfl
  have hcount : next 0 (s.put p) [] (.count p) = some (s.put p, .lockStart p) := by
    simp only [ObjectsDir.next]
    rw [if_pos ⟨hhex, by rw [hdir]; exact hfull⟩]
  have hstart : next 0 (s.put p) [] (.lockStart p) = some ((s.put p).lock 0 p.dir, .testStart p) := by
    simp only [ObjectsDir.next]
    rw [if_neg]
    rw [hdir]
    exact hlock
  have htest : next 0 ((s.put p).lock 0 p.dir) [] (.testStart p) =
      some ((s.put p).lock 0 p.dir, .mark p) := by
    simp only [ObjectsDir.next]
    rw [if_neg]
    show p.dir ∉ s.disk.migrating
    simp [hmark]
  let s₁ : Shared := { (s.put p).lock 0 p.dir with
    disk := { (s.put p).disk with migrating := insert p.dir s.disk.migrating } }
  have hmarked : next 0 ((s.put p).lock 0 p.dir) [] (.mark p) = some (s₁, .list ⟨p, false⟩) := rfl
  have hlist : next 0 s₁ (s₁.disk.namesIn p.dir).toList (.list ⟨p, false⟩) =
      some (s₁, .entry ⟨p, false⟩ (s₁.disk.namesIn p.dir).toList) :=
    if_pos (Finset.toList_toFinset _)
  have hheld :=
    (((((hh.next hpersist).next hcount).next hstart).next htest).next hmarked).next hlist
  obtain ⟨s₂, hloop, hend, hs⟩ := loop_leads hfree hheld
  let s₃ : Shared := { s₂ with disk := { s₂.disk with depth := insert p.dir s₂.disk.depth } }
  let s₄ : Shared := { s₃ with disk := { s₃.disk with migrating := s₃.disk.migrating.erase p.dir } }
  have hset : next 0 s₂ [] (.setDepth ⟨p, false⟩) = some (s₃, .clearMarker ⟨p, false⟩) := rfl
  have hclear : next 0 s₃ [] (.clearMarker ⟨p, false⟩) = some (s₄, .unlock ⟨p, false⟩) := rfl
  have hunlock : next 0 s₄ [] (.unlock ⟨p, false⟩) = some ((s₄.unlock 0 p.dir).wrote p, .idle) := rfl
  refine ⟨(s₄.unlock 0 p.dir).wrote p, ?_, Finset.mem_insert_self .., ?_, ?_, ?_, ?_⟩
  · exact (hfree.leads hpersist).trans ((hfree.leads hcount).trans ((hfree.leads hstart).trans
      ((hfree.leads htest).trans ((hfree.leads hmarked).trans ((hfree.leads hlist).trans
        (hloop.trans ((hfree.leads hset).trans ((hfree.leads hclear).trans (hfree.leads hunlock)))))))))
  · show insert p.dir s₂.disk.depth = {[]}
    rw [hs.depth, hdir]
    show insert [] s.disk.depth = {[]}
    rw [hdepth]
    rfl
  · show s₂.disk.migrating.erase p.dir = ∅
    rw [hs.migrating]
    show (insert p.dir s.disk.migrating).erase p.dir = ∅
    rw [hmark]
    simp
  · intro q hq hnil
    have hnone := hend.place.2 q hq (hnil.trans hdir.symm)
    cases hnone
  · intro q hq
    obtain ⟨o, ho, hbytes⟩ := hs.objects q hq
    rcases Finset.mem_insert.mp ho with rfl | ho
    · exact Or.inl hbytes.symm
    · exact Or.inr ⟨o, ho, hbytes⟩

/-- A full directory is left by calm steps, and sound. -/
theorem filled_sound : ∃ s, Leads (CalmSteps oneProcess) start ⟨s, fun _ => .idle⟩ ∧
    s.disk = ⟨flats threshold, ∅, ∅⟩ ∧ s.locks = ∅ ∧ s.disk.Sound := by
  obtain ⟨⟨s, f⟩, hfill, hdisk, hlocks, rfl⟩ := filled threshold (Nat.le_refl _)
  obtain ⟨es, hes⟩ := hfill
  exact ⟨s, ⟨es, hes⟩, hdisk, hlocks, (inv_of_run hes).sound⟩

/-- One object more, and the directory is migrated. -/
theorem leads_overfull (hfree : Free steps f t) (hdisk : s.disk = ⟨flats threshold, ∅, ∅⟩)
    (hlocks : s.locks = ∅) (hsound : s.disk.Sound) :
    ∃ s', Leads steps ⟨s, Function.update f t (.persist (Spot.root (hashNo 1000)))⟩
        ⟨s', Function.update f t .idle⟩ ∧
      (hashNo 1000).toBytes ∈ s'.stored ∧ s'.disk.depth = {[]} ∧ s'.disk.migrating = ∅ ∧
      (∀ q ∈ s'.disk.files, q.dir ≠ []) ∧
      ∀ q ∈ s'.disk.files, ∃ o ∈ flats 1001, o.bytes = q.bytes := by
  have hput : (s.put (Spot.root (hashNo 1000))).disk = ⟨flats 1001, ∅, ∅⟩ := by
    rw [Shared.put, hdisk, ← flats_succ]
    rfl
  have hheld : Held s (.persist (Spot.root (hashNo 1000))) :=
    ⟨hsound, ⟨by simp, by simp⟩, reached_root _ _, by simp [Spot.root, hdisk], by simp [hdisk]⟩
  have hhex : (Spot.root (hashNo 1000)).hex ≠ [] := (reached_root _ _).hex_ne hsound
  obtain ⟨s', hrun, hstored, hdepth, hmark, hshards, hobjects⟩ :=
    leads_migrated hfree hheld rfl hhex (by rw [hput, countObjects_flats (by norm_num)]; decide)
      (by simp [hlocks]) (by rw [hdisk]) (by rw [hdisk])
  rw [Spot.bytes_root] at hstored
  refine ⟨s', hrun, hstored, hdepth, hmark, hshards, fun q hq => ?_⟩
  rw [← flats_succ]
  rcases hobjects q hq with h | ⟨o, ho, h⟩
  · exact ⟨_, Finset.mem_insert_self .., h.symm⟩
  · rw [hdisk] at ho
    exact ⟨o, Finset.mem_insert_of_mem ho, h⟩

/-- A directory filled and migrated by one thread. -/
theorem full_directory_kept :
    ∃ es r, Run (CalmSteps oneProcess) start es r ∧ r.shared.disk.depth = {[]} ∧
      (hashNo 1000).toBytes ∈ r.shared.stored ∧
      r.shared.disk.Below (hashNo 1000).toBytes 0 := by
  obtain ⟨s, hfill, hdisk, hlocks, hsound⟩ := filled_sound
  have hidle : (fun _ : Nat => Pc.idle) = Function.update (fun _ => .idle) 0 .idle :=
    (Function.update_eq_self 0 fun _ : Nat => Pc.idle).symm
  have hlast := leads_persist (s := s) (f := fun _ => .idle) (t := 0) (hashNo 1000)
    (by simp [hdisk]) (by simp [hdisk])
    (by rw [hdisk]; exact root_notMem_flats (Nat.le_refl _) (by norm_num))
  rw [← hidle] at hlast
  obtain ⟨s', hrun, hstored, hdepth, _⟩ :=
    leads_overfull (free_calm (f := fun _ => .idle) (t := 0) fun _ _ => rfl) hdisk hlocks hsound
  obtain ⟨es, hes⟩ := hfill.trans (hlast.trans hrun)
  exact ⟨es, _, hes, hdepth, hstored, ((calm_keeps_objects oneProcess).2.1 es _ hes).1 _ hstored⟩

/-! ## The object that is lost -/

/-- A search for an object that lies flat beside the shards. -/
theorem leads_missing {h : Hash} (hdepth : s.disk.depth = {[]}) (hmark : s.disk.migrating = ∅)
    (hstored : h.toBytes ∈ s.stored) (hsub : (Spot.root h).sub ∉ s.disk.files) :
    Leads (Steps oneProcess) ⟨s, Function.update f t .idle⟩
      ⟨s.answer (Spot.root h).sub true none, Function.update f t .idle⟩ := by
  have hcall : Leads (Steps oneProcess) ⟨s, Function.update f t .idle⟩
      ⟨s, Function.update f t (.findDepth (Spot.root h) true)⟩ := by
    refine ⟨[.find t h], .cons ?_ (.nil _)⟩
    unfold Steps
    simp only [step, Function.update_self, if_true, Function.update_idem, hstored, decide_true]
  have hne : (Spot.root h).hex ≠ [] := by
    apply List.length_pos_iff.mp
    rw [Spot.root]
    simp only
    rw [Hash.length_toBytes]
    omega
  have hsubdir : (Spot.root h).sub.dir ≠ [] := (dropLast_sub hne).2
  generalize hp : Spot.root h = p at hcall hne hsubdir hsub
  have hroot : p.dir = [] := by rw [← hp]; rfl
  have hfirst : next 0 s [] (.findDepth p true) = some (s, .findMarker p true true) := by
    simp only [ObjectsDir.next]
    rw [decide_eq_true]
    rw [hroot, hdepth]
    exact Finset.mem_singleton_self _
  have hdown : next 0 s [] (.findMarker p true true) = some (s, .findDepth p.sub true) := by
    simp only [ObjectsDir.next, if_true]
    rw [if_neg hne]
  have hsecond : next 0 s [] (.findDepth p.sub true) = some (s, .findMarker p.sub true false) := by
    simp only [ObjectsDir.next]
    rw [decide_eq_false]
    rw [hdepth, Finset.mem_singleton]
    exact hsubdir
  have hunmarked : next 0 s [] (.findMarker p.sub true false) = some (s, .findFlat p.sub true false) := by
    simp only [ObjectsDir.next, hmark]
    rfl
  have hgone : next 0 s [] (.findFlat p.sub true false) = some (s.answer p.sub true none, .idle) := by
    simp only [ObjectsDir.next]
    rw [if_neg hsub, if_neg]
    simp
  exact hcall.trans ((free_steps.leads hfirst).trans ((free_steps.leads hdown).trans ((free_steps.leads hsecond).trans
    ((free_steps.leads hunmarked).trans (free_steps.leads hgone)))))

/-- No object of the first thousand and one has the bytes of the next hash. -/
theorem bytes_late {q : Spot} (hq : q ∈ flats 1001) : q.bytes ≠ (hashNo 1001).toBytes := by
  intro heq
  obtain ⟨i, hi, rfl⟩ := Finset.mem_image.mp hq
  rw [Spot.bytes_root] at heq
  have hlt := Finset.mem_range.mp hi
  have hii := toBytes_hashNo_inj (lt_trans hlt (by norm_num)) (by norm_num) heq
  omega

/-- **`late_write_lost`** — a write that read depth zero before a migration and renames after it returns
`Ok`, and a search that begins later does not find the object. -/
theorem late_write_lost :
    ∃ es r, Run (Steps oneProcess) start es r ∧ ∃ h : Hash, h.toBytes ∈ r.shared.stored ∧
      ∃ a ∈ r.shared.answers, a.hash = h.toBytes ∧ a.due = true ∧ a.path = none := by
  obtain ⟨s, hfill, hdisk, hlocks, hsound⟩ := filled_sound
  have hidle : (fun _ : Nat => Pc.idle) = Function.update (fun _ => .idle) 0 .idle :=
    (Function.update_eq_self 0 fun _ : Nat => Pc.idle).symm
  have hnew : ∀ i, 1000 ≤ i → i < 2 ^ 256 → Spot.root (hashNo i) ∉ s.disk.files := by
    intro i hi hlt
    rw [hdisk]
    exact root_notMem_flats hi hlt
  -- thread 0 is about to rename the late object
  let late := Spot.root (hashNo 1001)
  let f := Function.update (fun _ : Nat => Pc.idle) 0 (.persist late)
  have hlate := leads_persist (s := s) (f := fun _ => .idle) (t := 0) (hashNo 1001)
    (by simp [hdisk]) (by simp [hdisk]) (hnew _ (by norm_num) (by norm_num))
  rw [← hidle] at hlate
  -- thread 1 stores one object too many
  have hother : Function.update f 1 .idle = f := Function.update_eq_self 1 f
  have hfull := leads_persist (s := s) (f := f) (t := 1) (hashNo 1000)
    (by simp [hdisk]) (by simp [hdisk]) (hnew _ (by norm_num) (by norm_num))
  obtain ⟨s₁, hmigrated, _, hdepth₁, hmark₁, hshards, hobjects⟩ :=
    leads_overfull (@free_steps f 1) hdisk hlocks hsound
  rw [hother] at hfull hmigrated
  -- thread 0 goes on
  have hsmall : (s₁.put late).disk.countObjects [] ≤ threshold := by
    have hone : (s₁.put late).disk.namesIn [] ⊆ {late.hex} := by
      intro name hname
      rcases Finset.mem_insert.mp (Disk.mem_namesIn.mp hname) with h | h
      · rw [← h]
        exact Finset.mem_singleton_self _
      · exact absurd rfl (hshards _ h)
    exact (Finset.card_le_card hone).trans (by rw [Finset.card_singleton]; decide)
  have hstored := leads_store (f := fun _ => .idle) (t := 0) hsmall
  have hbytes : late.sub.bytes = (hashNo 1001).toBytes := by
    rw [late.bytes_sub, Spot.bytes_root]
  have hsub : late.sub ∉ ((s₁.put late).wrote late).disk.files := by
    intro hmem
    rcases Finset.mem_insert.mp hmem with h | h
    · have hdir := (dropLast_sub ((reached_root s.disk (hashNo 1001)).hex_ne hsound)).2
      exact hdir (congrArg Spot.dir h)
    · obtain ⟨o, ho, heq⟩ := hobjects _ h
      exact bytes_late ho (heq.trans hbytes)
  have hwrote : (hashNo 1001).toBytes ∈ ((s₁.put late).wrote late).stored := by
    rw [← Spot.bytes_root]
    exact Finset.mem_insert_self ..
  have hmissing := leads_missing (s := (s₁.put late).wrote late) (f := fun _ => .idle) (t := 0)
    hdepth₁ hmark₁ hwrote hsub
  have hall := hfill.of_calm.trans (hlate.of_calm.trans (hfull.of_calm.trans
    (hmigrated.trans (hstored.of_calm.trans hmissing))))
  obtain ⟨es, hrun⟩ := hall
  exact ⟨es, _, hrun, hashNo 1001, hwrote, ⟨late.sub.bytes, true, none⟩, List.mem_cons_self ..,
    hbytes, rfl, rfl⟩

end Omemfs.Store.ObjectsDir
