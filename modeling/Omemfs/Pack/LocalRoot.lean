/-
# Omemfs.Pack.LocalRoot — the root pointer of a local remote, call by call.

`LocalRootPointer` keeps the index root in a file.  `cas_write` locks another file, reads the root again,
compares, writes a temporary file and renames it over the root, and syncs the directory; the lock goes
with the call, or with its process.  `Step` is one such operation of one of any number of processes, which
may fail or be killed in between, or a power cut that leaves what the disk has.

A rename is the moment at which a `cas_write` takes effect and the second reading the one at which it
finds itself too late, so the file is a compare-and-swap register (`linearizable`): `Remote.casWrite` may
treat it as one.  Whatever is acknowledged has been synced, so no later value is made without it
(`acknowledged_write`).
-/
import Omemfs.Lib.CasRegister
import Omemfs.Pack.Remote

namespace Omemfs.Pack.LocalRoot

open Lib CasRegister

/-- How far a call has come. -/
inductive Pc where
  | idle
  | reading
  | haveRead (v : Option Bytes)
  /-- `IndexRootCasLock::acquire` -/
  | locking (expected : RootToken) (new : Bytes)
  | locked (expected : RootToken) (new : Bytes)
  /-- the root has been read again -/
  | current (expected : RootToken) (new : Bytes) (v : Option Bytes)
  /-- the temporary file is written and synced -/
  | staged (expected : RootToken) (new : Bytes)
  | renamed
  /-- the directory is synced -/
  | synced

/-- The call is made under the lock. -/
def Pc.Holds : Pc → Prop
  | locked _ _ => True
  | current _ _ _ => True
  | staged _ _ => True
  | renamed => True
  | synced => True
  | _ => False

/-- Something can still go wrong. -/
def Pc.CanFail : Pc → Prop
  | idle => False
  | haveRead _ => False
  | synced => False
  | _ => True

structure State (ι : Type) where
  file : Option Bytes
  /-- what the directory on the disk has there -/
  disk : Option Bytes
  lock : Option ι
  pc : ι → Pc

variable {ι : Type}

def start (v : Option Bytes) : State ι := ⟨v, v, none, fun _ => .idle⟩

variable [DecidableEq ι]

namespace State

def goto (s : State ι) (i : ι) (p : Pc) : State ι := { s with pc := Function.update s.pc i p }

/-- The call ends, and its lock with it. -/
def leave (s : State ι) (i : ι) : State ι :=
  { s with lock := if s.lock = some i then none else s.lock, pc := Function.update s.pc i .idle }

end State

abbrev RootEvent (ι : Type) := Event ι (Option Bytes) RootToken

inductive Step : State ι → Option (RootEvent ι) → State ι → Prop
  | callRead {s : State ι} {i : ι} (h : s.pc i = .idle) :
      Step s (some (.called i .read)) (s.goto i .reading)
  | read {s : State ι} {i : ι} (h : s.pc i = .reading) : Step s none (s.goto i (.haveRead s.file))
  | haveRead {s : State ι} {i : ι} {v : Option Bytes} (h : s.pc i = .haveRead v) :
      Step s (some (.answered i (.value v))) (s.leave i)
  | callCas {s : State ι} {i : ι} {e : RootToken} {new : Bytes} (h : s.pc i = .idle) :
      Step s (some (.called i (.cas e (some new)))) (s.goto i (.locking e new))
  | lock {s : State ι} {i : ι} {e : RootToken} {new : Bytes} (h : s.pc i = .locking e new)
      (hfree : s.lock = none) : Step s none (State.goto { s with lock := some i } i (.locked e new))
  | readAgain {s : State ι} {i : ι} {e : RootToken} {new : Bytes} (h : s.pc i = .locked e new) :
      Step s none (s.goto i (.current e new s.file))
  | stale {s : State ι} {i : ι} {e : RootToken} {new : Bytes} {v : Option Bytes}
      (h : s.pc i = .current e new v) (hv : tokenFor v ≠ e) :
      Step s (some (.answered i .stale)) (s.leave i)
  | stage {s : State ι} {i : ι} {e : RootToken} {new : Bytes} {v : Option Bytes}
      (h : s.pc i = .current e new v) (hv : tokenFor v = e) : Step s none (s.goto i (.staged e new))
  | rename {s : State ι} {i : ι} {e : RootToken} {new : Bytes} (h : s.pc i = .staged e new) :
      Step s none (State.goto { s with file := some new } i .renamed)
  | sync {s : State ι} {i : ι} (h : s.pc i = .renamed) :
      Step s none (State.goto { s with disk := s.file } i .synced)
  | synced {s : State ι} {i : ι} (h : s.pc i = .synced) :
      Step s (some (.answered i .done)) (s.leave i)
  | fail {s : State ι} {i : ι} (h : (s.pc i).CanFail) : Step s (some (.answered i .failed)) (s.leave i)
  /-- the process is killed -/
  | stop {s : State ι} {i : ι} : Step s (some (.stopped i)) (s.leave i)
  /-- the kernel writes the directory back on its own -/
  | writeBack {s : State ι} : Step s none { s with disk := s.file }
  | powerCut {s : State ι} : Step s (some .powerCut) (start s.disk)

/-! ## The file as a register -/

/-- Where a call is in the register when it is here in the code. -/
def Corresponds (file : Option Bytes) (kept all : Nat) : Pc → Place (Option Bytes) RootToken → Prop
  | .idle, p => p = .idle
  | .reading, p => p = .called .read
  | .haveRead v, p => ∃ n, p = .acted (.value v) n
  | .locking e new, p => p = .called (.cas e (some new))
  | .locked e new, p => p = .called (.cas e (some new))
  | .current e new v, p =>
      (tokenFor v = e ∧ v = file ∧ p = .called (.cas e (some new))) ∨
      (tokenFor v ≠ e ∧ ∃ n, p = .acted .stale n)
  | .staged e new, p => tokenFor file = e ∧ p = .called (.cas e (some new))
  | .renamed, p => ∃ n, p = .acted .done n ∧ n ≤ all
  | .synced, p => ∃ n, p = .acted .done n ∧ n ≤ kept

/-- Only who holds the lock knows what the file has. -/
theorem Corresponds.mono {file file' : Option Bytes} {k k' a a' : Nat} {pc : Pc}
    {p : Place (Option Bytes) RootToken} (h : Corresponds file k a pc p)
    (hfile : pc.Holds → file' = file) (hk : k ≤ k') (ha : a ≤ a') : Corresponds file' k' a' pc p := by
  cases pc with
  | current e new v =>
      rw [Corresponds, hfile trivial]
      exact h
  | staged e new =>
      rw [Corresponds, hfile trivial]
      exact h
  | renamed =>
      obtain ⟨n, hp, hn⟩ := h
      exact ⟨n, hp, hn.trans ha⟩
  | synced =>
      obtain ⟨n, hp, hn⟩ := h
      exact ⟨n, hp, hn.trans hk⟩
  | idle => exact h
  | reading => exact h
  | haveRead v => exact h
  | locking e new => exact h
  | locked e new => exact h

/-- The file has the value of the register, the disk the one that is kept, and calls under the lock are
made by who holds it. -/
structure Rel (v : Option Bytes) (s : State ι) (x : CasRegister.State ι (Option Bytes) RootToken) :
    Prop where
  file : x.value v = s.file
  disk : x.keptValue v = s.disk
  holds : ∀ i, (s.pc i).Holds → s.lock = some i
  places : ∀ i, Corresponds s.file x.kept.length x.log.length (s.pc i) (x.place i)

omit [DecidableEq ι] in
theorem Rel.initial (v : Option Bytes) : Rel v (start v : State ι) CasRegister.State.initial where
  file := rfl
  disk := rfl
  holds _ h := h.elim
  places _ := rfl

section Simulation

variable {v : Option Bytes} {s s' : State ι} {x x' : CasRegister.State ι (Option Bytes) RootToken} {i : ι}

/-- One call goes on, and the others find what they know as it was. -/
theorem Rel.move (h : Rel v s x) {pc : Pc} {p : Place (Option Bytes) RootToken}
    (hpc : s'.pc = Function.update s.pc i pc) (hplace : x'.place = Function.update x.place i p)
    (hfile : x'.value v = s'.file) (hdisk : x'.keptValue v = s'.disk)
    (hkept : x.kept.length ≤ x'.kept.length) (hall : x.log.length ≤ x'.log.length)
    (hother : ∀ j, j ≠ i → s.lock = some j → s'.lock = some j ∧ s'.file = s.file)
    (hself : pc.Holds → s'.lock = some i)
    (hcorr : Corresponds s'.file x'.kept.length x'.log.length pc p) : Rel v s' x' where
  file := hfile
  disk := hdisk
  holds j hj := by
    by_cases hji : j = i
    · subst hji
      rw [hpc, Function.update_self] at hj
      exact hself hj
    · rw [hpc, Function.update_of_ne hji] at hj
      exact (hother j hji (h.holds j hj)).1
  places j := by
    by_cases hji : j = i
    · subst hji
      rw [hpc, hplace, Function.update_self, Function.update_self]
      exact hcorr
    · rw [hpc, hplace, Function.update_of_ne hji, Function.update_of_ne hji]
      exact (h.places j).mono (fun hj => (hother j hji (h.holds j hj)).2) hkept hall

/-- A step of one call that leaves the file as it is. -/
theorem Rel.goto (h : Rel v s x) {pc : Pc} {p : Place (Option Bytes) RootToken}
    (hself : pc.Holds → (s.pc i).Holds)
    (hcorr : Corresponds s.file x.kept.length x.log.length pc p) : Rel v (s.goto i pc) (x.set i p) :=
  h.move rfl rfl h.file h.disk le_rfl le_rfl (fun _ _ hj => ⟨hj, rfl⟩)
    (fun hp => h.holds i (hself hp)) hcorr

/-- A step that the register does not see. -/
theorem Rel.stay (h : Rel v s x) {pc : Pc} (hpc : s'.pc = Function.update s.pc i pc)
    (hfile : s'.file = s.file) (hdisk : s'.disk = s.disk)
    (hother : ∀ j, j ≠ i → s.lock = some j → s'.lock = some j) (hself : pc.Holds → s'.lock = some i)
    (hcorr : Corresponds s.file x.kept.length x.log.length pc (x.place i)) : Rel v s' x :=
  h.move hpc (Function.update_eq_self ..).symm (h.file.trans hfile.symm) (h.disk.trans hdisk.symm) le_rfl
    le_rfl (fun j hji hj => ⟨hother j hji hj, hfile⟩) hself (hfile ▸ hcorr)

/-- All updates are persisted. -/
def persisted (x : CasRegister.State ι (Option Bytes) RootToken) :
    CasRegister.State ι (Option Bytes) RootToken := ⟨[], x.recent ++ x.kept, x.place⟩

theorem step_persisted (v : Option Bytes) (x : CasRegister.State ι (Option Bytes) RootToken) :
    CasRegister.Step tokenFor v x none (persisted x) :=
  .persist (List.nil_append x.recent).symm

/-- A call ends. -/
theorem Rel.leave (h : Rel v s x) : Rel v (s.leave i) (x.set i .idle) := by
  refine h.move rfl rfl h.file h.disk le_rfl le_rfl (fun j hji hj => ⟨?_, rfl⟩) (fun hp => hp.elim) rfl
  have hne : s.lock ≠ some i := by
    rw [hj]
    exact fun heq => hji (Option.some.inj heq)
  rw [State.leave, if_neg hne, hj]

omit [DecidableEq ι] in
/-- A call that can fail has been made. -/
theorem Rel.place_ne_idle (h : Rel v s x) (hi : (s.pc i).CanFail) : x.place i ≠ .idle := by
  intro hidle
  have hcorr := h.places i
  rw [hidle] at hcorr
  cases hpc : s.pc i with
  | idle =>
      rw [hpc] at hi
      exact hi
  | haveRead w =>
      rw [hpc] at hi
      exact hi
  | synced =>
      rw [hpc] at hi
      exact hi
  | reading =>
      rw [hpc] at hcorr
      cases hcorr
  | locking e new =>
      rw [hpc] at hcorr
      cases hcorr
  | locked e new =>
      rw [hpc] at hcorr
      cases hcorr
  | current e new w =>
      rw [hpc] at hcorr
      obtain ⟨-, -, ⟨⟩⟩ | ⟨-, n, ⟨⟩⟩ := hcorr
  | staged e new =>
      rw [hpc] at hcorr
      cases hcorr.2
  | renamed =>
      rw [hpc] at hcorr
      obtain ⟨n, ⟨⟩, -⟩ := hcorr

/-- **`Rel.step`** — every operation is a step of the register, or none, and the same is seen. -/
theorem Rel.step (h : Rel v s x) {o : Option (RootEvent ι)} (hstep : Step s o s') :
    ∃ os y, Run (CasRegister.Step tokenFor v) x os y ∧ Rel v s' y ∧ os.reduceOption = o.toList := by
  have hone : ∀ {o y}, CasRegister.Step tokenFor v x o y → Rel v s' y →
      ∃ os y, Run (CasRegister.Step tokenFor v) x os y ∧ Rel v s' y ∧ os.reduceOption = o.toList := by
    intro o y hy hrel
    refine ⟨[o], y, .cons hy (.nil y), hrel, ?_⟩
    cases o <;> rfl
  have hnone : Rel v s' x → o = none →
      ∃ os y, Run (CasRegister.Step tokenFor v) x os y ∧ Rel v s' y ∧ os.reduceOption = o.toList := by
    rintro hrel rfl
    exact ⟨[], x, .nil x, hrel, rfl⟩
  cases hstep with
  | @callRead i hi =>
      have hcorr := h.places i
      rw [hi] at hcorr
      exact hone (.call hcorr) (h.goto (fun hp => hp.elim) rfl)
  | @read i hi =>
      have hcorr := h.places i
      rw [hi] at hcorr
      exact hone (.actRead hcorr) (h.goto (fun hp => hp.elim) ⟨_, by rw [h.file]⟩)
  | @haveRead i w hi =>
      have hcorr := h.places i
      rw [hi] at hcorr
      obtain ⟨n, hp⟩ := hcorr
      exact hone (.answer hp fun hd => by cases hd) h.leave
  | @callCas i e new hi =>
      have hcorr := h.places i
      rw [hi] at hcorr
      exact hone (.call hcorr) (h.goto (fun hp => hp.elim) rfl)
  | @lock i e new hi hfree =>
      have hcorr := h.places i
      rw [hi] at hcorr
      refine hnone (h.stay (i := i) rfl rfl rfl (fun j _ hj => ?_) (fun _ => rfl) hcorr) rfl
      rw [hfree] at hj
      cases hj
  | @readAgain i e new hi =>
      have hcorr := h.places i
      rw [hi] at hcorr
      have hlock : (s.pc i).Holds := by rw [hi]; trivial
      by_cases he : tokenFor s.file = e
      · exact hnone (h.stay (i := i) rfl rfl rfl (fun _ _ hj => hj) (fun _ => h.holds i hlock)
          (.inl ⟨he, rfl, hcorr⟩)) rfl
      · -- the file has another token, and the call is too late from now on
        exact hone (.actStale hcorr (by rw [h.file]; exact he))
          (h.goto (fun _ => hlock) (.inr ⟨he, _, rfl⟩))
  | @stale i e new w hi hw =>
      have hcorr := h.places i
      rw [hi] at hcorr
      obtain ⟨hno, -⟩ | ⟨-, n, hp⟩ := hcorr
      · exact absurd hno hw
      · exact hone (.answer hp fun hd => by cases hd) h.leave
  | @stage i e new w hi hw =>
      have hcorr := h.places i
      rw [hi] at hcorr
      have hlock : (s.pc i).Holds := by rw [hi]; trivial
      obtain ⟨he, rfl, hp⟩ | ⟨hno, -⟩ := hcorr
      · exact hnone (h.stay (i := i) rfl rfl rfl (fun _ _ hj => hj) (fun _ => h.holds i hlock)
          ⟨he, hp⟩) rfl
      · exact absurd hw hno
  | @rename i e new hi =>
      have hcorr := h.places i
      rw [hi] at hcorr
      have hlock : s.lock = some i := h.holds i (by rw [hi]; trivial)
      refine hone (.actUpdate hcorr.2 (by rw [h.file]; exact hcorr.1)) ?_
      refine h.move rfl rfl rfl h.disk le_rfl (Nat.le_succ _) (fun j hji hj => ?_) (fun _ => hlock)
        ⟨_, rfl, le_rfl⟩
      rw [hlock] at hj
      exact absurd (Option.some.inj hj).symm hji
  | @sync i hi =>
      have hcorr := h.places i
      rw [hi] at hcorr
      have hlock : s.lock = some i := h.holds i (by rw [hi]; trivial)
      refine hone (step_persisted v x) (h.move (i := i) rfl (Function.update_eq_self ..).symm h.file h.file
        ?_ le_rfl (fun _ _ hj => ⟨hj, rfl⟩) (fun _ => hlock) hcorr)
      exact (List.suffix_append ..).length_le
  | @synced i hi =>
      have hcorr := h.places i
      rw [hi] at hcorr
      obtain ⟨n, hp, hn⟩ := hcorr
      exact hone (.answer hp fun _ => hn) h.leave
  | fail hi => exact hone (.fail (h.place_ne_idle hi)) h.leave
  | stop => exact hone .stop h.leave
  | writeBack =>
      refine hone (step_persisted v x) ⟨h.file, h.file, h.holds, fun j => ?_⟩
      exact (h.places j).mono (fun _ => rfl) (List.suffix_append ..).length_le le_rfl
  | powerCut => exact hone .powerCut ⟨h.disk, h.disk, fun _ hp => hp.elim, fun _ => rfl⟩

end Simulation

/-- A `cas_write` that takes effect does what `Remote.casWrite` does. -/
theorem step_casWrite {v : Option Bytes} {x : CasRegister.State ι (Option Bytes) RootToken} {i : ι}
    {r : Remote} {e : RootToken} {new : Bytes} (hr : x.value v = r.root)
    (hi : x.place i = .called (.cas e (some new))) :
    (∃ r' y n, r.casWrite e new = .ok r' ∧ CasRegister.Step tokenFor v x none y ∧ y.value v = r'.root ∧
        y.place i = .acted .done n) ∨
      ∃ y n, r.casWrite e new = .error .casFailed ∧ CasRegister.Step tokenFor v x none y ∧
        y.value v = r.root ∧ y.place i = .acted .stale n := by
  by_cases he : tokenFor r.root = e
  · refine .inl ⟨{ r with root := some new }, _, _, ?_, .actUpdate hi (hr ▸ he), rfl,
      CasRegister.State.place_set_self ..⟩
    rw [Remote.casWrite, if_neg (not_not_intro he)]
  · refine .inr ⟨_, _, ?_, .actStale hi (hr ▸ he), hr, CasRegister.State.place_set_self ..⟩
    rw [Remote.casWrite, if_pos he]

/-! ## Runs -/

section Runs

variable {v : Option Bytes} {s : State ι} {os : List (Option (RootEvent ι))}

theorem Rel.run (hrun : Run Step (start v) os s) :
    ∃ os' x, Run (CasRegister.Step tokenFor v) CasRegister.State.initial os' x ∧ Rel v s x ∧
      os'.reduceOption = os.reduceOption :=
  hrun.simulated (fun _ _ _ _ hstep h => h.step hstep) (Rel.initial v)

/-- **`linearizable`** — whatever is seen of a run is seen of the register, which ends with the value of
the file, and keeps the one of the disk. -/
theorem linearizable (hrun : Run Step (start v) os s) :
    ∃ os' x, Run (CasRegister.Step tokenFor v) CasRegister.State.initial os' x ∧
      os'.reduceOption = os.reduceOption ∧ x.value v = s.file ∧ x.keptValue v = s.disk := by
  obtain ⟨os', x, h, hrel, hseen⟩ := Rel.run hrun
  exact ⟨os', x, h, hseen, hrel.file, hrel.disk⟩

/-- The second of two writers on one token comes too late. -/
theorem linearizable_two : ∃ os x,
    Run (CasRegister.Step (ι := Bool) tokenFor none) CasRegister.State.initial os x ∧
      os.reduceOption = [.called true (.cas .absent (some [1])), .called false (.cas .absent (some [2])),
        .answered true .done, .answered false .stale] ∧ x.value none = some [1] := by
  have hrun : ∃ s, Run (Step (ι := Bool)) (start none) [some (.called true (.cas .absent (some [1]))),
      some (.called false (.cas .absent (some [2]))), none, none, none, none, none,
      some (.answered true .done), none, none, some (.answered false .stale)] s ∧ s.file = some [1] :=
    ⟨_, .cons (.callCas rfl) (.cons (.callCas rfl) (.cons (.lock (i := true) rfl rfl)
      (.cons (.readAgain (i := true) rfl) (.cons (.stage (i := true) rfl rfl)
      (.cons (.rename (i := true) rfl) (.cons (.sync (i := true) rfl) (.cons (.synced rfl)
      (.cons (.lock (i := false) rfl rfl) (.cons (.readAgain (i := false) rfl)
      (.cons (.stale rfl (by decide)) (.nil _))))))))))), rfl⟩
  obtain ⟨s, h, hfile⟩ := hrun
  obtain ⟨os, x, hx, hseen, hval, -⟩ := linearizable h
  exact ⟨os, x, hx, hseen, hval.trans hfile⟩

/-- **`acknowledged_write`** — a `cas_write` that has returned was called for, and whatever the file has
later was made out of its bytes, one `cas_write` on the token of the other, across crashes and power
cuts. -/
theorem acknowledged_write (hrun : Run Step (start v) os s) {i : ι} {tr tr' : List (RootEvent ι)}
    (htr : os.reduceOption = tr ++ .answered i .done :: tr') :
    ∃ e new, lastCall i tr = some (.cas e new) ∧
      Relation.ReflTransGen (Replaces tokenFor os.reduceOption) new s.file := by
  obtain ⟨os', x, h, hrel, hseen⟩ := Rel.run hrun
  rw [← hseen] at htr
  have hack := acknowledged h htr
  rwa [hseen, hrel.file] at hack

/-- A second write is renamed but not synced when the power goes. -/
theorem acknowledged_write_cut : ∃ e new,
    lastCall true [Event.called true (.cas RootToken.absent (some [1]))] = some (.cas e new) ∧
      Relation.ReflTransGen (Replaces tokenFor [Event.called true (.cas .absent (some [1])),
        .answered true .done, .called false (.cas (.present [1]) (some [2])), .powerCut]) new (some [1]) := by
  have hrun : ∃ s, Run (Step (ι := Bool)) (start none) [some (.called true (.cas .absent (some [1]))),
      none, none, none, none, none, some (.answered true .done),
      some (.called false (.cas (.present [1]) (some [2]))), none, none, none, none, some .powerCut] s ∧
      s.file = some [1] :=
    ⟨_, .cons (.callCas rfl) (.cons (.lock (i := true) rfl rfl)
      (.cons (.readAgain (i := true) rfl) (.cons (.stage (i := true) rfl rfl)
      (.cons (.rename (i := true) rfl) (.cons (.sync (i := true) rfl) (.cons (.synced rfl)
      (.cons (.callCas rfl) (.cons (.lock (i := false) rfl rfl) (.cons (.readAgain (i := false) rfl)
      (.cons (.stage (i := false) rfl rfl) (.cons (.rename (i := false) rfl)
      (.cons .powerCut (.nil _))))))))))))), rfl⟩
  obtain ⟨s, h, hfile⟩ := hrun
  have hack := @acknowledged_write Bool _ none s _ h true [.called true (.cas .absent (some [1]))] _ rfl
  rwa [hfile] at hack

end Runs

end Omemfs.Pack.LocalRoot
