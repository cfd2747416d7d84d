/-
# Omemfs.Lib.CasRegister — a register that is updated by compare and swap, and outlives its clients.

A client calls the register and is answered later; in between its call takes effect at one moment.  An
update takes effect if the register has the token that the call expects.  Clients may stop at any time,
and a power cut stops all of them and takes back every update that has not been persisted.

Whoever shows that his steps are steps of this machine has what is proved of it here: every update is made
on top of the one before it (`History`), a persisted one stays (`kept_suffix`), and so what the register
holds has been made, update by update, out of every value that was acknowledged (`acknowledged`).
-/
import Omemfs.Lib.Runs
import Mathlib.Logic.Function.Basic
import Mathlib.Logic.Relation

namespace Omemfs.Lib.CasRegister

inductive Call (V T : Type) where
  | read
  | cas (expected : T) (new : V)

inductive Answer (V : Type) where
  | value (v : V)
  | done
  /-- the register has another token -/
  | stale
  /-- the call may have taken effect or not -/
  | failed

/-- What can be seen of a run. -/
inductive Event (ι V T : Type) where
  | called (i : ι) (c : Call V T)
  | answered (i : ι) (a : Answer V)
  | stopped (i : ι)
  | powerCut

inductive Place (V T : Type) where
  | idle
  | called (c : Call V T)
  /-- the call has taken effect when there were `n` updates -/
  | acted (a : Answer V) (n : Nat)

structure Update (V T : Type) where
  expected : T
  new : V

/-- The updates are listed latest first. -/
structure State (ι V T : Type) where
  recent : List (Update V T)
  kept : List (Update V T)
  place : ι → Place V T

variable {ι V T : Type}

def valueOf (init : V) : List (Update V T) → V
  | [] => init
  | u :: _ => u.new

namespace State

def log (s : State ι V T) : List (Update V T) := s.recent ++ s.kept

def value (init : V) (s : State ι V T) : V := valueOf init s.log

/-- What a power cut leaves. -/
def keptValue (init : V) (s : State ι V T) : V := valueOf init s.kept

def initial : State ι V T := ⟨[], [], fun _ => .idle⟩

variable [DecidableEq ι]

def set (s : State ι V T) (i : ι) (p : Place V T) : State ι V T :=
  { s with place := Function.update s.place i p }

theorem place_set_self (s : State ι V T) (i : ι) (p : Place V T) : (s.set i p).place i = p :=
  Function.update_self ..

theorem place_set_of_ne (s : State ι V T) {i j : ι} (p : Place V T) (h : j ≠ i) :
    (s.set i p).place j = s.place j :=
  Function.update_of_ne h ..

end State

variable [DecidableEq ι]

/-- One step; what cannot be seen of it is `none`. -/
inductive Step (token : V → T) (init : V) :
    State ι V T → Option (Event ι V T) → State ι V T → Prop
  | call {s : State ι V T} {i : ι} {c : Call V T} (h : s.place i = .idle) :
      Step token init s (some (.called i c)) (s.set i (.called c))
  | actRead {s : State ι V T} {i : ι} (h : s.place i = .called .read) :
      Step token init s none (s.set i (.acted (.value (s.value init)) s.log.length))
  | actUpdate {s : State ι V T} {i : ι} {e : T} {v : V} (h : s.place i = .called (.cas e v))
      (he : token (s.value init) = e) :
      Step token init s none
        (State.set { s with recent := ⟨e, v⟩ :: s.recent } i (.acted .done (s.log.length + 1)))
  | actStale {s : State ι V T} {i : ι} {e : T} {v : V} (h : s.place i = .called (.cas e v))
      (he : token (s.value init) ≠ e) :
      Step token init s none (s.set i (.acted .stale s.log.length))
  | persist {s : State ι V T} {l₁ l₂ : List (Update V T)} (h : s.recent = l₁ ++ l₂) :
      Step token init s none { s with recent := l₁, kept := l₂ ++ s.kept }
  | answer {s : State ι V T} {i : ι} {a : Answer V} {n : Nat} (h : s.place i = .acted a n)
      (hn : a = .done → n ≤ s.kept.length) :
      Step token init s (some (.answered i a)) (s.set i .idle)
  | fail {s : State ι V T} {i : ι} (h : s.place i ≠ .idle) :
      Step token init s (some (.answered i .failed)) (s.set i .idle)
  | stop {s : State ι V T} {i : ι} : Step token init s (some (.stopped i)) (s.set i .idle)
  | powerCut {s : State ι V T} : Step token init s (some .powerCut) ⟨[], s.kept, fun _ => .idle⟩

/-! ## What a history tells -/

/-- The call of a client that an event is. -/
def callOf (i : ι) : Event ι V T → Option (Call V T)
  | .called j c => if j = i then some c else none
  | _ => none

/-- The last call of a client. -/
def lastCall (i : ι) : List (Event ι V T) → Option (Call V T)
  | [] => none
  | e :: tr => (lastCall i tr).or (callOf i e)

theorem lastCall_append (i : ι) (tr tr' : List (Event ι V T)) :
    lastCall i (tr ++ tr') = (lastCall i tr').or (lastCall i tr) := by
  induction tr with
  | nil => rw [List.nil_append, lastCall, Option.or_none]
  | cons e tr ih => rw [List.cons_append, lastCall, ih, lastCall, Option.or_assoc]

theorem lastCall_of_none {i : ι} {tr tr' : List (Event ι V T)} (h : ∀ e ∈ tr', callOf i e = none) :
    lastCall i (tr ++ tr') = lastCall i tr := by
  have hnone : lastCall i tr' = none := by
    induction tr' with
    | nil => rfl
    | cons e tr' ih =>
        rw [lastCall, ih fun x hx => h x (List.mem_cons_of_mem _ hx), Option.none_or,
          h e (List.mem_cons_self ..)]
  rw [lastCall_append, hnone, Option.none_or]

theorem mem_of_lastCall {i : ι} {c : Call V T} {tr : List (Event ι V T)} (h : lastCall i tr = some c) :
    .called i c ∈ tr := by
  induction tr with
  | nil => cases h
  | cons e tr ih =>
      rw [lastCall, Option.or_eq_some_iff] at h
      rcases h with h | ⟨-, h⟩
      · exact List.mem_cons_of_mem _ (ih h)
      · cases e with
        | called j c' =>
            rw [callOf] at h
            split_ifs at h with hj
            cases h
            exact hj ▸ List.mem_cons_self ..
        | answered j a => cases h
        | stopped j => cases h
        | powerCut => cases h

/-- The value `w` was to replace `v` in a call of the history. -/
def Replaces (token : V → T) (tr : List (Event ι V T)) (v w : V) : Prop :=
  ∃ i, .called i (.cas (token v) w) ∈ tr

/-- What holds after a run with this history: every update was called for, and made on the value that it
expected; a client whose update has been made has called for it last. -/
structure History (token : V → T) (init : V) (tr : List (Event ι V T)) (s : State ι V T) : Prop where
  made : ∀ u ∈ s.log, ∃ i, .called i (.cas u.expected u.new) ∈ tr
  linked : ∀ l u, u :: l <:+ s.log → u.expected = token (valueOf init l)
  called : ∀ i c, s.place i = .called c → lastCall i tr = some c
  acted : ∀ i n, s.place i = .acted .done n → ∃ u l, lastCall i tr = some (.cas u.expected u.new) ∧
    u :: l <:+ s.log ∧ l.length + 1 = n

section History

variable {token : V → T} {init : V} {tr : List (Event ι V T)} {s s' : State ι V T}
  {o : Option (Event ι V T)}

theorem History.initial : History (ι := ι) token init [] State.initial where
  made u h := by cases h
  linked l u h := by simp [State.initial, State.log] at h
  called i c h := by cases h
  acted i n h := by cases h

/-- One client comes to another place. -/
theorem History.set (h : History token init tr s) {tr' : List (Event ι V T)} {i : ι} {p : Place V T}
    (hother : ∀ e ∈ tr', ∀ j, j ≠ i → callOf j e = none)
    (hcalled : ∀ c, p = .called c → lastCall i (tr ++ tr') = some c)
    (hacted : ∀ n, p = .acted .done n → ∃ u l,
      lastCall i (tr ++ tr') = some (.cas u.expected u.new) ∧ u :: l <:+ s.log ∧ l.length + 1 = n) :
    History token init (tr ++ tr') (s.set i p) where
  made u hu := by
    obtain ⟨j, hj⟩ := h.made u hu
    exact ⟨j, List.mem_append_left _ hj⟩
  linked := h.linked
  called j c hj := by
    by_cases hji : j = i
    · subst hji
      rw [State.place_set_self] at hj
      exact hcalled c hj
    · rw [State.place_set_of_ne s p hji] at hj
      rw [lastCall_of_none fun e he => hother e he j hji]
      exact h.called j c hj
  acted j n hj := by
    by_cases hji : j = i
    · subst hji
      rw [State.place_set_self] at hj
      exact hacted n hj
    · rw [State.place_set_of_ne s p hji] at hj
      rw [lastCall_of_none fun e he => hother e he j hji]
      exact h.acted j n hj

/-- A client updates the value that it expects. -/
theorem History.update (h : History token init tr s) {i : ι} {e : T} {v : V}
    (hi : s.place i = .called (.cas e v)) (he : token (s.value init) = e) :
    History token init tr { s with recent := ⟨e, v⟩ :: s.recent } where
  made u hu := by
    rcases List.mem_cons.mp hu with rfl | hu
    · exact ⟨i, mem_of_lastCall (h.called i _ hi)⟩
    · exact h.made u hu
  linked l u hl := by
    rcases List.suffix_cons_iff.mp hl with heq | hl
    · obtain ⟨rfl, rfl⟩ := List.cons.inj heq
      exact he.symm
    · exact h.linked l u hl
  called := h.called
  acted j n hj := by
    obtain ⟨u, l, hlast, hl, hn⟩ := h.acted j n hj
    exact ⟨u, l, hlast, hl.trans (List.suffix_cons ..), hn⟩

/-- **`History.step`** — every step keeps it, with what can be seen of the step. -/
theorem History.step (h : History token init tr s) (hstep : Step token init s o s') :
    History token init (tr ++ o.toList) s' := by
  cases hstep with
  | @call i c hi =>
      refine h.set (fun e he j hj => ?_) (fun c' hc => ?_) fun n hn => by cases hn
      · rw [List.mem_singleton.mp he, callOf, if_neg hj.symm]
      · cases hc
        rw [lastCall_append]
        simp [lastCall, callOf]
  | @actRead i hi => exact h.set (by simp) (fun c hc => by cases hc) fun n hn => by cases hn
  | @actUpdate i e v hi he =>
      refine (h.update hi he).set (by simp) (fun c hc => by cases hc) fun n hn => ?_
      cases hn
      refine ⟨⟨e, v⟩, s.log, ?_, List.suffix_rfl, rfl⟩
      rw [Option.toList_none, List.append_nil]
      exact h.called i _ hi
  | @actStale i e v hi he => exact h.set (by simp) (fun c hc => by cases hc) fun n hn => by cases hn
  | @persist l₁ l₂ hs =>
      have hlog : (State.log { s with recent := l₁, kept := l₂ ++ s.kept }) = s.log := by
        simp only [State.log, hs, List.append_assoc]
      rw [Option.toList_none, List.append_nil]
      exact ⟨by rw [hlog]; exact h.made, by rw [hlog]; exact h.linked, h.called, by rw [hlog]; exact h.acted⟩
  | @answer i a n hi hn =>
      refine h.set (fun e he j hj => ?_) (fun c hc => by cases hc) fun n hn => by cases hn
      rw [List.mem_singleton.mp he, callOf]
      rintro _ _ ⟨⟩
  | @fail i hi =>
      refine h.set (fun e he j hj => ?_) (fun c hc => by cases hc) fun n hn => by cases hn
      rw [List.mem_singleton.mp he, callOf]
      rintro _ _ ⟨⟩
  | @stop i =>
      refine h.set (fun e he j hj => ?_) (fun c hc => by cases hc) fun n hn => by cases hn
      rw [List.mem_singleton.mp he, callOf]
      rintro _ _ ⟨⟩
  | powerCut =>
      refine ⟨fun u hu => ?_, fun l u hl => ?_, fun i c hc => (by cases hc), fun i n hn => (by cases hn)⟩
      · obtain ⟨j, hj⟩ := h.made u (List.mem_append_right _ hu)
        exact ⟨j, List.mem_append_left _ hj⟩
      · exact h.linked l u (hl.trans (List.suffix_append ..))

theorem History.run {os : List (Option (Event ι V T))} (hrun : Run (Step token init) State.initial os s) :
    History token init os.reduceOption s := by
  have h := hrun.history History.initial fun tr a o b hstep hinv => History.step hinv hstep
  rwa [List.nil_append] at h

/-! ## What lasts -/

/-- What has been persisted stays. -/
theorem kept_suffix {os : List (Option (Event ι V T))} (hrun : Run (Step token init) s os s') :
    s.kept <:+ s'.kept := by
  refine Run.relate (R := fun a b => a.kept <:+ b.kept) (fun a => List.suffix_rfl)
    (fun a b c => List.IsSuffix.trans) hrun fun a o b hstep => ?_
  cases hstep with
  | persist h => exact List.suffix_append ..
  | call => exact List.suffix_rfl
  | actRead => exact List.suffix_rfl
  | actUpdate => exact List.suffix_rfl
  | actStale => exact List.suffix_rfl
  | answer => exact List.suffix_rfl
  | fail => exact List.suffix_rfl
  | stop => exact List.suffix_rfl
  | powerCut => exact List.suffix_rfl

/-- The updates lead from one value to the next, each on a call. -/
theorem History.replaces (h : History token init tr s) {l : List (Update V T)} (hl : l <:+ s.log) :
    Relation.ReflTransGen (Replaces token tr) (valueOf init l) (s.value init) := by
  obtain ⟨l', hl'⟩ := hl
  rw [State.value, ← hl']
  have hsuf : l' ++ l <:+ s.log := hl' ▸ List.suffix_rfl
  clear hl'
  induction l' with
  | nil => exact .refl
  | cons u l' ih =>
      refine (ih ((List.suffix_cons ..).trans hsuf)).tail ?_
      obtain ⟨i, hi⟩ := h.made u (hsuf.subset (List.mem_cons_self ..))
      exact ⟨i, h.linked _ u hsuf ▸ hi⟩

/-- **`acknowledged`** — when an update is acknowledged, it has been called for, and whatever the register
holds afterwards has been made out of its value, one call after the other. -/
theorem acknowledged {i : ι} {os : List (Option (Event ι V T))} {tr' : List (Event ι V T)}
    (hrun : Run (Step token init) State.initial os s)
    (htr : os.reduceOption = tr ++ .answered i .done :: tr') :
    ∃ e v, lastCall i tr = some (.cas e v) ∧
      Relation.ReflTransGen (Replaces token os.reduceOption) v (s.value init) := by
  obtain ⟨os₁, os₂, rfl, rfl, hrest⟩ := List.filterMap_eq_append_iff.mp htr
  obtain ⟨os₃, o, os₄, rfl, hnone, rfl, rfl⟩ := List.filterMap_eq_cons_iff.mp hrest
  obtain ⟨s₁, h₁, h₂⟩ := run_append.mp hrun
  obtain ⟨s₂, h₂, h₃⟩ := run_append.mp h₂
  have hsilent : os₃.reduceOption = [] := List.filterMap_eq_nil_iff.mpr fun o ho => hnone o ho
  have hbefore := History.run (run_append.mpr ⟨s₁, h₁, h₂⟩)
  rw [List.reduceOption_append, hsilent, List.append_nil] at hbefore
  cases h₃ with
  | cons hdone h₄ =>
      cases hdone with
      | @answer _ _ n hi hn =>
          obtain ⟨u, l, hlast, hl, hlen⟩ := hbefore.acted i n hi
          refine ⟨u.expected, u.new, hlast, ?_⟩
          -- the update has been persisted, so it is there at the end
          have hkept : u :: l <:+ s₂.kept :=
            List.suffix_of_suffix_length_le hl (List.suffix_append ..) (by
              rw [List.length_cons, hlen]
              exact hn rfl)
          have hstays : (s₂.set i .idle).kept <:+ s.kept := kept_suffix h₄
          exact (History.run hrun).replaces ((hkept.trans hstays).trans (List.suffix_append ..))

end History

end Omemfs.Lib.CasRegister
