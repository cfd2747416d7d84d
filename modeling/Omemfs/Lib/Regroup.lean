/-
# Omemfs.Lib.Regroup — a stream of bits in digits of one width, regrouped into digits of another.

A text encoding of bytes reads digits of `a` bits and writes digits of `b` bits, with a machine word in
between that holds the bits not written yet.  Seen as a list of bits, highest first, nothing is lost and
nothing is added (`Regroup.carries_foldl`), whatever the upper part of the word has in it: a full word
only forgets what is written already.
-/
import Mathlib.Data.Nat.Bitwise
import Mathlib.Tactic.Ring

namespace Omemfs.Lib

/-! ## The bits of a digit -/

/-- The low `w` bits of a number, the highest first. -/
def msb : Nat → Nat → List Bool
  | 0, _ => []
  | w + 1, n => n.testBit w :: msb w n

@[simp]
theorem length_msb (w n : Nat) : (msb w n).length = w := by
  induction w with
  | zero => rfl
  | succ w ih => simp [msb, ih]

theorem msb_congr {w n m : Nat} (h : ∀ i < w, n.testBit i = m.testBit i) : msb w n = msb w m := by
  induction w with
  | zero => rfl
  | succ w ih =>
      rw [msb, msb, h w (Nat.lt_succ_self w), ih fun i hi => h i (Nat.lt_succ_of_lt hi)]

theorem testBit_of_msb {w n m : Nat} (h : msb w n = msb w m) : ∀ i < w, n.testBit i = m.testBit i := by
  induction w with
  | zero =>
      intro i hi
      omega
  | succ w ih =>
      obtain ⟨htop, hrest⟩ := List.cons_eq_cons.mp h
      intro i hi
      by_cases hw : i = w
      · exact hw ▸ htop
      · exact ih hrest i (by omega)

theorem msb_add (v w n : Nat) : msb (v + w) n = msb v (n >>> w) ++ msb w n := by
  induction v with
  | zero => simp [msb]
  | succ v ih =>
      rw [Nat.succ_add, msb, ih, msb, List.cons_append, Nat.testBit_shiftRight, Nat.add_comm w v]

/-- A digit is known by its bits. -/
theorem msb_inj {w n m : Nat} (hn : n < 2 ^ w) (hm : m < 2 ^ w) (h : msb w n = msb w m) : n = m := by
  apply Nat.eq_of_testBit_eq
  intro i
  by_cases hi : i < w
  · exact testBit_of_msb h i hi
  · have hpow : 2 ^ w ≤ 2 ^ i := Nat.pow_le_pow_right (by decide) (by omega)
    rw [Nat.testBit_lt_two_pow (hn.trans_le hpow), Nat.testBit_lt_two_pow (hm.trans_le hpow)]

theorem msb_zero (w : Nat) : msb w 0 = List.replicate w false := by
  induction w with
  | zero => rfl
  | succ w ih => simp [msb, ih, List.replicate_succ]

theorem msb_eq_replicate_iff {w n : Nat} : msb w n = List.replicate w false ↔ 2 ^ w ∣ n := by
  rw [← msb_zero w]
  constructor
  · intro h
    apply Nat.dvd_of_mod_eq_zero
    apply Nat.eq_of_testBit_eq
    intro i
    rw [Nat.testBit_mod_two_pow, Nat.zero_testBit]
    by_cases hi : i < w
    · simp [testBit_of_msb h i hi]
    · simp [hi]
  · rintro ⟨m, rfl⟩
    apply msb_congr
    intro i hi
    have hlow : ¬ w ≤ i := by omega
    simp [Nat.testBit_two_pow_mul, hlow]

/-- A digit that is shifted up has its bits first. -/
theorem msb_shiftLeft (v w n : Nat) : msb (v + w) (n <<< w) = msb v n ++ List.replicate w false := by
  rw [msb_add, ← msb_zero w]
  congr 1
  · apply msb_congr
    intro i _
    simp
  · apply msb_congr
    intro i hi
    simp [Nat.testBit_shiftLeft, hi]

/-! ## Digits and their bits -/

/-- The digits, and the bits that are too few for one, are known by all the bits. -/
theorem digits_unique {w : Nat} {l l' : List Nat} {r r' : List Bool} (hl : ∀ x ∈ l, x < 2 ^ w)
    (hl' : ∀ x ∈ l', x < 2 ^ w) (hr : r.length < w) (hr' : r'.length < w)
    (h : l.flatMap (msb w) ++ r = l'.flatMap (msb w) ++ r') : l = l' ∧ r = r' := by
  induction l generalizing l' with
  | nil =>
      cases l' with
      | nil => exact ⟨rfl, h⟩
      | cons y l' =>
          have hlen := congrArg List.length h
          simp at hlen
          omega
  | cons x l ih =>
      cases l' with
      | nil =>
          have hlen := congrArg List.length h
          simp at hlen
          omega
      | cons y l' =>
          simp only [List.flatMap_cons, List.append_assoc] at h
          obtain ⟨hxy, hrest⟩ := List.append_inj h (by simp)
          obtain ⟨hll, hrr⟩ := ih (fun z hz => hl z (List.mem_cons_of_mem _ hz))
            (fun z hz => hl' z (List.mem_cons_of_mem _ hz)) hrest
          have heq : x = y :=
            msb_inj (hl x (List.mem_cons_self ..)) (hl' y (List.mem_cons_self ..)) hxy
          exact ⟨by rw [heq, hll], hrr⟩

theorem length_flatMap_msb (w : Nat) (l : List Nat) : (l.flatMap (msb w)).length = w * l.length := by
  induction l with
  | nil => rfl
  | cons x l ih =>
      rw [List.flatMap_cons, List.length_append, length_msb, ih, List.length_cons]
      ring

/-! ## The loop -/

/-- A word of 64 bits, of which the low `bits` are still to be written, and the digits written. -/
structure Regroup where
  buf : Nat
  bits : Nat
  output : List Nat

namespace Regroup

def empty : Regroup := ⟨0, 0, []⟩

/-- As long as a digit of `b` bits is there, it is written. -/
def drain (b : Nat) (hb : 0 < b) (st : Regroup) : Regroup :=
  if b ≤ st.bits then
    drain b hb
      ⟨st.buf, st.bits - b, st.output ++ [(st.buf >>> (st.bits - b)) &&& (2 ^ b - 1)]⟩
  else st
termination_by st.bits

/-- A digit of `a` bits is read. -/
def feed (a b : Nat) (hb : 0 < b) (st : Regroup) (x : Nat) : Regroup :=
  drain b hb ⟨((st.buf <<< a) % 2 ^ 64) ||| x, st.bits + a, st.output⟩

/-- All the bits that have been read. -/
def carries (b : Nat) (st : Regroup) : List Bool := st.output.flatMap (msb b) ++ msb st.bits st.buf

/-- What is written are digits, and less than one is left. -/
structure Ready (b : Nat) (st : Regroup) : Prop where
  bits : st.bits < b
  digits : ∀ x ∈ st.output, x < 2 ^ b

variable {a b : Nat} {hb : 0 < b}

theorem ready_empty (hb : 0 < b) : Ready b empty := ⟨hb, by simp [empty]⟩

theorem drain_spec (st : Regroup) (h : ∀ x ∈ st.output, x < 2 ^ b) :
    Ready b (drain b hb st) ∧ (drain b hb st).carries b = st.carries b := by
  induction st using drain.induct b hb with
  | case1 st hle ih =>
      rw [drain, if_pos hle]
      have hdigit : (st.buf >>> (st.bits - b)) &&& (2 ^ b - 1) < 2 ^ b :=
        Nat.and_lt_two_pow _ (Nat.sub_lt (Nat.two_pow_pos b) Nat.one_pos)
      obtain ⟨hready, hcarries⟩ := ih (by
        intro x hx
        rcases List.mem_append.mp hx with hx | hx
        · exact h x hx
        · rw [List.mem_singleton.mp hx]
          exact hdigit)
      refine ⟨hready, hcarries.trans ?_⟩
      -- the highest of the bits in the word become the digit
      have hsplit : msb st.bits st.buf = msb b (st.buf >>> (st.bits - b)) ++ msb (st.bits - b) st.buf := by
        rw [← msb_add, Nat.add_sub_cancel' hle]
      have hmask : msb b ((st.buf >>> (st.bits - b)) &&& (2 ^ b - 1)) =
          msb b (st.buf >>> (st.bits - b)) := by
        apply msb_congr
        intro i hi
        simp [hi]
      show (st.output ++ [(st.buf >>> (st.bits - b)) &&& (2 ^ b - 1)]).flatMap (msb b) ++
        msb (st.bits - b) st.buf = st.carries b
      rw [carries, hsplit, List.flatMap_append, List.flatMap_singleton, hmask, List.append_assoc]
  | case2 st hlt =>
      rw [drain, if_neg hlt]
      exact ⟨⟨by omega, h⟩, rfl⟩

/-- **`feed_spec`** — reading a digit adds its bits, and pushes out of the word none that matter. -/
theorem feed_spec (hab : a + b ≤ 64) {st : Regroup} (h : Ready b st) {x : Nat} (hx : x < 2 ^ a) :
    Ready b (st.feed a b hb x) ∧ (st.feed a b hb x).carries b = st.carries b ++ msb a x := by
  obtain ⟨hready, hcarries⟩ :=
    @drain_spec b hb ⟨((st.buf <<< a) % 2 ^ 64) ||| x, st.bits + a, st.output⟩ h.digits
  refine ⟨hready, hcarries.trans ?_⟩
  have hbits := h.bits
  have hword : msb (st.bits + a) (((st.buf <<< a) % 2 ^ 64) ||| x) = msb st.bits st.buf ++ msb a x := by
    rw [msb_add]
    congr 1
    · -- what was in the word moves up, and fewer than `b` bits of it count
      apply msb_congr
      intro i hi
      have hhigh : x.testBit (a + i) = false :=
        Nat.testBit_lt_two_pow (hx.trans_le (Nat.pow_le_pow_right (by decide) (by omega)))
      have hin : a + i < 64 := by omega
      rw [Nat.testBit_shiftRight, Nat.testBit_or, hhigh, Bool.or_false, Nat.testBit_mod_two_pow,
        Nat.testBit_shiftLeft]
      simp [hin]
    · apply msb_congr
      intro i hi
      have hlow : ¬ a ≤ i := by omega
      rw [Nat.testBit_or, Nat.testBit_mod_two_pow, Nat.testBit_shiftLeft]
      simp [hlow]
  show st.output.flatMap (msb b) ++ msb (st.bits + a) (((st.buf <<< a) % 2 ^ 64) ||| x) =
    st.carries b ++ msb a x
  rw [carries, hword, List.append_assoc]

/-- **`carries_foldl`** — the loop writes the bits that it reads. -/
theorem carries_foldl (hab : a + b ≤ 64) {xs : List Nat} (hxs : ∀ x ∈ xs, x < 2 ^ a) {st : Regroup}
    (h : Ready b st) : Ready b (xs.foldl (feed a b hb) st) ∧
      (xs.foldl (feed a b hb) st).carries b = st.carries b ++ xs.flatMap (msb a) := by
  induction xs generalizing st with
  | nil => exact ⟨h, by simp⟩
  | cons x xs ih =>
      obtain ⟨hready, hcarries⟩ := @feed_spec a b hb hab st h x (hxs x (List.mem_cons_self ..))
      obtain ⟨hready', hcarries'⟩ := ih (fun y hy => hxs y (List.mem_cons_of_mem _ hy)) hready
      refine ⟨hready', hcarries'.trans ?_⟩
      rw [hcarries, List.append_assoc, List.flatMap_cons]

end Regroup

end Omemfs.Lib
