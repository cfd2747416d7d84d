/-
# Omemfs.Lib.Bytes — fixed-width integers in byte strings, and the cursor that reads them back.

A byte string is a list of `UInt8`.  `toBE n v` writes the low `n` bytes of `v`, most significant
first, and `ofBE` reads any byte string as a number; the two are inverse on numbers that fit
(`ofBE_toBE`) and on byte strings (`toBE_ofBE`), and a prefix of a big-endian string holds the
leading digits (`take_toBE`).  `takeExact` is the bounds check every binary reader makes before it
moves its cursor: it succeeds exactly when enough bytes are left.
-/
import Mathlib.Data.List.Induction
import Mathlib.Tactic.Ring

namespace Omemfs.Lib

/-- A byte string. -/
abbrev Bytes := List UInt8

namespace Bytes

/-! ## Big-endian and little-endian numbers -/

/-- The low `n` bytes of `v`, most significant first. -/
def toBE : Nat → Nat → Bytes
  | 0, _ => []
  | n + 1, v => toBE n (v / 256) ++ [UInt8.ofNat v]

/-- A byte string read as a big-endian number. -/
def ofBE (b : Bytes) : Nat := b.foldl (fun v x => v * 256 + x.toNat) 0

/-- A byte string read as a little-endian number. -/
def ofLE : Bytes → Nat
  | [] => 0
  | x :: xs => x.toNat + 256 * ofLE xs

@[simp]
theorem length_toBE (n v : Nat) : (toBE n v).length = n := by
  induction n generalizing v with
  | zero => rfl
  | succ n ih => simp [toBE, ih]

@[simp]
theorem ofBE_nil : ofBE [] = 0 := rfl

theorem ofBE_concat (b : Bytes) (x : UInt8) : ofBE (b ++ [x]) = ofBE b * 256 + x.toNat := by
  simp [ofBE, List.foldl_append]

/-- **`ofBE_toBE`** — a number that fits in `n` bytes is read back unchanged. -/
theorem ofBE_toBE {n v : Nat} (h : v < 256 ^ n) : ofBE (toBE n v) = v := by
  induction n generalizing v with
  | zero =>
      have hv : v = 0 := by simpa using h
      simp [toBE, hv]
  | succ n ih =>
      have hdiv : v / 256 < 256 ^ n := by
        apply Nat.div_lt_of_lt_mul
        rwa [pow_succ, Nat.mul_comm] at h
      rw [toBE, ofBE_concat, ih hdiv, UInt8.toNat_ofNat']
      omega

theorem ofBE_lt (b : Bytes) : ofBE b < 256 ^ b.length := by
  induction b using List.reverseRecOn with
  | nil => simp
  | append_singleton b x ih =>
      have hx : x.toNat < 256 := x.toNat_lt
      rw [ofBE_concat, List.length_append, List.length_singleton, pow_succ]
      omega

/-- **`toBE_ofBE`** — writing the number a byte string stands for gives the string back. -/
theorem toBE_ofBE (b : Bytes) : toBE b.length (ofBE b) = b := by
  induction b using List.reverseRecOn with
  | nil => rfl
  | append_singleton b x ih =>
      have hx : x.toNat < 256 := x.toNat_lt
      have hdiv : (ofBE b * 256 + x.toNat) / 256 = ofBE b := by omega
      have hlow : UInt8.ofNat (ofBE b * 256 + x.toNat) = x := by
        apply UInt8.toNat_inj.mp
        rw [UInt8.toNat_ofNat']
        omega
      rw [List.length_append, List.length_singleton, toBE, ofBE_concat, hdiv, hlow, ih]

/-- The first `k` bytes of an `n`-byte big-endian number are its leading digits. -/
theorem take_toBE {n k : Nat} (h : k ≤ n) (v : Nat) :
    (toBE n v).take k = toBE k (v / 256 ^ (n - k)) := by
  induction n generalizing v with
  | zero =>
      obtain rfl : k = 0 := by omega
      rfl
  | succ n ih =>
      rcases Nat.lt_or_ge k (n + 1) with hlt | hge
      · have hk : k ≤ n := by omega
        rw [toBE, List.take_append_of_le_length (by rw [length_toBE]; exact hk), ih hk,
          Nat.div_div_eq_div_mul, show n + 1 - k = (n - k) + 1 by omega, pow_succ, Nat.mul_comm]
      · obtain rfl : k = n + 1 := by omega
        rw [List.take_of_length_le (by rw [length_toBE]), Nat.sub_self, pow_zero, Nat.div_one]

theorem getElem?_toBE {n k : Nat} (h : k < n) (v : Nat) :
    (toBE n v)[k]? = some (UInt8.ofNat (v / 256 ^ (n - 1 - k))) := by
  have htake : ((toBE n v).take (k + 1))[k]? = (toBE n v)[k]? := by
    rw [List.getElem?_take, if_pos (Nat.lt_succ_self k)]
  rw [← htake, take_toBE h, toBE, List.getElem?_append_right (by rw [length_toBE]), length_toBE,
    Nat.sub_self, List.getElem?_cons_zero, show n - (k + 1) = n - 1 - k by omega]

/-- Shifting in one byte after the other, as a reader of a prefix does, reads the number. -/
theorem foldl_shift_eq_ofBE (b : Bytes) :
    b.foldl (fun v x => (v <<< 8) ||| x.toNat) 0 = ofBE b := by
  have hstep : (fun (v : Nat) (x : UInt8) => (v <<< 8) ||| x.toNat) =
      fun v x => v * 256 + x.toNat := by
    funext v x
    rw [← Nat.shiftLeft_add_eq_or_of_lt x.toNat_lt, Nat.shiftLeft_eq]
  rw [hstep, ofBE]

/-! ## Reading at an offset and with a cursor -/

/-- `n` bytes from offset `pos`. -/
def slice (pos n : Nat) (b : Bytes) : Bytes := (b.drop pos).take n

theorem slice_append {pos n : Nat} {x y z : Bytes} (hx : x.length = pos) (hy : y.length = n) :
    slice pos n (x ++ (y ++ z)) = y := by
  subst hx
  subst hy
  simp [slice]

theorem slice_append_left {pos n : Nat} {x : Bytes} (h : pos + n ≤ x.length) (y : Bytes) :
    slice pos n (x ++ y) = slice pos n x := by
  rw [slice, slice, List.drop_append_of_le_length (by omega),
    List.take_append_of_le_length (by rw [List.length_drop]; omega)]

theorem slice_append_right (x y : Bytes) : slice x.length y.length (x ++ y) = y := by
  rw [slice, List.drop_left, List.take_length]

theorem length_slice {pos n : Nat} {b : Bytes} (h : pos + n ≤ b.length) :
    (slice pos n b).length = n := by
  rw [slice, List.length_take, List.length_drop]
  omega

/-- `piece` stands at offset `pos` of `b`. -/
def StandsAt (pos : Nat) (piece b : Bytes) : Prop := ∃ x z, x.length = pos ∧ b = x ++ (piece ++ z)

namespace StandsAt

variable {pos : Nat} {b y z : Bytes}

theorem slice_eq (h : StandsAt pos y b) : slice pos y.length b = y := by
  obtain ⟨x, z, hx, rfl⟩ := h
  exact slice_append hx rfl

theorem le (h : StandsAt pos y b) : pos + y.length ≤ b.length := by
  obtain ⟨x, z, hx, rfl⟩ := h
  rw [List.length_append, List.length_append, hx]
  omega

/-- A number written where it fits is read back. -/
theorem ofBE_slice {n v : Nat} (h : StandsAt pos (toBE n v) b) (hv : v < 256 ^ n) :
    ofBE (slice pos n b) = v := by
  have hslice := h.slice_eq
  rw [length_toBE] at hslice
  rw [hslice, ofBE_toBE hv]

theorem left (h : StandsAt pos (y ++ z) b) : StandsAt pos y b := by
  obtain ⟨x, w, hx, rfl⟩ := h
  exact ⟨x, z ++ w, hx, by rw [List.append_assoc]⟩

theorem right (h : StandsAt pos (y ++ z) b) : StandsAt (pos + y.length) z b := by
  obtain ⟨x, w, hx, rfl⟩ := h
  exact ⟨x ++ y, w, by rw [List.length_append, hx], by simp [List.append_assoc]⟩

theorem trans {k : Nat} (h : StandsAt pos y b) (hz : StandsAt k z y) : StandsAt (pos + k) z b := by
  obtain ⟨x, w, hx, rfl⟩ := h
  obtain ⟨u, v, hu, rfl⟩ := hz
  exact ⟨x ++ u, v ++ w, by rw [List.length_append, hx, hu], by simp [List.append_assoc]⟩

/-- The piece of a list's element stands behind the pieces of the elements before it. -/
theorem flatMap {α : Type*} (f : α → Bytes) {xs : List α} {i : Nat} (hi : i < xs.length) :
    StandsAt ((xs.take i).map fun x => (f x).length).sum (f xs[i]) (xs.flatMap f) := by
  refine ⟨(xs.take i).flatMap f, (xs.drop (i + 1)).flatMap f, ?_, ?_⟩
  · rw [List.length_flatMap]
  · conv_lhs => rw [← List.take_append_drop i xs, List.drop_eq_getElem_cons hi]
    rw [List.flatMap_append, List.flatMap_cons]

end StandsAt

/-- Split off exactly `n` bytes, or fail when fewer are left. -/
def takeExact (n : Nat) (b : Bytes) : Option (Bytes × Bytes) :=
  if n ≤ b.length then some (b.take n, b.drop n) else none

@[simp]
theorem takeExact_append {n : Nat} {x y : Bytes} (h : x.length = n) :
    takeExact n (x ++ y) = some (x, y) := by
  subst h
  simp [takeExact]

theorem takeExact_eq_some {n : Nat} {b x y : Bytes} :
    takeExact n b = some (x, y) ↔ x.length = n ∧ b = x ++ y := by
  constructor
  · intro h
    unfold takeExact at h
    split at h
    · next hle =>
        obtain ⟨rfl, rfl⟩ : b.take n = x ∧ b.drop n = y := by simpa using h
        exact ⟨by simpa using hle, (List.take_append_drop n b).symm⟩
    · cases h
  · rintro ⟨hx, rfl⟩
    exact takeExact_append hx

end Bytes

end Omemfs.Lib
