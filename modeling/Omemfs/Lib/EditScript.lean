/-
# Omemfs.Lib.EditScript — edit scripts between two lists.

A script is a list of operations whose ranges tile both lists in order; an `equal` operation relates
equal stretches.  What a script keeps of the old list is what it finds again in the new one
(`kept_eq`), and the new list is made of that and of what the script brings in (`perm_new`).

A tiling cuts a list into consecutive pieces, some of them selected.
-/
import Mathlib.Data.List.Perm.Basic

namespace Omemfs.Lib

variable {α : Type*}

/-! ## Positions -/

/-- The members of a list at the positions `p` holds of. -/
def atPositions (p : Nat → Bool) (l : List α) : List α := (l.zipIdx.filter fun x => p x.2).map Prod.fst

theorem atPositions_congr {p q : Nat → Bool} {l : List α} (h : ∀ i < l.length, p i = q i) :
    atPositions p l = atPositions q l := by
  unfold atPositions
  congr 1
  apply List.filter_congr
  intro x hx
  exact h x.2 (by simpa using List.snd_lt_add_of_mem_zipIdx hx)

theorem atPositions_sublist {p q : Nat → Bool} (h : ∀ i, p i = true → q i = true) (l : List α) :
    (atPositions p l).Sublist (atPositions q l) :=
  (List.monotone_filter_right _ fun _ => h _).map Prod.fst

/-- The two halves of a list. -/
theorem atPositions_append_not (p : Nat → Bool) (l : List α) :
    (atPositions p l ++ atPositions (fun i => !p i) l).Perm l := by
  unfold atPositions
  rw [← List.map_append]
  have hperm := (List.filter_append_perm (fun x : α × Nat => p x.2) l.zipIdx).map Prod.fst
  simpa using hperm

/-! ## Tilings -/

structure Piece where
  start : Nat
  len : Nat
  sel : Bool

namespace Piece

/-- The position lies in the piece. -/
def covers (p : Piece) (i : Nat) : Bool := decide (p.start ≤ i) && decide (i < p.start + p.len)

/-- The pieces follow each other from the first position to the second. -/
def Tiling : Nat → Nat → List Piece → Prop
  | i, stop, [] => i = stop
  | i, stop, p :: ps => p.start = i ∧ Tiling (i + p.len) stop ps

/-- The position lies in a selected piece. -/
def selects (ps : List Piece) (i : Nat) : Bool := ps.any fun p => p.sel && p.covers i

def cut (l : List α) (p : Piece) : List α := (l.drop p.start).take p.len

variable {ps : List Piece} {i stop : Nat}

theorem Tiling.le (h : Tiling i stop ps) : i ≤ stop := by
  induction ps generalizing i with
  | nil => exact Nat.le_of_eq h
  | cons p ps ih =>
      have := ih h.2
      omega

theorem Tiling.start_le (h : Tiling i stop ps) {p : Piece} (hp : p ∈ ps) :
    i ≤ p.start ∧ p.start + p.len ≤ stop := by
  induction ps generalizing i with
  | nil => cases hp
  | cons q ps ih =>
      obtain ⟨hstart, hrest⟩ := h
      rcases List.mem_cons.mp hp with rfl | hp
      · exact ⟨Nat.le_of_eq hstart.symm, hstart ▸ hrest.le⟩
      · have := ih hrest hp
        omega

theorem Tiling.selects_bounds (h : Tiling i stop ps) {k : Nat} (hk : selects ps k = true) :
    i ≤ k ∧ k < stop := by
  obtain ⟨p, hp, hsel⟩ := List.any_eq_true.mp hk
  have hbounds := h.start_le hp
  simp only [covers, Bool.and_eq_true, decide_eq_true_eq] at hsel
  omega

theorem Tiling.exists_covers {ps : List Piece} {i stop k : Nat} (h : Tiling i stop ps)
    (hlo : i ≤ k) (hhi : k < stop) : ∃ p ∈ ps, p.covers k = true := by
  induction ps generalizing i with
  | nil =>
      have hend : i = stop := h
      omega
  | cons p ps ih =>
      obtain ⟨rfl, hrest⟩ := h
      by_cases hk : k < p.start + p.len
      · exact ⟨p, List.mem_cons_self .., by simp [covers, hlo, hk]⟩
      · obtain ⟨q, hq, hcov⟩ := ih hrest (by omega)
        exact ⟨q, List.mem_cons_of_mem _ hq, hcov⟩

theorem Tiling.concat {ps : List Piece} {i stop : Nat} (h : Tiling i stop ps) {p : Piece}
    (hp : p.start = stop) : Tiling i (stop + p.len) (ps ++ [p]) := by
  induction ps generalizing i with
  | nil =>
      obtain rfl : i = stop := h
      exact ⟨hp, rfl⟩
  | cons q ps ih => exact ⟨h.1, ih h.2⟩

/-- Every position is in exactly one piece. -/
theorem Tiling.selects_not (h : Tiling i stop ps) {k : Nat} (hlo : i ≤ k) (hhi : k < stop) :
    selects (ps.map fun p => { p with sel := !p.sel }) k = !selects ps k := by
  induction ps generalizing i with
  | nil =>
      have hend : i = stop := h
      omega
  | cons p ps ih =>
      obtain ⟨rfl, hrest⟩ := h
      have hcons : ∀ (q : Piece) qs, selects (q :: qs) k = (q.sel && q.covers k || selects qs k) :=
        fun _ _ => rfl
      rw [List.map_cons, hcons, hcons]
      by_cases hk : k < p.start + p.len
      · have hcov : p.covers k = true := by simp [covers, hlo, hk]
        have hcov' : ({ p with sel := !p.sel } : Piece).covers k = true := hcov
        have hout : selects ps k = false := by
          rw [Bool.eq_false_iff]
          intro hsel
          have := hrest.selects_bounds hsel
          omega
        have hout' : selects (ps.map fun p => { p with sel := !p.sel }) k = false := by
          rw [Bool.eq_false_iff]
          intro hsel
          obtain ⟨q, hq, hqsel⟩ := List.any_eq_true.mp hsel
          obtain ⟨q', hq', rfl⟩ := List.mem_map.mp hq
          have hbounds := hrest.start_le hq'
          simp only [covers, Bool.and_eq_true, decide_eq_true_eq] at hqsel
          omega
        rw [hcov, hcov', hout, hout']
        cases p.sel <;> rfl
      · have hcov : p.covers k = false := by simp [covers, hk]
        have hcov' : ({ p with sel := !p.sel } : Piece).covers k = false := hcov
        rw [hcov, hcov', ih hrest (by omega)]
        cases p.sel <;> rfl

theorem selects_cons (p : Piece) (ps : List Piece) (k : Nat) :
    selects (p :: ps) k = (p.sel && p.covers k || selects ps k) := rfl

theorem cut_zipIdx (h : Tiling i stop ps) {l : List α} (hlen : l.length = stop) :
    (((l.drop i).zipIdx i).filter fun x => selects ps x.2).map Prod.fst =
      ps.flatMap fun p => if p.sel then cut l p else [] := by
  induction ps generalizing i with
  | nil =>
      obtain rfl : i = stop := h
      simp [← hlen]
  | cons p ps ih =>
      have hle := (Tiling.start_le h (List.mem_cons_self ..)).2
      obtain ⟨rfl, hrest⟩ := h
      have hcut : (cut l p).length = p.len := by
        rw [cut, List.length_take, List.length_drop]
        omega
      have hsplit : l.drop p.start = cut l p ++ l.drop (p.start + p.len) := by
        rw [cut, ← List.drop_drop, List.take_append_drop]
      rw [hsplit, List.zipIdx_append, hcut, List.filter_append, List.map_append, List.flatMap_cons]
      congr 1
      · -- in the piece itself only its own selection counts
        have hself : ((cut l p).zipIdx p.start).filter (fun x => selects (p :: ps) x.2) =
            ((cut l p).zipIdx p.start).filter fun _ => p.sel := by
          apply List.filter_congr
          intro x hx
          have hlo := List.le_snd_of_mem_zipIdx hx
          have hhi := List.snd_lt_add_of_mem_zipIdx hx
          have hcov : p.covers x.2 = true := by simp [covers, hlo]; omega
          have hout : selects ps x.2 = false := by
            rw [Bool.eq_false_iff]
            intro hsel
            have := hrest.selects_bounds hsel
            omega
          rw [selects_cons, hcov, hout, Bool.and_true, Bool.or_false]
        rw [hself]
        cases p.sel <;> simp
      · rw [← ih hrest]
        congr 1
        apply List.filter_congr
        intro x hx
        have hlo := List.le_snd_of_mem_zipIdx hx
        have hcov : p.covers x.2 = false := by simp [covers]; omega
        rw [selects_cons, hcov, Bool.and_false, Bool.false_or]

/-- **`atPositions_selects`** — the selected positions are those of the selected pieces, in order. -/
theorem atPositions_selects {l : List α} (h : Tiling 0 l.length ps) :
    atPositions (selects ps) l = ps.flatMap fun p => if p.sel then cut l p else [] := by
  have hcut := cut_zipIdx h rfl
  rwa [List.drop_zero] at hcut

end Piece

/-! ## Scripts -/

/-- One operation of a script, with the fields it is given by. -/
inductive DiffOp where
  | equal (oldIndex newIndex len : Nat)
  | delete (oldIndex oldLen newIndex : Nat)
  | insert (oldIndex newIndex newLen : Nat)
  | replace (oldIndex oldLen newIndex newLen : Nat)
  deriving DecidableEq

namespace DiffOp

def isEqual : DiffOp → Bool
  | .equal .. => true
  | _ => false

/-- The stretch of the old list the operation is about. -/
def oldPiece : DiffOp → Piece
  | .equal i _ n => ⟨i, n, true⟩
  | .delete i n _ => ⟨i, n, false⟩
  | .insert i _ _ => ⟨i, 0, false⟩
  | .replace i n _ _ => ⟨i, n, false⟩

/-- The stretch of the new list the operation is about. -/
def newPiece : DiffOp → Piece
  | .equal _ j n => ⟨j, n, true⟩
  | .delete _ _ j => ⟨j, 0, false⟩
  | .insert _ j n => ⟨j, n, false⟩
  | .replace _ _ j n => ⟨j, n, false⟩

@[simp]
theorem sel_oldPiece (op : DiffOp) : op.oldPiece.sel = op.isEqual := by
  cases op <;> rfl

@[simp]
theorem sel_newPiece (op : DiffOp) : op.newPiece.sel = op.isEqual := by
  cases op <;> rfl

end DiffOp

/-- The operations tile both lists in order, and equal stretches are equal. -/
structure EditScript (old new : List α) (ops : List DiffOp) : Prop where
  old_tiling : Piece.Tiling 0 old.length (ops.map DiffOp.oldPiece)
  new_tiling : Piece.Tiling 0 new.length (ops.map DiffOp.newPiece)
  equal : ∀ op ∈ ops, op.isEqual = true → Piece.cut old op.oldPiece = Piece.cut new op.newPiece

/-- An `equal` operation covers the position of the old list. -/
def keepsOld (ops : List DiffOp) : Nat → Bool := Piece.selects (ops.map DiffOp.oldPiece)

/-- An `equal` operation covers the position of the new list. -/
def keepsNew (ops : List DiffOp) : Nat → Bool := Piece.selects (ops.map DiffOp.newPiece)

namespace EditScript

variable {old new : List α} {ops : List DiffOp}

/-- **`kept_eq`** — what a script keeps of the old list it finds again in the new one. -/
theorem kept_eq (h : EditScript old new ops) :
    atPositions (keepsOld ops) old = atPositions (keepsNew ops) new := by
  unfold keepsOld keepsNew
  rw [Piece.atPositions_selects h.old_tiling, Piece.atPositions_selects h.new_tiling,
    List.flatMap_map, List.flatMap_map, List.flatMap_def, List.flatMap_def]
  congr 1
  apply List.map_congr_left
  intro op hop
  rw [DiffOp.sel_oldPiece, DiffOp.sel_newPiece]
  cases heq : op.isEqual with
  | true => rw [if_pos rfl, if_pos rfl, h.equal op hop heq]
  | false => rfl

/-- What a script brings in, operation by operation. -/
theorem brought_eq (h : EditScript old new ops) :
    atPositions (fun j => !keepsNew ops j) new =
      ops.flatMap fun op => if op.isEqual then [] else Piece.cut new op.newPiece := by
  have hnot : atPositions (fun j => !keepsNew ops j) new =
      atPositions (Piece.selects ((ops.map DiffOp.newPiece).map fun p => { p with sel := !p.sel })) new := by
    apply atPositions_congr
    intro j hj
    exact (h.new_tiling.selects_not (Nat.zero_le j) hj).symm
  have htiling : ∀ (ps : List Piece) i stop, Piece.Tiling i stop ps →
      Piece.Tiling i stop (ps.map fun p => { p with sel := !p.sel }) := by
    intro ps
    induction ps with
    | nil => exact fun _ _ h => h
    | cons p ps ih => exact fun _ _ h => ⟨h.1, ih _ _ h.2⟩
  rw [hnot, Piece.atPositions_selects (htiling _ _ _ h.new_tiling), List.flatMap_map, List.flatMap_map]
  congr 1
  funext op
  show (if (!op.newPiece.sel) = true then _ else _) = _
  rw [DiffOp.sel_newPiece]
  cases op.isEqual <;> rfl

/-- The new list is what is kept of the old one and what is brought in. -/
theorem perm_new (h : EditScript old new ops) :
    (atPositions (keepsOld ops) old ++ atPositions (fun j => !keepsNew ops j) new).Perm new := by
  rw [h.kept_eq]
  exact atPositions_append_not _ _

end EditScript

end Omemfs.Lib
