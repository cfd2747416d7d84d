/-
# Omemfs.Sync.LineMerge — the three-way merge of line-based files.

Both sides are compared with their common base, record by record; a record of the base survives when
either side keeps it, and what a side brings in is appended.  The two scripts are given: they are what
the diff library answers, and any script may be answered.

A merged file holds each base record that a side keeps once, and each record a side brings in
(`merge_records`); so neither side loses a record.
-/
import Mathlib.Data.List.Perm.Subperm
import Mathlib.Data.List.Sort
import Omemfs.Lib.Bytes
import Omemfs.Lib.EditScript

namespace Omemfs.Sync

open Lib

/-! ## Lines -/

def newline : UInt8 := 0x0A
def backslash : UInt8 := 0x5C

/-- The lines of a content, from within one of them.  A final newline starts no line. -/
def physLines : Bytes → Bytes → List Bytes
  | line, [] => if line.isEmpty then [] else [line]
  | line, b :: content =>
      if b = newline then line :: physLines [] content else physLines (line ++ [b]) content

/-- A line that ends in a backslash is continued by the next one, if there is one. -/
def joinContinued : List Bytes → List Bytes
  | [] => []
  | [line] => [line]
  | line :: next :: rest =>
      if line.getLast? = some backslash then
        match joinContinued (next :: rest) with
        | record :: records => (line ++ newline :: record) :: records
        | [] => [line]
      else line :: joinContinued (next :: rest)

def splitLines (content : Bytes) : List Bytes := joinContinued (physLines [] content)

def joinLines (lines : List Bytes) : Bytes :=
  List.intercalate [newline] lines ++ if lines.isEmpty then [] else [newline]

/-! ## Timestamps -/

def isAsciiDigit (b : UInt8) : Bool := decide (0x30 ≤ b) && decide (b ≤ 0x39)

def parseI64 (digits : Bytes) : Option Int :=
  let n : Nat := digits.foldl (fun n b => n * 10 + (b.toNat - 0x30)) 0
  if n < 2 ^ 63 then some (Int.ofNat n) else none

/-- `: <epoch>:<duration>;` -/
def parseExtendedHistoryTimestamp (line : Bytes) : Option Int := do
  let rest ← [0x3A, 0x20].isPrefixOf? line
  let colon ← rest.findIdx? (· == 0x3A)
  let epochBytes := rest.take colon
  guard (!epochBytes.isEmpty && epochBytes.all isAsciiDigit)
  let afterColon := rest.drop (colon + 1)
  let semicolon ← afterColon.findIdx? (· == 0x3B)
  let durationBytes := afterColon.take semicolon
  guard (!durationBytes.isEmpty && durationBytes.all isAsciiDigit)
  parseI64 epochBytes

/-- Lines without a timestamp come first. -/
def sortKey (line : Bytes) : Int := (parseExtendedHistoryTimestamp line).getD (-2 ^ 63)

/-! ## Segments -/

structure ChangeSegment where
  start : Nat
  stop : Nat
  otherLines : List Bytes

inductive Segment where
  | keep (start stop : Nat)
  | change (c : ChangeSegment)

def Segment.asChange : Segment → Option ChangeSegment
  | .change c => some c
  | .keep _ _ => none

def flush (pending : Option ChangeSegment) : List Segment := pending.toList.map .change

def extendRange (pending : Option ChangeSegment) (start stop : Nat) : ChangeSegment :=
  match pending with
  | some c => { c with start := min c.start start, stop := max c.stop stop }
  | none => ⟨start, stop, []⟩

def ChangeSegment.extendLines (c : ChangeSegment) (lines : List Bytes) : ChangeSegment :=
  { c with otherLines := c.otherLines ++ lines }

/-- The loop over the operations, with the change that is being collected. -/
def aggregateSegments (otherLines : List Bytes) : Option ChangeSegment → List DiffOp → List Segment
  | pending, [] => flush pending
  | pending, .equal oldIndex _ len :: ops =>
      flush pending ++ .keep oldIndex (oldIndex + len) :: aggregateSegments otherLines none ops
  | pending, .delete oldIndex oldLen _ :: ops =>
      aggregateSegments otherLines (some (extendRange pending oldIndex (oldIndex + oldLen))) ops
  | pending, .insert oldIndex newIndex newLen :: ops =>
      aggregateSegments otherLines
        (some ((extendRange pending oldIndex oldIndex).extendLines
          ((otherLines.drop newIndex).take newLen))) ops
  | pending, .replace oldIndex oldLen newIndex newLen :: ops =>
      aggregateSegments otherLines
        (some ((extendRange pending oldIndex (oldIndex + oldLen)).extendLines
          ((otherLines.drop newIndex).take newLen))) ops

def rangesOverlap (a b : ChangeSegment) : Bool := decide (max a.start b.start < min a.stop b.stop)

/-- The changes that carry new content. -/
def carrying (segments : List Segment) : List ChangeSegment :=
  (segments.filterMap Segment.asChange).filter fun c => !c.otherLines.isEmpty

def hasConflict (localSegments remoteSegments : List Segment) : Bool :=
  (carrying localSegments).any fun l => (carrying remoteSegments).any fun r => rangesOverlap l r

def keptBy (segments : List Segment) (i : Nat) : Bool :=
  segments.any fun s =>
    match s with
    | .keep start stop => decide (start ≤ i) && decide (i < stop)
    | .change _ => false

/-- A base line survives where either side keeps it. -/
def policyASurvivors (baseLines : List Bytes) (localSegments remoteSegments : List Segment) :
    List Bytes :=
  atPositions (fun i => keptBy localSegments i || keptBy remoteSegments i) baseLines

def changedOtherLines (segments : List Segment) : List Bytes :=
  (segments.filterMap Segment.asChange).flatMap ChangeSegment.otherLines

/-! ## The merge -/

inductive MergeOutcome where
  | clean (content : Bytes)
  | conflict

def merge (localOps remoteOps : List DiffOp) (base loc remote : Bytes) : MergeOutcome :=
  let baseLines := splitLines base
  let localLines := splitLines loc
  let remoteLines := splitLines remote
  let localSegments := aggregateSegments localLines none localOps
  let remoteSegments := aggregateSegments remoteLines none remoteOps
  if hasConflict localSegments remoteSegments then .conflict
  else
    let merged := policyASurvivors baseLines localSegments remoteSegments ++
      changedOtherLines localSegments ++ changedOtherLines remoteSegments
    let hasTimestamp := (baseLines ++ localLines ++ remoteLines).any fun line =>
      (parseExtendedHistoryTimestamp line).isSome
    .clean (joinLines
      (if hasTimestamp then merged.mergeSort fun a b => decide (sortKey a ≤ sortKey b) else merged))

/-! ## What the segments say of a script -/

theorem keptBy_append (a b : List Segment) (i : Nat) :
    keptBy (a ++ b) i = (keptBy a i || keptBy b i) := List.any_append

theorem keptBy_flush (pending : Option ChangeSegment) (i : Nat) : keptBy (flush pending) i = false := by
  cases pending <;> rfl

theorem keepsOld_cons (op : DiffOp) (ops : List DiffOp) (i : Nat) :
    keepsOld (op :: ops) i = (op.isEqual && op.oldPiece.covers i || keepsOld ops i) := by
  rw [← DiffOp.sel_oldPiece]
  rfl

/-- What is kept is what the `equal` operations keep. -/
theorem keptBy_aggregateSegments (other : List Bytes) (pending : Option ChangeSegment)
    (ops : List DiffOp) (i : Nat) :
    keptBy (aggregateSegments other pending ops) i = keepsOld ops i := by
  induction ops generalizing pending with
  | nil => exact keptBy_flush pending i
  | cons op ops ih =>
      rw [keepsOld_cons]
      cases op with
      | equal oldIndex newIndex len =>
          rw [aggregateSegments, keptBy_append, keptBy_flush, ← ih none]
          rfl
      | delete oldIndex oldLen newIndex =>
          rw [aggregateSegments, ih]
          rfl
      | insert oldIndex newIndex newLen =>
          rw [aggregateSegments, ih]
          rfl
      | replace oldIndex oldLen newIndex newLen =>
          rw [aggregateSegments, ih]
          rfl

theorem changedOtherLines_append (a b : List Segment) :
    changedOtherLines (a ++ b) = changedOtherLines a ++ changedOtherLines b := by
  unfold changedOtherLines
  rw [List.filterMap_append, List.flatMap_append]

/-- The lines collected so far. -/
def pendingLines (pending : Option ChangeSegment) : List Bytes :=
  (pending.map ChangeSegment.otherLines).getD []

theorem changedOtherLines_flush (pending : Option ChangeSegment) :
    changedOtherLines (flush pending) = pendingLines pending := by
  cases pending with
  | none => rfl
  | some c => simp [changedOtherLines, flush, pendingLines, Segment.asChange]

theorem otherLines_extendRange (pending : Option ChangeSegment) (start stop : Nat) :
    (extendRange pending start stop).otherLines = pendingLines pending := by
  cases pending <;> rfl

/-- What is appended is what the other operations bring in. -/
theorem changedOtherLines_aggregateSegments (other : List Bytes) (pending : Option ChangeSegment)
    (ops : List DiffOp) :
    changedOtherLines (aggregateSegments other pending ops) = pendingLines pending ++
      ops.flatMap fun op => if op.isEqual then [] else Piece.cut other op.newPiece := by
  induction ops generalizing pending with
  | nil =>
      rw [List.flatMap_nil, List.append_nil]
      exact changedOtherLines_flush pending
  | cons op ops ih =>
      rw [List.flatMap_cons]
      cases op with
      | equal oldIndex newIndex len =>
          rw [aggregateSegments, changedOtherLines_append, changedOtherLines_flush]
          exact congrArg _ (ih none)
      | delete oldIndex oldLen newIndex =>
          rw [aggregateSegments, ih]
          show (extendRange pending _ _).otherLines ++ _ = _
          rw [otherLines_extendRange]
          simp [DiffOp.newPiece, Piece.cut]
      | insert oldIndex newIndex newLen =>
          rw [aggregateSegments, ih, ← List.append_assoc]
          show (extendRange pending _ _).otherLines ++ _ ++ _ = _
          rw [otherLines_extendRange]
          rfl
      | replace oldIndex oldLen newIndex newLen =>
          rw [aggregateSegments, ih, ← List.append_assoc]
          show (extendRange pending _ _).otherLines ++ _ ++ _ = _
          rw [otherLines_extendRange]
          rfl

/-! ## What a change is -/

/-- The position of the base is in a region between two `equal` operations that brings something in. -/
def InNewRegion (ops : List DiffOp) (k : Nat) : Prop :=
  ∃ before region after, ops = before ++ region ++ after ∧
    (∀ op ∈ before.getLast?, op.isEqual = true) ∧ (∀ op ∈ after.head?, op.isEqual = true) ∧
    (∀ op ∈ region, op.isEqual = false) ∧ (∃ op ∈ region, op.oldPiece.covers k = true) ∧
    ∃ op ∈ region, 0 < op.newPiece.len

/-- The change collected from a region that ends at `i`. -/
structure Collected (other : List Bytes) (region : List DiffOp) (i : Nat) (c : ChangeSegment) :
    Prop where
  tiling : Piece.Tiling c.start i (region.map DiffOp.oldPiece)
  stop : c.stop = i
  lines : c.otherLines = region.flatMap fun op => Piece.cut other op.newPiece

/-- The next operation is collected into the change. -/
theorem Collected.extend {other : List Bytes} {region : List DiffOp} {i : Nat}
    {pending : Option ChangeSegment} (h : ∀ c ∈ pending, Collected other region i c)
    (hnone : pending = none → region = []) {op : DiffOp} (hop : op.oldPiece.start = i) :
    Collected other (region ++ [op]) (i + op.oldPiece.len)
      ((extendRange pending i (i + op.oldPiece.len)).extendLines (Piece.cut other op.newPiece)) := by
  cases pending with
  | none =>
      obtain rfl := hnone rfl
      exact ⟨⟨hop, rfl⟩, rfl, by simp [extendRange, ChangeSegment.extendLines]⟩
  | some c =>
      obtain ⟨htiling, hstop, hlines⟩ := h c rfl
      have hle := htiling.le
      constructor
      · show Piece.Tiling (min c.start i) _ _
        rw [Nat.min_eq_left hle, List.map_append]
        exact htiling.concat hop
      · show max c.stop (i + op.oldPiece.len) = _
        omega
      · show c.otherLines ++ _ = _
        rw [hlines, List.flatMap_append, List.flatMap_singleton]

theorem aggregateSegments_step (other : List Bytes) (pending : Option ChangeSegment) {op : DiffOp}
    (hop : op.isEqual = false) (ops : List DiffOp) :
    aggregateSegments other pending (op :: ops) = aggregateSegments other
      (some ((extendRange pending op.oldPiece.start (op.oldPiece.start + op.oldPiece.len)).extendLines
        (Piece.cut other op.newPiece))) ops := by
  cases op with
  | equal oldIndex newIndex len => cases hop
  | delete oldIndex oldLen newIndex =>
      rw [aggregateSegments]
      congr 2
      simp [ChangeSegment.extendLines, Piece.cut, DiffOp.newPiece, DiffOp.oldPiece]
  | insert oldIndex newIndex newLen => rfl
  | replace oldIndex oldLen newIndex newLen => rfl

/-- The change is collected from one region between two `equal` operations. -/
def FromRegion (other : List Bytes) (ops : List DiffOp) (c : ChangeSegment) : Prop :=
  ∃ before region after i, ops = before ++ region ++ after ∧
    (∀ op ∈ before.getLast?, op.isEqual = true) ∧ (∀ op ∈ after.head?, op.isEqual = true) ∧
    (∀ op ∈ region, op.isEqual = false) ∧ Collected other region i c

/-- Every change is collected from one region. -/
theorem fromRegion_of_change {other : List Bytes} {before region ops : List DiffOp}
    {pending : Option ChangeSegment} {i stop : Nat}
    (htiling : Piece.Tiling i stop (ops.map DiffOp.oldPiece))
    (hbefore : ∀ op ∈ before.getLast?, op.isEqual = true)
    (hregion : ∀ op ∈ region, op.isEqual = false)
    (hpending : ∀ c ∈ pending, Collected other region i c) (hnone : pending = none → region = [])
    {c : ChangeSegment} (hc : .change c ∈ aggregateSegments other pending ops) :
    FromRegion other (before ++ region ++ ops) c := by
  induction ops generalizing before region pending i with
  | nil =>
      obtain ⟨c', hc', heq⟩ := List.mem_map.mp hc
      cases heq
      exact ⟨before, region, [], i, rfl, hbefore, nofun, hregion, hpending c (Option.mem_toList.mp hc')⟩
  | cons op ops ih =>
      cases hop : op.isEqual with
      | true =>
          have hsplit : aggregateSegments other pending (op :: ops) = flush pending ++
              .keep op.oldPiece.start (op.oldPiece.start + op.oldPiece.len) ::
                aggregateSegments other none ops := by
            cases op with
            | equal oldIndex newIndex len => rfl
            | _ => cases hop
          rw [hsplit, List.mem_append, List.mem_cons] at hc
          rcases hc with hc | hc | hc
          · obtain ⟨c', hc', heq⟩ := List.mem_map.mp hc
            cases heq
            refine ⟨before, region, op :: ops, i, rfl, hbefore, fun o ho => ?_, hregion,
              hpending c (Option.mem_toList.mp hc')⟩
            obtain rfl : op = o := Option.some.inj ho
            exact hop
          · cases hc
          · -- a new region starts behind the operation
            have hlast : ∀ o ∈ (before ++ region ++ [op]).getLast?, o.isEqual = true := by simpa using hop
            have hempty : ∀ o ∈ ([] : List DiffOp), o.isEqual = false := by simp
            have hrest := ih htiling.2 hlast hempty (by simp) (fun _ => rfl) hc
            simpa using hrest
      | false =>
          obtain ⟨hstart, hrest⟩ := htiling
          rw [aggregateSegments_step other pending hop, hstart] at hc
          have hregion' : ∀ o ∈ region ++ [op], o.isEqual = false := by
            intro o ho
            rcases List.mem_append.mp ho with ho | ho
            · exact hregion o ho
            · rw [List.mem_singleton.mp ho]
              exact hop
          have hnext := ih hrest hbefore hregion' ?_ ?_ hc
          · simpa using hnext
          · intro c' hc'
            obtain rfl := Option.some.inj hc'
            exact Collected.extend hpending hnone hstart
          · exact fun h => absurd h (by simp)

/-- A base record in a change that carries new content is in a region that brings something in. -/
theorem inNewRegion {old new : List Bytes} {ops : List DiffOp} (h : EditScript old new ops)
    {c : ChangeSegment} (hc : c ∈ carrying (aggregateSegments new none ops)) (k : Nat)
    (hlo : c.start ≤ k) (hhi : k < c.stop) : k < old.length ∧ InNewRegion ops k := by
  obtain ⟨hmem, hlines⟩ := List.mem_filter.mp hc
  obtain ⟨s, hs, hsc⟩ := List.mem_filterMap.mp hmem
  have hseg : s = .change c := by
    cases s with
    | keep _ _ => cases hsc
    | change c' => rw [Option.some.inj hsc]
  subst hseg
  have hnil : (∀ op ∈ ([] : List DiffOp).getLast?, op.isEqual = true) ∧
      ∀ op ∈ ([] : List DiffOp), op.isEqual = false := by simp
  obtain ⟨before, region, after, j, hops, hbefore, hafter, hregion, htiling, hstop, hother⟩ :=
    fromRegion_of_change h.old_tiling hnil.1 hnil.2 (by simp) (fun _ => rfl) hs
  obtain ⟨p, hp, hcov⟩ := htiling.exists_covers hlo (hstop ▸ hhi)
  obtain ⟨op, hop, rfl⟩ := List.mem_map.mp hp
  have hops : ops = before ++ region ++ after := hops
  refine ⟨?_, before, region, after, hops, hbefore, hafter, hregion, ⟨op, hop, hcov⟩, ?_⟩
  · have hin : op.oldPiece ∈ ops.map DiffOp.oldPiece := by
      rw [hops]
      exact List.mem_map_of_mem (List.mem_append_left _ (List.mem_append_right _ hop))
    have hbound := h.old_tiling.start_le hin
    simp only [Piece.covers, Bool.and_eq_true, decide_eq_true_eq] at hcov
    omega
  · by_contra hnone
    push Not at hnone
    have hempty : c.otherLines = [] := by
      rw [hother, List.flatMap_eq_nil_iff]
      intro o ho
      rw [Piece.cut, Nat.le_zero.mp (hnone o ho), List.take_zero]
    rw [hempty] at hlines
    cases hlines

/-! ## No record is lost -/

section Merge

variable {localOps remoteOps : List DiffOp}

/-- The records of a side are among those that survive and those it brings in. -/
theorem side_subperm {ops : List DiffOp} {baseLines lines : List Bytes} (h : EditScript baseLines lines ops)
    (kept : Nat → Bool) (hkept : ∀ i, keepsOld ops i = true → kept i = true) :
    lines.Subperm (atPositions kept baseLines ++ atPositions (fun j => !keepsNew ops j) lines) :=
  h.perm_new.symm.subperm.trans ((atPositions_sublist hkept _).append (List.Sublist.refl _)).subperm

theorem changedOtherLines_eq {ops : List DiffOp} {baseLines lines : List Bytes}
    (h : EditScript baseLines lines ops) : changedOtherLines (aggregateSegments lines none ops) =
      atPositions (fun j => !keepsNew ops j) lines := by
  rw [changedOtherLines_aggregateSegments, h.brought_eq]
  rfl

theorem policyASurvivors_eq (baseLines localLines remoteLines : List Bytes) :
    policyASurvivors baseLines (aggregateSegments localLines none localOps)
        (aggregateSegments remoteLines none remoteOps) =
      atPositions (fun i => keepsOld localOps i || keepsOld remoteOps i) baseLines := by
  unfold policyASurvivors
  simp only [keptBy_aggregateSegments]

/-- **`merge_records`** — what a merge makes of two scripts, whatever scripts the diff answers. -/
theorem merge_records (base loc remote : Bytes)
    (hl : EditScript (splitLines base) (splitLines loc) localOps)
    (hr : EditScript (splitLines base) (splitLines remote) remoteOps) :
    (∀ out, merge localOps remoteOps base loc remote = .clean out → ∃ joined, out = joinLines joined ∧
      joined.Perm (atPositions (fun i => keepsOld localOps i || keepsOld remoteOps i) (splitLines base) ++
        atPositions (fun j => !keepsNew localOps j) (splitLines loc) ++
        atPositions (fun j => !keepsNew remoteOps j) (splitLines remote)) ∧
      (splitLines loc).Subperm joined ∧ (splitLines remote).Subperm joined) ∧
    (merge localOps remoteOps base loc remote = .conflict →
      ∃ k < (splitLines base).length, InNewRegion localOps k ∧ InNewRegion remoteOps k) := by
  unfold merge
  simp only [policyASurvivors_eq, changedOtherLines_eq hl, changedOtherLines_eq hr]
  constructor
  · intro out hout
    have hlocal := side_subperm hl (fun i => keepsOld localOps i || keepsOld remoteOps i)
      (fun i hi => by rw [hi, Bool.true_or])
    have hremote := side_subperm hr (fun i => keepsOld localOps i || keepsOld remoteOps i)
      (fun i hi => by rw [hi, Bool.or_true])
    generalize atPositions (fun i => keepsOld localOps i || keepsOld remoteOps i) (splitLines base) = kept
      at hout hlocal hremote ⊢
    generalize atPositions (fun j => !keepsNew localOps j) (splitLines loc) = newLocal at hout hlocal ⊢
    generalize atPositions (fun j => !keepsNew remoteOps j) (splitLines remote) = newRemote
      at hout hremote ⊢
    have hlocal : (splitLines loc).Subperm (kept ++ newLocal ++ newRemote) :=
      hlocal.trans (List.sublist_append_left _ _).subperm
    have hremote : (splitLines remote).Subperm (kept ++ newLocal ++ newRemote) :=
      hremote.trans ((List.sublist_append_left _ _).append (List.Sublist.refl _)).subperm
    split_ifs at hout with hconflict htime
    · have hperm := List.mergeSort_perm (kept ++ newLocal ++ newRemote)
        (fun a b => decide (sortKey a ≤ sortKey b))
      exact ⟨_, (MergeOutcome.clean.inj hout).symm, hperm, hlocal.trans hperm.symm.subperm,
        hremote.trans hperm.symm.subperm⟩
    · exact ⟨_, (MergeOutcome.clean.inj hout).symm, List.Perm.refl _, hlocal, hremote⟩
  · intro hconf
    split_ifs at hconf with hconflict
    obtain ⟨l, hl', hany⟩ := List.any_eq_true.mp hconflict
    obtain ⟨r, hr', hover⟩ := List.any_eq_true.mp hany
    have hover : max l.start r.start < min l.stop r.stop := of_decide_eq_true hover
    obtain ⟨hk, hinl⟩ := inNewRegion hl hl' (max l.start r.start) (by omega) (by omega)
    obtain ⟨-, hinr⟩ := inNewRegion hr hr' (max l.start r.start) (by omega) (by omega)
    exact ⟨_, hk, hinl, hinr⟩

end Merge

/-- A history with one line, and a line appended by each side. -/
theorem merge_appends :
    merge [.equal 0 0 1, .insert 1 1 1] [.equal 0 0 1, .insert 1 1 1] [0x61] [0x61, 0x0A, 0x78]
        [0x61, 0x0A, 0x79] = .clean [0x61, 0x0A, 0x78, 0x0A, 0x79, 0x0A] ∧
      ∃ joined, [0x61, 0x0A, 0x78, 0x0A, 0x79, 0x0A] = joinLines joined ∧
        [[0x61], [0x78]].Subperm joined ∧ [[0x61], [0x79]].Subperm joined := by
  have hrun : merge [.equal 0 0 1, .insert 1 1 1] [.equal 0 0 1, .insert 1 1 1] [0x61]
      [0x61, 0x0A, 0x78] [0x61, 0x0A, 0x79] = .clean [0x61, 0x0A, 0x78, 0x0A, 0x79, 0x0A] := by rfl
  have hscript : ∀ x y : Bytes, EditScript [x] [x, y] [.equal 0 0 1, .insert 1 1 1] := fun x y =>
    ⟨⟨rfl, rfl, rfl⟩, ⟨rfl, rfl, rfl⟩, by simp [DiffOp.isEqual, Piece.cut, DiffOp.oldPiece, DiffOp.newPiece]⟩
  obtain ⟨joined, hjoined, -, hloc, hrem⟩ := (merge_records [0x61] [0x61, 0x0A, 0x78] [0x61, 0x0A, 0x79]
    (hscript [0x61] [0x78]) (hscript [0x61] [0x79])).1 _ hrun
  exact ⟨hrun, joined, hjoined, hloc, hrem⟩

end Omemfs.Sync
