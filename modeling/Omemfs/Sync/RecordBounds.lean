/-
# Omemfs.Sync.RecordBounds — the records of a merged file.

A record is a run of lines of which all but the last end in a backslash.  Only the last record of a file
can end in a backslash itself, and only at the end of a file does it stand alone: with anything behind it
the two are one record.  So a merged file splits into the records it was joined of exactly when no
record that ends in a backslash was put before another one (`splitLines_joinLines_iff`), which is a
matter of what the merge takes of the three files and in which order (`merge_keeps_records_iff`).
-/
import Omemfs.Sync.LineMerge

namespace Omemfs.Sync

open Lib

/-! ## Lines and records -/

/-- Each line with its newline. -/
def unlines (lines : List Bytes) : Bytes := lines.flatMap fun line => line ++ [newline]

/-- The lines of a record: one at least, and all but the last are continued. -/
structure RecordLines (lines : List Bytes) : Prop where
  ne_nil : lines ≠ []
  no_newline : ∀ line ∈ lines, newline ∉ line
  continued : ∀ line ∈ lines.dropLast, line.getLast? = some backslash

def ofLines (lines : List Bytes) : Bytes := List.intercalate [newline] lines

theorem ofLines_singleton (line : Bytes) : ofLines [line] = line := by
  simp [ofLines, List.intercalate]

theorem ofLines_cons (line : Bytes) {lines : List Bytes} (h : lines ≠ []) :
    ofLines (line :: lines) = line ++ newline :: ofLines lines := by
  obtain ⟨next, rest, rfl⟩ := List.exists_cons_of_ne_nil h
  simp [ofLines, List.intercalate]

theorem ofLines_append_newline {lines : List Bytes} (h : lines ≠ []) :
    ofLines lines ++ [newline] = unlines lines := by
  induction lines with
  | nil => exact absurd rfl h
  | cons line rest ih =>
      cases rest with
      | nil => simp [ofLines_singleton, unlines]
      | cons next rest =>
          have hrest : next :: rest ≠ [] := List.cons_ne_nil next rest
          rw [ofLines_cons line hrest, List.append_assoc, List.cons_append, ih hrest]
          simp [unlines]

theorem joinLines_eq_unlines (records : List Bytes) : joinLines records = unlines records := by
  cases records with
  | nil => rfl
  | cons r records => exact ofLines_append_newline (List.cons_ne_nil r records)

/-- Lines that were written with their newlines are read back. -/
theorem physLines_unlines {lines : List Bytes} (h : ∀ line ∈ lines, newline ∉ line) :
    physLines [] (unlines lines) = lines := by
  have hline : ∀ (pre line rest : Bytes), newline ∉ line →
      physLines pre (line ++ newline :: rest) = (pre ++ line) :: physLines [] rest := by
    intro pre line rest hl
    induction line generalizing pre with
    | nil => simp [physLines]
    | cons b line ih =>
        obtain ⟨hb, hl⟩ := not_or.mp (fun h => hl (List.mem_cons.mpr h))
        rw [List.cons_append, physLines, if_neg (Ne.symm hb), ih _ hl]
        simp
  induction lines with
  | nil => rfl
  | cons line lines ih =>
      obtain ⟨hl, hrest⟩ := List.forall_mem_cons.mp h
      show physLines [] ((line ++ [newline]) ++ unlines lines) = _
      rw [List.append_assoc, List.singleton_append, hline [] line _ hl, ih hrest]
      rfl

theorem newline_not_mem_physLines {content pre : Bytes} (hpre : newline ∉ pre) :
    ∀ line ∈ physLines pre content, newline ∉ line := by
  induction content generalizing pre with
  | nil =>
      intro line hline
      rw [physLines] at hline
      split_ifs at hline
      · cases hline
      · rw [List.mem_singleton.mp hline]
        exact hpre
  | cons b content ih =>
      rw [physLines]
      split_ifs with hb
      · exact List.forall_mem_cons.mpr ⟨hpre, ih (by simp)⟩
      · refine ih fun hmem => ?_
        rcases List.mem_append.mp hmem with h | h
        · exact hpre h
        · exact hb (List.mem_singleton.mp h).symm

/-! ## Joining the continued lines -/

theorem joinContinued_ne_nil {lines : List Bytes} (h : lines ≠ []) : joinContinued lines ≠ [] := by
  induction lines with
  | nil => exact absurd rfl h
  | cons line rest ih =>
      cases rest with
      | nil => simp [joinContinued]
      | cons next rest =>
          rw [joinContinued]
          split_ifs
          · split <;> simp
          · simp

theorem joinContinued_of_continued {line : Bytes} {rest : List Bytes} (hrest : rest ≠ [])
    (h : line.getLast? = some backslash) :
    ∃ record records, joinContinued rest = record :: records ∧
      joinContinued (line :: rest) = (line ++ newline :: record) :: records := by
  obtain ⟨next, rest, rfl⟩ := List.exists_cons_of_ne_nil hrest
  obtain ⟨record, records, hr⟩ := List.exists_cons_of_ne_nil (joinContinued_ne_nil hrest)
  refine ⟨record, records, hr, ?_⟩
  rw [joinContinued, if_pos h, hr]

theorem joinContinued_of_ended {line : Bytes} (h : line.getLast? ≠ some backslash) (rest : List Bytes) :
    joinContinued (line :: rest) = line :: joinContinued rest := by
  cases rest with
  | nil => rfl
  | cons next rest => rw [joinContinued, if_neg h]

/-- A record ends as its last line does. -/
theorem getLast?_ofLines {lines : List Bytes} (h : lines ≠ []) :
    (ofLines lines).getLast? = some backslash ↔ (lines.getLast h).getLast? = some backslash := by
  induction lines with
  | nil => exact absurd rfl h
  | cons line rest ih =>
      cases rest with
      | nil => simp [ofLines_singleton]
      | cons next rest =>
          have hrest : next :: rest ≠ [] := List.cons_ne_nil next rest
          rw [ofLines_cons line hrest, List.getLast_cons hrest, ← ih hrest, List.getLast?_append]
          cases hr : ofLines (next :: rest) with
          | nil => simp [newline, backslash]
          | cons b r => simp

/-- The lines of a record in front of others: they come back as the record, or run on into the next. -/
theorem joinContinued_record {lines rest : List Bytes} (h : RecordLines lines) :
    ((ofLines lines).getLast? ≠ some backslash ∨ rest = [] →
      joinContinued (lines ++ rest) = ofLines lines :: joinContinued rest) ∧
    ((ofLines lines).getLast? = some backslash → rest ≠ [] →
      ∃ record records, joinContinued (lines ++ rest) =
        (ofLines lines ++ newline :: record) :: records) := by
  induction lines with
  | nil => exact absurd rfl h.ne_nil
  | cons line more ih =>
      cases more with
      | nil =>
          rw [ofLines_singleton]
          constructor
          · rintro (hend | rfl)
            · exact joinContinued_of_ended hend rest
            · rfl
          · intro hend hrest
            obtain ⟨record, records, -, hj⟩ := joinContinued_of_continued hrest hend
            exact ⟨record, records, hj⟩
      | cons next more =>
          have hmore : next :: more ≠ [] := List.cons_ne_nil next more
          have hline : line.getLast? = some backslash := h.continued line (by simp)
          have htail : RecordLines (next :: more) :=
            ⟨hmore, fun l hl => h.no_newline l (List.mem_cons_of_mem _ hl), fun l hl =>
              h.continued l (by rw [List.dropLast_cons_of_ne_nil hmore]; exact List.mem_cons_of_mem _ hl)⟩
          obtain ⟨hkeep, hfuse⟩ := ih htail
          have hlast : (ofLines (line :: next :: more)).getLast? = some backslash ↔
              (ofLines (next :: more)).getLast? = some backslash := by
            rw [getLast?_ofLines (List.cons_ne_nil _ _), getLast?_ofLines hmore, List.getLast_cons hmore]
          obtain ⟨record, records, hr, hj⟩ :=
            @joinContinued_of_continued line (next :: more ++ rest) (by simp) hline
          rw [ofLines_cons line hmore] at hlast ⊢
          constructor
          · intro hend
            rw [hkeep (hend.imp_left fun h hl => h (hlast.mpr hl))] at hr
            obtain ⟨rfl, rfl⟩ := List.cons.inj hr
            exact hj
          · intro hend hrest
            obtain ⟨record', records', hf⟩ := hfuse (hlast.mp hend) hrest
            rw [hf] at hr
            obtain ⟨rfl, rfl⟩ := List.cons.inj hr
            exact ⟨record', records', by simpa using hj⟩

/-! ## Splitting what was joined -/

/-- What a split of some file can give. -/
def IsRecord (r : Bytes) : Prop := ∃ lines, RecordLines lines ∧ r = ofLines lines

theorem isRecord_of_mem_joinContinued {lines : List Bytes} (h : ∀ line ∈ lines, newline ∉ line) :
    ∀ r ∈ joinContinued lines, IsRecord r := by
  have hone : ∀ line : Bytes, newline ∉ line → IsRecord line := fun line hline =>
    ⟨[line], ⟨by simp, by simpa using hline, by simp⟩, (ofLines_singleton line).symm⟩
  induction lines with
  | nil => exact fun r hr => nomatch hr
  | cons line rest ih =>
      obtain ⟨hline, hrest⟩ := List.forall_mem_cons.mp h
      have ih := ih hrest
      by_cases hend : line.getLast? = some backslash
      · by_cases hnil : rest = []
        · subst hnil
          intro r hr
          rw [List.mem_singleton.mp hr]
          exact hone line hline
        · obtain ⟨record, records, hr, hj⟩ := joinContinued_of_continued hnil hend
          rw [hr] at ih
          rw [hj]
          obtain ⟨⟨lines, hlines, rfl⟩, hrecords⟩ := List.forall_mem_cons.mp ih
          refine List.forall_mem_cons.mpr ⟨⟨line :: lines, ⟨by simp, ?_, ?_⟩, ?_⟩, hrecords⟩
          · exact List.forall_mem_cons.mpr ⟨hline, hlines.no_newline⟩
          · rw [List.dropLast_cons_of_ne_nil hlines.ne_nil]
            exact List.forall_mem_cons.mpr ⟨hend, hlines.continued⟩
          · exact (ofLines_cons line hlines.ne_nil).symm
      · rw [joinContinued_of_ended hend]
        exact List.forall_mem_cons.mpr ⟨hone line hline, ih⟩

theorem isRecord_of_mem_splitLines {content : Bytes} : ∀ r ∈ splitLines content, IsRecord r :=
  isRecord_of_mem_joinContinued (newline_not_mem_physLines (by simp))

/-- **`splitLines_joinLines_iff`** — records split back when none but the last ends in a backslash. -/
theorem splitLines_joinLines_iff {records : List Bytes} (h : ∀ r ∈ records, IsRecord r) :
    splitLines (joinLines records) = records ↔
      ∀ r ∈ records.dropLast, r.getLast? ≠ some backslash := by
  obtain ⟨groups, hgroups, rfl⟩ : ∃ groups : List (List Bytes),
      (∀ g ∈ groups, RecordLines g) ∧ records = groups.map ofLines := by
    induction records with
    | nil => exact ⟨[], nofun, rfl⟩
    | cons r records ih =>
        obtain ⟨⟨lines, hlines, rfl⟩, hrest⟩ := List.forall_mem_cons.mp h
        obtain ⟨groups, hgroups, rfl⟩ := ih hrest
        exact ⟨lines :: groups, List.forall_mem_cons.mpr ⟨hlines, hgroups⟩, rfl⟩
  have hunlines : unlines (groups.map ofLines) = unlines groups.flatten := by
    clear h
    induction groups with
    | nil => rfl
    | cons g groups ih =>
        obtain ⟨hg, hrest⟩ := List.forall_mem_cons.mp hgroups
        show (ofLines g ++ [newline]) ++ unlines (groups.map ofLines) = _
        rw [ofLines_append_newline hg.ne_nil, ih hrest]
        simp [unlines]
  have hphys : ∀ line ∈ groups.flatten, newline ∉ line := by
    intro line hline
    obtain ⟨g, hg, hmem⟩ := List.mem_flatten.mp hline
    exact (hgroups g hg).no_newline line hmem
  rw [joinLines_eq_unlines, hunlines, splitLines, physLines_unlines hphys]
  clear h hunlines hphys
  induction groups with
  | nil => simp [joinContinued]
  | cons g groups ih =>
      obtain ⟨hg, hrest⟩ := List.forall_mem_cons.mp hgroups
      obtain ⟨hkeep, hfuse⟩ := @joinContinued_record g groups.flatten hg
      rw [List.flatten_cons, List.map_cons]
      by_cases hnil : groups = []
      · subst hnil
        have hj := hkeep (.inr rfl)
        rw [List.flatten_nil] at hj ⊢
        rw [hj]
        simp [joinContinued]
      · have hmap : groups.map ofLines ≠ [] := by simpa using hnil
        rw [List.dropLast_cons_of_ne_nil hmap, List.forall_mem_cons]
        by_cases hend : (ofLines g).getLast? = some backslash
        · -- the record runs on into the next one
          have hflat : groups.flatten ≠ [] := by
            obtain ⟨g', groups, rfl⟩ := List.exists_cons_of_ne_nil hnil
            simp [(hrest g' (by simp)).ne_nil]
          obtain ⟨record, records, hj⟩ := hfuse hend hflat
          rw [hj]
          refine iff_of_false (fun heq => ?_) fun hall => hall.1 hend
          have hlen := congrArg List.length (List.cons.inj heq).1
          rw [List.length_append, List.length_cons] at hlen
          omega
        · have ih := ih hrest
          rw [hkeep (.inl hend), List.cons.injEq]
          simp [hend, ih]

/-! ## A stable sort -/

section StableSort

variable {α : Type} {key : α → Int}

/-- Sorted by a key, equal keys in the order they had. -/
def sortByKey (key : α → Int) (l : List α) : List α := l.mergeSort fun a b => decide (key a ≤ key b)

theorem key_le_trans (a b c : α) (hab : decide (key a ≤ key b) = true)
    (hbc : decide (key b ≤ key c) = true) : decide (key a ≤ key c) = true := by
  simp only [decide_eq_true_eq] at *
  omega

theorem key_le_total (a b : α) : (decide (key a ≤ key b) || decide (key b ≤ key a)) = true := by
  simp only [Bool.or_eq_true, decide_eq_true_eq]
  omega

/-- An element is put behind all others of the list. -/
def PutLast (key : α → Int) (before after : List α) (x : α) : Prop :=
  (∀ y ∈ after, key y < key x) ∧ ∀ y ∈ before, key y ≤ key x

theorem mem_dropLast_of_split {l₁ l₂ : List α} {x : α} (h : l₂ ≠ []) :
    x ∈ (l₁ ++ x :: l₂).dropLast := by
  rw [List.dropLast_append_of_ne_nil (by simp), List.dropLast_cons_of_ne_nil h]
  simp

theorem exists_split_of_mem_dropLast {l : List α} {x : α} (h : x ∈ l.dropLast) :
    ∃ l₁ l₂, l = l₁ ++ x :: l₂ ∧ l₂ ≠ [] := by
  have hne : l ≠ [] := by
    rintro rfl
    cases h
  obtain ⟨l₁, l₂, hl⟩ := List.append_of_mem h
  have hlast := List.dropLast_append_getLast hne
  rw [hl] at hlast
  refine ⟨l₁, l₂ ++ [l.getLast hne], ?_, by simp⟩
  simpa using hlast.symm

theorem mem_dropLast_of_pair {l : List α} {x y : α} (h : [x, y].Sublist l) : x ∈ l.dropLast := by
  obtain ⟨l₁, l₂, rfl, hx, hy⟩ := List.cons_sublist_iff.mp h
  have hl₂ : l₂ ≠ [] := by
    rintro rfl
    cases hy
  rw [List.dropLast_append_of_ne_nil hl₂]
  exact List.mem_append_left _ hx

/-- A stable sort leaves the elements of one key in their order. -/
theorem filter_sortByKey (l : List α) (k : Int) :
    (sortByKey key l).filter (fun y => decide (key y = k)) = l.filter fun y => decide (key y = k) := by
  have hperm : (sortByKey key l).Perm l := List.mergeSort_perm l _
  have hpair : (l.filter fun y => decide (key y = k)).Pairwise
      fun a b => decide (key a ≤ key b) = true := by
    refine List.pairwise_of_forall_mem_list fun a ha b hb => ?_
    have ha := of_decide_eq_true (List.mem_filter.mp ha).2
    have hb := of_decide_eq_true (List.mem_filter.mp hb).2
    simp [ha, hb]
  have hsub := List.sublist_mergeSort key_le_trans key_le_total hpair List.filter_sublist
  have hfilter := hsub.filter fun y => decide (key y = k)
  rw [List.filter_filter] at hfilter
  simp only [Bool.and_self] at hfilter
  exact (hfilter.eq_of_length (hperm.filter _).length_eq.symm).symm

/-- **`sortByKey_dropLast_iff`** — a sort puts elements of a kind nowhere but last exactly when each of
them is put behind all others. -/
theorem sortByKey_dropLast_iff (P : α → Prop) (l : List α) :
    (∀ x ∈ (sortByKey key l).dropLast, ¬ P x) ↔
      ∀ before x after, l = before ++ x :: after → P x → PutLast key before after x := by
  have hperm : (sortByKey key l).Perm l := List.mergeSort_perm l _
  have hsorted : (sortByKey key l).Pairwise fun a b => key a ≤ key b :=
    (List.pairwise_mergeSort key_le_trans key_le_total l).imp of_decide_eq_true
  have hstable : ∀ ys : List α, ys.Pairwise (fun a b => key a ≤ key b) → ys.Sublist l →
      ys.Sublist (sortByKey key l) := fun ys hys hsub =>
    List.sublist_mergeSort key_le_trans key_le_total (hys.imp decide_eq_true) hsub
  constructor
  · rintro hno before x after rfl hx
    constructor
    · intro y hy
      by_contra hle
      have hpair : [x, y].Sublist (before ++ x :: after) :=
        ((List.singleton_sublist.mpr hy).cons_cons x).trans (List.sublist_append_right before _)
      have hxy : [x, y].Sublist (sortByKey key (before ++ x :: after)) :=
        hstable _ (by simpa using hle) hpair
      exact hno x (mem_dropLast_of_pair hxy) hx
    · intro y hy
      by_contra hle
      have hne : y ≠ x := by
        rintro rfl
        exact hle le_rfl
      have hmem : x ∈ sortByKey key (before ++ x :: after) := hperm.mem_iff.mpr (by simp)
      have hymem : y ∈ sortByKey key (before ++ x :: after) := hperm.mem_iff.mpr (by simp [hy])
      obtain ⟨l₁, l₂, hl⟩ := List.append_of_mem hmem
      rw [hl] at hno hsorted hymem
      by_cases hl₂ : l₂ = []
      · subst hl₂
        have hy₁ : y ∈ l₁ := by
          rcases List.mem_append.mp hymem with h | h
          · exact h
          · exact absurd (List.mem_singleton.mp h) hne
        exact hle ((List.pairwise_append.mp hsorted).2.2 y hy₁ x (by simp))
      · exact hno x (mem_dropLast_of_split hl₂) hx
  · intro hlast x hmem hx
    obtain ⟨l₁, l₂, hl, hl₂⟩ := exists_split_of_mem_dropLast hmem
    have hxl : x ∈ l := hperm.mem_iff.mp (hl ▸ by simp)
    obtain ⟨before, after, rfl⟩ := List.append_of_mem hxl
    obtain ⟨hafter, hbefore⟩ := hlast before x after rfl hx
    have hrest : ∀ c ∈ l₂, key c = key x := by
      intro c hc
      have hge : key x ≤ key c := by
        rw [hl] at hsorted
        exact (List.pairwise_cons.mp (List.pairwise_append.mp hsorted).2.1).1 c hc
      have hcl : c ∈ before ++ x :: after := hperm.mem_iff.mp (hl ▸ by simp [hc])
      rcases List.mem_append.mp hcl with hcb | hcb
      · exact le_antisymm (hbefore c hcb) hge
      · rcases List.mem_cons.mp hcb with rfl | hca
        · rfl
        · exact absurd (hafter c hca) (not_lt.mpr hge)
    -- the elements of this key end in `x` in the list, and have something behind `x` in the sort
    have hkey := @filter_sortByKey α key (before ++ x :: after) (key x)
    have hnone : after.filter (fun y => decide (key y = key x)) = [] :=
      List.filter_eq_nil_iff.mpr fun y hy => by
        have := hafter y hy
        simp only [decide_eq_true_eq]
        omega
    have hall : l₂.filter (fun y => decide (key y = key x)) = l₂ :=
      List.filter_eq_self.mpr fun c hc => decide_eq_true (hrest c hc)
    rw [hl] at hkey
    simp only [List.filter_append, List.filter_cons_of_pos, decide_true, hnone, hall] at hkey
    have hdrop := congrArg List.dropLast hkey
    have hx₂ := @mem_dropLast_of_split α (l₁.filter fun y => decide (key y = key x)) l₂ x hl₂
    rw [hdrop, List.dropLast_concat] at hx₂
    obtain ⟨b₁, b₂, hb⟩ := List.append_of_mem (List.mem_filter.mp hx₂).1
    have htwice := hlast b₁ x (b₂ ++ x :: after) (by rw [hb]; simp) hx
    exact absurd (htwice.1 x (by simp)) (lt_irrefl _)

end StableSort

/-! ## The merge -/

/-- The records that a script brings in. -/
def broughtIn (ops : List DiffOp) (lines : List Bytes) : List Bytes :=
  ops.flatMap fun op => if op.isEqual then [] else Piece.cut lines op.newPiece

/-- The records that a merge takes: those of the base that either side keeps, then those the local side
brings in, then those the remote side brings in. -/
def takenRecords (localOps remoteOps : List DiffOp) (base loc remote : Bytes) : List Bytes :=
  atPositions (fun i => keepsOld localOps i || keepsOld remoteOps i) (splitLines base) ++
    broughtIn localOps (splitLines loc) ++ broughtIn remoteOps (splitLines remote)

/-- Some record of the three files has a timestamp. -/
def anyTimestamp (base loc remote : Bytes) : Bool :=
  (splitLines base ++ splitLines loc ++ splitLines remote).any fun line =>
    (parseExtendedHistoryTimestamp line).isSome

/-- The records that a merge joins, in their order. -/
def joinedRecords (localOps remoteOps : List DiffOp) (base loc remote : Bytes) : List Bytes :=
  if anyTimestamp base loc remote then sortByKey sortKey (takenRecords localOps remoteOps base loc remote)
  else takenRecords localOps remoteOps base loc remote

section Merge

variable {localOps remoteOps : List DiffOp} {base loc remote out : Bytes}

theorem joined_of_clean (h : merge localOps remoteOps base loc remote = .clean out) :
    out = joinLines (joinedRecords localOps remoteOps base loc remote) := by
  unfold merge at h
  simp only [policyASurvivors_eq, changedOtherLines_aggregateSegments, pendingLines, Option.map_none,
    Option.getD_none, List.nil_append] at h
  split_ifs at h with hconflict htime
  · rw [← MergeOutcome.clean.inj h, joinedRecords, anyTimestamp, if_pos htime]
    rfl
  · rw [← MergeOutcome.clean.inj h, joinedRecords, anyTimestamp, if_neg htime]
    rfl

theorem isRecord_of_mem_takenRecords :
    ∀ r ∈ takenRecords localOps remoteOps base loc remote, IsRecord r := by
  have hbrought : ∀ (ops : List DiffOp) (content : Bytes), ∀ r ∈ broughtIn ops (splitLines content),
      IsRecord r := by
    intro ops content r hr
    obtain ⟨op, -, hop⟩ := List.mem_flatMap.mp hr
    split_ifs at hop
    · cases hop
    · exact isRecord_of_mem_splitLines r (List.mem_of_mem_drop (List.mem_of_mem_take hop))
  intro r hr
  rcases List.mem_append.mp hr with hr | hr
  · rcases List.mem_append.mp hr with hr | hr
    · obtain ⟨x, hx, rfl⟩ := List.mem_map.mp hr
      obtain ⟨line, i⟩ := x
      have hmem := List.fst_mem_of_mem_zipIdx (List.mem_filter.mp hx).1
      exact isRecord_of_mem_splitLines line hmem
    · exact hbrought localOps loc r hr
  · exact hbrought remoteOps remote r hr

/-- A record that ends in a backslash is put behind all the others that are taken: nothing is taken after
it, or, in a merge by timestamps, nothing after it that is as late and nothing before it that is later. -/
def BackslashLast (localOps remoteOps : List DiffOp) (base loc remote : Bytes) : Prop :=
  ∀ before x after, takenRecords localOps remoteOps base loc remote = before ++ x :: after →
    x.getLast? = some backslash →
      if anyTimestamp base loc remote then PutLast sortKey before after x else after = []

/-- **`merge_keeps_records_iff`** — a merged file splits into the records it was joined of exactly when a
record that ends in a backslash is put behind all the others. -/
theorem merge_keeps_records_iff (h : merge localOps remoteOps base loc remote = .clean out) :
    splitLines out = joinedRecords localOps remoteOps base loc remote ↔
      BackslashLast localOps remoteOps base loc remote := by
  have htaken := @isRecord_of_mem_takenRecords localOps remoteOps base loc remote
  rw [joined_of_clean h]
  unfold joinedRecords BackslashLast
  generalize takenRecords localOps remoteOps base loc remote = taken at htaken ⊢
  cases anyTimestamp base loc remote with
  | true =>
      have hperm : (sortByKey sortKey taken).Perm taken := List.mergeSort_perm taken _
      simp only [if_true]
      rw [splitLines_joinLines_iff fun r hr => htaken r (hperm.mem_iff.mp hr)]
      exact sortByKey_dropLast_iff (fun r => r.getLast? = some backslash) taken
  | false =>
      simp only [Bool.false_eq_true, if_false]
      rw [splitLines_joinLines_iff htaken]
      constructor
      · intro hno before x after htake hx
        by_contra hafter
        exact hno x (htake ▸ mem_dropLast_of_split hafter) hx
      · intro hlast x hmem hx
        obtain ⟨before, after, htake, hafter⟩ := exists_split_of_mem_dropLast hmem
        exact hafter (hlast before x after htake hx)

end Merge

/-- Both sides write a first line, and the remote's ends in a backslash. -/
theorem merge_keeps_records_remote :
    splitLines [0x61, 0x0A, 0x62, 0x5C, 0x0A] =
      joinedRecords [.insert 0 0 1] [.insert 0 0 1] [] [0x61] [0x62, 0x5C] := by
  have hrun : merge [.insert 0 0 1] [.insert 0 0 1] [] [0x61] [0x62, 0x5C] =
      .clean [0x61, 0x0A, 0x62, 0x5C, 0x0A] := rfl
  refine (merge_keeps_records_iff hrun).mpr fun before x after htake hx => ?_
  have htaken : takenRecords [.insert 0 0 1] [.insert 0 0 1] [] [0x61] [0x62, 0x5C] =
      [[0x61], [0x62, 0x5C]] := by decide
  rw [htaken] at htake
  show after = []
  cases before with
  | nil =>
      obtain ⟨rfl, -⟩ := List.cons.inj htake
      cases hx
  | cons y before =>
      have htail := (List.cons.inj htake).2
      cases before with
      | nil => exact (List.cons.inj htail).2.symm
      | cons z before => simp at htail

/-- With the backslash on the local side the two lines become one record. -/
theorem records_fused :
    ¬ ∀ (localOps remoteOps : List DiffOp) (base loc remote out : Bytes),
      EditScript (splitLines base) (splitLines loc) localOps →
      EditScript (splitLines base) (splitLines remote) remoteOps →
      merge localOps remoteOps base loc remote = .clean out →
      splitLines out = joinedRecords localOps remoteOps base loc remote := by
  intro hall
  have hscript : ∀ line : Bytes, EditScript [] [line] [.insert 0 0 1] := fun line =>
    ⟨⟨rfl, rfl⟩, ⟨rfl, rfl⟩, by simp [DiffOp.isEqual]⟩
  have h := hall [.insert 0 0 1] [.insert 0 0 1] [] [0x61, 0x5C] [0x62] [0x61, 0x5C, 0x0A, 0x62, 0x0A]
    (hscript [0x61, 0x5C]) (hscript [0x62]) rfl
  exact absurd h (by decide)

end Omemfs.Sync
