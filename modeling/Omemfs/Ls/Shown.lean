/-
# Omemfs.Ls.Shown — what the loop over the diff makes of the rows.

Rows are told apart by what they print.  The loop adds rows that are not printed yet and marks the
directories that a deeper change shows at; `shown_spec` says which rows there are in the end, whatever
the order of the diff.
-/
import Omemfs.Ls.Rows

namespace Omemfs.Ls

open Omemfs Sync

namespace Listing

/-! ## Single steps -/

theorem mem_pushRow {rows : List Row} {a r : Row} :
    r ∈ pushRow rows a ↔ r ∈ rows ∨ (r = a ∧ a.key ∉ rows.map Row.key) := by
  unfold pushRow
  split_ifs with h
  · simp [h]
  · simp only [List.mem_append, List.mem_singleton, h, not_false_eq_true, and_true]

theorem nodup_pushRow {rows : List Row} (h : (rows.map Row.key).Nodup) (a : Row) :
    ((pushRow rows a).map Row.key).Nodup := by
  unfold pushRow
  split_ifs with hin
  · exact h
  · rw [List.map_append, List.map_singleton]
    exact List.Nodup.append h (List.nodup_singleton _) (List.disjoint_singleton.mpr hin)

/-- The mark of a directory that a change shows at. -/
def marked (p : Path) (r : Row) : Row :=
  if r.key = (p, true) ∧ r.status = .blank then { r with status := .modified } else r

@[simp]
theorem key_marked (p : Path) (r : Row) : (marked p r).key = r.key := by
  unfold marked
  split_ifs <;> rfl

theorem marked_of_key_ne {p : Path} {r : Row} (h : r.key ≠ (p, true)) : marked p r = r :=
  if_neg fun hr => h hr.1

theorem map_marked_of_not_mem {p : Path} {rows : List Row} (h : (p, true) ∉ rows.map Row.key) :
    rows.map (marked p) = rows := by
  refine List.map_congr_left (g := id) (fun r hr => marked_of_key_ne fun hk => h ?_) |>.trans
    (List.map_id rows)
  exact hk ▸ List.mem_map_of_mem hr

/-- The last row of the directory is its only one. -/
theorem markModified_eq {p : Path} {rows : List Row} (h : (rows.map Row.key).Nodup) :
    markModified p rows = rows.map (marked p) := by
  induction rows with
  | nil => rfl
  | cons r rows ih =>
      rw [List.map_cons, List.nodup_cons] at h
      rw [markModified, List.map_cons]
      by_cases hin : (p, true) ∈ rows.map Row.key
      · rw [if_pos hin, ih h.2, marked_of_key_ne]
        exact fun hk => h.1 (hk ▸ hin)
      · rw [if_neg hin, map_marked_of_not_mem hin]
        unfold marked
        split_ifs <;> rfl

theorem map_key_map_marked (p : Path) (rows : List Row) :
    (rows.map (marked p)).map Row.key = rows.map Row.key := by
  rw [List.map_map]
  exact List.map_congr_left fun r _ => key_marked p r

/-! ## The loop -/

section Loop

variable (l : Listing) (scopes : List Path)

/-- The directory that an entry of the diff shows at, if it has no row of its own. -/
def deeper (x : Path × DiffRow) : Option Path :=
  if l.recursive || isDirectChild x.1 (scopeRoot scopes x.1) then none
  else shownDir (scopeRoot scopes x.1) x.1

/-- The row that an entry of the diff has of its own. -/
def ownRow (p : Path) : DiffRow → Option Row
  | .added => some ⟨p, false, .added, .blank⟩
  | .addedEmptyDir => some ⟨p, true, .added, .blank⟩
  | .modified => none
  | .deleted => none

/-- The row that an entry of the diff brings where it is not printed yet. -/
def newRow (x : Path × DiffRow) : Option Row :=
  if l.recursive || isDirectChild x.1 (scopeRoot scopes x.1) then ownRow x.1 x.2
  else (shownDir (scopeRoot scopes x.1) x.1).bind fun dir =>
    if isAddition x.2 then some ⟨dir, true, .added, .blank⟩ else none

/-- A row of the walk after the loop. -/
def bumped (done : List (Path × DiffRow)) (b : Row) : Row :=
  if b.slash = true ∧ b.status = .blank ∧ ∃ x ∈ done, l.deeper scopes x = some b.path then
    { b with status := .modified }
  else b

variable {l scopes} {base : List Row} {changes : List (Path × DiffRow)}

@[simp]
theorem key_bumped (done : List (Path × DiffRow)) (b : Row) :
    (l.bumped scopes done b).key = b.key := by
  unfold bumped
  split_ifs <;> rfl

/-- What has been made of the rows of the walk by the entries `done`. -/
structure ShownSpec (l : Listing) (scopes : List Path) (base : List Row)
    (done : List (Path × DiffRow)) (st : Shown) : Prop where
  nodup : (st.1.map Row.key).Nodup
  mem : ∀ r, r ∈ st.1 ↔ (∃ b ∈ base, r = l.bumped scopes done b) ∨
    (r.key ∉ base.map Row.key ∧ ∃ x ∈ done, l.newRow scopes x = some r)
  seen : ∀ dir, dir ∈ st.2 ↔ ∃ x ∈ done, l.deeper scopes x = some dir

/-- At a directory without a row deeper entries are all additions, or none is. -/
def Unmixed (l : Listing) (scopes : List Path) (base : List Row) (changes : List (Path × DiffRow)) :
    Prop :=
  ∀ x ∈ changes, ∀ y ∈ changes, ∀ dir, l.deeper scopes x = some dir → l.deeper scopes y = some dir →
    (dir, true) ∉ base.map Row.key → isAddition x.2 = isAddition y.2

theorem newRow_status {x : Path × DiffRow} {r : Row} (h : l.newRow scopes x = some r) :
    r.status = .added ∧ r.remoteStatus = .blank := by
  obtain ⟨p, row⟩ := x
  unfold newRow at h
  split at h
  · cases row <;> cases h <;> exact ⟨rfl, rfl⟩
  · obtain ⟨dir, -, hdir⟩ := Option.bind_eq_some_iff.mp h
    split_ifs at hdir
    cases hdir
    exact ⟨rfl, rfl⟩

theorem newRow_of_deeper {x : Path × DiffRow} {dir : Path} (h : l.deeper scopes x = some dir) :
    l.newRow scopes x = if isAddition x.2 then some ⟨dir, true, .added, .blank⟩ else none := by
  unfold deeper at h
  split at h
  · cases h
  · next hdirect =>
      unfold newRow
      rw [if_neg hdirect, h, Option.bind_some]

theorem showDirect_eq (p : Path) (row : DiffRow) (rows : List Row) :
    showDirect p row rows = (ownRow p row).elim rows (pushRow rows) := by
  cases row <;> rfl

theorem exists_mem_snoc {α : Type} {P : α → Prop} {done : List α} {x : α} :
    (∃ y ∈ done ++ [x], P y) ↔ (∃ y ∈ done, P y) ∨ P x := by
  simp [or_and_right, exists_or]

section Bumped

variable {done : List (Path × DiffRow)} {x : Path × DiffRow}

theorem bumped_snoc_of_none (h : l.deeper scopes x = none) (b : Row) :
    l.bumped scopes (done ++ [x]) b = l.bumped scopes done b := by
  unfold bumped
  simp only [exists_mem_snoc, h, reduceCtorEq, or_false]

/-- A directory that has been seen to already. -/
theorem bumped_snoc_of_seen {dir : Path} (h : l.deeper scopes x = some dir)
    (hseen : ∃ y ∈ done, l.deeper scopes y = some dir) (b : Row) :
    l.bumped scopes (done ++ [x]) b = l.bumped scopes done b := by
  have hsame : (∃ y ∈ done ++ [x], l.deeper scopes y = some b.path) ↔
      ∃ y ∈ done, l.deeper scopes y = some b.path := by
    rw [exists_mem_snoc, h]
    exact or_iff_left_of_imp fun heq => Option.some.inj heq ▸ hseen
  unfold bumped
  simp only [hsame]

/-- The first change that shows at a directory. -/
theorem bumped_snoc {dir : Path} (h : l.deeper scopes x = some dir)
    (hseen : ¬ ∃ y ∈ done, l.deeper scopes y = some dir) (b : Row) :
    l.bumped scopes (done ++ [x]) b = marked dir (l.bumped scopes done b) := by
  by_cases hpath : b.path = dir
  · have hdone : l.bumped scopes done b = b := by
      unfold bumped
      rw [if_neg]
      rintro ⟨-, -, hbelow⟩
      exact hseen (hpath ▸ hbelow)
    have hnow : ∃ y ∈ done ++ [x], l.deeper scopes y = some b.path :=
      ⟨x, by simp, by rw [h, hpath]⟩
    have hkey : b.key = (dir, true) ↔ b.slash = true := by simp [Row.key, hpath]
    rw [hdone]
    unfold bumped marked
    simp only [hnow, and_true, hkey]
  · have hsame : (∃ y ∈ done ++ [x], l.deeper scopes y = some b.path) ↔
        ∃ y ∈ done, l.deeper scopes y = some b.path := by
      rw [exists_mem_snoc, h]
      exact or_iff_left fun heq => hpath (Option.some.inj heq).symm
    rw [marked_of_key_ne]
    · unfold bumped
      simp only [hsame]
    · rw [key_bumped]
      exact fun heq => hpath (Prod.mk.inj heq).1

end Bumped

/-- New rows of one key are one row. -/
theorem newRow_eq_of_key {x y : Path × DiffRow} {r r' : Row} (h : l.newRow scopes x = some r)
    (h' : l.newRow scopes y = some r') (hk : r.key = r'.key) : r = r' := by
  obtain ⟨hs, hr⟩ := newRow_status h
  obtain ⟨hs', hr'⟩ := newRow_status h'
  obtain ⟨p, slash, status, remote⟩ := r
  obtain ⟨p', slash', status', remote'⟩ := r'
  obtain ⟨rfl, rfl⟩ := Prod.mk.inj hk
  subst hs hr hs' hr'
  rfl

namespace ShownSpec

theorem key_mem_iff {done : List (Path × DiffRow)} {st : Shown} (h : ShownSpec l scopes base done st)
    (k : Path × Bool) : k ∈ st.1.map Row.key ↔
      k ∈ base.map Row.key ∨ ∃ x ∈ done, ∃ r, l.newRow scopes x = some r ∧ r.key = k := by
  constructor
  · intro hk
    obtain ⟨r, hr, rfl⟩ := List.mem_map.mp hk
    rcases (h.mem r).mp hr with ⟨b, hb, rfl⟩ | ⟨-, x, hx, hnew⟩
    · exact .inl (List.mem_map.mpr ⟨b, hb, (key_bumped _ _).symm⟩)
    · exact .inr ⟨x, hx, r, hnew, rfl⟩
  · intro hk
    by_cases hbase : k ∈ base.map Row.key
    · obtain ⟨b, hb, rfl⟩ := List.mem_map.mp hbase
      exact List.mem_map.mpr ⟨_, (h.mem _).mpr (.inl ⟨b, hb, rfl⟩), key_bumped _ _⟩
    · obtain ⟨x, hx, r, hnew, rfl⟩ := hk.resolve_left hbase
      exact List.mem_map.mpr ⟨r, (h.mem r).mpr (.inr ⟨hbase, x, hx, hnew⟩), rfl⟩

theorem start (hbase : (base.map Row.key).Nodup) : ShownSpec l scopes base [] (base, []) where
  nodup := hbase
  mem r := by
    have hb : ∀ b, l.bumped scopes [] b = b := fun b => if_neg (by simp)
    simp [hb]
  seen dir := by simp

/-- **`step`** — one entry of the diff. -/
theorem step {done : List (Path × DiffRow)} {st : Shown} (h : ShownSpec l scopes base done st)
    {x : Path × DiffRow} (hmixed : Unmixed l scopes base (done ++ [x])) :
    ShownSpec l scopes base (done ++ [x]) (l.showChange scopes st x) := by
  have hnew_mem : ∀ r, (∃ y ∈ done ++ [x], l.newRow scopes y = some r) ↔
      (∃ y ∈ done, l.newRow scopes y = some r) ∨ l.newRow scopes x = some r :=
    fun _ => exists_mem_snoc
  have hseen_mem : ∀ dir, (∃ y ∈ done ++ [x], l.deeper scopes y = some dir) ↔
      (∃ y ∈ done, l.deeper scopes y = some dir) ∨ l.deeper scopes x = some dir :=
    fun _ => exists_mem_snoc
  -- a new row that is printed already is there
  have hthere : ∀ r, l.newRow scopes x = some r → r.key ∉ base.map Row.key →
      r.key ∈ st.1.map Row.key → r ∈ st.1 := by
    intro r hr hbase hk
    obtain ⟨y, hy, r', hr', hkey⟩ := ((h.key_mem_iff _).mp hk).resolve_left hbase
    obtain rfl := newRow_eq_of_key hr hr' hkey.symm
    exact (h.mem r).mpr (.inr ⟨hbase, y, hy, hr'⟩)
  by_cases hdirect : (l.recursive || isDirectChild x.1 (scopeRoot scopes x.1)) = true
  · have hdeeper : l.deeper scopes x = none := if_pos hdirect
    have hown : l.newRow scopes x = ownRow x.1 x.2 := if_pos hdirect
    have hshow : l.showChange scopes st x = (showDirect x.1 x.2 st.1, st.2) := if_pos hdirect
    rw [hshow, showDirect_eq, ← hown]
    refine ⟨?_, fun r => ?_, fun dir => ?_⟩
    · cases l.newRow scopes x with
      | none => exact h.nodup
      | some a => exact nodup_pushRow h.nodup a
    · simp only [bumped_snoc_of_none hdeeper, hnew_mem]
      cases hx : l.newRow scopes x with
      | none => simpa using h.mem r
      | some a =>
          show r ∈ pushRow st.1 a ↔ _
          rw [mem_pushRow, h.mem r]
          constructor
          · rintro ((hb | ⟨hk, hy⟩) | ⟨rfl, hk⟩)
            · exact .inl hb
            · exact .inr ⟨hk, .inl hy⟩
            · exact .inr ⟨fun hb => hk ((h.key_mem_iff _).mpr (.inl hb)), .inr rfl⟩
          · rintro (hb | ⟨hk, hy | heq⟩)
            · exact .inl (.inl hb)
            · exact .inl (.inr ⟨hk, hy⟩)
            · obtain rfl := Option.some.inj heq
              by_cases hin : a.key ∈ st.1.map Row.key
              · exact .inl ((h.mem a).mp (hthere a hx hk hin))
              · exact .inr ⟨rfl, hin⟩
    · rw [hseen_mem, hdeeper, h.seen]
      simp
  · have hdeeper : l.deeper scopes x = shownDir (scopeRoot scopes x.1) x.1 := if_neg hdirect
    have hnew : l.deeper scopes x = none → l.newRow scopes x = none := by
      intro hd
      unfold newRow
      rw [if_neg hdirect, ← hdeeper, hd, Option.bind_none]
    have hshow : l.showChange scopes st x =
        (l.deeper scopes x).elim st fun dir => showBelow dir x.2 st := by
      rw [hdeeper]
      exact showChange_of_deeper l hdirect
    cases hd : l.deeper scopes x with
    | none =>
        rw [hd, Option.elim_none] at hshow
        rw [hshow]
        refine ⟨h.nodup, fun r => ?_, fun dir => ?_⟩
        · simp only [bumped_snoc_of_none hd, hnew_mem, hnew hd]
          simpa using h.mem r
        · rw [hseen_mem, hd, h.seen]
          simp
    | some dir =>
        rw [hd, Option.elim_some] at hshow
        rw [hshow]
        have hx : ∀ r, l.newRow scopes x = some r ↔
            isAddition x.2 = true ∧ r = ⟨dir, true, .added, .blank⟩ := by
          intro r
          rw [newRow_of_deeper hd]
          split_ifs with hadd <;> simp [hadd, eq_comm]
        have hseen' : ∀ a, (∃ y ∈ done ++ [x], l.deeper scopes y = some a) ↔ a = dir ∨ a ∈ st.2 := by
          intro a
          rw [hseen_mem, hd, h.seen, or_comm, Option.some.injEq, eq_comm]
        have hsame : ∀ b ∈ base, (dir, true) ∉ base.map Row.key → dir ∉ st.2 →
            l.bumped scopes (done ++ [x]) b = l.bumped scopes done b := by
          intro b hb hno hseen
          rw [bumped_snoc hd (fun hy => hseen ((h.seen dir).mpr hy)), marked_of_key_ne]
          rw [key_bumped]
          exact fun hk => hno (hk ▸ List.mem_map_of_mem hb)
        show ShownSpec l scopes base (done ++ [x]) (showBelow dir x.2 st)
        unfold showBelow
        split_ifs with hin hkey hadd
        · -- seen to before: what it brings is there
          obtain ⟨y, hy, hyd⟩ := (h.seen dir).mp hin
          refine ⟨h.nodup, fun r => ?_, fun a => ?_⟩
          · simp only [bumped_snoc_of_seen hd ⟨y, hy, hyd⟩, hnew_mem, hx]
            rw [h.mem r]
            refine or_congr_right (and_congr_right fun hk => ⟨.inl, ?_⟩)
            rintro (hz | ⟨hadd, rfl⟩)
            · exact hz
            · refine ⟨y, hy, ?_⟩
              have hyadd := hmixed x (by simp) y (by simp [hy]) dir hd hyd hk
              rw [newRow_of_deeper hyd, ← hyadd, if_pos hadd]
          · rw [hseen']
            exact ⟨.inr, fun ha => ha.elim (fun heq => heq ▸ hin) id⟩
        · -- a row to mark
          rw [markModified_eq h.nodup]
          refine ⟨by rw [map_key_map_marked]; exact h.nodup, fun r => ?_, fun a => ?_⟩
          · have hbump := fun b => bumped_snoc hd (fun hy => hin ((h.seen dir).mpr hy)) b
            have hnewmark : ∀ y a, l.newRow scopes y = some a → marked dir a = a := by
              intro y a ha
              unfold marked
              rw [if_neg]
              rintro ⟨-, hblank⟩
              rw [(newRow_status ha).1] at hblank
              cases hblank
            simp only [List.mem_map, hnew_mem, hbump]
            constructor
            · rintro ⟨a, ha, rfl⟩
              rcases (h.mem a).mp ha with ⟨b, hb, rfl⟩ | ⟨hk, y, hy, hya⟩
              · exact .inl ⟨b, hb, rfl⟩
              · rw [hnewmark y a hya]
                exact .inr ⟨by simpa using hk, .inl ⟨y, hy, hya⟩⟩
            · rintro (⟨b, hb, rfl⟩ | ⟨hk, ⟨y, hy, hyr⟩ | hxr⟩)
              · exact ⟨_, (h.mem _).mpr (.inl ⟨b, hb, rfl⟩), rfl⟩
              · exact ⟨r, (h.mem r).mpr (.inr ⟨by simpa using hk, y, hy, hyr⟩), hnewmark y r hyr⟩
              · have hrk : r.key = (dir, true) := by rw [((hx r).mp hxr).2]; rfl
                exact ⟨r, hthere r hxr (by simpa using hk) (hrk ▸ hkey), hnewmark x r hxr⟩
          · rw [hseen', List.mem_cons]
        · -- a new row
          have hno : (dir, true) ∉ base.map Row.key := fun hb => hkey ((h.key_mem_iff _).mpr (.inl hb))
          refine ⟨?_, fun r => ?_, fun a => by rw [hseen', List.mem_cons]⟩
          · rw [List.map_append, List.map_singleton]
            exact List.Nodup.append h.nodup (List.nodup_singleton _) (List.disjoint_singleton.mpr hkey)
          · rw [List.mem_append, List.mem_singleton, h.mem r, hnew_mem]
            simp only [hx, hadd, true_and]
            constructor
            · rintro ((⟨b, hb, rfl⟩ | ⟨hk, hy⟩) | rfl)
              · exact .inl ⟨b, hb, (hsame b hb hno hin).symm⟩
              · exact .inr ⟨hk, .inl hy⟩
              · exact .inr ⟨hno, .inr rfl⟩
            · rintro (⟨b, hb, rfl⟩ | ⟨hk, hy | rfl⟩)
              · exact .inl (.inl ⟨b, hb, hsame b hb hno hin⟩)
              · exact .inl (.inr ⟨hk, hy⟩)
              · exact .inr rfl
        · -- nothing to show
          have hno : (dir, true) ∉ base.map Row.key := fun hb => hkey ((h.key_mem_iff _).mpr (.inl hb))
          refine ⟨h.nodup, fun r => ?_, fun a => by rw [hseen', List.mem_cons]⟩
          simp only [hnew_mem, hx, hadd, Bool.false_eq_true, false_and, or_false]
          rw [h.mem r]
          refine or_congr_left (exists_congr fun b => and_congr_right fun hb => ?_)
          rw [hsame b hb hno hin]

end ShownSpec

/-- **`shown_spec`** — the loop, whatever the order of the diff. -/
theorem shown_spec (hbase : (base.map Row.key).Nodup) (hmixed : Unmixed l scopes base changes) :
    ShownSpec l scopes base changes (changes.foldl (l.showChange scopes) (base, [])) := by
  suffices hloop : ∀ rest done st, changes = done ++ rest → ShownSpec l scopes base done st →
      ShownSpec l scopes base changes (rest.foldl (l.showChange scopes) st) from
    hloop changes [] (base, []) rfl (.start hbase)
  intro rest
  induction rest with
  | nil =>
      intro done st heq h
      rw [List.append_nil] at heq
      exact heq ▸ h
  | cons x rest ih =>
      intro done st heq h
      have heq' : changes = (done ++ [x]) ++ rest := by simp [heq]
      refine ih (done ++ [x]) _ heq' (h.step fun y hy z hz => hmixed y ?_ z ?_)
      · rw [heq']
        exact List.mem_append_left _ hy
      · rw [heq']
        exact List.mem_append_left _ hz

end Loop

end Listing

end Omemfs.Ls
