/-
# Omemfs.Scan.Reached — where a change of the working tree is seen.

A scan goes down to a directory if every component on the way is a directory that it reads (`Reached`).
What changes below a directory changes what a scan records of that directory, and of no path beside it:
two working trees that differ below one directory only are recorded alike exactly if the directory is
recorded alike, or not reached (`view_eq_iff_below`).
-/
import Omemfs.Scan.StillScope

namespace Omemfs.Scan

open Lib

variable {treeHash : Tree → Hash} {isIgnored : Path → Bool} {g g' : Lstat}

/-- Every component of the path is a directory that a scan reads. -/
def Reached (treeHash : Tree → Hash) (isIgnored : Path → Bool) (g : Lstat) (pfx s : Path) : Prop :=
  ∀ a n, a ++ [n] <+: s → ownNode treeHash isIgnored g (pfx ++ a) n = some .dir

theorem reached_cons {pfx s : Path} {n : String} :
    Reached treeHash isIgnored g pfx (n :: s) ↔
      ownNode treeHash isIgnored g pfx n = some .dir ∧ Reached treeHash isIgnored g (pfx ++ [n]) s := by
  constructor
  · intro h
    refine ⟨?_, fun a m ham => ?_⟩
    · have hn := h [] n (by simp)
      rwa [List.append_nil] at hn
    · have hm := h (n :: a) m (by simpa using ham)
      rwa [List.append_assoc, List.singleton_append]
  · rintro ⟨hn, hs⟩ a m ham
    cases a with
    | nil =>
        obtain rfl : m = n := by simpa using ham
        rwa [List.append_nil]
    | cons k a =>
        obtain ⟨rfl, hpre⟩ : k = n ∧ a ++ [m] <+: s := by simpa using ham
        have hm := hs a m hpre
        rwa [List.append_assoc, List.singleton_append] at hm

theorem view_of_dir {pfx : Path} {n : String}
    (h : ownNode treeHash isIgnored g pfx n = some .dir) (q : Path) :
    view treeHash isIgnored g pfx (n :: q) = view treeHash isIgnored g (pfx ++ [n]) q := by
  simp only [view, h]

/-- A directory that is reached is recorded as it is by itself. -/
theorem view_of_reached {pfx s : Path} (h : Reached treeHash isIgnored g pfx s) (p : Path) :
    view treeHash isIgnored g pfx (s ++ p) = view treeHash isIgnored g (pfx ++ s) p := by
  induction s generalizing pfx with
  | nil => rw [List.nil_append, List.append_nil]
  | cons n s ih =>
      obtain ⟨hn, hs⟩ := reached_cons.mp h
      rw [List.cons_append, view_of_dir hn, ih hs, List.append_assoc, List.singleton_append]

/-- A name that a scan goes into. -/
theorem ownNode_eq_dir_iff {pfx : Path} {n : String} :
    ownNode treeHash isIgnored g pfx n = some .dir ↔
      isIgnored (pfx ++ [n]) = false ∧ isExcluded n = false ∧ logicalName n = none ∧
        g (pfx ++ [n]) = some .dir := by
  unfold ownNode
  cases hi : isIgnored (pfx ++ [n]) with
  | true => simp
  | false =>
      cases hx : isExcluded n with
      | true => simp [entryNode]
      | false =>
          rcases hg : g (pfx ++ [n]) with _ | _ | a
          · simp [entryNode]
          · by_cases hl : logicalName n = none <;> simp [hl, kindNode]
          · by_cases hl : logicalName n = none <;> simp [hl, kindNode_leaf_ne_dir]

theorem reached_congr {pfx s : Path}
    (h : ∀ a, a <+: s → (g (pfx ++ a) = some .dir ↔ g' (pfx ++ a) = some .dir)) :
    Reached treeHash isIgnored g pfx s ↔ Reached treeHash isIgnored g' pfx s := by
  have hname : ∀ a n, a ++ [n] <+: s → (ownNode treeHash isIgnored g (pfx ++ a) n = some .dir ↔
      ownNode treeHash isIgnored g' (pfx ++ a) n = some .dir) := by
    intro a n ha
    have hdir := h (a ++ [n]) ha
    rw [← List.append_assoc] at hdir
    rw [ownNode_eq_dir_iff, ownNode_eq_dir_iff, hdir]
  exact ⟨fun hr a n ha => (hname a n ha).mp (hr a n ha), fun hr a n ha => (hname a n ha).mpr (hr a n ha)⟩

/-- What a directory has of its own under a name is told by the name and its stub file. -/
theorem ownNode_congr {pfx : Path} {n : String} (h : g (pfx ++ [n]) = g' (pfx ++ [n]))
    (hstub : g (pfx ++ [n ++ stubSuffix]) = g' (pfx ++ [n ++ stubSuffix])) :
    ownNode treeHash isIgnored g pfx n = ownNode treeHash isIgnored g' pfx n := by
  simp only [ownNode, fileStub, h, hstub]

theorem markerTree_congr {pfx : Path} (h : g (pfx ++ [dirStubName]) = g' (pfx ++ [dirStubName])) :
    markerTree g pfx = markerTree g' pfx := by
  simp only [markerTree, h]

/-- Nothing is recorded below a path that is recorded as a file or symlink. -/
theorem view_below_node {pfx : Path} {n : String} {x : Node} (hx : x ≠ .dir)
    (h : view treeHash isIgnored g pfx [n] = some x) (m : String) (q : Path) :
    view treeHash isIgnored g pfx (n :: m :: q) = none := by
  cases hown : ownNode treeHash isIgnored g pfx n with
  | some y =>
      have hxy : x = y := by
        rw [view_of_node hown] at h
        exact (Option.some.inj h).symm
      exact view_below_leaf (hxy ▸ hx) hown
  | none =>
      rw [view_of_none hown] at h ⊢
      obtain ⟨t, ht, hte⟩ := Option.bind_eq_some_iff.mp h
      obtain ⟨e, he, rfl⟩ := Option.map_eq_some_iff.mp hte
      have hnot : e.isTree = false := by
        cases e with
        | tree t m => exact absurd rfl hx
        | blob b => rfl
        | symlink l => rfl
      rw [ht, Option.bind_some, show n :: m :: q = [n] ++ m :: q from rfl, Tree.at_append, he,
        Option.bind_some, TreeEntry.at_cons_of_not_tree hnot]
      rfl

/-- Below a name the view is told by what the directory has of its own there, what lies below it and the
marker. -/
theorem view_name_congr {pfx : Path} {n : String}
    (hown : ownNode treeHash isIgnored g pfx n = ownNode treeHash isIgnored g' pfx n) (q : Path)
    (hbelow : ownNode treeHash isIgnored g pfx n = some .dir →
      view treeHash isIgnored g (pfx ++ [n]) q = view treeHash isIgnored g' (pfx ++ [n]) q)
    (hmarker : ownNode treeHash isIgnored g pfx n = none →
      ((markerTree g pfx).bind fun t => (t.at (n :: q)).map entryNode) =
        (markerTree g' pfx).bind fun t => (t.at (n :: q)).map entryNode) :
    view treeHash isIgnored g pfx (n :: q) = view treeHash isIgnored g' pfx (n :: q) := by
  rw [view, view, ← hown]
  cases h : ownNode treeHash isIgnored g pfx n with
  | none => exact hmarker h
  | some x =>
      cases x with
      | dir => exact hbelow h
      | blob hash mode => rfl
      | symlink target => rfl

/-- **`view_eq_iff_below`** — working trees that differ below one directory only. -/
theorem view_eq_iff_below {pfx s : Path}
    (h : ∀ q, ¬ (∃ k r, q = pfx ++ s ++ k :: r) → g q = g' q) :
    (∀ p, view treeHash isIgnored g pfx p = view treeHash isIgnored g' pfx p) ↔
      (Reached treeHash isIgnored g pfx s →
        ∀ p, view treeHash isIgnored g (pfx ++ s) p = view treeHash isIgnored g' (pfx ++ s) p) := by
  induction s generalizing pfx with
  | nil =>
      have hreach : Reached treeHash isIgnored g pfx [] := fun a n ha => by simp at ha
      rw [List.append_nil]
      exact ⟨fun hview _ => hview, fun hview => hview hreach⟩
  | cons n s ih =>
      -- nothing of the level itself has changed
      have hlevel : ∀ m, g (pfx ++ [m]) = g' (pfx ++ [m]) := by
        intro m
        apply h
        rintro ⟨k, r, heq⟩
        have hlen := congrArg List.length heq
        simp only [List.length_append, List.length_cons, List.length_nil] at hlen
        omega
      have hown : ∀ m, ownNode treeHash isIgnored g pfx m = ownNode treeHash isIgnored g' pfx m :=
        fun m => ownNode_congr (hlevel m) (hlevel _)
      have hassoc : pfx ++ n :: s = pfx ++ [n] ++ s := by simp
      have hih := @ih (pfx ++ [n]) (by rwa [← hassoc])
      rw [hassoc, reached_cons]
      constructor
      · rintro hview ⟨hn, hs⟩
        refine hih.mp (fun p => ?_) hs
        have hp := hview (n :: p)
        rwa [view, view, ← hown, hn] at hp
      · rintro hview p
        cases p with
        | nil => rfl
        | cons m q =>
            refine view_name_congr (hown m) q (fun hdir => ?_) fun _ => by
              rw [markerTree_congr (hlevel dirStubName)]
            by_cases hmn : m = n
            · subst hmn
              exact hih.mpr (fun hs => hview ⟨hdir, hs⟩) q
            · -- beside the way to the directory
              refine view_shift treeHash (fun _ => rfl) (fun r => h _ ?_) q
              rintro ⟨k, r', heq⟩
              simp only [List.append_assoc, List.cons_append, List.append_cancel_left_eq,
                List.cons.injEq] at heq
              exact hmn heq.1

end Omemfs.Scan
