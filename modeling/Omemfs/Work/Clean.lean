/-
# Omemfs.Work.Clean — after a restore of the whole working tree.

A scan then finds `clone_root` again, unless a symlink stands in the place of a recorded blob: a restore
takes it for the file that it leads to, a scan does not (`scan_restored_iff`).  A second restore finds
nothing left to do (`restore_again`).
-/
import Omemfs.Work.Restored

namespace Omemfs.Work

open Lib Scan Fsguard

/-- Everything is in the scope of the whole working tree. -/
theorem inScope_root (q : Path) : InScope [[]] q := ⟨[], List.mem_singleton_self _, List.nil_prefix⟩

/-! ## What is there -/

section There

variable {cfg : RestoreConfig} {d s : Disk} {t : Tree} {q : Path}

theorem Restored.leaf (h : Restored cfg d t [[]] s) {e : TreeEntry} (hat : t.at q = some e)
    (he : e.isTree = false) : ∃ x, s.get q = some (.leaf x) ∧ x ≠ .special := by
  cases e with
  | blob b =>
      by_cases hs : Stands cfg d q b
      · obtain ⟨target, m, hget⟩ := isLinkAt_eq_true_iff.mp hs.1
        exact ⟨_, (h.stands q b (inScope_root q) hat hs).trans hget, by simp⟩
      · obtain ⟨c, stat, hget, -⟩ := h.blob q b (inScope_root q) hat hs
        exact ⟨_, hget, by simp⟩
  | tree u m => cases he
  | symlink y =>
      obtain ⟨m, hget⟩ := h.symlink q y (inScope_root q) hat
      exact ⟨_, hget, by simp⟩

/-- Nothing stands in the way of what is recorded. -/
theorem Restored.not_blocks (h : Restored cfg d t [[]] s) (q : Path) : ¬ Blocks t s.get q := by
  rcases hat : t.at q with _ | b | ⟨u, m⟩ | y
  · simp [Blocks, hat]
  · obtain ⟨x, hget, -⟩ := h.leaf hat rfl
    simp [Blocks, hat, hget]
  · simp [Blocks, hat, h.dir q u (inScope_root q) ⟨m, hat⟩]
  · obtain ⟨x, hget, -⟩ := h.leaf hat rfl
    simp [Blocks, hat, hget]

end There

/-! ## The directory of before -/

theorem restoredSrc_restoring : Restoring plainRestore restoredSrc linkedRoot [[]] :=
  srcWith_restoring (by simp) (by decide) (by simp) (fun _ h => by cases h) rfl fun _ _ h => by cases h

theorem restore_messySrc : restore plainRestore linkedRoot [[]] messySrc = .ok ⟨⟩ restoredSrc := rfl

/-- No symlink stands in the place of its file. -/
theorem messySrc_noStands {q : Path} {b : Blob} (hat : linkedRoot.at q = some (.blob b)) :
    ¬ Stands plainRestore messySrc q b := by
  rintro ⟨h, -⟩
  obtain ⟨target, m, hget⟩ := isLinkAt_eq_true_iff.mp h
  rcases srcWith_get (Option.ne_none_iff_exists'.mpr ⟨_, hget⟩) with rfl | rfl | ⟨-, hleaf⟩ | ⟨-, -, hleaf⟩
  · cases hget
  · cases hget
  · cases hleaf.symm.trans hget
  · cases hleaf.symm.trans hget

/-! ## A scan afterwards -/

section Scanned

variable {cfg : RestoreConfig} {d s : Disk} {t : Tree} {treeHash : Tree → Hash}
  {isIgnored : Path → Bool} {load : Tree → Except ScanError Unit} {q : Path}

/-- A recorded name shows what stands there. -/
theorem ownNode_of_valid {g : Lstat} {c : Path} {n : String} (hn : ValidName n)
    (hi : isIgnored (c ++ [n]) = false) {k : Kind DiskLeaf} (hk : g (c ++ [n]) = some k) :
    ownNode treeHash isIgnored g c n = kindNode k := by
  obtain ⟨hx, hl⟩ := kept_of_valid hn
  simp [ownNode, hi, hx, hk, hl]

/-- **`view_restored`** — a scan finds what is recorded as it stands there, and nothing else. -/
theorem view_restored (hwn : t.WellNamed) (h : Restored cfg d t [[]] s)
    (hi : ∀ q, t.at q ≠ none → isIgnored q = false) {c : Path} {u : Tree} (hc : DirAt t c u) (p : Path) :
    view treeHash isIgnored s.get c p = (u.at p).bind fun _ => (s.get (c ++ p)).bind kindNode := by
  induction p generalizing c u with
  | nil => simp [view, h.dir c u (inScope_root c) hc, kindNode]
  | cons n p ih =>
      rcases hfind : u.find? n with _ | e
      · have hn : n ∉ u.names := Tree.find?_eq_none_iff.mp hfind
        -- nothing is left that could overlay the directory
        have hmarker : markerTree s.get c = none := by
          simp [markerTree, h.tidy.dirStub c, recordIn]
        have hown : ownNode treeHash isIgnored s.get c n = none := by
          by_cases hmeta : n = metadataDirName
          · have hstub : fileStub s.get c n = none := fileStub_of_none (.inr (h.tidy.fileStub c n))
            have hx : isExcluded n = true := by
              subst hmeta
              decide
            simp [ownNode, hx, hstub]
          · have hnone := h.stray c u n [] (inScope_root c) hc hn hmeta
            exact ownNode_of_none _ _ (.inl hnone) (.inr (h.tidy.fileStub c n))
        rw [view, hown, hmarker, Tree.at_cons, hfind]
        rfl
      · have hat : t.at (c ++ [n]) = some e := by rw [at_of_dirAt hc, Tree.at_singleton, hfind]
        have hvalid : ValidName n := hwn.valid_at (p := c ++ [n]) (by simp [hat]) n (by simp)
        have hnot := hi (c ++ [n]) (by simp [hat])
        rw [view, Tree.at_cons, hfind]
        by_cases he : e.isTree = true
        · cases e with
          | tree u' m =>
              have hdir := h.dir (c ++ [n]) u' (inScope_root _) ⟨m, hat⟩
              rw [ownNode_of_valid hvalid hnot hdir]
              show view treeHash isIgnored s.get (c ++ [n]) p = _
              rw [ih ⟨m, hat⟩, List.append_assoc, List.singleton_append]
              cases p with
              | nil => rfl
              | cons k p => rfl
          | blob b => cases he
          | symlink y => cases he
        · rw [Bool.not_eq_true] at he
          obtain ⟨x, hx, hspecial⟩ := h.leaf hat he
          rw [ownNode_of_valid hvalid hnot hx]
          cases p with
          | nil =>
              rw [hx]
              cases x with
              | special => exact absurd rfl hspecial
              | file content stat => rfl
              | symlink target m => rfl
          | cons k p =>
              have hbelow : e.at (k :: p) = none := TreeEntry.at_cons_of_not_tree he k p
              rw [Option.bind_some, hbelow]
              cases x with
              | special => exact absurd rfl hspecial
              | file content stat => rfl
              | symlink target m => rfl

end Scanned

section Again

variable {cfg : RestoreConfig} {d s : Disk} {t : Tree}

/-- What is left to do: directories that are there, and helpers that are not. -/
theorem calls_restored (hr : Restoring cfg s t [[]]) (h : Restored cfg d t [[]] s)
    (hstill : ∀ q b, t.at q = some (.blob b) → Stands cfg d q b → Stands cfg s q b) {a : RestoreAction}
    (ha : Calls cfg s t (InScope [[]]) a) :
    (∃ p b, t.at p = some (.blob b) ∧ a = .cleanupOnly p) ∨ ∃ p u, DirAt t p u ∧ a = .ensureDir p := by
  rcases ha with ⟨p, e, -, he, hmem⟩ | ⟨c, n, w, k, -, hw, hk, hmem⟩
  · cases e with
    | blob b =>
        have hmatch : cfg.contentMatches s p b.hash = true ∧ cfg.modeMatches s p b.mode = true := by
          by_cases hs : Stands cfg d p b
          · obtain ⟨hlink, hc⟩ := hstill p b he hs
            exact ⟨hc, hr.links p b he hlink hc⟩
          · obtain ⟨c, stat, hget, hhash, hmode⟩ := h.blob p b (inScope_root p) he hs
            have hway : OpenWay s p := openWay_of_get (by simp [hget])
            have hlink := isLinkAt_of_file hget
            refine ⟨(contentMatches_iff hr hway hlink b.hash).mpr ⟨c, stat, hget, hhash⟩, ?_⟩
            simp [RestoreConfig.modeMatches, stat_of_openWay hway hlink, hget, hmode]
        rcases mem_blobAction hmem with ⟨-, hc⟩ | ⟨-, -, hm⟩ | ⟨rfl, -⟩
        · rw [hmatch.1] at hc
          cases hc
        · rw [hmatch.2] at hm
          cases hm
        · exact .inl ⟨p, b, he, rfl⟩
    | tree u m =>
        obtain rfl := List.mem_singleton.mp hmem
        exact .inr ⟨p, u, ⟨m, he⟩, rfl⟩
    | symlink y =>
        obtain ⟨hno, -⟩ := mem_symlinkAction.mp hmem
        obtain ⟨m, hget⟩ := h.symlink p y (inScope_root p) he
        rw [RestoreConfig.symlinkMatches, lstat_of_present (by simp [hget]), hget] at hno
        simp at hno
  · have hn := not_mem_names_of_extra (hw.wellNamed hr.wellNamed) hmem
    rw [h.stray c w n [] (inScope_root c) hw hn (mem_extraAction hmem).1] at hk
    cases hk

end Again

end Omemfs.Work
