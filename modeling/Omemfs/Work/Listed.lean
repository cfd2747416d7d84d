/-
# Omemfs.Work.Listed — which stubs a working tree lists.

The walk of `stub::list` reads every directory but `.omemfs`, and goes no further down where it finds a
marker.  So it lists exactly the stub files that no marker lies above (`mem_collect_iff`), and each once
(`collect_pairwise`): `f` is whatever tells of a listed stub where its file lies.
-/
import Omemfs.Work.Expand
import Omemfs.Scan.StillScope

namespace Omemfs.Work

open Lib Scan Fsguard
open Omemfs.Sync.Checked (fileStubPath dirStubPath isFile)

variable {dir : Path} {d : Disk} {x : Path × StubRecord} {f : Path × StubRecord → Path}

/-! ## One level -/

/-- The entries after the first one are found beside it. -/
theorem find?_of_rest {n m : String} {y z : Item String DiskLeaf} {rest : Disk} (hm : m ∉ rest.names)
    (h : rest.find? n = some z) : (DirTree.cons m y rest).find? n = some z := by
  rw [DirTree.find?_cons, if_neg, h]
  rintro rfl
  rw [DirTree.find?_eq_none_iff.mpr hm] at h
  cases h

theorem mem_stubsHere (hwf : d.Wf) :
    x ∈ stubsHere dir d ↔ ∃ n a, d.find? n = some (.leaf a) ∧ stubAt dir n a = some x := by
  induction d with
  | nil =>
      constructor
      · intro h
        cases h
      · rintro ⟨n, a, h, -⟩
        cases h
  | leaf m b rest ih =>
      rw [stubsHere, List.mem_append, Option.mem_toList, ih hwf.2]
      constructor
      · rintro (h | ⟨n, a, hn, ha⟩)
        · exact ⟨m, b, by rw [DirTree.find?, if_pos rfl], h⟩
        · exact ⟨n, a, find?_of_rest (y := .leaf b) hwf.1 hn, ha⟩
      · rintro ⟨n, a, hn, ha⟩
        rw [DirTree.find?] at hn
        split_ifs at hn with hnm
        · cases hn
          exact .inl (hnm ▸ ha)
        · exact .inr ⟨n, a, hn, ha⟩
  | sub m s rest _ ih =>
      rw [stubsHere, ih hwf.2.2]
      constructor
      · rintro ⟨n, a, hn, ha⟩
        exact ⟨n, a, find?_of_rest (y := .sub s) hwf.1 hn, ha⟩
      · rintro ⟨n, a, hn, ha⟩
        rw [DirTree.find?] at hn
        split_ifs at hn with hnm
        · cases hn
        · exact ⟨n, a, hn, ha⟩

theorem collectSubs_sub (n : String) (s rest : Disk) : collectSubs dir (.sub n s rest) =
    (if n = metadataDirName then [] else collect (dir ++ [n]) s) ++ collectSubs dir rest := rfl

theorem mem_collectSubs (hwf : d.Wf) :
    x ∈ collectSubs dir d ↔
      ∃ n s, d.find? n = some (.sub s) ∧ n ≠ metadataDirName ∧ x ∈ collect (dir ++ [n]) s := by
  induction d with
  | nil =>
      constructor
      · intro h
        cases h
      · rintro ⟨n, s, h, -⟩
        cases h
  | leaf m b rest ih =>
      rw [collectSubs, ih hwf.2]
      constructor
      · rintro ⟨n, s, hn, hs⟩
        exact ⟨n, s, find?_of_rest (y := .leaf b) hwf.1 hn, hs⟩
      · rintro ⟨n, s, hn, hs⟩
        rw [DirTree.find?] at hn
        split_ifs at hn with hnm
        · cases hn
        · exact ⟨n, s, hn, hs⟩
  | sub m t rest _ ih =>
      rw [collectSubs_sub, List.mem_append, ih hwf.2.2]
      constructor
      · rintro (h | ⟨n, s, hn, hs⟩)
        · split_ifs at h with hm
          · cases h
          · exact ⟨m, t, by rw [DirTree.find?, if_pos rfl], hm, h⟩
        · exact ⟨n, s, find?_of_rest (y := .sub t) hwf.1 hn, hs⟩
      · rintro ⟨n, s, hn, hm, hs⟩
        rw [DirTree.find?] at hn
        split_ifs at hn with hnm
        · cases hn
          subst hnm
          left
          rw [if_neg hm]
          exact hs
        · exact .inr ⟨n, s, hn, hm, hs⟩

/-! ## All levels -/

/-- **`mem_collect_iff`** — a stub is listed if no marker lies in a directory above its own. -/
theorem mem_collect_iff (hwf : d.Wf) :
    x ∈ collect dir d ↔ ∃ p n a, d.get (p ++ [n]) = some (.leaf a) ∧ stubAt (dir ++ p) n a = some x ∧
      metadataDirName ∉ p ∧ ∀ b k c, p = b ++ k :: c → isFile (d.get (b ++ [dirStubName])) = false := by
  induction d using DirTree.induction_find generalizing dir with
  | step d ih =>
      have hget : ∀ n, d.get [n] = (d.find? n).map Item.kind := fun n => by
        rw [DirTree.get, DirTree.at_singleton]
      rw [collect, List.mem_append, mem_stubsHere hwf]
      constructor
      · rintro (⟨n, a, hn, ha⟩ | h)
        · refine ⟨[], n, a, ?_, by rwa [List.append_nil], by simp, by simp⟩
          rw [List.nil_append, hget, hn]
          rfl
        · split_ifs at h with hmark
          · cases h
          · obtain ⟨n, s, hn, hm, hx⟩ := (mem_collectSubs hwf).mp h
            obtain ⟨p, k, a, hp, ha, hmeta, hno⟩ := (ih n s hn (wf_of_find? hwf hn)).mp hx
            refine ⟨n :: p, k, a, ?_, ?_, ?_, ?_⟩
            · rwa [List.cons_append, DirTree.get_cons_of_sub hn]
            · rwa [List.append_assoc, List.singleton_append] at ha
            · rw [List.mem_cons, not_or]
              exact ⟨hm.symm, hmeta⟩
            · intro b k' c hb
              cases b with
              | nil => exact Bool.not_eq_true _ ▸ hmark
              | cons j b =>
                  obtain ⟨rfl, hb'⟩ := List.cons.inj hb
                  rw [List.cons_append, DirTree.get_cons_of_sub hn]
                  exact hno b k' c hb'
      · rintro ⟨p, n, a, hp, ha, hmeta, hno⟩
        cases p with
        | nil =>
            left
            rw [List.nil_append, hget] at hp
            obtain ⟨y, hy, hkind⟩ := Option.map_eq_some_iff.mp hp
            cases y with
            | sub s => cases hkind
            | leaf b =>
                cases hkind
                exact ⟨n, a, hy, by rwa [List.append_nil] at ha⟩
        | cons k p =>
            right
            rw [List.mem_cons, not_or] at hmeta
            obtain ⟨hk, hmeta⟩ := hmeta
            have hmark : hasDirStub d = false := hno [] k p rfl
            have hparent : d.get (k :: p) = some .dir :=
              DirTree.get_of_append (n := n) (q := []) (by rw [hp]; exact Option.some_ne_none _)
            have hdir : d.get [k] = some .dir := DirTree.dir_of_prefix hparent (List.prefix_append [k] p)
            rw [if_neg (by rw [hmark]; exact Bool.false_ne_true), mem_collectSubs hwf]
            rw [hget] at hdir
            obtain ⟨y, hy, hkind⟩ := Option.map_eq_some_iff.mp hdir
            cases y with
            | leaf b => cases hkind
            | sub s =>
                refine ⟨k, s, hy, Ne.symm hk, (ih k s hy (wf_of_find? hwf hy)).mpr ⟨p, n, a, ?_, ?_, hmeta, ?_⟩⟩
                · rwa [List.cons_append, DirTree.get_cons_of_sub hy] at hp
                · rwa [List.append_assoc, List.singleton_append]
                · intro b j c hb
                  have hb' := hno (k :: b) j c (by rw [hb, List.cons_append])
                  rwa [List.cons_append, DirTree.get_cons_of_sub hy] at hb'

/-! ## Each stub once -/

theorem stubsHere_pairwise (hwf : d.Wf)
    (hf : ∀ n a x, d.find? n = some (.leaf a) → stubAt dir n a = some x → f x = dir ++ [n]) :
    (stubsHere dir d).Pairwise fun x y => f x ≠ f y := by
  induction d with
  | nil => exact .nil
  | leaf m b rest ih =>
      rw [stubsHere, List.pairwise_append]
      refine ⟨?_, ih hwf.2 fun n a x hn => hf n a x (find?_of_rest (y := .leaf b) hwf.1 hn), ?_⟩
      · cases stubAt dir m b <;> simp
      · intro x hx y hy
        obtain ⟨n, a, hn, ha⟩ := (mem_stubsHere hwf.2).mp hy
        have hx' := hf m b x (by rw [DirTree.find?, if_pos rfl]) (Option.mem_toList.mp hx)
        have hy' := hf n a y (find?_of_rest (y := .leaf b) hwf.1 hn) ha
        intro heq
        rw [hx', hy'] at heq
        obtain rfl : m = n := (List.cons.inj (List.append_cancel_left heq)).1
        rw [DirTree.find?_eq_none_iff.mpr hwf.1] at hn
        cases hn
  | sub m s rest _ ih =>
      rw [stubsHere]
      exact ih hwf.2.2 fun n a x hn => hf n a x (find?_of_rest (y := .sub s) hwf.1 hn)

theorem collectSubs_pairwise (hwf : d.Wf)
    (hf : ∀ n s x, d.find? n = some (.sub s) → x ∈ collect (dir ++ [n]) s →
      ∃ k r, f x = dir ++ n :: k :: r)
    (hsub : ∀ n s, d.find? n = some (.sub s) →
      (collect (dir ++ [n]) s).Pairwise fun x y => f x ≠ f y) :
    (collectSubs dir d).Pairwise fun x y => f x ≠ f y := by
  induction d with
  | nil => exact .nil
  | leaf m b rest ih =>
      rw [collectSubs]
      exact ih hwf.2 (fun n s x hn => hf n s x (find?_of_rest (y := .leaf b) hwf.1 hn))
        fun n s hn => hsub n s (find?_of_rest (y := .leaf b) hwf.1 hn)
  | sub m t rest _ ih =>
      have hself : (DirTree.sub m t rest).find? m = some (.sub t) := by rw [DirTree.find?, if_pos rfl]
      rw [collectSubs_sub, List.pairwise_append]
      refine ⟨?_, ih hwf.2.2 (fun n s x hn => hf n s x (find?_of_rest (y := .sub t) hwf.1 hn))
        (fun n s hn => hsub n s (find?_of_rest (y := .sub t) hwf.1 hn)), ?_⟩
      · split_ifs
        · exact .nil
        · exact hsub m t hself
      · intro x hx y hy
        have hx : x ∈ collect (dir ++ [m]) t := by
          split_ifs at hx
          · cases hx
          · exact hx
        obtain ⟨n, s, hn, -, hy⟩ := (mem_collectSubs hwf.2.2).mp hy
        obtain ⟨k, r, hx'⟩ := hf m t x hself hx
        obtain ⟨k', r', hy'⟩ := hf n s y (find?_of_rest (y := .sub t) hwf.1 hn) hy
        intro heq
        rw [hx', hy'] at heq
        obtain rfl : m = n := (List.cons.inj (List.append_cancel_left heq)).1
        rw [DirTree.find?_eq_none_iff.mpr hwf.1] at hn
        cases hn

/-- **`collect_pairwise`** — no stub file is listed twice. -/
theorem collect_pairwise (hwf : d.Wf)
    (hf : ∀ p n a x, d.get (p ++ [n]) = some (.leaf a) → stubAt (dir ++ p) n a = some x →
      f x = dir ++ p ++ [n]) : (collect dir d).Pairwise fun x y => f x ≠ f y := by
  induction d using DirTree.induction_find generalizing dir with
  | step d ih =>
      have hhere : ∀ n a x, d.find? n = some (.leaf a) → stubAt dir n a = some x → f x = dir ++ [n] := by
        intro n a x hn ha
        have hx := hf [] n a x (by rw [List.nil_append, DirTree.get, DirTree.at_singleton, hn]; rfl)
        rw [List.append_nil] at hx
        exact hx ha
      have hsub : ∀ n s, d.find? n = some (.sub s) → ∀ p k a x, s.get (p ++ [k]) = some (.leaf a) →
          stubAt (dir ++ [n] ++ p) k a = some x → f x = dir ++ [n] ++ p ++ [k] := by
        intro n s hn p k a x hp ha
        have hx := hf (n :: p) k a x (by rwa [List.cons_append, DirTree.get_cons_of_sub hn])
        rw [show dir ++ n :: p = dir ++ [n] ++ p by simp] at hx
        exact hx ha
      have hbelow : ∀ n s x, d.find? n = some (.sub s) → x ∈ collect (dir ++ [n]) s →
          ∃ k r, f x = dir ++ n :: k :: r := by
        intro n s x hn hx
        obtain ⟨p, k, a, hp, ha, -⟩ := (mem_collect_iff (wf_of_find? hwf hn)).mp hx
        rw [hsub n s hn p k a x hp ha]
        cases p with
        | nil => exact ⟨k, [], by simp⟩
        | cons j p => exact ⟨j, p ++ [k], by simp⟩
      rw [collect, List.pairwise_append]
      refine ⟨stubsHere_pairwise hwf hhere, ?_, ?_⟩
      · split_ifs
        · exact .nil
        · exact collectSubs_pairwise hwf hbelow fun n s hn => ih n s hn (wf_of_find? hwf hn) (hsub n s hn)
      · intro x hx y hy
        split_ifs at hy
        · cases hy
        · obtain ⟨n, a, hn, ha⟩ := (mem_stubsHere hwf).mp hx
          obtain ⟨m, s, hm, -, hy⟩ := (mem_collectSubs hwf).mp hy
          obtain ⟨k, r, hy'⟩ := hbelow m s y hm hy
          rw [hhere n a x hn ha, hy']
          intro heq
          have hlen := congrArg List.length heq
          simp only [List.length_append, List.length_cons, List.length_nil] at hlen
          omega

end Omemfs.Work
