/-
# Omemfs.Work.Seen — what the two looks at a target tell.

A directory passes the second look exactly if everything in it but directories is as it was, by
modification time and size (`check_iff`); the marker is not looked at, so the command does not stumble
over what it writes itself.  A single directory is therefore stubbed exactly if the marker can be written
and no symlink lies below (`stub_dir_iff`).  But what the command has removed for one target has changed
for the next: a path that is given twice loses its record as well as its content (`stub_twice`).
-/
import Omemfs.Work.Stubbed

namespace Omemfs.Work

open Lib Scan Fsguard
open Omemfs.Sync.Checked (fileStubPath dirStubPath isFile)

/-! ## The snapshot of a directory -/

namespace DirSnapshot

/-- What a snapshot has of an entry: nothing of a directory, and nothing but its name of a symlink. -/
def seenAs : Option (Kind DiskLeaf) → Option (Option Snapshot)
  | some (.leaf (.file _ stat)) => some (some (.of stat))
  | some (.leaf _) => some none
  | _ => none

variable {pfx : Path} {s t : Disk}

theorem mem_files (hwf : s.Wf) (x : Path × Snapshot) : x ∈ (walk pfx s).files ↔
    ∃ n r k, s.get (n :: r) = some k ∧ ¬ (pfx = [] ∧ n = dirStubName) ∧
      seenAs (some k) = some (some x.2) ∧ x.1 = pfx ++ n :: r := by
  induction s generalizing pfx with
  | nil => simp [walk, DirTree.nil_get_cons]
  | leaf m a rest ih =>
      rw [DirTree.exists_get_leaf_iff hwf.1, ← ih hwf.2]
      obtain ⟨q, snap⟩ := x
      by_cases hm : pfx = [] ∧ m = dirStubName
      · cases a <;> simp [walk, hm]
      · cases a with
        | file c stat => simp [walk, hm, seenAs, and_comm, eq_comm]
        | symlink target m => simp [walk, hm, seenAs]
        | special => simp [walk, hm, seenAs]
  | sub m c rest ihc ih =>
      rw [DirTree.exists_get_sub_iff hwf.1, ← ih hwf.2.2, walk, DirTree.exists_get_iff]
      by_cases hm : pfx = [] ∧ m = dirStubName
      · simp [hm]
      · rw [if_neg hm, List.mem_append, ihc hwf.2.1]
        refine or_congr_left ?_
        simp [hm, seenAs]

theorem mem_others (hwf : s.Wf) (p : Path) : p ∈ (walk pfx s).others ↔
    ∃ n r k, s.get (n :: r) = some k ∧ ¬ (pfx = [] ∧ n = dirStubName) ∧
      seenAs (some k) = some none ∧ p = pfx ++ n :: r := by
  induction s generalizing pfx with
  | nil => simp [walk, DirTree.nil_get_cons]
  | leaf m a rest ih =>
      rw [DirTree.exists_get_leaf_iff hwf.1, ← ih hwf.2]
      by_cases hm : pfx = [] ∧ m = dirStubName
      · cases a <;> simp [walk, hm]
      · cases a <;> simp [walk, hm, seenAs]
  | sub m c rest ihc ih =>
      rw [DirTree.exists_get_sub_iff hwf.1, ← ih hwf.2.2, walk, DirTree.exists_get_iff]
      by_cases hm : pfx = [] ∧ m = dirStubName
      · simp [hm]
      · rw [if_neg hm, List.mem_append, ihc hwf.2.1]
        refine or_congr_left ?_
        simp [hm, seenAs]

/-- What is seen at a path, but for the marker of the directory itself. -/
def seenAt (s : Disk) : Path → Option (Option Snapshot)
  | [] => none
  | n :: r => if n = dirStubName then none else seenAs (s.get (n :: r))

theorem seenAt_eq_some_iff {p : Path} {o : Option Snapshot} : seenAt s p = some o ↔
    ∃ n r k, s.get (n :: r) = some k ∧ ¬ (([] : Path) = [] ∧ n = dirStubName) ∧
      seenAs (some k) = some o ∧ p = [] ++ n :: r := by
  constructor
  · intro h
    cases p with
    | nil => cases h
    | cons n r =>
        rw [seenAt] at h
        split_ifs at h with hn
        cases hk : s.get (n :: r) with
        | none =>
            rw [hk] at h
            cases h
        | some k => exact ⟨n, r, k, hk, fun hm => hn hm.2, by rw [← hk, h], rfl⟩
  · rintro ⟨n, r, k, hk, hn, hseen, rfl⟩
    rw [List.nil_append, seenAt, if_neg fun hm => hn ⟨rfl, hm⟩, hk, hseen]

theorem mem_files_of (hwf : s.Wf) (p : Path) (snap : Snapshot) :
    (p, snap) ∈ (of s).files ↔ seenAt s p = some (some snap) :=
  (mem_files hwf (p, snap)).trans seenAt_eq_some_iff.symm

theorem mem_others_of (hwf : s.Wf) (p : Path) : p ∈ (of s).others ↔ seenAt s p = some none :=
  (mem_others hwf p).trans seenAt_eq_some_iff.symm

theorem mem_names_of (hwf : s.Wf) (p : Path) :
    p ∈ (of s).files.map Prod.fst ↔ ∃ snap, seenAt s p = some (some snap) := by
  simp only [List.mem_map, Prod.exists, exists_and_right, exists_eq_right, mem_files_of hwf]

/-- **`check_iff`** — a directory passes exactly if everything in it is seen as it was. -/
theorem check_iff (hs : s.Wf) (ht : t.Wf) :
    check (of s) (of t) = true ↔ ∀ p, seenAt t p = seenAt s p := by
  simp only [check, Bool.and_eq_true, List.all_eq_true, decide_eq_true_eq, Bool.or_eq_true,
    List.mem_append, mem_names_of hs, mem_names_of ht, mem_others_of hs, mem_others_of ht]
  constructor
  · rintro ⟨⟨hfiles, hnew⟩, hothers⟩ p
    have hfile : ∀ snap, seenAt s p = some (some snap) → seenAt t p = some (some snap) := fun snap h =>
      (mem_files_of ht p snap).mp (hfiles (p, snap) ((mem_files_of hs p snap).mpr h))
    rcases hseen : seenAt s p with _ | _ | snap
    · -- nothing has come
      rcases hnow : seenAt t p with _ | _ | snap
      · rfl
      · rcases hnew p (.inr hnow) with ⟨snap, h⟩ | h
        · rw [hseen] at h
          cases h
        · rw [hseen] at h
          cases h
      · rcases hnew p (.inl ⟨snap, hnow⟩) with ⟨snap, h⟩ | h
        · rw [hseen] at h
          cases h
        · rw [hseen] at h
          cases h
    · exact hothers p hseen
    · exact hfile snap hseen
  · intro hall
    refine ⟨⟨fun x hx => ?_, fun p hp => ?_⟩, fun p hp => ?_⟩
    · obtain ⟨p, snap⟩ := x
      rw [mem_files_of hs] at hx
      rw [mem_files_of ht, hall, hx]
    · rwa [hall] at hp
    · rw [hall, hp]

end DirSnapshot

/-! ## One directory -/

section Target

variable {cfg : StubConfig} {cloneRoot : Tree} {d d' : Disk} {rel : Path} {t : Tree} {m : TreeMeta}
  {x : StubTarget}

theorem stub_singleton (hv : validate cfg cloneRoot d rel = .ok (some x)) :
    stub cfg cloneRoot [rel] d = stubOne cfg x d := by
  have hall : validateAll cfg cloneRoot d [rel] = .ok [x] := by
    rw [validateAll, List.mapM_cons, hv, List.mapM_nil]
    rfl
  have hrun : stub cfg cloneRoot [rel] d = (stubOne cfg x >>= fun _ => pure ⟨⟩) d := by
    rw [stub, hall]
    rfl
  rw [hrun]
  cases hone : stubOne cfg x d with
  | ok a d' => exact bind_eq_of_ok hone _
  | error e d' => exact bind_eq_of_error hone _

theorem stub_pair (hv : validate cfg cloneRoot d rel = .ok (some x))
    (hone : stubOne cfg x d = .ok ⟨⟩ d') : stub cfg cloneRoot [rel, rel] d = stubOne cfg x d' := by
  have hall : validateAll cfg cloneRoot d [rel, rel] = .ok [x, x] := by
    rw [validateAll, List.mapM_cons, hv, List.mapM_cons, hv, List.mapM_nil]
    rfl
  have hrun : stub cfg cloneRoot [rel, rel] d =
      (stubOne cfg x >>= fun _ => stubOne cfg x >>= fun _ => pure ⟨⟩) d := by
    rw [stub, hall]
    rfl
  rw [hrun, bind_eq_of_ok hone]
  cases htwo : stubOne cfg x d' with
  | ok a e => exact bind_eq_of_ok htwo _
  | error e u => exact bind_eq_of_error htwo _

/-- The second look, at the directory where it lies. -/
theorem stillAsSeen_dir_iff {s : Disk} {d₁ : Disk} (hwf : d.Wf) (hwf₁ : d₁.Wf)
    (hat : d.at rel = some (.sub s)) (hdir₁ : d₁.get rel = some .dir) :
    stillAsSeen d₁ (.dir rel t m (.of s)) = true ↔ ∀ n r, n ≠ dirStubName →
      DirSnapshot.seenAs (d₁.get (rel ++ n :: r)) = DirSnapshot.seenAs (d.get (rel ++ n :: r)) := by
  obtain ⟨s₁, hat₁⟩ := DirTree.get_eq_dir_iff.mp hdir₁
  have hbelow : ∀ {e u : Disk}, e.at rel = some (.sub u) → ∀ q, e.get (rel ++ q) = u.get q := by
    intro e u he q
    rw [DirTree.get, DirTree.at_append, he]
    rfl
  have hcheck : stillAsSeen d₁ (.dir rel t m (.of s)) = DirSnapshot.check (.of s) (.of s₁) := by
    rw [stillAsSeen, hat₁]
  rw [hcheck, DirSnapshot.check_iff (wf_of_at hwf hat) (wf_of_at hwf₁ hat₁)]
  constructor
  · intro h n r hn
    have hnr := h (n :: r)
    rwa [DirSnapshot.seenAt, if_neg hn, DirSnapshot.seenAt, if_neg hn, ← hbelow hat₁, ← hbelow hat] at hnr
  · intro h p
    cases p with
    | nil => rfl
    | cons n r =>
        rw [DirSnapshot.seenAt, DirSnapshot.seenAt]
        split_ifs with hn
        · rfl
        · rw [← hbelow hat₁, ← hbelow hat, h n r hn]

/-- A verified directory that its marker has been written into. -/
theorem stubOne_dir {s : Disk} (hwf : d.Wf) (hat : d.at rel = some (.sub s)) :
    (d.get (dirStubPath rel) = some .dir ∧ ∃ e, stubOne cfg (.dir rel t m (.of s)) d = .error e d) ∨
      d.get (dirStubPath rel) ≠ some .dir ∧ ∃ d₁, d₁.Wf ∧ d₁.get rel = some .dir ∧
        (∀ q, d₁.get q = if q = dirStubPath rel then
          some (.leaf (cfg.mach.stubFile (treeRecord t m))) else d.get q) ∧
        stubOne cfg (.dir rel t m (.of s)) d = guarded (removeDirAll isLink [dirStubName] rel) d₁ := by
  have hdir : d.get rel = some .dir := DirTree.get_eq_dir_iff.mpr ⟨s, hat⟩
  obtain ⟨hno, e, he⟩ | ⟨hfree, d₁, hget, hwf₁, hcase⟩ :=
    @stubOne_cases cfg d (.dir rel t m (.of s)) rel _ hdir rfl
  · exact .inl ⟨hno, e, he⟩
  · have hself : rel ≠ rel ++ [dirStubName] := fun h => by simpa using congrArg List.length h
    have hdir₁ : d₁.get rel = some .dir := by rw [hget, if_neg hself, hdir]
    have hseen : stillAsSeen d₁ (.dir rel t m (.of s)) = true := by
      refine (stillAsSeen_dir_iff hwf (hwf₁ hwf) hat hdir₁).mpr fun n r hn => ?_
      rw [hget, if_neg fun h => hn (List.cons.inj (List.append_cancel_left h)).1]
    obtain ⟨-, hrun⟩ | ⟨hno, -⟩ := hcase
    · exact .inr ⟨hfree, d₁, hwf₁ hwf, hdir₁, hget, hrun⟩
    · rw [hseen] at hno
      cases hno

theorem stubOne_dir_iff {s : Disk} (hwf : d.Wf) (hat : d.at rel = some (.sub s)) :
    ((∃ d', stubOne cfg (.dir rel t m (.of s)) d = .ok ⟨⟩ d') ↔ d.get (dirStubPath rel) ≠ some .dir ∧
        ∀ n r a, n ≠ dirStubName → d.get (rel ++ n :: r) = some (.leaf a) → isLink a = false) ∧
      ∀ d', stubOne cfg (.dir rel t m (.of s)) d = .ok ⟨⟩ d' →
        d'.Wf ∧ Emptied cfg.mach rel (treeRecord t m) d.get d'.get := by
  obtain ⟨hno, e, he⟩ | ⟨hfree, d₁, hwf₁, hdir₁, hget, hrun⟩ := @stubOne_dir cfg d rel t m s hwf hat
  · rw [he]
    refine ⟨⟨?_, fun h => absurd hno h.1⟩, ?_⟩
    · rintro ⟨d', ⟨⟩⟩
    · rintro d' ⟨⟩
  · have hother : ∀ n r, n ≠ dirStubName → d₁.get (rel ++ n :: r) = d.get (rel ++ n :: r) := by
      intro n r hn
      have hne : rel ++ n :: r ≠ rel ++ [dirStubName] := fun h =>
        hn (List.cons.inj (List.append_cancel_left h)).1
      rw [hget]
      exact if_neg hne
    have hiff : (∃ d', stubOne cfg (.dir rel t m (.of s)) d = .ok ⟨⟩ d') ↔
        ∀ n r a, n ≠ dirStubName → d.get (rel ++ n :: r) = some (.leaf a) → isLink a = false := by
      obtain ⟨s₁, hat₁⟩ := DirTree.get_eq_dir_iff.mp hdir₁
      have hall := @removals_succeeds_iff _ d₁ isLink [dirStubName] rel s₁ hat₁ (wf_of_at hwf₁ hat₁)
      simp only [hrun, guarded_ok, removeDirAll_of_dir hat₁, hall, List.mem_singleton]
      refine forall₃_congr fun n r a => forall_congr' fun hn => ?_
      rw [hother n r hn]
    refine ⟨⟨fun h => ⟨hfree, hiff.mp h⟩, fun h => hiff.mpr h.2⟩, fun d' h => ?_⟩
    have hlink := hiff.mp ⟨d', h⟩
    obtain ⟨d₂, hrm, hwf₂, hempty⟩ := @removeDirAll_ok d₁ cfg.mach rel (treeRecord t m) hwf₁ hdir₁
      (by rw [hget]; exact if_pos rfl) fun n q a hn ha => hlink n q a hn (hother n q hn ▸ ha)
    rw [hrun, guarded_ok, hrm] at h
    cases h
    refine ⟨hwf₂, hempty.marker, hempty.below, fun q hq => ?_⟩
    rw [hempty.frame q hq, hget, if_neg]
    rintro rfl
    exact hq ⟨_, _, rfl⟩

/-- **`stub_dir_iff`** — a directory that is verified is stubbed exactly if its marker can be written and
no symlink lies below; then the marker is all that is left of it. -/
theorem stub_dir_iff {seen : DirSnapshot} (hwf : d.Wf)
    (hv : validate cfg cloneRoot d rel = .ok (some (.dir rel t m seen))) :
    ((∃ d', stub cfg cloneRoot [rel] d = .ok ⟨⟩ d') ↔ d.get (dirStubPath rel) ≠ some .dir ∧
        ∀ n r a, n ≠ dirStubName → d.get (rel ++ n :: r) = some (.leaf a) → isLink a = false) ∧
      ∀ d', stub cfg cloneRoot [rel] d = .ok ⟨⟩ d' →
        Emptied cfg.mach rel (treeRecord t m) d.get d'.get := by
  rw [stub_singleton hv]
  obtain ⟨-, ⟨s, hat, -, hdir⟩ | ⟨c, stat, -, -, hfile⟩⟩ := validate_cases hv
  · obtain ⟨t', m', r, -, -, -, heq⟩ := validateDir_ok hdir
    cases heq
    have h := @stubOne_dir_iff cfg d rel t m s hwf hat
    exact ⟨h.1, fun d' hd' => (h.2 d' hd').2⟩
  · obtain ⟨b, -, -, heq⟩ := validateFile_ok hfile
    cases heq

/-- A file and a directory go, and the marker is left. -/
theorem stub_nestedSrc_dir : (∃ d', stub plainStub nestedRoot [["src"]] nestedSrc = .ok ⟨⟩ d') ∧
    ∀ d', stub plainStub nestedRoot [["src"]] nestedSrc = .ok ⟨⟩ d' →
      Emptied stubMachine ["src"] (treeRecord nestedTree ⟨none, 10, 2⟩) nestedSrc.get d'.get := by
  obtain ⟨hiff, hleft⟩ := @stub_dir_iff plainStub nestedRoot nestedSrc ["src"] nestedTree ⟨none, 10, 2⟩ _
    nestedSrc_wf rfl
  have hmark : nestedSrc.get (dirStubPath ["src"]) = none := nestedSrc_noStub ["src"] ""
  refine ⟨hiff.mpr ⟨?_, fun _ _ _ _ h => nestedSrc_noLink h⟩, hleft⟩
  rw [hmark]
  exact (Option.some_ne_none _).symm

/-! ## One path given twice -/

/-- There is something in it that a second look misses. -/
def StubTarget.Held (g : Lstat) : StubTarget → Prop
  | file _ _ _ => True
  | dir rel _ _ _ => ∃ n r a, n ≠ dirStubName ∧ g (rel ++ n :: r) = some (.leaf a)

/-- Where a target and its record lie. -/
def StubTarget.Covers : StubTarget → Path → Prop
  | file rel _ _, q => q = rel ∨ q = fileStubPath rel
  | dir rel _ _ _, q => ∃ n r, q = rel ++ n :: r

/-- A target that has gone: the record is written and taken away again. -/
theorem stubOne_gone {a : Path} {n : String} (hwf : d.Wf) (hdir : d.get a = some .dir)
    (hpath : x.stubPath = a ++ [n]) (hfree : d.get (a ++ [n]) ≠ some .dir)
    (hgone : ∀ d₁ : Disk, d₁.Wf → (∀ q, q ≠ a ++ [n] → d₁.get q = d.get q) → stillAsSeen d₁ x = false) :
    ∃ d₂, stubOne cfg x d = .error (.changed x.rel) d₂ ∧
      ∀ q, d₂.get q = if q = a ++ [n] then none else d.get q := by
  obtain ⟨hno, -⟩ | ⟨-, d₁, hget, hwf₁, hcase⟩ := @stubOne_cases cfg d x a n hdir hpath
  · exact absurd hno hfree
  · have hseen := hgone d₁ (hwf₁ hwf) fun q hq => by rw [hget, if_neg hq]
    obtain ⟨hyes, -⟩ | ⟨-, h⟩ := hcase
    · rw [hseen] at hyes
      cases hyes
    · exact h

/-- **`stub_twice`** — a path that is given twice: the command stops at the second, and neither what was
there nor its record is left. -/
theorem stub_twice (hwf : d.Wf) (hkernel : ∀ n ∈ rel, KernelName n)
    (hv : validate cfg cloneRoot d rel = .ok (some x)) (hheld : x.Held d.get)
    (hone : stub cfg cloneRoot [rel] d = .ok ⟨⟩ d') :
    ∃ d'', stub cfg cloneRoot [rel, rel] d = .error (.changed rel) d'' ∧
      ∀ q, (x.Covers q → d''.get q = none) ∧ (¬ x.Covers q → d''.get q = d.get q) := by
  have hone' := stub_singleton hv ▸ hone
  rw [stub_pair hv hone', ← validate_rel hv]
  obtain ⟨haddr, ⟨s, hat, -, hdir⟩ | ⟨c, stat, hget, -, hfile⟩⟩ := validate_cases hv
  · obtain ⟨t, m, r, -, -, -, rfl⟩ := validateDir_ok hdir
    obtain ⟨hwf', hempty⟩ := (stubOne_dir_iff hwf hat).2 d' hone'
    have hdir' : d'.get rel = some .dir := by
      rw [hempty.frame rel (not_below_self rel)]
      exact DirTree.get_eq_dir_iff.mpr ⟨s, hat⟩
    obtain ⟨d₂, hrun, hget₂⟩ := @stubOne_gone cfg d' (.dir rel t m (.of s)) rel dirStubName hwf' hdir' rfl
      (by rw [hempty.marker]; simp) fun d₁ hwf₁ hsame => by
        by_contra hyes
        rw [Bool.not_eq_false] at hyes
        have hself : rel ≠ rel ++ [dirStubName] := fun h => by simpa using congrArg List.length h
        rw [stillAsSeen_dir_iff hwf hwf₁ hat (by rw [hsame rel hself, hdir'])] at hyes
        obtain ⟨n, r, a, hn, ha⟩ := hheld
        have hne : n :: r ≠ [dirStubName] := by simp [hn]
        have hnr := hyes n r hn
        rw [hsame _ fun h => hne (List.append_cancel_left h), hempty.below n r hne, ha] at hnr
        cases a <;> cases hnr
    refine ⟨d₂, hrun, fun q => ⟨?_, fun hq => ?_⟩⟩
    · rintro ⟨n, r, rfl⟩
      rw [hget₂]
      split_ifs with hq
      · rfl
      · exact hempty.below n r fun h => hq (by rw [h])
    · rw [hget₂, if_neg (fun h => hq ⟨_, _, h⟩), hempty.frame q hq]
  · obtain ⟨b, -, -, rfl⟩ := validateFile_ok hfile
    have hne : rel ≠ [] := by
      rintro rfl
      cases hget
    obtain ⟨a, n, rfl⟩ := (List.eq_nil_or_concat' rel).resolve_left hne
    have hn : ValidName n := validName_of_addressable haddr hkernel n (by simp)
    have hside : a ++ [n] ≠ a ++ [n ++ stubSuffix] := fun h =>
      ne_stubName hn (List.cons.inj (List.append_cancel_left h)).1
    have hdir : d.get a = some .dir :=
      DirTree.get_of_append (n := n) (q := []) (by rw [hget]; exact Option.some_ne_none _)
    have hpath : fileStubPath (a ++ [n]) = a ++ [n ++ stubSuffix] := by simp [fileStubPath]
    -- the first time the record takes the place of the file
    obtain ⟨hwf', hget'⟩ : d'.Wf ∧ ∀ q, d'.get q = if q = a ++ [n] then none else
        if q = a ++ [n ++ stubSuffix] then some (.leaf (cfg.mach.stubFile (blobRecord b)))
        else d.get q := by
      obtain ⟨-, e, he⟩ | ⟨-, d₁, hget₁, hwf₁, hcase⟩ :=
        @stubOne_cases cfg d (.file (a ++ [n]) b (.of stat)) a _ hdir hpath
      · rw [he] at hone'
        cases hone'
      · obtain ⟨-, hrun⟩ | ⟨-, d₂, he, -⟩ := hcase
        · rw [hrun, guarded_ok] at hone'
          have hcall : syscall (fun d => d.unlink (a ++ [n])) d₁ = .ok ⟨⟩ d' := hone'
          refine ⟨(hwf₁ hwf).unlink (syscall_inv hcall), fun q => ?_⟩
          rw [(DirTree.get_unlink (syscall_inv hcall)).2, hget₁]
          rfl
        · rw [he] at hone'
          cases hone'
    have hdir' : d'.get a = some .dir := by
      rw [hget', if_neg (by simp), if_neg (by simp), hdir]
    obtain ⟨d₂, hrun, hget₂⟩ := @stubOne_gone cfg d' (.file (a ++ [n]) b (.of stat)) a _
      hwf' hdir' hpath (by rw [hget', if_neg hside.symm, if_pos rfl]; simp)
      fun d₁ _ hsame => by
        have hnone : d₁.get (a ++ [n]) = none := by rw [hsame _ hside, hget', if_pos rfl]
        rw [stillAsSeen, hnone]
        rfl
    refine ⟨d₂, hrun, fun q => ⟨?_, fun hq => ?_⟩⟩
    · rintro (rfl | rfl)
      · rw [hget₂, if_neg hside, hget', if_pos rfl]
      · rw [hpath, hget₂, if_pos rfl]
    · rw [StubTarget.Covers, not_or, hpath] at hq
      rw [hget₂, if_neg hq.2, hget', if_neg hq.1, if_neg hq.2]

theorem stub_nestedSrc_twice :
    ∃ d'', stub plainStub nestedRoot [["src"], ["src"]] nestedSrc = .error (.changed ["src"]) d'' ∧
      d''.get ["src", "a"] = none ∧ d''.get ["src", dirStubName] = none := by
  have hone : stub plainStub nestedRoot [["src"]] nestedSrc = .ok ⟨⟩ markedSrc := rfl
  obtain ⟨d'', hrun, hget⟩ := @stub_twice plainStub nestedRoot nestedSrc markedSrc ["src"] _ nestedSrc_wf
    (by decide) rfl ⟨"a", [], _, by decide, rfl⟩ hone
  exact ⟨d'', hrun, (hget ["src", "a"]).1 ⟨"a", [], rfl⟩, (hget ["src", dirStubName]).1 ⟨_, [], rfl⟩⟩

end Target

end Omemfs.Work
