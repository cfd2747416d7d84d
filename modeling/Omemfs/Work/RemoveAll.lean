/-
# Omemfs.Work.RemoveAll — a directory emptied entry by entry.

`remove_contents_all` lists a directory, goes down into each directory of it and removes that once it is
empty, and unlinks everything else.  A symlink is refused, and everything removed before stays removed.
The calls are a list here (`removals`), in the order of the listings: a run that is refused, fails or is
interrupted has done some of the first of them.  So whatever such a run leaves is told by how many calls
were done (`get_of_run`, `stops_of_error`), and the whole list goes through exactly if it holds no symlink
(`removals_succeeds_iff`).
-/
import Omemfs.Lib.DirTree
import Omemfs.Lib.Effect
import Omemfs.Sync.Fsguard

namespace Omemfs.Fsguard

open Omemfs Lib

variable {α : Type}

/-- A call of `remove_contents_all`. -/
inductive Removal where
  | unlink (p : Path)
  | rmdir (p : Path)
  /-- a symlink, which ends the run -/
  | refuse (p : Path)
  deriving DecidableEq

namespace Removal

def path : Removal → Path
  | unlink p => p
  | rmdir p => p
  | refuse p => p

def run : Removal → Guarded α PUnit
  | unlink p => syscall fun d => d.unlink p
  | rmdir p => syscall fun d => d.rmdir p
  | refuse p => throw (.symlinkEscape p)

end Removal

/-- The calls on the entries that a directory lists, but for those in `keep`. -/
def removals (isLink : α → Bool) (keep : List String) (dir : Path) : DirTree String α → List Removal
  | .nil => []
  | .leaf n a rest =>
      (if n ∈ keep then [] else if isLink a then [.refuse (dir ++ [n])] else [.unlink (dir ++ [n])]) ++
      removals isLink keep dir rest
  | .sub n s rest =>
      (if n ∈ keep then [] else removals isLink [] (dir ++ [n]) s ++ [.rmdir (dir ++ [n])]) ++
      removals isLink keep dir rest

/-- `fsguard::remove_dir_all`. -/
def removeDirAll (isLink : α → Bool) (keep : List String) (p : Path) : Guarded α PUnit :=
  resolveDir false [] p >>= fun _ d =>
    match d.at p with
    | some (.sub s) => (removals isLink keep p s).forM Removal.run d
    | _ => .error (.io .enoent) d

/-! ## One call -/

/-- The call on an entry of this kind. -/
def Removal.on (isLink : α → Bool) (p : Path) : Kind α → Removal
  | .dir => .rmdir p
  | .leaf a => if isLink a then .refuse p else .unlink p

theorem Removal.path_on (isLink : α → Bool) (p : Path) (k : Kind α) : (on isLink p k).path = p := by
  cases k with
  | dir => rfl
  | leaf a =>
      rw [on]
      split_ifs <;> rfl

variable {d d' : DirTree String α} {l : List Removal} {x : Removal}

theorem syscall_inv {call : DirTree String α → Except Errno (DirTree String α)}
    (h : syscall call d = .ok ⟨⟩ d') : call d = .ok d' := by
  cases hc : call d with
  | ok e =>
      rw [syscall_ok hc] at h
      cases h
      rfl
  | error e =>
      rw [syscall_error hc] at h
      cases h

namespace Removal

/-- A call that succeeds removes its path. -/
theorem get_of_run (hx : x.path ≠ []) (h : x.run d = .ok ⟨⟩ d') (q : Path) :
    d'.get q = if q = x.path then none else d.get q := by
  cases x with
  | unlink p =>
      have hcall : syscall (fun d => d.unlink p) d = .ok ⟨⟩ d' := h
      exact (DirTree.get_unlink (syscall_inv hcall)).2 q
  | rmdir p =>
      have hcall : syscall (fun d => d.rmdir p) d = .ok ⟨⟩ d' := h
      obtain ⟨p, n, rfl⟩ := (List.eq_nil_or_concat' p).resolve_left hx
      exact (DirTree.get_rmdir (syscall_inv hcall)).2 q
  | refuse p => cases h

/-- A call that fails changes nothing. -/
theorem eq_of_error {e : GuardError} (h : x.run d = .error e d') : d' = d := by
  have hcall : ∀ call : DirTree String α → Except Errno (DirTree String α),
      syscall call d = .error e d' → d' = d := by
    intro call hc
    cases hd : call d with
    | ok t =>
        rw [syscall_ok hd] at hc
        cases hc
    | error err =>
        rw [syscall_error hd] at hc
        cases hc
        rfl
  cases x with
  | unlink p => exact hcall (fun d => d.unlink p) h
  | rmdir p => exact hcall (fun d => d.rmdir p) h
  | refuse p =>
      cases h
      rfl

end Removal

/-! ## Some of the calls -/

/-- What is left after the calls: everything but their paths. -/
theorem get_of_removals (hl : ∀ x ∈ l, x.path ≠ []) (h : l.forM Removal.run d = .ok ⟨⟩ d') (q : Path) :
    d'.get q = if q ∈ l.map Removal.path then none else d.get q := by
  induction l generalizing d with
  | nil =>
      cases h
      simp
  | cons x l ih =>
      obtain ⟨hx, hl⟩ := List.forall_mem_cons.mp hl
      obtain ⟨⟨⟩, d₁, hrun, h⟩ := bind_ok h
      rw [ih hl h, Removal.get_of_run hx hrun]
      by_cases hq : q = x.path
      · rw [if_pos hq, ite_self, if_pos (by simp [hq])]
      · rw [if_neg hq]
        exact if_congr (by simp [hq]) rfl rfl

/-- **`stops_of_error`** — a run that fails has done the first of its calls and no more. -/
theorem stops_of_error {e : GuardError} (h : l.forM Removal.run d = .error e d') :
    ∃ l₁ x l₂, l = l₁ ++ x :: l₂ ∧ l₁.forM Removal.run d = .ok ⟨⟩ d' ∧ x.run d' = .error e d' := by
  obtain ⟨l₁, x, l₂, t, rfl, h₁, hx⟩ := forM_error h
  obtain rfl := Removal.eq_of_error hx
  exact ⟨l₁, x, l₂, rfl, h₁, hx⟩

theorem wf_of_removals (hwf : d.Wf) (h : l.forM Removal.run d = .ok ⟨⟩ d') : d'.Wf := by
  induction l generalizing d with
  | nil =>
      cases h
      exact hwf
  | cons x l ih =>
      obtain ⟨⟨⟩, d₁, hrun, h⟩ := bind_ok h
      refine ih ?_ h
      cases x with
      | unlink p =>
          have hcall : syscall (fun d => d.unlink p) d = .ok ⟨⟩ d₁ := hrun
          exact hwf.unlink (syscall_inv hcall)
      | rmdir p =>
          have hcall : syscall (fun d => d.rmdir p) d = .ok ⟨⟩ d₁ := hrun
          exact hwf.rmdir (syscall_inv hcall)
      | refuse p => cases hrun

/-! ## All of the calls -/

section All

variable {isLink : α → Bool} {keep : List String} {dir : Path} {s : DirTree String α}

/-- One call on each entry that lies below the directory, but for what is kept. -/
theorem mem_calls (hwf : s.Wf) (x : Removal) : x ∈ removals isLink keep dir s ↔
    ∃ n r k, s.get (n :: r) = some k ∧ n ∉ keep ∧ x = Removal.on isLink (dir ++ n :: r) k := by
  induction s generalizing keep dir with
  | nil => simp [removals, DirTree.nil_get_cons]
  | leaf m a rest ih =>
      rw [removals, List.mem_append, ih hwf.2, DirTree.exists_get_leaf_iff hwf.1]
      refine or_congr_left ?_
      by_cases hm : m ∈ keep
      · simp [hm]
      · by_cases ha : isLink a <;> simp [hm, ha, Removal.on]
  | sub m t rest iht ih =>
      rw [removals, List.mem_append, ih hwf.2.2, DirTree.exists_get_sub_iff hwf.1]
      refine or_congr_left ?_
      rw [DirTree.exists_get_iff]
      by_cases hm : m ∈ keep
      · simp [hm]
      · rw [if_neg hm, List.mem_append, iht hwf.2.1, or_comm]
        refine or_congr ?_ ?_
        · simp [hm, Removal.on]
        · simp only [List.append_assoc, List.singleton_append, hm, not_false_eq_true, true_and,
            List.not_mem_nil]

theorem mem_removals (hwf : s.Wf) (q : Path) :
    q ∈ (removals isLink keep dir s).map Removal.path ↔
      ∃ n r, q = dir ++ n :: r ∧ n ∉ keep ∧ s.get (n :: r) ≠ none := by
  constructor
  · intro hq
    obtain ⟨x, hx, rfl⟩ := List.mem_map.mp hq
    obtain ⟨n, r, k, hk, hn, rfl⟩ := (mem_calls hwf x).mp hx
    exact ⟨n, r, Removal.path_on isLink _ k, hn, by rw [hk]; exact Option.some_ne_none k⟩
  · rintro ⟨n, r, rfl, hn, hr⟩
    obtain ⟨k, hk⟩ := Option.ne_none_iff_exists'.mp hr
    exact List.mem_map.mpr ⟨_, (mem_calls hwf _).mpr ⟨n, r, k, hk, hn, rfl⟩, Removal.path_on isLink _ k⟩

/-- The calls that are refused are those on symlinks. -/
theorem mem_refuse (hwf : s.Wf) (q : Path) :
    Removal.refuse q ∈ removals isLink keep dir s ↔
      ∃ n r a, q = dir ++ n :: r ∧ n ∉ keep ∧ s.get (n :: r) = some (.leaf a) ∧ isLink a = true := by
  rw [mem_calls hwf]
  constructor
  · rintro ⟨n, r, k, hk, hn, heq⟩
    cases k with
    | dir => cases heq
    | leaf a =>
        rw [Removal.on] at heq
        split_ifs at heq with ha
        cases heq
        exact ⟨n, r, a, rfl, hn, hk, ha⟩
  · rintro ⟨n, r, a, rfl, hn, hk, ha⟩
    exact ⟨n, r, _, hk, hn, by rw [Removal.on, if_pos ha]⟩

theorem path_ne_nil (hwf : s.Wf) : ∀ x ∈ removals isLink keep dir s, x.path ≠ [] := by
  intro x hx hnil
  obtain ⟨n, r, h, -⟩ := (mem_removals hwf x.path).mp (List.mem_map_of_mem hx)
  rw [hnil] at h
  simp at h

/-- A directory is emptied, and then removed; what comes before is not in it. -/
theorem removals_split (hwf : s.Wf) {n : String} {c : DirTree String α} (hn : n ∉ keep)
    (hfind : s.find? n = some (.sub c)) : ∃ l₁ l₂, removals isLink keep dir s =
      l₁ ++ (removals isLink [] (dir ++ [n]) c ++ .rmdir (dir ++ [n]) :: l₂) ∧
      ∀ x ∈ l₁, ¬ dir ++ [n] <+: x.path := by
  induction s with
  | nil => cases hfind
  | leaf m a rest ih =>
      rw [DirTree.find?] at hfind
      split_ifs at hfind with hnm
      · cases hfind
      · obtain ⟨l₁, l₂, heq, hl₁⟩ := ih hwf.2 hfind
        rw [removals, heq, ← List.append_assoc]
        refine ⟨_, l₂, rfl, fun x hx => ?_⟩
        rcases List.mem_append.mp hx with hx | hx
        · have hpath : x.path = dir ++ [m] := by
            split_ifs at hx
            · cases hx
            · rw [List.mem_singleton.mp hx, Removal.path]
            · rw [List.mem_singleton.mp hx, Removal.path]
          rw [hpath, List.prefix_append_right_inj]
          simpa using hnm
        · exact hl₁ x hx
  | sub m t rest _ ih =>
      rw [DirTree.find?] at hfind
      split_ifs at hfind with hnm
      · cases hfind
        subst hnm
        refine ⟨[], removals isLink keep dir rest, ?_, by simp⟩
        rw [removals, if_neg hn]
        simp
      · obtain ⟨l₁, l₂, heq, hl₁⟩ := ih hwf.2.2 hfind
        rw [removals, heq, ← List.append_assoc]
        refine ⟨_, l₂, rfl, fun x hx => ?_⟩
        rcases List.mem_append.mp hx with hx | hx
        · have hpath : dir ++ [m] <+: x.path := by
            split_ifs at hx
            · cases hx
            · rcases List.mem_append.mp hx with hx | hx
              · obtain ⟨k, r, h, -⟩ := (mem_removals hwf.2.1 x.path).mp (List.mem_map_of_mem hx)
                exact h ▸ List.prefix_append _ _
              · rw [List.mem_singleton.mp hx]
                exact List.prefix_rfl
          intro hpre
          obtain ⟨r, hr⟩ := hpath
          rw [← hr, List.append_assoc, List.prefix_append_right_inj, List.singleton_append] at hpre
          exact hnm (List.cons_prefix_cons.mp hpre).1
        · exact hl₁ x hx

/-- Without a symlink every call succeeds. -/
theorem removals_succeeds (hwf : s.Wf) (hdir : d.get dir = some .dir)
    (hsame : ∀ n ∈ s.names, ∀ r, d.get (dir ++ n :: r) = s.get (n :: r))
    (hnone : ∀ q, Removal.refuse q ∉ removals isLink keep dir s) :
    ∃ d', (removals isLink keep dir s).forM Removal.run d = .ok ⟨⟩ d' := by
  induction s generalizing keep dir d with
  | nil => exact ⟨d, rfl⟩
  | leaf m a rest ih =>
      have hself : (DirTree.leaf m a rest).find? m = some (.leaf a) := by rw [DirTree.find?, if_pos rfl]
      -- the rest, once the first entry is gone or kept
      have hrest : ∀ e : DirTree String α, e.get dir = some .dir →
          (∀ n ∈ rest.names, ∀ r, e.get (dir ++ n :: r) = d.get (dir ++ n :: r)) →
          ∃ d', (removals isLink keep dir rest).forM Removal.run e = .ok ⟨⟩ d' := by
        intro e he hkeep
        refine ih hwf.2 he (fun n hn r => ?_) fun q hq =>
          hnone q (by rw [removals]; exact List.mem_append_right _ hq)
        have hne : n ≠ m := by
          rintro rfl
          exact hwf.1 hn
        rw [hkeep n hn, hsame n (List.mem_cons_of_mem _ hn)]
        simp only [DirTree.get, DirTree.at_cons, DirTree.find?, if_neg hne]
      by_cases hm : m ∈ keep
      · obtain ⟨d', h⟩ := hrest d hdir fun _ _ _ => rfl
        exact ⟨d', by rwa [removals, if_pos hm]⟩
      · have ha : isLink a = false := by
          by_contra ha
          rw [Bool.not_eq_false] at ha
          refine hnone (dir ++ [m]) ?_
          rw [removals, if_neg hm, if_pos ha]
          exact List.mem_append_left _ (List.mem_singleton_self _)
        have hleaf : d.get (dir ++ [m]) = some (.leaf a) := by
          rw [hsame m (List.mem_cons_self ..) [], DirTree.get_cons_of_leaf hself, if_pos rfl]
        obtain ⟨d₁, hun, hget⟩ := DirTree.unlink_of_leaf hleaf
        obtain ⟨d', h⟩ := hrest d₁ (by rw [hget, if_neg (by simp), hdir]) fun n hn r => by
          have hne : n ≠ m := by
            rintro rfl
            exact hwf.1 hn
          rw [hget, if_neg (by simp [hne])]
        refine ⟨d', ?_⟩
        rw [removals, if_neg hm, if_neg (by rw [ha]; exact Bool.false_ne_true), forM_append_ok]
        exact ⟨d₁, (bind_eq_of_ok (syscall_ok hun) _).trans rfl, h⟩
  | sub m t rest iht ih =>
      have hself : (DirTree.sub m t rest).find? m = some (.sub t) := by rw [DirTree.find?, if_pos rfl]
      have hrest : ∀ e : DirTree String α, e.get dir = some .dir →
          (∀ n ∈ rest.names, ∀ r, e.get (dir ++ n :: r) = d.get (dir ++ n :: r)) →
          ∃ d', (removals isLink keep dir rest).forM Removal.run e = .ok ⟨⟩ d' := by
        intro e he hkeep
        refine ih hwf.2.2 he (fun n hn r => ?_) fun q hq =>
          hnone q (by rw [removals]; exact List.mem_append_right _ hq)
        have hne : n ≠ m := by
          rintro rfl
          exact hwf.1 hn
        rw [hkeep n hn, hsame n (List.mem_cons_of_mem _ hn)]
        simp only [DirTree.get, DirTree.at_cons, DirTree.find?, if_neg hne]
      by_cases hm : m ∈ keep
      · obtain ⟨d', h⟩ := hrest d hdir fun _ _ _ => rfl
        exact ⟨d', by rwa [removals, if_pos hm]⟩
      · have hbelow : ∀ r, d.get (dir ++ [m] ++ r) = t.get r := by
          intro r
          rw [List.append_assoc, List.singleton_append, hsame m (List.mem_cons_self ..),
            DirTree.get_cons_of_sub hself]
        -- the directory is emptied, and removed
        obtain ⟨d₁, h₁⟩ := @iht d [] (dir ++ [m]) hwf.2.1
          (by have hd := hbelow []; rwa [List.append_nil, DirTree.get_nil] at hd)
          (fun n _ r => hbelow (n :: r)) fun q hq => hnone q (by
            rw [removals, if_neg hm]
            exact List.mem_append_left _ (List.mem_append_left _ hq))
        have hget₁ := get_of_removals (path_ne_nil hwf.2.1) h₁
        have hempty : d₁.at (dir ++ [m]) = some (.sub .nil) := by
          refine DirTree.at_eq_empty_iff.mpr ⟨?_, fun k => ?_⟩
          · rw [hget₁, if_neg]
            · have hd := hbelow []
              rwa [List.append_nil, DirTree.get_nil] at hd
            · intro hmem
              obtain ⟨n, r, h, -⟩ := (mem_removals hwf.2.1 _).mp hmem
              simp at h
          · rw [hget₁]
            split_ifs with hmem
            · rfl
            · rw [hbelow]
              by_contra hk
              exact hmem ((mem_removals hwf.2.1 _).mpr ⟨k, [], rfl, by simp, hk⟩)
        obtain ⟨d₂, hrm, hget₂⟩ := DirTree.rmdir_of_empty hempty
        have hother : ∀ q, ¬ dir ++ [m] <+: q → d₂.get q = d.get q := by
          intro q hq
          rw [hget₂, if_neg (by rintro rfl; exact hq List.prefix_rfl), hget₁, if_neg]
          intro hmem
          obtain ⟨n, r, rfl, -⟩ := (mem_removals hwf.2.1 _).mp hmem
          exact hq (List.prefix_append _ _)
        obtain ⟨d', h⟩ := hrest d₂ (by rw [hother _ (not_prefix_parent dir m []), hdir]) fun n hn r => by
          have hne : n ≠ m := by
            rintro rfl
            exact hwf.1 hn
          apply hother
          rw [List.prefix_append_right_inj]
          simp [hne.symm]
        refine ⟨d', ?_⟩
        rw [removals, if_neg hm, forM_append_ok]
        exact ⟨d₂, forM_append_ok.mpr ⟨d₁, h₁, (bind_eq_of_ok (syscall_ok hrm) _).trans rfl⟩, h⟩

/-- What a run of all the calls needs. -/
theorem not_refuse_of_ok (h : l.forM Removal.run d = .ok ⟨⟩ d') (q : Path) : Removal.refuse q ∉ l := by
  intro hmem
  obtain ⟨l₁, l₂, rfl⟩ := List.append_of_mem hmem
  obtain ⟨d₁, -, h₂⟩ := forM_append_ok.mp h
  obtain ⟨⟨⟩, d₂, hx, -⟩ := bind_ok h₂
  cases hx

/-- **`removals_succeeds_iff`** — a directory can be emptied exactly if it holds no symlink but those
kept. -/
theorem removals_succeeds_iff (hat : d.at dir = some (.sub s)) (hwf : s.Wf) :
    (∃ d', (removals isLink keep dir s).forM Removal.run d = .ok ⟨⟩ d') ↔
      ∀ n r a, n ∉ keep → d.get (dir ++ n :: r) = some (.leaf a) → isLink a = false := by
  have hbelow : ∀ r, d.get (dir ++ r) = s.get r := fun r => by
    rw [DirTree.get, DirTree.at_append, hat]
    rfl
  constructor
  · rintro ⟨d', h⟩ n r a hn ha
    by_contra hlink
    rw [Bool.not_eq_false] at hlink
    rw [hbelow] at ha
    exact not_refuse_of_ok h _ ((mem_refuse hwf _).mpr ⟨n, r, a, rfl, hn, ha, hlink⟩)
  · intro h
    have hdir : d.get dir = some .dir := DirTree.get_eq_dir_iff.mpr ⟨s, hat⟩
    refine removals_succeeds hwf hdir (fun n _ r => hbelow (n :: r)) fun q hq => ?_
    obtain ⟨n, r, a, rfl, hn, ha, hlink⟩ := (mem_refuse hwf _).mp hq
    rw [← hbelow] at ha
    rw [h n r a hn ha] at hlink
    cases hlink

theorem removeDirAll_of_dir (hat : d.at dir = some (.sub s)) :
    removeDirAll isLink keep dir d = (removals isLink keep dir s).forM Removal.run d := by
  have hdir : d.get ([] ++ dir) = some .dir := DirTree.get_eq_dir_iff.mpr ⟨s, hat⟩
  have hopen := resolveDir_of_dir false hdir
  rw [List.nil_append] at hopen
  refine (bind_eq_of_ok hopen _).trans ?_
  simp only [hat]

end All

end Omemfs.Fsguard
