/-
# Omemfs.Ls.Scanned — the working root that a listing is made from.

The requested paths are scanned one by one and spliced into the clone root.  Of paths of which none lies
above another each ends up as it is in the working tree (`scanScoped_ok`), whatever the others bring.
-/
import Omemfs.Ls.Complete

namespace Omemfs.Ls

open Omemfs Lib Fsguard Sync

/-! ## One path -/

theorem leafAbove_iff_mem_inits {t : Tree} {p : Path} :
    LeafAbove t p ↔ ∃ a ∈ p.inits, a ≠ p ∧ isLeaf (t.at a) = true := by
  constructor
  · rintro ⟨a, n, r, rfl, hleaf⟩
    exact ⟨a, List.mem_inits _ _ |>.mpr (List.prefix_append a (n :: r)), by simp, hleaf⟩
  · rintro ⟨a, ha, hne, hleaf⟩
    obtain ⟨r, rfl⟩ := List.mem_inits _ _ |>.mp ha
    cases r with
    | nil => exact absurd (List.append_nil a).symm hne
    | cons n r => exact ⟨a, n, r, rfl, hleaf⟩

/-- **`lstatPath_eq_ok`** — only a file or symlink above the path stops it. -/
theorem lstatPath_eq_ok {W : Tree} {p : Path} {o : Option TreeEntry} :
    lstatPath W p = .ok o ↔ ¬ LeafAbove W p ∧ W.at p = o := by
  unfold lstatPath
  cases hf : p.inits.find? fun a => a ≠ p ∧ isLeaf (W.at a) with
  | some a =>
      have ha := List.find?_some hf
      simp only [ne_eq, Bool.decide_and, Bool.decide_eq_true, Bool.and_eq_true,
        decide_eq_true_eq] at ha
      have habove : LeafAbove W p :=
        leafAbove_iff_mem_inits.mpr ⟨a, List.mem_of_find?_eq_some hf, ha.1, ha.2⟩
      simp [habove]
  | none =>
      have hno : ¬ LeafAbove W p := by
        rw [leafAbove_iff_mem_inits]
        rintro ⟨a, ha, hne, hleaf⟩
        have := List.find?_eq_none.mp hf a ha
        simp [hne, hleaf] at this
      simp [hno]

/-- What a scan of the paths `done` has made of the clone root `C`. -/
structure Spliced (W C : Tree) (done : List Path) (t : Tree) : Prop where
  wf : t.Wf
  there : ∀ s ∈ done, ∀ r, t.at (s ++ r) = W.at (s ++ r)
  isOpen : ∀ s ∈ done, Named C W s → ¬ LeafAbove t s
  beside : ∀ q, (∀ s ∈ done, ¬ s <+: q ∧ ¬ q <+: s) → t.at q = C.at q
  noBlob : ∀ q, (∀ s ∈ done, ¬ s <+: q ∧ ¬ q <+: s) → ¬ Tree.BlobAbove C q → ¬ Tree.BlobAbove t q

namespace Spliced

variable {W C t t' : Tree} {done : List Path} {p : Path} {o : Option TreeEntry}

theorem start (hC : C.Wf) : Spliced W C [] C where
  wf := hC
  there := nofun
  isOpen := nofun
  beside := fun _ _ => rfl
  noBlob := fun _ _ h => h

/-- An edit beside the others. -/
theorem snoc (h : Spliced W C done t) (hwf : t'.Wf) (hed : Tree.Edited t p (W.at p) t')
    (hapart : ∀ s ∈ done, ¬ s <+: p ∧ ¬ p <+: s) : Spliced W C (done ++ [p]) t' := by
  have hlast : ∀ {P : Path → Prop}, (∀ s ∈ done ++ [p], P s) → (∀ s ∈ done, P s) ∧ P p :=
    fun hP => ⟨fun s hs => hP s (List.mem_append_left _ hs), hP p (by simp)⟩
  have hbelow : ∀ {s q : Path}, (¬ s <+: p ∧ ¬ p <+: s) → s <+: q → ¬ p <+: q ∧ ¬ q <+: p := by
    intro s q hs hsq
    refine ⟨fun hpq => ?_, fun hqp => hs.1 (hsq.trans hqp)⟩
    exact absurd (List.prefix_or_prefix_of_prefix hsq hpq) (not_or.mpr hs)
  refine ⟨hwf, fun s hs r => ?_, fun s hs => ?_, fun q hq => ?_, fun q hq hno => ?_⟩
  · rcases List.mem_append.mp hs with hs | hs
    · obtain ⟨hpq, hqp⟩ := hbelow (hapart s hs) (List.prefix_append s r)
      rw [hed.beside _ hpq hqp, h.there s hs]
    · rw [List.mem_singleton.mp hs, hed.below, Tree.at_append]
  · rintro hnamed ⟨a, n, r, heq, hleaf⟩
    by_cases hap : ∃ m r', p = a ++ m :: r'
    · obtain ⟨m, r', hp⟩ := hap
      obtain ⟨u, k, hu⟩ := hed.above a m r' hp
      rw [hu] at hleaf
      cases hleaf
    · rcases List.mem_append.mp hs with hs | hs
      · have hpa : ¬ p <+: a := fun hpa =>
          (hapart s hs).2 (hpa.trans ⟨n :: r, heq.symm⟩)
        have hne : ¬ a <+: p := by
          rintro ⟨c, hc⟩
          cases c with
          | nil => exact hpa ⟨[], by rw [← hc, List.append_nil, List.append_nil]⟩
          | cons m c => exact hap ⟨m, c, hc.symm⟩
        rw [hed.beside a hpa hne] at hleaf
        exact h.isOpen s hs hnamed ⟨a, n, r, heq, hleaf⟩
      · exact hap ⟨n, r, (List.mem_singleton.mp hs) ▸ heq⟩
  · obtain ⟨hq, hpq⟩ := hlast hq
    rw [hed.beside q hpq.1 hpq.2, h.beside q hq]
  · obtain ⟨hq, hpq⟩ := hlast hq
    rintro ⟨a, n, r, b, rfl, hblob⟩
    by_cases hap : ∃ m r', p = a ++ m :: r'
    · obtain ⟨m, r', hp⟩ := hap
      obtain ⟨u, k, hu⟩ := hed.above a m r' hp
      rw [hu] at hblob
      cases hblob
    · have hpa : ¬ p <+: a := fun hpa => hpq.1 (hpa.trans (List.prefix_append a (n :: r)))
      have hne : ¬ a <+: p := by
        rintro ⟨c, hc⟩
        cases c with
        | nil => exact hpa ⟨[], by rw [← hc, List.append_nil, List.append_nil]⟩
        | cons m c => exact hap ⟨m, c, hc.symm⟩
      rw [hed.beside a hpa hne] at hblob
      exact h.noBlob _ hq hno ⟨a, n, r, b, rfl, hblob⟩

/-- A path that neither has is nothing to remove. -/
theorem skip (h : Spliced W C done t) (hapart : ∀ s ∈ done, ¬ s <+: p ∧ ¬ p <+: s)
    (hW : W.at p = none) (ht : t.at p = none) : Spliced W C (done ++ [p]) t := by
  have hfirst : ∀ {P : Path → Prop}, (∀ s ∈ done ++ [p], P s) → ∀ s ∈ done, P s :=
    fun hP s hs => hP s (List.mem_append_left _ hs)
  refine ⟨h.wf, fun s hs r => ?_, fun s hs hnamed => ?_, fun q hq => h.beside q (hfirst hq),
    fun q hq => h.noBlob q (hfirst hq)⟩
  · rcases List.mem_append.mp hs with hs | hs
    · exact h.there s hs r
    · rw [List.mem_singleton.mp hs, Tree.at_append, Tree.at_append, hW, ht]
  · rcases List.mem_append.mp hs with hs | hs
    · exact h.isOpen s hs hnamed
    · rw [List.mem_singleton.mp hs, Named, hW, ← h.beside p hapart, ht] at hnamed
      simp at hnamed

/-- **`step`** — one more path is spliced. -/
theorem step (h : Spliced W C done t) (hW : W.Wf) (hp : p ≠ []) (hopen : ¬ LeafAbove W p)
    (hreach : ¬ Tree.BlobAbove C p) (hapart : ∀ s ∈ done, ¬ s <+: p ∧ ¬ p <+: s) :
    ∃ t', spliceScanned W t p = .ok t' ∧ Spliced W C (done ++ [p]) t' := by
  have hno := h.noBlob p hapart hreach
  unfold spliceScanned
  rw [lstatPath_eq_ok.mpr ⟨hopen, rfl⟩]
  cases he : W.at p with
  | some e =>
      obtain ⟨t', ht'⟩ := @Tree.spliceEntry_isOk (some t) p hp hno e
      have hroot : W.root.Wf := hW
      refine ⟨t', ht', h.snoc (@Tree.spliceEntry_wf (some t) h.wf p e (hroot.of_at he) t' ht') ?_ hapart⟩
      rw [he]
      exact Tree.edited_of_spliceEntry ht'
  | none =>
      obtain ⟨o, ho, hsome⟩ := Tree.removeEntry_isOk hp hno
      refine ⟨o.getD t, ?_, ?_⟩
      · show (t.removeEntry p >>= fun removed => Except.ok (removed.getD t)) = _
        rw [ho]
        rfl
      · cases o with
        | none => exact h.skip hapart he (not_not.mp (mt hsome (not_not.mpr rfl)))
        | some t' =>
            exact h.snoc (Tree.removeEntry_wf h.wf ho) (he ▸ (Tree.edited_of_removeEntry ho).1) hapart

/-- The run over all requested paths. -/
theorem run (h : Spliced W C done t) (hW : W.Wf) {paths : List Path} (hne : ∀ p ∈ paths, p ≠ [])
    (hopen : ∀ p ∈ paths, ¬ LeafAbove W p) (hreach : ∀ p ∈ paths, ¬ Tree.BlobAbove C p)
    (hapart : Apart (done ++ paths)) :
    ∃ t', paths.foldlM (spliceScanned W) t = .ok t' ∧ Spliced W C (done ++ paths) t' := by
  induction paths generalizing done t with
  | nil => exact ⟨t, rfl, by rwa [List.append_nil]⟩
  | cons p paths ih =>
      have hsplit : done ++ p :: paths = (done ++ [p]) ++ paths := by simp
      have hbefore : ∀ s ∈ done, ¬ s <+: p ∧ ¬ p <+: s := fun s hs =>
        (List.pairwise_append.mp hapart).2.2 s hs p (List.mem_cons_self ..)
      obtain ⟨t₁, ht₁, h₁⟩ := h.step hW (hne p (List.mem_cons_self ..))
        (hopen p (List.mem_cons_self ..)) (hreach p (List.mem_cons_self ..)) hbefore
      rw [hsplit] at hapart ⊢
      obtain ⟨t', ht', h'⟩ := ih h₁ (fun q hq => hne q (List.mem_cons_of_mem _ hq))
        (fun q hq => hopen q (List.mem_cons_of_mem _ hq))
        (fun q hq => hreach q (List.mem_cons_of_mem _ hq)) hapart
      exact ⟨t', by rw [List.foldlM_cons, ht₁]; exact ht', h'⟩

end Spliced

/-- A scan that comes through has reached every requested path. -/
theorem open_of_scan {W t t' : Tree} {paths : List Path}
    (h : paths.foldlM (spliceScanned W) t = .ok t') : ∀ p ∈ paths, ¬ LeafAbove W p := by
  induction paths generalizing t with
  | nil => exact nofun
  | cons p paths ih =>
      rw [List.foldlM_cons] at h
      obtain ⟨t₁, ht₁, h⟩ := bind_eq_ok.mp h
      obtain ⟨o, ho, -⟩ := bind_eq_ok.mp ht₁
      intro q hq
      rcases List.mem_cons.mp hq with rfl | hq
      · exact (lstatPath_eq_ok.mp ho).1
      · exact ih h q hq

/-! ## All of them -/

theorem Apart.scopes_eq {requested : List Path} (h : Apart requested) :
    scopesOf (anchored requested) = scopesOf requested := by
  by_cases hroot : [] ∈ requested
  · obtain ⟨l₁, l₂, rfl⟩ := List.append_of_mem hroot
    obtain ⟨-, hmid, hacross⟩ := List.pairwise_append.mp h
    have h₂ : l₂ = [] := List.eq_nil_iff_forall_not_mem.mpr fun p hp =>
      ((List.pairwise_cons.mp hmid).1 p hp).1 List.nil_prefix
    have h₁ : l₁ = [] := List.eq_nil_iff_forall_not_mem.mpr fun p hp =>
      (hacross p hp [] (by simp)).2 List.nil_prefix
    subst h₁ h₂
    rfl
  · rw [anchored, List.filter_eq_self.mpr]
    exact fun p hp => decide_eq_true fun heq => hroot (heq ▸ hp)

/-- The scan agrees with the working tree in scope. -/
structure Agrees (T W : Tree) (scopes : List Path) : Prop where
  wf : T.Wf
  there : ∀ s ∈ scopes, ∀ r, T.at (s ++ r) = W.at (s ++ r)

/-- **`scanScoped_ok`** — where no file or symlink lies above a requested path, the scan comes through
and agrees with the working tree on all that is requested. -/
theorem scanScoped_ok {W C : Tree} (hC : C.Wf) (hW : W.Wf) {requested : List Path}
    (hapart : Apart requested) (hopen : ∀ s ∈ scopesOf requested, ¬ LeafAbove W s)
    (hreach : ∀ s ∈ scopesOf requested, ¬ Tree.BlobAbove C s) :
    ∃ T, scanScopedForLs W C (anchored requested) = .ok T ∧ Agrees T W (scopesOf requested) ∧
      ∀ s ∈ scopesOf requested, Named C W s → ¬ LeafAbove T s := by
  unfold scanScopedForLs
  by_cases hnil : anchored requested = []
  · have hscopes : scopesOf requested = [[]] := by rw [← hapart.scopes_eq, scopesOf, if_pos hnil]
    rw [if_pos hnil]
    exact ⟨W, rfl, ⟨hW, fun _ _ _ => rfl⟩, fun s hs _ => hopen s hs⟩
  · have hscopes : anchored requested = scopesOf requested := by
      rw [← hapart.scopes_eq, scopesOf, if_neg hnil]
    have hne : ∀ p ∈ anchored requested, p ≠ [] := fun p hp =>
      of_decide_eq_true (List.mem_filter.mp hp).2
    have hap : Apart (anchored requested) := hapart.filter _
    rw [if_neg hnil]
    rw [← hscopes] at hopen hreach ⊢
    obtain ⟨T, hT, hspliced⟩ := (Spliced.start (W := W) hC).run hW hne hopen hreach hap
    exact ⟨T, hT, ⟨hspliced.wf, hspliced.there⟩, hspliced.isOpen⟩

end Omemfs.Ls
