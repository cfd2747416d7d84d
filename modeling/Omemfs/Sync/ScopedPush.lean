/-
# Omemfs.Sync.ScopedPush — a push of some paths onto a remote root that may have moved.

What the working tree holds at each path has been captured; `pushScoped` compares the paths of what
has changed with the remote root, and splices or removes them there and in `clone_root`.  The remote
root is the snapshot the final compare-and-swap is conditioned on.

`scoped_push_safe_iff` says when nothing the client has not seen is lost: the comparison looks at the
pushed paths themselves, by hash alone for a stub, and never at the directories above them.
-/
import Mathlib.Data.List.Pairwise
import Omemfs.Sync.TreeOps

namespace Omemfs.Sync

open Omemfs Lib

/-! ## Comparing entries -/

/-- `tree_entries_equal`: times and sizes do not count. -/
def treeEntriesEqual : TreeEntry → TreeEntry → Bool
  | .blob a, .blob b => decide (a.hash = b.hash ∧ a.mode = b.mode)
  | .tree s _, .tree t _ => decide (s = t)
  | .symlink a, .symlink b => decide (a.target = b.target)
  | _, _ => false

/-- The entries have a hash, and it is the same. -/
def sameHash : TreeEntry → TreeEntry → Bool
  | .blob a, .blob b => decide (a.hash = b.hash)
  | .tree s _, .tree t _ => decide (s = t)
  | _, _ => false

/-- What a path means to its user, if it is a file or a symlink. -/
inductive LeafValue where
  | blob (hash : Hash) (mode : Option String)
  | symlink (target : String)
  deriving DecidableEq

def leafValue : TreeEntry → Option LeafValue
  | .blob b => some (.blob b.hash b.mode)
  | .tree _ _ => none
  | .symlink l => some (.symlink l.target)

/-- The file or symlink at a path below a root, if there is a root and one there. -/
def valueAt (root : Option Tree) (q : Path) : Option LeafValue :=
  ((root.getD .nil).at q).bind leafValue

theorem isTree_eq_false_of_leafValue {e : TreeEntry} {v : LeafValue} (h : leafValue e = some v) :
    e.isTree = false := by
  cases e with
  | blob b => rfl
  | tree t m => cases h
  | symlink l => rfl

/-- Equal entries have equal files and symlinks, at and below them. -/
theorem leafValue_of_equal {a b : TreeEntry} (h : treeEntriesEqual a b = true) (x : Path) :
    (a.at x).bind leafValue = (b.at x).bind leafValue := by
  unfold treeEntriesEqual at h
  split at h
  · obtain ⟨hhash, hmode⟩ := of_decide_eq_true h
    cases x with
    | nil => simp [leafValue, hhash, hmode]
    | cons n x => rfl
  · rw [of_decide_eq_true h]
    cases x with
    | nil => rfl
    | cons n x => rfl
  · cases x with
    | nil => simp [leafValue, of_decide_eq_true h]
    | cons n x => rfl
  · cases h

/-! ## The push -/

/-- What was captured at a scoped path: nothing there, the record of a stub, a file or symlink, or
the tree of a directory. -/
inductive Capture where
  | delete
  | stub (e : TreeEntry)
  | entry (e : TreeEntry)
  | dir (t : Tree)

def Capture.newEntry : Capture → Option TreeEntry
  | .delete => none
  | .stub e => some e
  | .entry e => some e
  | .dir t => some (.tree t t.treeMeta)

structure ScopedResult where
  path : Path
  capture : Capture

def navigateEntryOpt (root : Option Tree) (p : Path) : Except Error (Option TreeEntry) :=
  match root with
  | none => .ok none
  | some t => t.navigateEntry p

/-- The capture is what `clone_root` has: there is nothing to push.  A deletion is looked at later. -/
def isUnchanged (clone : Option Tree) (r : ScopedResult) : Except Error Bool :=
  match r.capture with
  | .delete => .ok false
  | .stub e =>
      match e with
      | .symlink _ => .error (.other "stub entry has no hash")
      | _ => (navigateEntryOpt clone r.path).map fun o => o.any (treeEntriesEqual · e)
  | .entry e => (navigateEntryOpt clone r.path).map fun o => o.any (treeEntriesEqual · e)
  | .dir t => (navigateEntryOpt clone r.path).map fun o => o.any (sameHash · (.tree t t.treeMeta))

def scopedResults (clone : Option Tree) : List ScopedResult → Except Error (List ScopedResult)
  | [] => .ok []
  | r :: rs =>
      isUnchanged clone r >>= fun unchanged =>
      scopedResults clone rs >>= fun rest =>
      .ok (if unchanged then rest else r :: rest)

/-- The remote has this content already, so that pushing it cannot lose anything. -/
def alreadyMatches (remote : Option TreeEntry) : Capture → Bool
  | .delete => remote.isNone
  | .stub e => remote.any (sameHash · e)
  | .entry e => remote.any (treeEntriesEqual · e)
  | .dir t => remote.any (sameHash · (.tree t t.treeMeta))

def entriesMatch : Option TreeEntry → Option TreeEntry → Bool
  | none, none => true
  | some r, some c => treeEntriesEqual r c
  | _, _ => false

/-- The divergence check of one path. -/
def checkDiverged (clone remote : Option Tree) (r : ScopedResult) : Except Error PUnit :=
  navigateEntryOpt remote r.path >>= fun re =>
  if alreadyMatches re r.capture then .ok ⟨⟩
  else navigateEntryOpt clone r.path >>= fun ce =>
    if entriesMatch re ce then .ok ⟨⟩ else .error .casFailed

structure Roots where
  remote : Option Tree
  clone : Option Tree
  anyChange : Bool

/-- A deletion in `clone_root`, where there is something to delete. -/
def removeFromClone (clone : Option Tree) (p : Path) : Except Error (Option Tree) :=
  match clone with
  | none => .ok none
  | some c => (c.removeEntry p).map fun o => some (o.getD c)

/-- One path of the splice loop. -/
def applyResult (s : Roots) (r : ScopedResult) : Except Error Roots :=
  match r.capture.newEntry with
  | none =>
      match s.remote with
      | none => .ok s
      | some t =>
          t.removeEntry r.path >>= fun o =>
          match o with
          | none => .ok s
          | some t' =>
              removeFromClone s.clone r.path >>= fun c =>
              .ok { remote := some t', clone := c, anyChange := true }
  | some e =>
      Tree.spliceEntry s.remote r.path e >>= fun t' =>
      Tree.spliceEntry s.clone r.path e >>= fun c =>
      .ok { remote := some t', clone := some c, anyChange := true }

def applyResults : List ScopedResult → Roots → Except Error Roots
  | [], s => .ok s
  | r :: rs, s => applyResult s r >>= applyResults rs

def checkAll (clone remote : Option Tree) : List ScopedResult → Except Error PUnit
  | [] => .ok ⟨⟩
  | r :: rs => checkDiverged clone remote r >>= fun _ => checkAll clone remote rs

/-- The roots published and recorded, or nothing to push. -/
def pushScoped (clone remote : Option Tree) (captures : List ScopedResult) :
    Except Error (Option (Tree × Tree)) :=
  scopedResults clone captures >>= fun rs =>
  if rs.isEmpty then .ok none
  else
    checkAll clone remote rs >>= fun _ =>
    applyResults rs ⟨remote, clone, false⟩ >>= fun s =>
    if !s.anyChange then .ok none
    else match s.remote, s.clone with
      | none, _ => .error (.other "push resulted in empty remote tree")
      | _, none => .error (.other "push resulted in empty clone root")
      | some t, some c => .ok (some (t, c))

/-- `deduplicate_paths`: none of the paths is the root, and none lies at or below another. -/
structure Deduplicated (rs : List ScopedResult) : Prop where
  ne_nil : ∀ r ∈ rs, r.path ≠ []
  apart : rs.Pairwise fun a b => ¬ a.path <+: b.path ∧ ¬ b.path <+: a.path

/-! ## What the splices leave -/

/-- One path of the loop: edited as captured, or a deletion that found nothing. -/
def Applied (r : ScopedResult) (t t' : Tree) : Prop :=
  (r.capture.newEntry = none ∧ t' = t) ∨
    (Tree.Edited t r.path r.capture.newEntry t' ∧
      (r.capture.newEntry = none → t.at r.path ≠ none))

theorem applied_of_applyResult {s s' : Roots} {r : ScopedResult} (h : applyResult s r = .ok s') :
    Applied r (s.remote.getD .nil) (s'.remote.getD .nil) := by
  unfold applyResult at h
  unfold Applied
  split at h
  · rename_i hnew
    rw [hnew]
    split at h
    · cases h
      exact .inl ⟨rfl, rfl⟩
    · rename_i t ht
      obtain ⟨o, ho, h⟩ := bind_eq_ok.mp h
      cases o with
      | none =>
          cases h
          exact .inl ⟨rfl, rfl⟩
      | some t' =>
          obtain ⟨c, -, h⟩ := bind_eq_ok.mp h
          cases h
          obtain ⟨hed, hne⟩ := Tree.edited_of_removeEntry ho
          rw [ht]
          exact .inr ⟨hed, fun _ => hne⟩
  · rename_i e hnew
    obtain ⟨t', ht', h⟩ := bind_eq_ok.mp h
    obtain ⟨c, -, h⟩ := bind_eq_ok.mp h
    cases h
    rw [hnew]
    exact .inr ⟨Tree.edited_of_spliceEntry ht', fun hn => nomatch hn⟩

/-- The whole loop, one path after the other. -/
inductive AppliedAll : List ScopedResult → Tree → Tree → Prop
  | nil (t : Tree) : AppliedAll [] t t
  | cons {r : ScopedResult} {rs : List ScopedResult} {t m t' : Tree} :
      Applied r t m → AppliedAll rs m t' → AppliedAll (r :: rs) t t'

theorem appliedAll_of_applyResults {rs : List ScopedResult} {s s' : Roots}
    (h : applyResults rs s = .ok s') :
    AppliedAll rs (s.remote.getD .nil) (s'.remote.getD .nil) := by
  induction rs generalizing s with
  | nil =>
      cases h
      exact .nil _
  | cons r rs ih =>
      obtain ⟨m, hm, h⟩ := bind_eq_ok.mp h
      exact .cons (applied_of_applyResult hm) (ih h)

/-- A path next to, not above and not at or below, the path of a capture. -/
def Beside (r : ScopedResult) (q : Path) : Prop := ¬ r.path <+: q ∧ ¬ q <+: r.path

/-- The captured path lies strictly below. -/
def StrictlyAbove (q : Path) (r : ScopedResult) : Prop := ∃ n x, r.path = q ++ n :: x

theorem strictlyAbove_iff {q : Path} {r : ScopedResult} :
    StrictlyAbove q r ↔ q <+: r.path ∧ ¬ r.path <+: q := by
  constructor
  · rintro ⟨n, x, h⟩
    refine ⟨⟨n :: x, h.symm⟩, fun hp => ?_⟩
    have hlen := hp.length_le
    rw [h, List.length_append, List.length_cons] at hlen
    omega
  · rintro ⟨⟨x, hx⟩, hn⟩
    cases x with
    | nil =>
        rw [List.append_nil] at hx
        exact absurd (hx ▸ List.prefix_refl _) hn
    | cons n x => exact ⟨n, x, hx.symm⟩

/-- What is beside a path is beside everything below it. -/
theorem beside_append {a b : ScopedResult} (h : ¬ a.path <+: b.path ∧ ¬ b.path <+: a.path)
    (x : Path) : Beside a (b.path ++ x) := by
  constructor
  · intro hp
    rcases List.prefix_or_prefix_of_prefix hp (List.prefix_append b.path x) with hab | hba
    · exact h.1 hab
    · exact h.2 hba
  · exact fun hp => h.2 ((List.prefix_append _ _).trans hp)

section Loop

variable {r : ScopedResult} {rs : List ScopedResult} {t t' : Tree} {q : Path}

theorem Applied.beside (h : Applied r t t') (hq : Beside r q) : t'.at q = t.at q := by
  rcases h with ⟨-, rfl⟩ | ⟨hed, -⟩
  · rfl
  · exact hed.beside q hq.1 hq.2

/-- A file or symlink above the path stands in the way of a removal. -/
theorem Applied.of_leaf (h : Applied r t t') {e : TreeEntry} (he : e.isTree = false)
    (hq : t.at q = some e) (hr : ¬ r.path <+: q)
    (hdel : StrictlyAbove q r → r.capture.newEntry = none) : t'.at q = some e := by
  rcases h with ⟨-, rfl⟩ | ⟨hed, hne⟩
  · exact hq
  · by_cases habove : StrictlyAbove q r
    · obtain ⟨n, x, hpath⟩ := habove
      have hsome := hne (hdel ⟨n, x, hpath⟩)
      rw [hpath] at hsome
      obtain ⟨s, m, htree⟩ := Tree.isTree_of_at_append (List.cons_ne_nil n x) hsome
      rw [hq] at htree
      cases htree
      exact absurd he (by simp [TreeEntry.isTree])
    · rw [hed.beside q hr fun hp => habove (strictlyAbove_iff.mpr ⟨hp, hr⟩), hq]

/-- A directory that is not at or below the path stays one. -/
theorem Applied.of_tree (h : Applied r t t') (hr : ¬ r.path <+: q)
    (hq : ∃ s m, t.at q = some (.tree s m)) : ∃ s m, t'.at q = some (.tree s m) := by
  rcases h with ⟨-, rfl⟩ | ⟨hed, -⟩
  · exact hq
  · by_cases hp : q <+: r.path
    · obtain ⟨n, x, hpath⟩ := strictlyAbove_iff.mpr ⟨hp, hr⟩
      exact hed.above q n x hpath
    · rw [hed.beside q hr hp]
      exact hq

theorem AppliedAll.beside (h : AppliedAll rs t t') (hq : ∀ r ∈ rs, Beside r q) :
    t'.at q = t.at q := by
  induction h with
  | nil t => rfl
  | cons hr _ ih =>
      rw [ih fun r hr => hq r (List.mem_cons_of_mem _ hr),
        hr.beside (hq _ (List.mem_cons_self ..))]

/-- **`AppliedAll.at_path`** — at and below its path a capture replaces what was there, unless it is
a deletion that found nothing. -/
theorem AppliedAll.at_path (h : AppliedAll rs t t')
    (hap : rs.Pairwise fun a b => ¬ a.path <+: b.path ∧ ¬ b.path <+: a.path) (hr : r ∈ rs)
    (x : Path) : t'.at (r.path ++ x) = r.capture.newEntry.bind (fun e => e.at x) ∨
      (r.capture.newEntry = none ∧ t'.at (r.path ++ x) = t.at (r.path ++ x)) := by
  induction h with
  | nil t => cases hr
  | @cons r' rs t m t' hstep hrest ih =>
      obtain ⟨hhead, htail⟩ := List.pairwise_cons.mp hap
      rcases List.mem_cons.mp hr with rfl | hr
      · have hsame : t'.at (r.path ++ x) = m.at (r.path ++ x) :=
          hrest.beside fun a ha => beside_append (hhead a ha).symm x
        rw [hsame]
        rcases hstep with ⟨hnone, rfl⟩ | ⟨hed, -⟩
        · exact .inr ⟨hnone, rfl⟩
        · exact .inl (hed.below x)
      · rw [← hstep.beside (beside_append (hhead r hr) x)]
        exact ih htail hr

/-- A file or symlink at none of the paths and above deletions only stays what it is. -/
theorem AppliedAll.of_leaf (h : AppliedAll rs t t') {e : TreeEntry} (he : e.isTree = false)
    (hq : t.at q = some e) (hr : ∀ r ∈ rs, ¬ r.path <+: q)
    (hdel : ∀ r ∈ rs, StrictlyAbove q r → r.capture.newEntry = none) : t'.at q = some e := by
  induction h with
  | nil t => exact hq
  | cons hstep _ ih =>
      apply ih
      · exact hstep.of_leaf he hq (hr _ (List.mem_cons_self ..)) (hdel _ (List.mem_cons_self ..))
      · exact fun r h => hr r (List.mem_cons_of_mem _ h)
      · exact fun r h => hdel r (List.mem_cons_of_mem _ h)

theorem AppliedAll.of_tree (h : AppliedAll rs t t') (hr : ∀ r ∈ rs, ¬ r.path <+: q)
    (hq : ∃ s m, t.at q = some (.tree s m)) : ∃ s m, t'.at q = some (.tree s m) := by
  induction h with
  | nil t => exact hq
  | cons hstep _ ih =>
      exact ih (fun r h => hr r (List.mem_cons_of_mem _ h))
        (hstep.of_tree (hr _ (List.mem_cons_self ..)) hq)

/-- **`AppliedAll.above`** — above the path of a splice stands a directory, and no file stood there. -/
theorem AppliedAll.above (h : AppliedAll rs t t')
    (hap : rs.Pairwise fun a b => ¬ a.path <+: b.path ∧ ¬ b.path <+: a.path) (hr : r ∈ rs)
    (hnew : r.capture.newEntry ≠ none) (hq : StrictlyAbove q r) :
    (∃ s m, t'.at q = some (.tree s m)) ∧ ∀ b, t.at q ≠ some (.blob b) := by
  have hnot : ∀ a : ScopedResult, ¬ a.path <+: r.path ∧ ¬ r.path <+: a.path → ¬ a.path <+: q :=
    fun a ha hp => ha.1 (hp.trans (strictlyAbove_iff.mp hq).1)
  induction h with
  | nil t => cases hr
  | @cons r' rs t m t' hstep hrest ih =>
      obtain ⟨hhead, htail⟩ := List.pairwise_cons.mp hap
      rcases List.mem_cons.mp hr with rfl | hr
      · obtain ⟨n, x, hpath⟩ := hq
        rcases hstep with ⟨hnone, -⟩ | ⟨hed, -⟩
        · exact absurd hnone hnew
        · exact ⟨hrest.of_tree (fun a ha => hnot a (hhead a ha).symm) (hed.above q n x hpath),
            hed.not_blob q n x hpath⟩
      · obtain ⟨htree, hblob⟩ := ih htail hr
        refine ⟨htree, fun b hb => ?_⟩
        -- a file the head does not touch is still there for the rest
        by_cases hdel : StrictlyAbove q r' ∧ r'.capture.newEntry ≠ none
        · obtain ⟨⟨n, x, hpath⟩, hne⟩ := hdel
          rcases hstep with ⟨hnone, -⟩ | ⟨hed, -⟩
          · exact hne hnone
          · exact hed.not_blob q n x hpath b hb
        · apply hblob b
          apply hstep.of_leaf rfl hb (hnot r' (hhead r hr))
          intro habove
          by_contra hne
          exact hdel ⟨habove, hne⟩

end Loop

/-! ## What the comparison has seen -/

theorem mem_scopedResults {clone : Option Tree} {captures rs : List ScopedResult}
    (h : scopedResults clone captures = .ok rs) :
    rs.Sublist captures ∧ ∀ r, r ∈ rs ↔ r ∈ captures ∧ isUnchanged clone r = .ok false := by
  induction captures generalizing rs with
  | nil =>
      cases h
      exact ⟨List.Sublist.refl [], by simp⟩
  | cons a captures ih =>
      obtain ⟨unchanged, hun, h⟩ := bind_eq_ok.mp h
      obtain ⟨rest, hrest, h⟩ := bind_eq_ok.mp h
      cases h
      obtain ⟨hsub, hmem⟩ := ih hrest
      cases unchanged with
      | true =>
          refine ⟨hsub.cons a, fun r => ?_⟩
          rw [if_pos rfl, hmem, List.mem_cons]
          constructor
          · exact fun ⟨hr, hc⟩ => ⟨.inr hr, hc⟩
          · rintro ⟨rfl | hr, hc⟩
            · rw [hun] at hc
              cases hc
            · exact ⟨hr, hc⟩
      | false =>
          refine ⟨hsub.cons_cons a, fun r => ?_⟩
          rw [if_neg Bool.false_ne_true, List.mem_cons, List.mem_cons, hmem]
          constructor
          · rintro (rfl | ⟨hr, hc⟩)
            · exact ⟨.inl rfl, hun⟩
            · exact ⟨.inr hr, hc⟩
          · rintro ⟨rfl | hr, hc⟩
            · exact .inl rfl
            · exact .inr ⟨hr, hc⟩

theorem checkDiverged_of_checkAll {clone remote : Option Tree} {rs : List ScopedResult}
    (h : checkAll clone remote rs = .ok ⟨⟩) {r : ScopedResult} (hr : r ∈ rs) :
    checkDiverged clone remote r = .ok ⟨⟩ := by
  induction rs with
  | nil => cases hr
  | cons a rs ih =>
      obtain ⟨_, ha, h⟩ := bind_eq_ok.mp h
      rcases List.mem_cons.mp hr with rfl | hr
      · exact ha
      · exact ih h hr

theorem at_of_navigateEntryOpt {root : Option Tree} {p : Path} (hp : p ≠ [])
    {o : Option TreeEntry} (h : navigateEntryOpt root p = .ok o) : (root.getD .nil).at p = o := by
  cases root with
  | none =>
      obtain ⟨n, p, rfl⟩ := List.exists_cons_of_ne_nil hp
      cases h
      rfl
  | some t => exact Tree.at_of_navigateEntry hp h

theorem matches_of_checkDiverged {clone remote : Option Tree} {r : ScopedResult}
    (hp : r.path ≠ []) (h : checkDiverged clone remote r = .ok ⟨⟩) :
    alreadyMatches ((remote.getD .nil).at r.path) r.capture = true ∨
      entriesMatch ((remote.getD .nil).at r.path) ((clone.getD .nil).at r.path) = true := by
  obtain ⟨re, hre, h⟩ := bind_eq_ok.mp h
  rw [at_of_navigateEntryOpt hp hre]
  split_ifs at h with hmatch
  · exact .inl hmatch
  · obtain ⟨ce, hce, h⟩ := bind_eq_ok.mp h
    rw [at_of_navigateEntryOpt hp hce]
    split_ifs at h with heq
    exact .inr heq

/-- A stub and the remote file at its path have one hash and two modes. -/
def ModeLost (remote : Tree) (r : ScopedResult) : Prop :=
  ∃ a b, r.capture = .stub (.blob a) ∧ remote.at r.path = some (.blob b) ∧ a.hash = b.hash ∧
    a.mode ≠ b.mode

/-- **`value_of_check`** — a file or symlink of the remote at or below a path that passed is the
client's own, or is captured as it is, or differs from a stub in its mode alone. -/
theorem value_of_check {clone remote : Option Tree} {r : ScopedResult} (hp : r.path ≠ [])
    (h : checkDiverged clone remote r = .ok ⟨⟩) {x : Path} {v : LeafValue}
    (hv : valueAt remote (r.path ++ x) = some v) :
    valueAt clone (r.path ++ x) = some v ∨
      (r.capture.newEntry.bind fun e => e.at x).bind leafValue = some v ∨
      (x = [] ∧ ModeLost (remote.getD .nil) r) := by
  unfold valueAt at hv ⊢
  rw [Tree.at_append] at hv ⊢
  cases hre : (remote.getD .nil).at r.path with
  | none =>
      rw [hre] at hv
      cases hv
  | some e =>
      rw [hre] at hv
      have hv : (e.at x).bind leafValue = some v := hv
      rcases matches_of_checkDiverged hp h with hmatch | hmatch
      · rw [hre] at hmatch
        right
        cases hc : r.capture with
        | delete =>
            rw [hc] at hmatch
            cases hmatch
        | entry e' =>
            rw [hc] at hmatch
            exact .inl ((leafValue_of_equal hmatch x).symm.trans hv)
        | dir t =>
            rw [hc] at hmatch
            cases e with
            | blob b => cases hmatch
            | symlink l => cases hmatch
            | tree s m =>
                obtain rfl := of_decide_eq_true hmatch
                cases x with
                | nil => cases hv
                | cons n x => exact .inl hv
        | stub e' =>
            rw [hc] at hmatch
            cases e with
            | symlink l => cases hmatch
            | tree s m =>
                cases e' with
                | blob b => cases hmatch
                | symlink l => cases hmatch
                | tree s' m' =>
                    obtain rfl := of_decide_eq_true hmatch
                    cases x with
                    | nil => cases hv
                    | cons n x => exact .inl hv
            | blob b =>
                cases e' with
                | tree s m => cases hmatch
                | symlink l => cases hmatch
                | blob a =>
                    have hhash : b.hash = a.hash := of_decide_eq_true hmatch
                    cases x with
                    | cons n x => cases hv
                    | nil =>
                        by_cases hmode : a.mode = b.mode
                        · left
                          show some (LeafValue.blob a.hash a.mode) = some v
                          rw [← hhash, hmode]
                          exact hv
                        · exact .inr ⟨rfl, a, b, hc, hre, hhash.symm, hmode⟩
      · rw [hre] at hmatch
        left
        cases hce : (clone.getD .nil).at r.path with
        | none =>
            rw [hce] at hmatch
            cases hmatch
        | some c =>
            rw [hce] at hmatch
            exact (leafValue_of_equal hmatch x).symm.trans hv

/-! ## Lost updates -/

/-- Nothing changes away from the pushed paths, and a file or symlink that is replaced or removed is
one the client has seen. -/
structure SafePush (clone remote : Option Tree) (paths : List Path) (new : Tree) : Prop where
  away : ∀ q, (∀ p ∈ paths, ¬ p <+: q ∧ ¬ q <+: p) → new.at q = (remote.getD .nil).at q
  seen : ∀ q, (∃ p ∈ paths, p <+: q ∨ q <+: p) → ∀ v, valueAt remote q = some v →
    valueAt (some new) q ≠ some v → valueAt clone q = some v

/-- What the comparison misses at a path that is spliced: a symlink of the remote above it that is
not the client's, or the mode of a file that a stub stands for. -/
def Misses (clone remote : Option Tree) (r : ScopedResult) : Prop :=
  (r.capture.newEntry ≠ none ∧ ∃ q l, StrictlyAbove q r ∧
      (remote.getD .nil).at q = some (.symlink l) ∧
      valueAt clone q ≠ some (.symlink l.target)) ∨
    (ModeLost (remote.getD .nil) r ∧ valueAt clone r.path ≠ valueAt remote r.path)

/-- **`scoped_push_safe_iff`** — a scoped push that publishes loses nothing the client has not seen
exactly when its comparison misses nothing at the paths that have changed. -/
theorem scoped_push_safe_iff {clone remote : Option Tree} {captures : List ScopedResult}
    {new newClone : Tree} (hpaths : Deduplicated captures)
    (h : pushScoped clone remote captures = .ok (some (new, newClone))) :
    SafePush clone remote (captures.map ScopedResult.path) new ↔
      ∀ r ∈ captures, isUnchanged clone r = .ok false → ¬ Misses clone remote r := by
  obtain ⟨rs, hrs, h⟩ := bind_eq_ok.mp h
  split_ifs at h with hempty
  · cases h
  obtain ⟨_, hcheck, h⟩ := bind_eq_ok.mp h
  obtain ⟨s, hs, h⟩ := bind_eq_ok.mp h
  obtain ⟨hsub, hmem⟩ := mem_scopedResults hrs
  have hall : AppliedAll rs (remote.getD .nil) new := by
    have hall := appliedAll_of_applyResults hs
    split_ifs at h
    · cases h
    · split at h
      · cases h
      · cases h
      · rename_i t c ht hc
        cases h
        rw [ht] at hall
        exact hall
  have hap := hpaths.apart.sublist hsub
  constructor
  · intro hsafe r hr hchanged
    have hrin : r ∈ rs := (hmem r).mpr ⟨hr, hchanged⟩
    have hpath : r.path ∈ captures.map ScopedResult.path := List.mem_map_of_mem hr
    rintro (⟨hnew, q, l, habove, hq, hne⟩ | ⟨⟨a, b, hstub, hb, hhash, hmode⟩, hne⟩)
    · -- the symlink has become a directory
      obtain ⟨⟨t, m, htree⟩, -⟩ := hall.above hap hrin hnew habove
      apply hne
      apply hsafe.seen q ⟨r.path, hpath, .inr (strictlyAbove_iff.mp habove).1⟩
      · rw [valueAt, hq]
        rfl
      · rw [valueAt, Option.getD_some, htree]
        exact fun h => nomatch h
    · have hvalue : valueAt remote r.path = some (.blob b.hash b.mode) := by
        rw [valueAt, hb]
        rfl
      have hnew : new.at r.path = some (.blob a) := by
        have h := hall.at_path hap hrin []
        rw [List.append_nil, hstub] at h
        exact h.resolve_right fun hn => nomatch hn.1
      apply hne
      rw [hvalue]
      apply hsafe.seen r.path ⟨r.path, hpath, .inl (List.prefix_refl _)⟩ _ hvalue
      rw [valueAt, Option.getD_some, hnew]
      intro heq
      exact hmode (LeafValue.blob.inj (Option.some.inj heq)).2
  · intro hmiss
    have hmiss : ∀ r ∈ rs, ¬ Misses clone remote r := fun r hr =>
      hmiss r ((hmem r).mp hr).1 ((hmem r).mp hr).2
    constructor
    · intro q hq
      apply hall.beside
      exact fun r hr => hq r.path (List.mem_map_of_mem (hsub.subset hr))
    · intro q _ v hv hdiff
      obtain ⟨e, he, hev⟩ := Option.bind_eq_some_iff.mp hv
      have hleaf := isTree_eq_false_of_leafValue hev
      have hchanged : new.at q ≠ some e := fun heq => hdiff (by
        rw [valueAt, Option.getD_some, heq]
        exact hev)
      by_cases hbelow : ∃ r ∈ rs, r.path <+: q
      · obtain ⟨r, hr, x, rfl⟩ := hbelow
        have hp := hpaths.ne_nil r (hsub.subset hr)
        rcases value_of_check hp (checkDiverged_of_checkAll hcheck hr) hv with
          hclone | hnew | ⟨rfl, hlost⟩
        · exact hclone
        · rcases hall.at_path hap hr x with hat | ⟨-, hat⟩
          · refine absurd ?_ hdiff
            rw [valueAt, Option.getD_some, hat]
            exact hnew
          · exact absurd (hat.trans he) hchanged
        · rw [List.append_nil] at hv ⊢
          by_contra hne
          exact hmiss r hr (.inr ⟨hlost, fun heq => hne (heq.trans hv)⟩)
      · have hnot : ∀ r ∈ rs, ¬ r.path <+: q := fun r hr hp => hbelow ⟨r, hr, hp⟩
        by_cases hdel : ∀ r ∈ rs, StrictlyAbove q r → r.capture.newEntry = none
        · exact absurd (hall.of_leaf hleaf he hnot hdel) hchanged
        · push Not at hdel
          obtain ⟨r, hr, habove, hnew⟩ := hdel
          have hblob := (hall.above hap hr hnew habove).2
          cases e with
          | blob b => exact absurd he (hblob b)
          | tree t m => cases hev
          | symlink l =>
              cases hev
              by_contra hne
              exact hmiss r hr (.inl ⟨hnew, q, l, habove, he, hne⟩)

/-- The file `z`, which both roots have. -/
def fileZ : Tree := .blob "z" ⟨1, none, 1, none⟩ .nil

/-- A file was captured at `a/x`. -/
def newBelowA : List ScopedResult := [⟨["a", "x"], .entry (.blob ⟨2, none, 1, none⟩)⟩]

theorem newBelowA_deduplicated : Deduplicated newBelowA where
  ne_nil := by simp [newBelowA]
  apart := List.pairwise_singleton _ _

/-- The file is new on both sides: the push is safe. -/
theorem scoped_push_safe_newFile : ∃ new c,
    pushScoped (some fileZ) (some fileZ) newBelowA = .ok (some (new, c)) ∧
      SafePush (some fileZ) (some fileZ) [["a", "x"]] new := by
  refine ⟨_, _, rfl, (scoped_push_safe_iff newBelowA_deduplicated rfl).mpr ?_⟩
  intro r hr _ hmiss
  rw [newBelowA, List.mem_singleton] at hr
  subst hr
  rcases hmiss with ⟨-, q, l, ⟨n, x, hq⟩, hl, -⟩ | ⟨⟨a, b, hstub, -⟩, -⟩
  · -- nothing is a symlink above `a/x`
    rcases q with - | ⟨a, - | ⟨c, q⟩⟩
    · cases hl
    · obtain ⟨rfl, -⟩ := List.cons.inj hq
      cases hl
    · simp at hq
  · cases hstub

/-- **`symlink_overwritten`** — another client has published a symlink `a`; this one pushes the file
`a/x`, and the symlink is gone, although the client has never seen it. -/
theorem symlink_overwritten : ∃ new c,
    pushScoped (some fileZ) (some (.symlink "a" ⟨"t", none⟩ fileZ)) newBelowA =
        .ok (some (new, c)) ∧
      ¬ SafePush (some fileZ) (some (.symlink "a" ⟨"t", none⟩ fileZ)) [["a", "x"]] new := by
  refine ⟨_, _, rfl, fun hsafe => ?_⟩
  have hseen := hsafe.seen ["a"] ⟨_, List.mem_singleton_self _, .inr ⟨["x"], rfl⟩⟩ (.symlink "t") rfl
    fun h => nomatch h
  cases hseen

end Omemfs.Sync
