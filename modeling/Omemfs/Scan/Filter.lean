/-
# Omemfs.Scan.Filter — which filter files a scan loads.

A filter file ignores paths below its own directory, so a path is decided by the files in the
directories above it.  A scan of the whole working tree collects the files of every directory that is
not ignored by the files collected before; a scan of one directory collects those above it, and those
below it in the same way.  Below the directory both sets decide alike (`isIgnored_loadScoped`).

A filter file is the test its `[ignore]` section makes; its patterns are not looked into.
-/
import Omemfs.Scan.Walk

namespace Omemfs.Scan

/-- The filter files that were loaded, with their directories. -/
abbrev FilterSet := List (Path × FilterFile)

/-! ## Testing a path -/

/-- The path seen from a directory above it. -/
def inScope (dir rel : Path) : Option Path :=
  if dir = [] then some rel
  else if dir <+: rel ∧ dir ≠ rel then some (rel.drop dir.length)
  else none

namespace FilterSet

def isIgnored (files : FilterSet) (rel : Path) : Bool :=
  files.any fun x => match inScope x.1 rel with
    | some p => x.2 p
    | none => false

/-- The filter files that have a say about a path. -/
def above (q : Path) (files : FilterSet) : FilterSet :=
  files.filter fun x => (inScope x.1 q).isSome

theorem isIgnored_above (files : FilterSet) (q : Path) :
    isIgnored (above q files) q = isIgnored files q := by
  unfold isIgnored above
  rw [List.any_filter]
  congr 1
  funext x
  cases h : inScope x.1 q <;> simp

@[simp]
theorem above_append (q : Path) (a b : FilterSet) : above q (a ++ b) = above q a ++ above q b :=
  List.filter_append ..

/-- A file has no say about paths that are not below its directory. -/
theorem above_eq_nil {q : Path} {files : FilterSet}
    (h : ∀ x ∈ files, x.1 ≠ [] ∧ ¬ (x.1 <+: q ∧ x.1 ≠ q)) : above q files = [] := by
  unfold above
  rw [List.filter_eq_nil_iff]
  intro x hx
  rw [inScope, if_neg (h x hx).1, if_neg (h x hx).2]
  simp

/-- Two sets that decide alike at a path and below it, by the same files. -/
def SameBelow (pfx : Path) (a b : FilterSet) : Prop := ∀ q, pfx <+: q → above q a = above q b

theorem SameBelow.isIgnored {pfx : Path} {a b : FilterSet} (h : SameBelow pfx a b) {q : Path}
    (hq : pfx <+: q) : a.isIgnored q = b.isIgnored q := by
  rw [← isIgnored_above a, h q hq, isIgnored_above]

theorem SameBelow.of_above {pfx p : Path} {a b : FilterSet} (h : SameBelow pfx a b)
    (hp : pfx <+: p) : SameBelow p a b := fun q hq => h q (hp.trans hq)

end FilterSet

/-! ## Collecting -/

/-- The directory can be listed. -/
def DirCalls.readable (calls : DirCalls) : Bool := calls.openDir.isOk && calls.listing.isOk

/-- Add the filter file of a directory, if there is one. -/
def loadFilterFile (obs : DirObs) (dir : Path) (out : FilterSet) : FilterSet :=
  match (obs.find? filterName).bind fun f => f.o.readFilter with
  | some ff => out ++ [(dir, ff)]
  | none => out

/-- The filter files below the names of a listing. -/
def collectChildren : Path → DirObs → FilterSet → FilterSet
  | _, .nil, out => out
  | pfx, .entry name kind o calls sub rest, out =>
      collectChildren pfx rest
        (if name = metadataDirName ∨ name = filterName ∨ isListedDir kind o = false ∨
            out.isIgnored (pfx ++ [name]) = true then out
          else
            let own := loadFilterFile sub (pfx ++ [name]) out
            if calls.readable then collectChildren (pfx ++ [name]) sub own else own)

def collectFilterFiles (dir : Path) (calls : DirCalls) (obs : DirObs) (out : FilterSet) :
    FilterSet :=
  let own := loadFilterFile obs dir out
  if calls.readable then collectChildren dir obs own else own

/-- Every filter file of the working tree. -/
def FilterSet.load (calls : DirCalls) (obs : DirObs) : FilterSet :=
  collectFilterFiles [] calls obs []

/-- The filter files from a directory down to the scope, and those inside it. -/
def loadAlong : Path → Path → DirCalls → DirObs → FilterSet → FilterSet
  | [], cur, calls, obs, out => if calls.readable then collectChildren cur obs out else out
  | n :: rest, cur, _, obs, out =>
      if out.isIgnored (cur ++ [n]) then out
      else match obs.find? n with
        | some f => loadAlong rest (cur ++ [n]) f.calls f.sub (loadFilterFile f.sub (cur ++ [n]) out)
        | none => out

def FilterSet.loadScoped (calls : DirCalls) (obs : DirObs) (scope : Path) : FilterSet :=
  if scope = [] then load calls obs
  else loadAlong scope [] calls obs (loadFilterFile obs [] [])

/-! ## What is collected where -/

/-- One name of a listing, visited. -/
def visit (pfx : Path) (name : String) (f : Found) (out : FilterSet) : FilterSet :=
  if name = metadataDirName ∨ name = filterName ∨ isListedDir f.kind f.o = false ∨
      out.isIgnored (pfx ++ [name]) = true then out
  else collectFilterFiles (pfx ++ [name]) f.calls f.sub out

theorem collectChildren_entry (pfx : Path) (name : String) (kind : EntryKind) (o : NameObs)
    (calls : DirCalls) (sub rest : DirObs) (out : FilterSet) :
    collectChildren pfx (.entry name kind o calls sub rest) out =
      collectChildren pfx rest (visit pfx name ⟨kind, o, calls, sub⟩ out) := rfl

theorem loadFilterFile_eq (obs : DirObs) (dir : Path) :
    ∃ new : FilterSet, (∀ x ∈ new, x.1 = dir) ∧ ∀ out, loadFilterFile obs dir out = out ++ new := by
  unfold loadFilterFile
  cases (obs.find? filterName).bind fun f => f.o.readFilter with
  | none => exact ⟨[], nofun, fun out => (List.append_nil out).symm⟩
  | some ff => exact ⟨[(dir, ff)], by simp, fun _ => rfl⟩

open FilterSet

theorem above_loadFilterFile_off (obs : DirObs) {dir q : Path} (hne : dir ≠ [])
    (hq : ¬ (dir <+: q ∧ dir ≠ q)) (out : FilterSet) :
    above q (loadFilterFile obs dir out) = above q out := by
  obtain ⟨new, hnew, heq⟩ := loadFilterFile_eq obs dir
  have hnil : above q new = [] := above_eq_nil fun x hx => by
    rw [hnew x hx]
    exact ⟨hne, hq⟩
  rw [heq, above_append, hnil, List.append_nil]

/-- Nothing is collected for paths that are not below a listed name. -/
theorem above_collectChildren_off {pfx q : Path} {obs : DirObs}
    (h : ∀ n ∈ obs.names, ¬ (pfx ++ [n] <+: q ∧ pfx ++ [n] ≠ q)) (out : FilterSet) :
    above q (collectChildren pfx obs out) = above q out := by
  induction obs generalizing pfx out with
  | nil => rfl
  | entry name kind o calls sub rest ihs ihr =>
      rw [collectChildren_entry, ihr fun n hn => h n (List.mem_cons_of_mem _ hn)]
      have hname := h name (List.mem_cons_self ..)
      have hown := above_loadFilterFile_off sub (by simp) hname out
      unfold visit collectFilterFiles
      split_ifs
      · rfl
      · rw [ihs, hown]
        intro m _ hm
        have hpre : pfx ++ [name] <+: q := (List.prefix_append _ [m]).trans hm.1
        refine hname ⟨hpre, fun he => ?_⟩
        have hlen := hm.1.length_le
        rw [← he] at hlen
        simp at hlen
      · exact hown

theorem above_visit_off {pfx q : Path} {name : String} (f : Found)
    (h : ¬ (pfx ++ [name] <+: q ∧ pfx ++ [name] ≠ q)) (out : FilterSet) :
    above q (visit pfx name f out) = above q out := by
  have hnames : ∀ n ∈ (DirObs.entry name f.kind f.o f.calls f.sub .nil).names,
      ¬ (pfx ++ [n] <+: q ∧ pfx ++ [n] ≠ q) := by simpa [DirObs.names] using h
  exact above_collectChildren_off hnames out

theorem sameBelow_loadFilterFile {pfx : Path} {a b : FilterSet} (h : SameBelow pfx a b)
    (obs : DirObs) (dir : Path) :
    SameBelow pfx (loadFilterFile obs dir a) (loadFilterFile obs dir b) := by
  obtain ⟨new, -, heq⟩ := loadFilterFile_eq obs dir
  intro q hq
  rw [heq, heq, above_append, above_append, h q hq]

theorem concat_prefix_inj {pfx q : Path} {m n : String} (hm : pfx ++ [m] <+: q)
    (hn : pfx ++ [n] <+: q) : m = n := by
  have hpre : pfx ++ [m] <+: pfx ++ [n] := List.prefix_of_prefix_length_le hm hn (by simp)
  have heq := hpre.eq_of_length (by simp)
  simpa using heq

/-- Collecting goes on alike from two sets that decide alike. -/
theorem sameBelow_collectChildren {pfx : Path} {obs : DirObs} {a b : FilterSet}
    (h : SameBelow pfx a b) : SameBelow pfx (collectChildren pfx obs a) (collectChildren pfx obs b) := by
  induction obs generalizing pfx a b with
  | nil => exact h
  | entry name kind o calls sub rest ihs ihr =>
      apply ihr
      show SameBelow pfx (visit pfx name ⟨kind, o, calls, sub⟩ a) (visit pfx name ⟨kind, o, calls, sub⟩ b)
      have hown := sameBelow_loadFilterFile h sub (pfx ++ [name])
      unfold visit collectFilterFiles
      rw [h.isIgnored (List.prefix_append pfx [name])]
      split_ifs with hskip
      · exact h
      · intro q hq
        by_cases hin : pfx ++ [name] <+: q
        · exact ihs (hown.of_above (List.prefix_append _ _)) q hin
        · -- what is collected below the name has no say beside it
          have hoff : ∀ m ∈ sub.names, ¬ (pfx ++ [name] ++ [m] <+: q ∧ pfx ++ [name] ++ [m] ≠ q) :=
            fun m _ hm => hin ((List.prefix_append _ [m]).trans hm.1)
          rw [above_collectChildren_off hoff, above_collectChildren_off hoff]
          exact hown q hq
      · exact hown

theorem sameBelow_visit {pfx : Path} {name : String} (f : Found) {a b : FilterSet}
    (h : SameBelow (pfx ++ [name]) a b) :
    SameBelow (pfx ++ [name]) (visit pfx name f a) (visit pfx name f b) := by
  have hown := sameBelow_loadFilterFile h f.sub (pfx ++ [name])
  unfold visit collectFilterFiles
  rw [h.isIgnored (List.prefix_refl _)]
  split_ifs
  · exact h
  · exact sameBelow_collectChildren hown
  · exact hown

/-- **`above_collectChildren`** — below a name, what is collected is what visiting that name collects. -/
theorem above_collectChildren {pfx : Path} {obs : DirObs} (hnd : obs.names.Nodup) {n : String}
    {f : Found} (hf : obs.find? n = some f) (out : FilterSet) :
    SameBelow (pfx ++ [n]) (collectChildren pfx obs out) (visit pfx n f out) := by
  induction obs generalizing out with
  | nil => cases hf
  | entry name kind o calls sub rest _ ih =>
      obtain ⟨hnot, hnd⟩ := List.nodup_cons.mp hnd
      rw [collectChildren_entry]
      rw [DirObs.find?] at hf
      split_ifs at hf with hn
      · cases hf
        subst hn
        intro q hq
        apply above_collectChildren_off
        intro m hm hmq
        exact hnot (concat_prefix_inj hmq.1 hq ▸ hm)
      · have hoff : SameBelow (pfx ++ [n]) (visit pfx name ⟨kind, o, calls, sub⟩ out) out :=
          fun q hq => above_visit_off _ (fun h => hn (concat_prefix_inj h.1 hq)) out
        intro q hq
        rw [ih hnd hf _ q hq]
        exact sameBelow_visit f hoff q hq

/-! ## The scope -/

/-- A directory on the way to a scope: listed, readable, and of a name that is not reserved. -/
structure OnTheWay (calls : DirCalls) (obs : DirObs) (n : String) (f : Found) : Prop where
  found : obs.find? n = some f
  dir : isListedDir f.kind f.o = true
  readable : calls.readable = true
  nodup : obs.names.Nodup
  unreserved : isReservedName n = false
  notMeta : n ≠ metadataDirName

/-- The way from a directory down to a scope. -/
inductive Way : DirCalls → DirObs → Path → DirCalls → DirObs → Prop
  | here (calls : DirCalls) (obs : DirObs) : Way calls obs [] calls obs
  | down {calls : DirCalls} {obs : DirObs} {n : String} {f : Found} {rest : Path}
      {calls' : DirCalls} {obs' : DirObs} (head : OnTheWay calls obs n f)
      (tail : Way f.calls f.sub rest calls' obs') : Way calls obs (n :: rest) calls' obs'

theorem sameBelow_loadAlong {calls : DirCalls} {obs : DirObs} {d : Path} {calls' : DirCalls}
    {obs' : DirObs} (hway : Way calls obs d calls' obs') {cur : Path} {a b : FilterSet}
    (hab : SameBelow cur a b)
    (hign : ∀ e, e ≠ [] → e <+: d →
      (if calls.readable then collectChildren cur obs a else a).isIgnored (cur ++ e) = false) :
    ∀ q, cur ++ d <+: q → cur ++ d ≠ q →
      above q (if calls.readable then collectChildren cur obs a else a) =
        above q (loadAlong d cur calls obs b) := by
  induction hway generalizing cur a b with
  | here calls obs =>
      intro q hq _
      rw [List.append_nil] at hq
      rw [loadAlong]
      split_ifs
      · exact sameBelow_collectChildren hab q hq
      · exact hab q hq
  | @down calls obs n f rest calls' obs' head tail ih =>
      intro q hq hne
      have hnotFilter : n ≠ filterName := by
        rintro rfl
        exact absurd head.unreserved (by decide)
      rw [if_pos head.readable] at hign ⊢
      -- the name itself is decided by what was loaded above it
      have hself : above (cur ++ [n]) (collectChildren cur obs a) = above (cur ++ [n]) a := by
        apply above_collectChildren_off
        intro m _ hm
        exact hm.2 (hm.1.eq_of_length (by simp))
      have hna : a.isIgnored (cur ++ [n]) = false := by
        rw [← isIgnored_above, ← hself, isIgnored_above]
        exact hign [n] (by simp) (by simp)
      have hnb : b.isIgnored (cur ++ [n]) = false := by
        rw [← hab.isIgnored (List.prefix_append _ _)]
        exact hna
      have hvisit : visit cur n f a = collectFilterFiles (cur ++ [n]) f.calls f.sub a := by
        rw [visit, if_neg]
        simp [head.notMeta, hnotFilter, head.dir, hna]
      have hbelow : SameBelow (cur ++ [n]) (collectChildren cur obs a) (visit cur n f a) :=
        above_collectChildren head.nodup head.found a
      rw [hvisit] at hbelow
      have halong : loadAlong (n :: rest) cur calls obs b =
          loadAlong rest (cur ++ [n]) f.calls f.sub (loadFilterFile f.sub (cur ++ [n]) b) := by
        rw [loadAlong, if_neg (by simp [hnb]), head.found]
      have hassoc : ∀ e, cur ++ n :: e = cur ++ [n] ++ e := by simp
      rw [hassoc] at hq hne
      have hq' : cur ++ [n] <+: q := (List.prefix_append _ rest).trans hq
      rw [halong, hbelow q hq']
      refine ih (sameBelow_loadFilterFile (hab.of_above (List.prefix_append _ _)) _ _) ?_ q hq hne
      intro e he hpre
      have hone := hign (n :: e) (by simp) (by simpa using hpre)
      rw [hassoc, ← isIgnored_above, hbelow _ (List.prefix_append _ _), isIgnored_above] at hone
      exact hone

/-- **`isIgnored_loadScoped`** — below a scope that is not ignored, the files of the scope decide as all
files do. -/
theorem isIgnored_loadScoped {calls : DirCalls} {obs : DirObs} {d : Path} {calls' : DirCalls}
    {obs' : DirObs} (hway : Way calls obs d calls' obs')
    (hign : ∀ e, e ≠ [] → e <+: d → (load calls obs).isIgnored e = false) {q : Path} (hq : d <+: q)
    (hne : d ≠ q) : (loadScoped calls obs d).isIgnored q = (load calls obs).isIgnored q := by
  unfold loadScoped
  split_ifs with hd
  · rfl
  · have h := sameBelow_loadAlong hway (fun _ _ => rfl : SameBelow [] (loadFilterFile obs [] []) _)
      (by simpa [load, collectFilterFiles] using hign) q (by simpa using hq) (by simpa using hne)
    rw [← isIgnored_above, ← h, ← isIgnored_above (load calls obs)]
    rfl

end Omemfs.Scan
