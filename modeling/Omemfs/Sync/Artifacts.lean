/-
# Omemfs.Sync.Artifacts — the files a conflict leaves beside its path.

For a path in conflict there are up to three helper files, one for each side that has a content, and a
sidecar that says which of them were written and what the remote held.  `writeConflictArtifacts` clears
whatever an earlier conflict left there before it writes.

The sidecar is a JSON file; in the model a file holds the record itself.  What opening a path leads to
when a symlink lies on its way is a parameter (`linked`): no symlink leads to a conflict artifact.

`writeConflictArtifacts_effect` says when the files can be written and what is there afterwards;
`artifactPath_inj` that two paths have no artifact in common.
-/
import Omemfs.Scan.Names
import Omemfs.Sync.Diff
import Omemfs.Sync.Fsguard

namespace Omemfs.Sync

open Omemfs Lib Fsguard Scan

/-! ## The sidecar -/

structure SideMeta where
  mtime : Option Time
  mode : Option String
  deriving DecidableEq

/-- What the remote held at the path. -/
inductive RemoteResolution where
  | blob (b : Blob)
  | deleted
  | symlink (l : Symlink)
  | unrecorded
  deriving DecidableEq

/-- The sides that had content. -/
structure Sides where
  base : Bool
  loc : Bool
  remote : Bool
  deriving DecidableEq

structure ConflictMeta where
  sides : Option Sides
  base : Option SideMeta
  remote : Option SideMeta
  remoteResolution : Option RemoteResolution
  deriving DecidableEq

/-! ## The working tree -/

/-- What a file holds: bytes named by their hash, the bytes of a tree object, or a sidecar's JSON. -/
inductive Content where
  | bytes (h : Hash)
  | treeObject (t : Tree)
  | sidecar (m : ConflictMeta)
  deriving DecidableEq

inductive WorkNode where
  | file (c : Content) (mode : Option String)
  | symlink (target : String)
  deriving DecidableEq

abbrev WorkDir := DirTree String WorkNode

/-- What `File::open` finds where a symlink lies on the way, or at its end. -/
abbrev Linked := Path → Option Content

def isSymlinkAt (d : WorkDir) (p : Path) : Bool :=
  match d.get p with
  | some (.leaf (.symlink _)) => true
  | _ => false

/-- Opened, and a regular file. -/
def workingFileSource (linked : Linked) (d : WorkDir) (p : Path) : Option Content :=
  if p.inits.any (isSymlinkAt d) then linked p
  else match d.get p with
    | some (.leaf (.file c _)) => some c
    | _ => none

/-! ## The artifacts -/

inductive AcceptSide where
  | remote
  | loc
  | base
  deriving DecidableEq

def AcceptSide.suffix : AcceptSide → String
  | .remote => ".omemfs-conflict-remote"
  | .loc => ".omemfs-conflict-local"
  | .base => ".omemfs-conflict-base"

def Sides.has (s : Sides) : AcceptSide → Bool
  | .base => s.base
  | .loc => s.loc
  | .remote => s.remote

def conflictMetaSuffix : String := ".omemfs-conflict-meta"

/-- The path with a suffix to its last name. -/
def artifactPath (p : Path) (suffix : String) : Path := p.dropLast ++ [p.getLastD "" ++ suffix]

def removeAllConflictArtifacts (p : Path) : Guarded WorkNode PUnit :=
  conflictArtifactSuffixes.forM fun suffix => removeFileTolerant (artifactPath p suffix)

def writeHelperFile (p : Path) (suffix : String) (source : Content) : Guarded WorkNode PUnit :=
  atomicWrite (artifactPath p suffix) (.file source none)

def ConflictMeta.write (m : ConflictMeta) (p : Path) : Guarded WorkNode PUnit :=
  if m.sides.isNone && m.base.isNone && m.remote.isNone && m.remoteResolution.isNone then pure ⟨⟩
  else atomicWrite (artifactPath p conflictMetaSuffix) (.file (.sidecar m) none)

def writeConflictArtifacts (p : Path) (base loc remote : Option Content) (m : ConflictMeta) :
    Guarded WorkNode PUnit :=
  removeAllConflictArtifacts p >>= fun _ =>
  ([(AcceptSide.base.suffix, base), (AcceptSide.loc.suffix, loc),
    (AcceptSide.remote.suffix, remote)].forM fun x =>
      match x.2 with
      | some source => writeHelperFile p x.1 source
      | none => pure ⟨⟩) >>= fun _ =>
  ConflictMeta.write { m with sides := some ⟨base.isSome, loc.isSome, remote.isSome⟩ } p

/-! ## The names of the artifacts -/

theorem suffix_mem (side : AcceptSide) : side.suffix ∈ conflictArtifactSuffixes := by
  cases side <;> decide

theorem metaSuffix_mem : conflictMetaSuffix ∈ conflictArtifactSuffixes := by decide

theorem append_left_cancel_string {n a b : String} (h : n ++ a = n ++ b) : a = b := by
  have happ : n.toList ++ a.toList = n.toList ++ b.toList := by
    simpa using congrArg String.toList h
  exact String.toList_inj.mp (List.append_cancel_left happ)

theorem suffix_cases {s : String} (h : s ∈ conflictArtifactSuffixes) :
    (∃ side : AcceptSide, s = side.suffix) ∨ s = conflictMetaSuffix := by
  simp only [conflictArtifactSuffixes, conflictSuffixes, List.cons_append, List.nil_append,
    List.mem_cons, List.not_mem_nil, or_false] at h
  rcases h with rfl | rfl | rfl | rfl
  · exact .inl ⟨.base, rfl⟩
  · exact .inl ⟨.loc, rfl⟩
  · exact .inl ⟨.remote, rfl⟩
  · exact .inr rfl

/-- No suffix is the end of another. -/
theorem append_suffix_inj {a b s t : String} (hs : s ∈ conflictArtifactSuffixes)
    (ht : t ∈ conflictArtifactSuffixes) (h : a ++ s = b ++ t) : a = b ∧ s = t := by
  have happ : a.toList ++ s.toList = b.toList ++ t.toList := by
    simpa using congrArg String.toList h
  have hends : s.toList <:+ t.toList ∨ t.toList <:+ s.toList := by
    have hright : t.toList <:+ a.toList ++ s.toList := happ ▸ List.suffix_append _ _
    exact List.suffix_or_suffix_of_suffix (List.suffix_append _ _) hright
  have hapart : ∀ s ∈ conflictArtifactSuffixes, ∀ t ∈ conflictArtifactSuffixes,
      s.toList <:+ t.toList → s = t := by decide
  have heq : s = t := hends.elim (hapart s hs t ht) fun h => (hapart t ht s hs h).symm
  subst heq
  exact ⟨String.toList_inj.mp (List.append_cancel_right happ), rfl⟩

theorem artifactPath_concat (p : Path) (n s : String) : artifactPath (p ++ [n]) s = p ++ [n ++ s] := by
  simp [artifactPath]

/-- **`artifactPath_inj`** — an artifact belongs to one path. -/
theorem artifactPath_inj {p q : Path} {s t : String} (hp : p ≠ []) (hq : q ≠ [])
    (hs : s ∈ conflictArtifactSuffixes) (ht : t ∈ conflictArtifactSuffixes)
    (h : artifactPath p s = artifactPath q t) : p = q ∧ s = t := by
  obtain ⟨p, n, rfl⟩ := (List.eq_nil_or_concat' p).resolve_left hp
  obtain ⟨q, m, rfl⟩ := (List.eq_nil_or_concat' q).resolve_left hq
  rw [artifactPath_concat, artifactPath_concat, List.append_singleton_inj] at h
  obtain ⟨rfl, hlast⟩ := h
  obtain ⟨rfl, rfl⟩ := append_suffix_inj hs ht hlast
  exact ⟨rfl, rfl⟩

theorem isConflictArtifact_append (n : String) {s : String} (hs : s ∈ conflictArtifactSuffixes) :
    isConflictArtifact (n ++ s) = true := by
  rw [isConflictArtifact, List.any_eq_true]
  exact ⟨s, hs, by simp [endsWith]⟩

/-- An artifact lies on the way to nothing that a tree can name. -/
theorem not_artifact_prefix {p q : Path} {s : String} (hs : s ∈ conflictArtifactSuffixes)
    (hq : ∀ n ∈ q, ValidName n) : ¬ artifactPath p s <+: q := by
  intro hpre
  have hmem : p.getLastD "" ++ s ∈ q := hpre.subset (by simp [artifactPath])
  obtain ⟨hkept, -⟩ := kept_of_valid (hq _ hmem)
  have hart := isConflictArtifact_append (p.getLastD "") hs
  rw [isExcluded, hart, Bool.or_true, Bool.true_or, Bool.true_or] at hkept
  cases hkept

/-! ## Entries of one directory -/

section Siblings

variable {α : Type}

/-- The entries `l` of `parent` are as `l` says; nothing else has changed, but that `parent` may have
been created. -/
structure PutsAll (parent : Path) (l : List (String × Option α)) (s t : DirTree String α) : Prop where
  there : ∀ x ∈ l, t.get (parent ++ [x.1]) = x.2.map .leaf
  beside : ∀ q, (∀ x ∈ l, q ≠ parent ++ [x.1]) → ¬ q <+: parent → t.get q = s.get q
  above : (∀ a, a <+: parent → ∀ x, s.get a ≠ some (.leaf x)) →
    ∀ a, a <+: parent → ∀ x, t.get a ≠ some (.leaf x)

theorem not_concat_le (parent : Path) (n : String) : ¬ parent ++ [n] <+: parent :=
  not_prefix_parent parent n []

theorem PutsAll.append {parent : Path} {l l' : List (String × Option α)} {s t u : DirTree String α}
    (h : PutsAll parent l s t) (h' : PutsAll parent l' t u)
    (hapart : ∀ x ∈ l, x.1 ∉ l'.map Prod.fst) : PutsAll parent (l ++ l') s u where
  there x hx := by
    rcases List.mem_append.mp hx with hx | hx
    · rw [h'.beside _ _ (not_concat_le parent x.1)]
      · exact h.there x hx
      · intro y hy heq
        have hname : x.1 = y.1 := by simpa using heq
        exact hapart x hx (List.mem_map.mpr ⟨y, hy, hname.symm⟩)
    · exact h'.there x hx
  beside q hq hpre := by
    rw [h'.beside q (fun y hy => hq y (List.mem_append_right l hy)) hpre]
    exact h.beside q (fun y hy => hq y (List.mem_append_left l' hy)) hpre
  above hs := h'.above (h.above hs)

theorem putsAll_remove (d : DirTree String α) (parent : Path) (n : String) :
    Effect (removeFileTolerant (parent ++ [n])) d
      (OpenWay d (parent ++ [n]) ∧ d.get (parent ++ [n]) ≠ some .dir)
      fun _ d' => PutsAll parent [(n, none)] d d' := by
  refine (removeFileTolerant_effect d (by simp)).congr Iff.rfl ?_
  rintro - _ t hget
  refine ⟨?_, fun q hq _ => ?_, fun hs a ha x => ?_⟩
  · simp [hget]
  · rw [hget, if_neg (by simpa using hq)]
  · rw [hget]
    split_ifs
    · rintro ⟨⟩
    · exact hs a ha x

theorem putsAll_write (d : DirTree String α) (parent : Path) (n : String) (a : α) :
    Effect (atomicWrite (parent ++ [n]) a) d
      (OpenWay d (parent ++ [n]) ∧ d.get (parent ++ [n]) ≠ some .dir)
      fun _ d' => PutsAll parent [(n, some a)] d d' := by
  refine (atomicWrite_effect d (by simp) a).congr Iff.rfl ?_
  rintro - _ t hget
  have hother : ∀ q, q ≠ parent ++ [n] →
      t.get q = if q <+: parent then some .dir else d.get q := by
    intro q hq
    rw [hget, if_neg hq]
    apply if_congr _ rfl rfl
    rw [List.prefix_concat_iff]
    exact or_iff_right hq
  refine ⟨?_, fun q hq hpre => ?_, fun _ a ha x => ?_⟩
  · simp [hget]
  · rw [hother q (by simpa using hq), if_neg hpre]
  · rw [hother a fun heq => not_concat_le parent n (heq ▸ ha), if_pos ha]
    rintro ⟨⟩

/-- **`putsAll_forM`** — entries of one directory are put or removed one after another: each has to be
no directory, and the way to their parent open. -/
theorem putsAll_forM {β : Type} (entry : β → String × Option α) {parent : Path}
    {f : β → Guarded α PUnit} {l : List β}
    (hf : ∀ b ∈ l, ∀ d, Effect (f b) d
      (OpenWay d (parent ++ [(entry b).1]) ∧ d.get (parent ++ [(entry b).1]) ≠ some .dir)
      fun _ d' => PutsAll parent [entry b] d d')
    (hl : (l.map fun b => (entry b).1).Nodup) (d : DirTree String α) :
    Effect (l.forM f) d
      (∀ b ∈ l, OpenWay d (parent ++ [(entry b).1]) ∧ d.get (parent ++ [(entry b).1]) ≠ some .dir)
      fun _ d' => PutsAll parent (l.map entry) d d' := by
  induction l generalizing d with
  | nil =>
      refine (Effect.pure PUnit.unit d).congr (by simp) ?_
      rintro - _ t ⟨-, rfl⟩
      exact ⟨by simp, fun _ _ _ => rfl, fun hs => hs⟩
  | cons b l ih =>
      obtain ⟨hb, hl⟩ := List.nodup_cons.mp hl
      have hopen : ∀ (e : DirTree String α) n, OpenWay e (parent ++ [n]) ↔
          ∀ a, a <+: parent → ∀ y, e.get a ≠ some (.leaf y) := fun e n => openWay_concat
      have hrest : ∀ t, OpenWay d (parent ++ [(entry b).1]) ∧
            d.get (parent ++ [(entry b).1]) ≠ some .dir →
          PutsAll parent [entry b] d t →
          Effect (l.forM f) t
            (∀ c ∈ l, OpenWay d (parent ++ [(entry c).1]) ∧ d.get (parent ++ [(entry c).1]) ≠ some .dir)
            fun _ u => PutsAll parent (entry b :: l.map entry) d u := by
        intro t hok hput
        have hlater := ih (fun c hc => hf c (List.mem_cons_of_mem b hc)) hl t
        refine hlater.congr ?_ fun _ _ u hu => hput.append hu fun x hx => ?_
        swap
        · rw [List.mem_singleton.mp hx]
          simpa using hb
        apply forall₂_congr
        intro c hc
        have hne : parent ++ [(entry c).1] ≠ parent ++ [(entry b).1] := by
          intro heq
          have hname : (entry c).1 = (entry b).1 := by simpa using heq
          exact hb (List.mem_map.mpr ⟨c, hc, hname⟩)
        rw [hput.beside _ (by simpa using hne) (not_concat_le parent _), hopen, hopen]
        have hway := (hopen d (entry b).1).mp hok.1
        exact and_congr_left' ⟨fun _ => hway, fun _ => hput.above hway⟩
      have hall := (hf b (List.mem_cons_self ..) d).bind fun _ t hok hput => hrest t hok hput
      exact hall.congr (by simp) fun _ _ _ h => h

end Siblings

/-! ## Writing them -/

/-- The content of each side. -/
structure HelperSources where
  base : Option Content
  loc : Option Content
  remote : Option Content

def HelperSources.get (src : HelperSources) : AcceptSide → Option Content
  | .base => src.base
  | .loc => src.loc
  | .remote => src.remote

def HelperSources.sides (src : HelperSources) : Sides :=
  ⟨src.base.isSome, src.loc.isSome, src.remote.isSome⟩

theorem HelperSources.has_sides (src : HelperSources) (side : AcceptSide) :
    src.sides.has side = (src.get side).isSome := by
  cases side <;> rfl

/-- The artifacts of `p` are those of these sources; nothing else has changed, but that the parent of
`p` may have been created. -/
structure ArtifactsWritten (p : Path) (src : HelperSources) (m : ConflictMeta) (d d' : WorkDir) :
    Prop where
  helper : ∀ side, d'.get (artifactPath p side.suffix) =
    (src.get side).map fun c => .leaf (.file c none)
  sidecar : d'.get (artifactPath p conflictMetaSuffix) =
    some (.leaf (.file (.sidecar { m with sides := some src.sides }) none))
  beside : ∀ q, (∀ s ∈ conflictArtifactSuffixes, q ≠ artifactPath p s) → ¬ q <+: p.dropLast →
    d'.get q = d.get q
  above : ∀ q, q <+: p.dropLast → d'.get q = some .dir

/-- The artifacts can be written. -/
def Writable (d : WorkDir) (p : Path) : Prop :=
  OpenWay d p ∧ ∀ s ∈ conflictArtifactSuffixes, d.get (artifactPath p s) ≠ some .dir

theorem removeAll_effect (d : WorkDir) (parent : Path) (n : String) :
    Effect (removeAllConflictArtifacts (parent ++ [n])) d (Writable d (parent ++ [n]))
      fun _ d' => PutsAll parent (conflictArtifactSuffixes.map fun s => (n ++ s, none)) d d' := by
  have hf : ∀ s ∈ conflictArtifactSuffixes, ∀ e : WorkDir,
      Effect (removeFileTolerant (artifactPath (parent ++ [n]) s)) e
        (OpenWay e (parent ++ [n ++ s]) ∧ e.get (parent ++ [n ++ s]) ≠ some .dir)
        fun _ e' => PutsAll parent [(n ++ s, none)] e e' := by
    intro s _ e
    rw [artifactPath_concat]
    exact putsAll_remove e parent (n ++ s)
  have hnd : (conflictArtifactSuffixes.map fun s => n ++ s).Nodup := by
    apply List.Nodup.map_on _ (by decide)
    intro s hs t ht heq
    exact (append_suffix_inj hs ht heq).2
  refine (putsAll_forM (fun s => (n ++ s, none)) hf hnd d).congr ?_ fun _ _ _ h => h
  simp only [Writable, openWay_concat, artifactPath_concat]
  constructor
  · intro h
    exact ⟨(h conflictMetaSuffix metaSuffix_mem).1, fun s hs => (h s hs).2⟩
  · exact fun h s hs => ⟨h.1, h.2 s hs⟩

/-- The helpers that are written, in the order of the program. -/
def helpersToWrite (src : HelperSources) : List (String × Content) :=
  [(AcceptSide.base.suffix, src.base), (AcceptSide.loc.suffix, src.loc),
    (AcceptSide.remote.suffix, src.remote)].filterMap fun x => x.2.map fun c => (x.1, c)

theorem writeConflictArtifacts_eq (p : Path) (src : HelperSources) (m : ConflictMeta) :
    writeConflictArtifacts p src.base src.loc src.remote m =
      (removeAllConflictArtifacts p >>= fun _ =>
        (helpersToWrite src).forM (fun x => writeHelperFile p x.1 x.2) >>= fun _ =>
          writeHelperFile p conflictMetaSuffix (.sidecar { m with sides := some src.sides })) := by
  obtain ⟨base, loc, remote⟩ := src
  cases base <;> cases loc <;> cases remote <;> rfl

theorem mem_helpersToWrite {src : HelperSources} {x : String × Content} :
    x ∈ helpersToWrite src ↔ ∃ side : AcceptSide, x.1 = side.suffix ∧ src.get side = some x.2 := by
  obtain ⟨s, c⟩ := x
  simp only [helpersToWrite, List.mem_filterMap, List.mem_cons, List.not_mem_nil, or_false]
  constructor
  · rintro ⟨_, rfl | rfl | rfl, hc⟩
    all_goals
      obtain ⟨c', hc', heq⟩ := Option.map_eq_some_iff.mp hc
      cases heq
    · exact ⟨.base, rfl, hc'⟩
    · exact ⟨.loc, rfl, hc'⟩
    · exact ⟨.remote, rfl, hc'⟩
  · rintro ⟨side, rfl, hc⟩
    cases side with
    | base => exact ⟨_, .inl rfl, by rw [show src.base = some c from hc]; rfl⟩
    | loc => exact ⟨_, .inr (.inl rfl), by rw [show src.loc = some c from hc]; rfl⟩
    | remote => exact ⟨_, .inr (.inr rfl), by rw [show src.remote = some c from hc]; rfl⟩

theorem suffix_inj {a b : AcceptSide} (h : a.suffix = b.suffix) : a = b := by
  cases a <;> cases b <;> first | rfl | exact absurd h (by decide)

theorem suffix_ne_metaSuffix (side : AcceptSide) : side.suffix ≠ conflictMetaSuffix := by
  cases side <;> decide

theorem nodup_helpersToWrite (src : HelperSources) : ((helpersToWrite src).map Prod.fst).Nodup := by
  obtain ⟨base, loc, remote⟩ := src
  cases base <;> cases loc <;> cases remote <;>
    simp [helpersToWrite, AcceptSide.suffix]

/-- What the three phases leave. -/
theorem artifactsWritten_of_phases {parent : Path} {n : String} {src : HelperSources}
    {m : ConflictMeta} {d e f d' : WorkDir}
    (h₁ : PutsAll parent (conflictArtifactSuffixes.map fun s => (n ++ s, none)) d e)
    (h₂ : PutsAll parent ((helpersToWrite src).map fun x => (n ++ x.1, some (.file x.2 none))) e f)
    (h₃ : PutsAll parent
      [(n ++ conflictMetaSuffix, some (.file (.sidecar { m with sides := some src.sides }) none))] f d') :
    ArtifactsWritten (parent ++ [n]) src m d d' := by
  have hne : ∀ s t : String, s ≠ t → parent ++ [n ++ s] ≠ parent ++ [n ++ t] := by
    intro s t hst heq
    have hname : n ++ s = n ++ t := by simpa using heq
    exact hst (append_left_cancel_string hname)
  have hmeta : d'.get (parent ++ [n ++ conflictMetaSuffix]) =
      some (.leaf (.file (.sidecar { m with sides := some src.sides }) none)) :=
    h₃.there _ (List.mem_singleton_self _)
  refine ⟨fun side => ?_, ?_, fun q hq hpre => ?_, fun q hq => ?_⟩
  · rw [artifactPath_concat]
    rw [h₃.beside _ (by simpa using hne _ _ (suffix_ne_metaSuffix side)) (not_concat_le parent _)]
    cases hsrc : src.get side with
    | some c =>
        have hmem : (side.suffix, c) ∈ helpersToWrite src := mem_helpersToWrite.mpr ⟨side, rfl, hsrc⟩
        exact h₂.there _ (List.mem_map.mpr ⟨_, hmem, rfl⟩)
    | none =>
        -- not written, and cleared before
        rw [h₂.beside _ _ (not_concat_le parent _)]
        · exact h₁.there _ (List.mem_map.mpr ⟨side.suffix, suffix_mem side, rfl⟩)
        · intro x hx
          obtain ⟨y, hy, rfl⟩ := List.mem_map.mp hx
          obtain ⟨side', hside, hsome⟩ := mem_helpersToWrite.mp hy
          apply hne
          rw [hside]
          intro heq
          rw [suffix_inj heq, hsome] at hsrc
          cases hsrc
  · rw [artifactPath_concat]
    exact hmeta
  · rw [List.dropLast_concat] at hpre
    have hart : ∀ s ∈ conflictArtifactSuffixes, q ≠ parent ++ [n ++ s] := fun s hs => by
      rw [← artifactPath_concat]
      exact hq s hs
    rw [h₃.beside q _ hpre, h₂.beside q _ hpre, h₁.beside q _ hpre]
    · intro x hx
      obtain ⟨s, hs, rfl⟩ := List.mem_map.mp hx
      exact hart s hs
    · intro x hx
      obtain ⟨y, hy, rfl⟩ := List.mem_map.mp hx
      obtain ⟨side, hside, -⟩ := mem_helpersToWrite.mp hy
      rw [hside]
      exact hart _ (suffix_mem side)
    · intro x hx
      rw [List.mem_singleton.mp hx]
      exact hart _ metaSuffix_mem
  · rw [List.dropLast_concat] at hq
    obtain ⟨r, rfl⟩ := hq
    have hbelow : d'.get (q ++ (r ++ [n ++ conflictMetaSuffix])) ≠ none := by
      rw [← List.append_assoc, hmeta]
      exact nofun
    cases r with
    | nil => exact DirTree.get_of_append hbelow
    | cons k r => exact DirTree.get_of_append hbelow

theorem writeConflictArtifacts_effect (d : WorkDir) {p : Path} (hp : p ≠ [])
    (src : HelperSources) (m : ConflictMeta) :
    Effect (writeConflictArtifacts p src.base src.loc src.remote m) d (Writable d p)
      fun _ d' => ArtifactsWritten p src m d d' := by
  obtain ⟨parent, n, rfl⟩ := (List.eq_nil_or_concat' p).resolve_left hp
  have hwrite : ∀ (s : String) (c : Content) (e : WorkDir),
      Effect (writeHelperFile (parent ++ [n]) s c) e
        (OpenWay e (parent ++ [n ++ s]) ∧ e.get (parent ++ [n ++ s]) ≠ some .dir)
        fun _ e' => PutsAll parent [(n ++ s, some (.file c none))] e e' := by
    intro s c e
    rw [writeHelperFile, artifactPath_concat]
    exact putsAll_write e parent (n ++ s) (.file c none)
  have hnd : ((helpersToWrite src).map fun x => n ++ x.1).Nodup := by
    have hnd := nodup_helpersToWrite src
    have hmap : ((helpersToWrite src).map fun x => n ++ x.1) =
        ((helpersToWrite src).map Prod.fst).map (n ++ ·) := by
      rw [List.map_map]
      rfl
    rw [hmap]
    exact hnd.map fun a b => append_left_cancel_string
  rw [writeConflictArtifacts_eq]
  have hrest : ∀ e, Writable d (parent ++ [n]) →
      PutsAll parent (conflictArtifactSuffixes.map fun s => (n ++ s, none)) d e →
      Effect ((helpersToWrite src).forM (fun x => writeHelperFile (parent ++ [n]) x.1 x.2) >>= fun _ =>
          writeHelperFile (parent ++ [n]) conflictMetaSuffix
            (.sidecar { m with sides := some src.sides })) e True
        fun _ d' => ArtifactsWritten (parent ++ [n]) src m d d' := by
    intro e hok h₁
    have hway : ∀ a, a <+: parent → ∀ x, e.get a ≠ some (.leaf x) :=
      h₁.above (openWay_concat.mp hok.1)
    have hgone : ∀ s ∈ conflictArtifactSuffixes, e.get (parent ++ [n ++ s]) = none := fun s hs =>
      h₁.there _ (List.mem_map.mpr ⟨s, hs, rfl⟩)
    have hentry : ∀ x ∈ helpersToWrite src, ∀ e : WorkDir,
        Effect (writeHelperFile (parent ++ [n]) x.1 x.2) e
          (OpenWay e (parent ++ [n ++ x.1]) ∧ e.get (parent ++ [n ++ x.1]) ≠ some .dir)
          fun _ e' => PutsAll parent [(n ++ x.1, some (.file x.2 none))] e e' :=
      fun x _ e => hwrite x.1 x.2 e
    have hhelpers := putsAll_forM (fun x : String × Content => (n ++ x.1, some (.file x.2 none)))
      hentry hnd e
    have hlast : ∀ f, PutsAll parent
          ((helpersToWrite src).map fun x => (n ++ x.1, some (.file x.2 none))) e f →
        Effect (writeHelperFile (parent ++ [n]) conflictMetaSuffix
          (.sidecar { m with sides := some src.sides })) f True
          fun _ d' => ArtifactsWritten (parent ++ [n]) src m d d' := by
      intro f h₂
      refine (hwrite conflictMetaSuffix _ f).congr ?_ fun _ _ d' h₃ => artifactsWritten_of_phases h₁ h₂ h₃
      refine iff_of_true ⟨openWay_concat.mpr (h₂.above hway), ?_⟩ trivial
      rw [h₂.beside _ _ (not_concat_le parent _), hgone _ metaSuffix_mem]
      · exact nofun
      · intro x hx heq
        obtain ⟨y, hy, rfl⟩ := List.mem_map.mp hx
        obtain ⟨side, hside, -⟩ := mem_helpersToWrite.mp hy
        have hname : n ++ conflictMetaSuffix = n ++ y.1 := by simpa using heq
        rw [hside] at hname
        exact suffix_ne_metaSuffix side (append_left_cancel_string hname).symm
    refine (hhelpers.bind fun _ f _ h₂ => hlast f h₂).congr ?_ fun _ _ _ h => h
    refine iff_of_true ⟨fun x hx => ⟨openWay_concat.mpr hway, ?_⟩, trivial⟩ trivial
    obtain ⟨side, hside, -⟩ := mem_helpersToWrite.mp hx
    rw [hside, hgone _ (suffix_mem side)]
    exact nofun
  refine ((removeAll_effect d parent n).bind fun _ e hok h₁ => hrest e hok h₁).congr ?_
    fun _ _ _ h => h
  exact and_iff_left trivial

end Omemfs.Sync
