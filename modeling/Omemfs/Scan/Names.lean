/-
# Omemfs.Scan.Names — names a scan reads, and names a tree may hold.

The names that contain `.omemfs-` are reserved.  A scan leaves out the kinds it knows as its own
bookkeeping and, with a warning, the kinds it does not know; a stub file `n.omemfs-stub` stands for
the name `n`.  `validateEntryName` is what every reader of a tree object asks of an entry's name.  A
listed name that is kept as it is passes (`valid_of_kept`); the logical name of a stub file is not
looked at again.
-/
import Mathlib.Data.List.Infix
import Omemfs.Object

namespace Omemfs.Scan

def stubSuffix : String := ".omemfs-stub"

/-- The stub marker inside a directory. -/
def dirStubName : String := ".omemfs-stub"

def metadataDirName : String := ".omemfs"

def workingTreeTmpPrefix : String := ".omemfs-tmp-"

def filterName : String := ".omemfs-filter"

def conflictSuffixes : List String :=
  [".omemfs-conflict-base", ".omemfs-conflict-local", ".omemfs-conflict-remote"]

def conflictArtifactSuffixes : List String := conflictSuffixes ++ [".omemfs-conflict-meta"]

/-! ## Strings by their characters -/

def endsWith (name suffix : String) : Bool := decide (suffix.toList <:+ name.toList)

def startsWith (name pfx : String) : Bool := decide (pfx.toList <+: name.toList)

def contains (name part : String) : Bool := decide (part.toList <:+: name.toList)

def stripSuffix (name suffix : String) : Option String :=
  if endsWith name suffix then
    some (String.ofList (name.toList.take (name.toList.length - suffix.toList.length)))
  else none

theorem stripSuffix_eq_some {name suffix l : String} :
    stripSuffix name suffix = some l ↔ name = l ++ suffix := by
  unfold stripSuffix endsWith
  constructor
  · intro h
    split_ifs at h with hs
    obtain ⟨pre, hpre⟩ := of_decide_eq_true hs
    have hl : String.ofList pre = l := by simpa [← hpre] using h
    rw [← hl, ← String.toList_inj, String.toList_append, String.toList_ofList, hpre]
  · rintro rfl
    simp

/-! ## Reserved names -/

def isReservedName (name : String) : Bool := contains name ".omemfs-"

def isConflictArtifact (name : String) : Bool := conflictArtifactSuffixes.any (endsWith name)

def isWorkingTreeTmp (name : String) : Bool := startsWith name workingTreeTmpPrefix

def isStubFilename (name : String) : Bool := endsWith name stubSuffix

/-- The name a stub file stands for. -/
def logicalName (stubName : String) : Option String := stripSuffix stubName stubSuffix

def conflictBaseName (name : String) : Option String :=
  conflictSuffixes.findSome? (stripSuffix name)

def isKnownReservedName (name : String) : Bool :=
  isStubFilename name || isConflictArtifact name || isWorkingTreeTmp name || name == filterName

def isUnknownReservedName (name : String) : Bool :=
  isReservedName name && !isKnownReservedName name

/-! ## Entry names -/

/-- What the kernel asks of a directory entry's name. -/
def KernelName (name : String) : Prop :=
  name ≠ "" ∧ name ≠ "." ∧ name ≠ ".." ∧ '/' ∉ name.toList ∧ '\x00' ∉ name.toList

instance (name : String) : Decidable (KernelName name) :=
  inferInstanceAs (Decidable (_ ∧ _ ∧ _ ∧ _ ∧ _))

def validateEntryName (name : String) : Except Error Unit :=
  if name = "" then .error (.invalidObject "tree entry name must not be empty")
  else if name = "." ∨ name = ".." then
    .error (.invalidObject ("tree entry name must not be " ++ name.quote))
  else if '/' ∈ name.toList then
    .error (.invalidObject ("tree entry name must not contain a path separator: " ++ name.quote))
  else if '\x00' ∈ name.toList then
    .error (.invalidObject ("tree entry name must not contain a NUL byte: " ++ name.quote))
  else if name = metadataDirName then
    .error (.invalidObject
      ("tree entry name must not be the reserved metadata directory name: " ++ name.quote))
  else if name ≠ filterName ∧ isReservedName name = true then
    .error (.invalidObject
      ("tree entry name must not be in the reserved .omemfs- namespace: " ++ name.quote))
  else .ok ()

/-- A name that can stand in a tree object. -/
def ValidName (name : String) : Prop := validateEntryName name = .ok ()

theorem validName_iff {name : String} :
    ValidName name ↔ KernelName name ∧ name ≠ metadataDirName ∧
      (name ≠ filterName → isReservedName name = false) := by
  unfold ValidName validateEntryName KernelName
  split_ifs with h1 h2 h3 h4 h5 h6
  · simp [h1]
  · simp only [false_iff]
    tauto
  · simp [h3]
  · simp [h4]
  · simp [h5]
  · simp [h6.1, h6.2]
  · simp only [not_or, not_and, Bool.not_eq_true] at *
    simp_all

instance (name : String) : Decidable (ValidName name) := decidable_of_iff _ validName_iff.symm

/-- A listed name a scan leaves out. -/
def isExcluded (name : String) : Bool :=
  name == metadataDirName || isConflictArtifact name || isWorkingTreeTmp name ||
    isUnknownReservedName name

/-- **`valid_of_kept`** — a listed name that is not left out and is no stub file can stand in a tree. -/
theorem valid_of_kept {name : String} (hk : KernelName name) (hx : isExcluded name = false)
    (hs : logicalName name = none) : ValidName name := by
  simp only [isExcluded, Bool.or_eq_false_iff] at hx
  obtain ⟨⟨⟨hmeta, hconf⟩, htmp⟩, hunknown⟩ := hx
  have hstub : isStubFilename name = false := by
    by_contra h
    simp [logicalName, stripSuffix, isStubFilename] at hs h
    simp [h] at hs
  refine validName_iff.mpr ⟨hk, by simpa using hmeta, fun hf => ?_⟩
  by_contra hres
  simp [isUnknownReservedName, isKnownReservedName, hstub, hconf, htmp, hf] at hunknown
  exact hres hunknown

/-- A name that is not reserved is neither left out nor a stub file's. -/
theorem kept_of_unreserved {name : String} (hres : isReservedName name = false)
    (hmeta : name ≠ metadataDirName) : isExcluded name = false ∧ logicalName name = none := by
  have hnot : ∀ part : List Char, ".omemfs-".toList <+: part → ¬ part <:+: name.toList := by
    intro part hpart hin
    have hinfix : ".omemfs-".toList <:+: name.toList := hpart.isInfix.trans hin
    simp only [isReservedName, contains, decide_eq_false_iff_not] at hres
    exact hres hinfix
  have hends : ∀ s : String, ".omemfs-".toList <+: s.toList → endsWith name s = false := by
    intro s hs
    simpa [endsWith] using fun h : s.toList <:+ name.toList => hnot _ hs h.isInfix
  have hconf : isConflictArtifact name = false := by
    simp only [isConflictArtifact, List.any_eq_false, Bool.not_eq_true]
    intro s hs
    refine hends s ?_
    revert s
    decide
  have htmp : isWorkingTreeTmp name = false := by
    have h := hnot workingTreeTmpPrefix.toList (by decide)
    simpa [isWorkingTreeTmp, startsWith] using fun hp : _ <+: name.toList => h hp.isInfix
  constructor
  · simp [isExcluded, hmeta, hconf, htmp, isUnknownReservedName, hres]
  · simp [logicalName, stripSuffix, hends stubSuffix (by decide)]

/-- A name that can stand in a tree is neither left out nor a stub file's. -/
theorem kept_of_valid {name : String} (h : ValidName name) :
    isExcluded name = false ∧ logicalName name = none := by
  obtain ⟨-, hmeta, hres⟩ := validName_iff.mp h
  by_cases hf : name = filterName
  · subst hf
    decide
  · exact kept_of_unreserved (hres hf) hmeta

/-- Its stub file is not left out either. -/
theorem sidecar_kept {name : String} (h : ValidName name) :
    isExcluded (name ++ stubSuffix) = false := by
  obtain ⟨⟨hne, -⟩, -, hres⟩ := validName_iff.mp h
  have hstub : isStubFilename (name ++ stubSuffix) = true := by
    simp [isStubFilename, endsWith]
  have hmeta : name ++ stubSuffix ≠ metadataDirName := by
    intro heq
    have hlen := congrArg (fun s : String => s.toList.length) heq
    simp only [String.toList_append, List.length_append] at hlen
    have h1 : stubSuffix.toList.length = 12 := by decide
    have h2 : metadataDirName.toList.length = 7 := by decide
    omega
  have hconf : isConflictArtifact (name ++ stubSuffix) = false := by
    have hlong : ∀ s ∈ conflictArtifactSuffixes,
        stubSuffix.toList.length ≤ s.toList.length ∧ ¬ stubSuffix.toList <:+ s.toList := by decide
    simp only [isConflictArtifact, List.any_eq_false, endsWith, decide_eq_true_eq]
    intro s hs hsuf
    obtain ⟨hle, hno⟩ := hlong s hs
    have hown : stubSuffix.toList <:+ (name ++ stubSuffix).toList := by simp
    exact hno (List.suffix_of_suffix_length_le hown hsuf hle)
  have htmp : isWorkingTreeTmp (name ++ stubSuffix) = false := by
    have hlen : workingTreeTmpPrefix.toList.length = 12 := by decide
    simp only [isWorkingTreeTmp, startsWith, decide_eq_false_iff_not, String.toList_append]
    intro hp
    rcases Nat.lt_or_ge name.toList.length 12 with hlt | hge
    · -- the name would be a beginning of the reserved prefix, and the suffix start in its middle
      have hname : name.toList = workingTreeTmpPrefix.toList.take name.toList.length := by
        apply List.prefix_iff_eq_take.mp
        exact List.prefix_of_prefix_length_le (List.prefix_append _ _) hp (by omega)
      have hpos : name.toList ≠ [] := by simpa using hne
      have hall : ∀ k < 12, workingTreeTmpPrefix.toList.take k ≠ [] →
          ¬ workingTreeTmpPrefix.toList <+: workingTreeTmpPrefix.toList.take k ++ stubSuffix.toList := by
        decide
      rw [hname] at hp hpos
      exact hall _ hlt hpos hp
    · -- the name itself starts with it, and is reserved
      have hpre : workingTreeTmpPrefix.toList <+: name.toList :=
        List.prefix_of_prefix_length_le hp (List.prefix_append _ _) (by omega)
      have hf : name ≠ filterName := by
        rintro rfl
        exact absurd hpre (by decide)
      have hr := hres hf
      have hin : ".omemfs-".toList <:+: name.toList :=
        (show ".omemfs-".toList <+: workingTreeTmpPrefix.toList by decide).isInfix.trans hpre.isInfix
      simp only [isReservedName, contains, decide_eq_false_iff_not] at hr
      exact hr hin
  simp only [isExcluded, isUnknownReservedName, isKnownReservedName, hstub, hconf, htmp,
    beq_eq_false_iff_ne.mpr hmeta, Bool.true_or, Bool.not_true, Bool.and_false, Bool.or_false]

end Omemfs.Scan
