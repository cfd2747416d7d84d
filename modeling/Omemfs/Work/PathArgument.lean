/-
# Omemfs.Work.PathArgument — where a path given on the command line leads.

An argument is resolved against the directory that the command runs in, and an absolute one with the
symlinks in it; what it names is then told from the repository's root.  A relative argument is the walk that
it describes (`normalizeAddressablePath_eq_ok_iff`).  What comes out is a normal form, which leads to the
same place from the root (`normalizeAddressablePath_again`).
-/
import Omemfs.Work.Stub

namespace Omemfs.Work.PathArgument

open Scan

/-! ## Components -/

/-- A component of a path; there are no prefixes here. -/
inductive Component where
  | rootDir
  | curDir
  | parentDir
  | normal (name : String)
  deriving DecidableEq

def splitSlash (text : String) : List String := (text.toList.splitOn '/').map String.ofList

def joinSlash (names : List String) : String := String.ofList (['/'].intercalate (names.map String.toList))

def isAbsolute (text : String) : Bool := text.toList.head? = some '/'

def ofSegment (name : String) : Option Component :=
  if name = "" ∨ name = "." then none
  else if name = ".." then some .parentDir
  else some (.normal name)

/-- `Path::components`; of the dots it keeps the one at the start of a relative path. -/
def components (text : String) : List Component :=
  (if isAbsolute text then [.rootDir]
    else if (splitSlash text).head? = some "." then [.curDir] else []) ++
      (splitSlash text).filterMap ofSegment

def Component.text : Component → String
  | .rootDir => "/"
  | .curDir => "."
  | .parentDir => ".."
  | .normal name => name

/-- The text of a path that is put together from its components. -/
def display : List Component → String
  | .rootDir :: path => "/" ++ joinSlash (path.map Component.text)
  | path => joinSlash (path.map Component.text)

/-- `PathBuf::join` of a relative path. -/
def join (cwd path : List Component) : List Component := cwd ++ path.filter fun c => c ≠ .curDir

/-! ## Resolution -/

/-- One component of `lexically_normalize`. -/
def pushLexically (out : List Component) : Component → List Component
  | .curDir => out
  | .parentDir =>
      match out.getLast? with
      | some (.normal _) => out.dropLast
      | some .rootDir => out
      | _ => out ++ [.parentDir]
  | other => out ++ [other]

def lexicallyNormalize (path : List Component) : List Component := path.foldl pushLexically []

section Resolve

-- `Path::canonicalize`, where the path exists
variable (canonicalize : List Component → Option (List Component))

/-- The loop of `canonical_abs`; the part that is looked for has its last component first. -/
def canonicalFrom (path : List Component) : List Component → List Component → List Component
  | [], tail =>
      match canonicalize [] with
      | some out => out ++ tail
      | none => path
  | c :: existing, tail =>
      match canonicalize (c :: existing).reverse with
      | some out => out ++ tail
      | none =>
          match c with
          | .normal _ => canonicalFrom path existing (c :: tail)
          | _ => path

def canonicalAbs (path : List Component) : List Component :=
  canonicalFrom canonicalize (lexicallyNormalize path) (lexicallyNormalize path).reverse []

/-- The absolute path of an argument. -/
def resolve (path : String) (cwd : List Component) : List Component :=
  if isAbsolute path then canonicalAbs canonicalize (components path)
  else lexicallyNormalize (join cwd (components path))

def trimEndSlash (text : String) : String :=
  String.ofList (text.toList.reverse.dropWhile fun c => c = '/').reverse

def normalizePath (path : String) (repoRoot cwd : List Component) : Except String String :=
  match (resolve canonicalize path cwd).dropPrefix? repoRoot with
  | some rel => .ok (trimEndSlash (display rel))
  | none => .error ("path '" ++ path ++ "' is outside the repository '" ++ display repoRoot ++ "'")

def normalizeAddressablePath (path : String) (repoRoot cwd : List Component) : Except String String :=
  match normalizePath canonicalize path repoRoot cwd with
  | .error e => .error e
  | .ok rel =>
      if (splitSlash rel).any fun component => decide (component = metadataDirName) ||
          (decide (component ≠ filterName) && isReservedName component) then
        .error ("'" ++ path ++ "' is a reserved omemfs name and cannot be used as a path")
      else .ok rel

end Resolve

/-! ## Names -/

/-- The name of an entry of a directory. -/
def Segment (name : String) : Prop := name ≠ "" ∧ name ≠ "." ∧ name ≠ ".." ∧ '/' ∉ name.toList

instance (name : String) : Decidable (Segment name) := inferInstanceAs (Decidable (_ ∧ _ ∧ _ ∧ _))

/-- An absolute path without dots. -/
def absolute (names : List String) : List Component := .rootDir :: names.map .normal

/-- The place that is reached by a walk from a directory. -/
def walk : List String → List Component → List String
  | dir, [] => dir
  | _, .rootDir :: path => walk [] path
  | dir, .curDir :: path => walk dir path
  | dir, .parentDir :: path => walk dir.dropLast path
  | dir, .normal name :: path => walk (dir ++ [name]) path

section Names

variable {dir names root rel : List String} {path : List Component} {text name : String}

theorem not_mem_of_mem_splitOn {x : Char} {l part : List Char} (h : part ∈ l.splitOn x) : x ∉ part := by
  induction l generalizing part with
  | nil =>
      obtain rfl : part = [] := by simpa using h
      simp
  | cons y l ih =>
      rw [List.splitOn_cons_eq_if_modifyHead] at h
      split_ifs at h with hy
      · rcases List.mem_cons.mp h with rfl | h
        · simp
        · exact ih h
      · rcases hsplit : l.splitOn x with _ | ⟨first, rest⟩
        · exact absurd hsplit (List.splitOn_ne_nil x l)
        · rw [hsplit] at h ih
          rcases List.mem_cons.mp h with rfl | h
          · have hyx : x ≠ y := by
              rintro rfl
              simp at hy
            simpa [hyx] using ih (List.mem_cons_self ..)
          · exact ih (List.mem_cons_of_mem _ h)

theorem segment_of_components (h : .normal name ∈ components text) : Segment name := by
  have hseg : .normal name ∈ (splitSlash text).filterMap ofSegment := by
    rcases List.mem_append.mp h with h | h
    · split_ifs at h <;> simp at h
    · exact h
  obtain ⟨part, hpart, hof⟩ := List.mem_filterMap.mp hseg
  obtain ⟨chars, hchars, rfl⟩ := List.mem_map.mp hpart
  unfold ofSegment at hof
  split_ifs at hof with hdot hup
  · cases hof
  · cases hof
    rw [not_or] at hdot
    exact ⟨hdot.1, hdot.2, hup, by simpa using not_mem_of_mem_splitOn hchars⟩

theorem rootDir_not_mem_segments (l : List String) : .rootDir ∉ l.filterMap ofSegment := by
  intro h
  obtain ⟨part, -, hof⟩ := List.mem_filterMap.mp h
  unfold ofSegment at hof
  split_ifs at hof <;> cases hof

theorem components_of_relative (h : isAbsolute text = false) : .rootDir ∉ components text := by
  intro hmem
  rcases List.mem_append.mp hmem with hmem | hmem
  · rw [if_neg (by simp [h])] at hmem
    split_ifs at hmem <;> simp at hmem
  · exact rootDir_not_mem_segments _ hmem

theorem components_of_absolute (h : isAbsolute text = true) :
    ∃ path, components text = .rootDir :: path ∧ .rootDir ∉ path :=
  ⟨_, by rw [components, if_pos h]; rfl, rootDir_not_mem_segments _⟩

/-! ## Walks -/

theorem walk_normal (dir names : List String) : walk dir (names.map .normal) = dir ++ names := by
  induction names generalizing dir with
  | nil => simp [walk]
  | cons n names ih => simp [walk, ih]

theorem walk_filter (dir : List String) (path : List Component) :
    walk dir (path.filter fun c => c ≠ .curDir) = walk dir path := by
  induction path generalizing dir with
  | nil => rfl
  | cons c path ih =>
      cases c with
      | rootDir => simp [walk, ← ih]
      | curDir => simp [walk, ← ih]
      | parentDir => simp [walk, ← ih]
      | normal name => simp [walk, ← ih]

theorem segment_of_walk (hdir : ∀ n ∈ dir, Segment n) (hpath : ∀ n, .normal n ∈ path → Segment n) :
    ∀ n ∈ walk dir path, Segment n := by
  induction path generalizing dir with
  | nil => exact hdir
  | cons c path ih =>
      have hrest : ∀ n, .normal n ∈ path → Segment n := fun n hn => hpath n (List.mem_cons_of_mem _ hn)
      cases c with
      | rootDir => exact ih (by simp) hrest
      | curDir => exact ih hdir hrest
      | parentDir => exact ih (fun n hn => hdir n (List.mem_of_mem_dropLast hn)) hrest
      | normal name =>
          refine ih (fun n hn => ?_) hrest
          rcases List.mem_append.mp hn with hn | hn
          · exact hdir n hn
          · rw [List.mem_singleton.mp hn]
            exact hpath name (List.mem_cons_self ..)

/-- From an absolute path on, `lexically_normalize` walks. -/
theorem foldl_pushLexically (hpath : .rootDir ∉ path) (dir : List String) :
    path.foldl pushLexically (absolute dir) = absolute (walk dir path) := by
  induction path generalizing dir with
  | nil => rfl
  | cons c path ih =>
      have hrest : .rootDir ∉ path := fun h => hpath (List.mem_cons_of_mem _ h)
      rw [List.foldl_cons]
      cases c with
      | rootDir => exact absurd (List.mem_cons_self ..) hpath
      | curDir => exact ih hrest dir
      | parentDir =>
          have hup : pushLexically (absolute dir) .parentDir = absolute dir.dropLast := by
            rcases List.eq_nil_or_concat dir with rfl | ⟨dir', n, rfl⟩
            · rfl
            · simp [pushLexically, absolute, List.getLast?_cons, List.dropLast_cons_of_ne_nil]
          rw [hup]
          exact ih hrest dir.dropLast
      | normal name =>
          have hdown : pushLexically (absolute dir) (.normal name) = absolute (dir ++ [name]) := by
            simp [pushLexically, absolute]
          rw [hdown]
          exact ih hrest (dir ++ [name])

theorem lexicallyNormalize_absolute (hpath : .rootDir ∉ path) (dir : List String) :
    lexicallyNormalize (absolute dir ++ path) = absolute (walk dir path) := by
  have hdir : (absolute dir).foldl pushLexically [] = absolute dir := by
    have hnames : .rootDir ∉ dir.map Component.normal := by simp
    have hwalk := foldl_pushLexically hnames []
    rw [walk_normal, List.nil_append] at hwalk
    exact hwalk
  rw [lexicallyNormalize, List.foldl_append, hdir, foldl_pushLexically hpath]

end Names

/-! ## Text -/

section Text

variable {names root rel : List String} {name : String}

theorem toList_joinSlash_cons (n : String) (rel : List String) :
    ∃ l, (joinSlash (n :: rel)).toList = n.toList ++ l := by
  cases rel with
  | nil => exact ⟨[], by simp [joinSlash]⟩
  | cons m rel => exact ⟨_, by rw [joinSlash, String.toList_ofList, List.map_cons, List.map_cons,
      List.intercalate_cons_cons, List.append_assoc]⟩

theorem toList_joinSlash_concat (rel : List String) (n : String) :
    ∃ l, (joinSlash (rel ++ [n])).toList = l ++ n.toList := by
  induction rel with
  | nil => exact ⟨[], by simp [joinSlash]⟩
  | cons m rel ih =>
      obtain ⟨l, hl⟩ := ih
      obtain ⟨k, rest, hk⟩ : ∃ k rest, rel ++ [n] = k :: rest :=
        List.exists_cons_of_ne_nil (by simp)
      refine ⟨m.toList ++ ['/'] ++ l, ?_⟩
      rw [List.append_assoc, ← hl, List.cons_append, hk]
      simp [joinSlash, List.intercalate_cons_cons]

theorem isAbsolute_joinSlash (h : ∀ n ∈ rel, Segment n) : isAbsolute (joinSlash rel) = false := by
  cases rel with
  | nil => rfl
  | cons n rel =>
      obtain ⟨hne, -, -, hslash⟩ := h n (List.mem_cons_self ..)
      obtain ⟨l, hl⟩ := toList_joinSlash_cons n rel
      obtain ⟨c, cs, hc⟩ : ∃ c cs, n.toList = c :: cs :=
        List.exists_cons_of_ne_nil (by simpa using hne)
      rw [hc] at hslash
      have hcne : c ≠ '/' := by
        rintro rfl
        exact hslash (List.mem_cons_self ..)
      simp [isAbsolute, hl, hc, hcne]

theorem trimEndSlash_joinSlash (h : ∀ n ∈ rel, Segment n) :
    trimEndSlash (joinSlash rel) = joinSlash rel := by
  rcases List.eq_nil_or_concat rel with rfl | ⟨rel', n, rfl⟩
  · rfl
  · rw [List.concat_eq_append] at h ⊢
    obtain ⟨hne, -, -, hslash⟩ := h n (by simp)
    obtain ⟨l, hl⟩ := toList_joinSlash_concat rel' n
    obtain ⟨cs, c, hc⟩ : ∃ cs c, n.toList = cs ++ [c] := by
      rcases List.eq_nil_or_concat n.toList with hnil | ⟨cs, c, hc⟩
      · exact absurd (by simpa using hnil) hne
      · exact ⟨cs, c, by simpa using hc⟩
    rw [hc] at hslash
    have hcne : c ≠ '/' := by
      rintro rfl
      simp at hslash
    have hkeep : ((joinSlash (rel' ++ [n])).toList.reverse.dropWhile fun c => c = '/') =
        (joinSlash (rel' ++ [n])).toList.reverse := by
      rw [hl, hc]
      simp [hcne]
    rw [trimEndSlash, hkeep, List.reverse_reverse, String.ofList_toList]

theorem splitSlash_joinSlash (hne : rel ≠ []) (h : ∀ n ∈ rel, Segment n) :
    splitSlash (joinSlash rel) = rel := by
  have hslash : ∀ l ∈ rel.map String.toList, '/' ∉ l := by
    intro l hl
    obtain ⟨n, hn, rfl⟩ := List.mem_map.mp hl
    exact (h n hn).2.2.2
  rw [splitSlash, joinSlash, String.toList_ofList,
    List.splitOn_intercalate '/' hslash (by simpa using hne), List.map_map]
  exact (List.map_congr_left fun n _ => String.ofList_toList).trans (List.map_id rel)

theorem filterMap_ofSegment (h : ∀ n ∈ rel, Segment n) : rel.filterMap ofSegment = rel.map .normal := by
  induction rel with
  | nil => rfl
  | cons n rel ih =>
      obtain ⟨hne, hdot, hup, -⟩ := h n (List.mem_cons_self ..)
      have hof : ofSegment n = some (.normal n) := by simp [ofSegment, hne, hdot, hup]
      rw [List.filterMap_cons_some hof, ih fun m hm => h m (List.mem_cons_of_mem _ hm), List.map_cons]

/-- The text of names is read as these names. -/
theorem components_joinSlash (h : ∀ n ∈ rel, Segment n) :
    components (joinSlash rel) = rel.map .normal := by
  by_cases hne : rel = []
  · subst hne
    rfl
  · have hhead : rel.head? ≠ some "." := by
      intro hdot
      exact (h "." (List.mem_of_head? hdot)).2.1 rfl
    rw [components, if_neg (by simp [isAbsolute_joinSlash h]), splitSlash_joinSlash hne h,
      if_neg hhead, List.nil_append, filterMap_ofSegment h]

theorem display_normal (rel : List String) : display (rel.map .normal) = joinSlash rel := by
  have htext : (rel.map Component.normal).map Component.text = rel := by
    rw [List.map_map]
    exact (List.map_congr_left fun n _ => rfl).trans (List.map_id rel)
  cases rel with
  | nil => rfl
  | cons n rel => exact congrArg joinSlash htext

theorem reserved_joinSlash (h : ∀ n ∈ rel, Segment n) :
    ((splitSlash (joinSlash rel)).any fun component => decide (component = metadataDirName) ||
      (decide (component ≠ filterName) && isReservedName component)) = !addressable rel := by
  by_cases hne : rel = []
  · subst hne
    decide
  · rw [splitSlash_joinSlash hne h, addressable, List.not_all_eq_any_not]
    congr 1
    funext n
    by_cases hmeta : n = metadataDirName <;> by_cases hf : n = filterName <;> simp [hmeta, hf]

end Text

/-! ## Where an argument leads -/

section Resolved

variable {canonicalize : List Component → Option (List Component)} {dir names root rel : List String}
  {path text : String} {cwd : List Component}

/-- What is canonical is absolute and has no dots in it. -/
def Canonical (canonicalize : List Component → Option (List Component)) : Prop :=
  ∀ path out, canonicalize path = some out → ∃ names, out = absolute names ∧ ∀ n ∈ names, Segment n

theorem canonicalFrom_absolute (hc : Canonical canonicalize) {all : List String}
    (hall : ∀ n ∈ all, Segment n) (hdir : ∀ n ∈ dir, Segment n) (hnames : ∀ n ∈ names, Segment n) :
    ∃ out, canonicalFrom canonicalize (absolute all) (absolute dir).reverse (names.map .normal) =
      absolute out ∧ ∀ n ∈ out, Segment n := by
  have hfound : ∀ (path out : List Component) (names : List String), canonicalize path = some out →
      (∀ n ∈ names, Segment n) → ∃ ns, out ++ names.map .normal = absolute ns ∧ ∀ n ∈ ns, Segment n := by
    intro path out names hcan hnames
    obtain ⟨ns, rfl, hns⟩ := hc path out hcan
    refine ⟨ns ++ names, by simp [absolute], fun n hn => ?_⟩
    rcases List.mem_append.mp hn with hn | hn
    · exact hns n hn
    · exact hnames n hn
  induction dir using List.reverseRecOn generalizing names with
  | nil =>
      show ∃ out, canonicalFrom canonicalize (absolute all) [.rootDir] _ = _ ∧ _
      rw [canonicalFrom]
      · rcases hcan : canonicalize [Component.rootDir].reverse with _ | out
        · exact ⟨all, rfl, hall⟩
        · exact hfound _ out names hcan hnames
      · intro name h
        cases h
  | append_singleton dir n ih =>
      have hrev : (absolute (dir ++ [n])).reverse = .normal n :: (absolute dir).reverse := by
        simp [absolute]
      rw [hrev, canonicalFrom]
      rcases hcan : canonicalize (Component.normal n :: (absolute dir).reverse).reverse with _ | out
      · -- one more name is put before the tail
        have hn : Segment n := hdir n (by simp)
        refine @ih (n :: names) (fun m hm => hdir m (List.mem_append_left _ hm)) fun m hm => ?_
        rcases List.mem_cons.mp hm with rfl | hm
        · exact hn
        · exact hnames m hm
      · exact hfound _ out names hcan hnames

theorem resolve_relative (hrel : isAbsolute path = false) (dir : List String) :
    resolve canonicalize path (absolute dir) = absolute (walk dir (components path)) := by
  have hroot : .rootDir ∉ (components path).filter fun c => c ≠ .curDir := fun h =>
    components_of_relative hrel (List.mem_of_mem_filter h)
  rw [resolve, if_neg (by simp [hrel]), join, lexicallyNormalize_absolute hroot, walk_filter]

/-- **`exists_resolve`** — an argument leads to an absolute path without dots. -/
theorem exists_resolve (hc : Canonical canonicalize) (hdir : ∀ n ∈ dir, Segment n) (path : String) :
    ∃ names, resolve canonicalize path (absolute dir) = absolute names ∧ ∀ n ∈ names, Segment n := by
  have hcomp : ∀ n, .normal n ∈ components path → Segment n := fun n => segment_of_components
  rcases hrel : isAbsolute path with _ | _
  · exact ⟨_, resolve_relative hrel dir, segment_of_walk hdir hcomp⟩
  · obtain ⟨rest, hrest, hroot⟩ := components_of_absolute hrel
    have hwalk : lexicallyNormalize (components path) = absolute (walk [] rest) := by
      rw [hrest]
      exact lexicallyNormalize_absolute hroot []
    have hseg : ∀ n ∈ walk [] rest, Segment n := by
      refine segment_of_walk (by simp) fun n hn => hcomp n ?_
      rw [hrest]
      exact List.mem_cons_of_mem _ hn
    rw [resolve, if_pos hrel, canonicalAbs, hwalk]
    exact @canonicalFrom_absolute canonicalize (walk [] rest) [] hc (walk [] rest) hseg hseg (by simp)

theorem dropPrefix_absolute {rest : List Component} :
    (absolute names).dropPrefix? (absolute root) = some rest ↔
      ∃ rel, names = root ++ rel ∧ rest = rel.map .normal := by
  have hinj : Function.Injective Component.normal := fun _ _ h => by cases h; rfl
  rw [List.dropPrefix?_eq_some_iff]
  constructor
  · rintro ⟨l, heq, hl⟩
    obtain rfl : l = absolute root := by simpa using hl
    have htail : names.map Component.normal = root.map .normal ++ rest := by
      simpa [absolute] using heq
    obtain ⟨a, b, rfl, ha, rfl⟩ := List.map_eq_append_iff.mp htail
    exact ⟨b, by rw [hinj.list_map ha], rfl⟩
  · rintro ⟨rel, rfl, rfl⟩
    exact ⟨absolute root, by simp [absolute], by simp⟩

theorem normalizePath_eq_ok_iff (hres : resolve canonicalize path cwd = absolute names)
    (hnames : ∀ n ∈ names, Segment n) :
    normalizePath canonicalize path (absolute root) cwd = .ok text ↔
      ∃ rel, names = root ++ rel ∧ text = joinSlash rel := by
  rw [normalizePath, hres]
  rcases hdrop : (absolute names).dropPrefix? (absolute root) with _ | rest
  · refine iff_of_false (by simp) ?_
    rintro ⟨rel, hrel, -⟩
    rw [dropPrefix_absolute.mpr ⟨rel, hrel, rfl⟩] at hdrop
    cases hdrop
  · obtain ⟨rel, rfl, rfl⟩ := dropPrefix_absolute.mp hdrop
    have htext : trimEndSlash (display (rel.map .normal)) = joinSlash rel := by
      rw [display_normal, trimEndSlash_joinSlash fun n hn => hnames n (List.mem_append_right _ hn)]
    simp only [htext, Except.ok.injEq]
    constructor
    · rintro rfl
      exact ⟨rel, rfl, rfl⟩
    · rintro ⟨rel', heq, rfl⟩
      rw [List.append_cancel_left heq]

/-- **`addressed_iff`** — what a command is told of an argument: the names from the root on, if it leads
below the root and none of them is the command's own. -/
theorem addressed_iff (hres : resolve canonicalize path cwd = absolute names)
    (hnames : ∀ n ∈ names, Segment n) :
    normalizeAddressablePath canonicalize path (absolute root) cwd = .ok text ↔
      ∃ rel, names = root ++ rel ∧ addressable rel = true ∧ text = joinSlash rel := by
  have hiff := fun text => @normalizePath_eq_ok_iff canonicalize names root path text cwd hres hnames
  rw [normalizeAddressablePath]
  rcases hnorm : normalizePath canonicalize path (absolute root) cwd with e | text'
  · refine iff_of_false (by simp) ?_
    rintro ⟨rel, hrel, -, rfl⟩
    rw [(hiff _).mpr ⟨rel, hrel, rfl⟩] at hnorm
    cases hnorm
  · obtain ⟨rel, rfl, rfl⟩ := (hiff text').mp hnorm
    simp only [reserved_joinSlash fun n hn => hnames n (List.mem_append_right _ hn)]
    constructor
    · intro h
      split_ifs at h with hres'
      cases h
      exact ⟨rel, rfl, by simpa using hres', rfl⟩
    · rintro ⟨rel', heq, haddr, rfl⟩
      rw [List.append_cancel_left heq, if_neg (by simp [haddr])]

/-- **`normalizeAddressablePath_eq_ok_iff`** — a relative argument names what is reached from the working
directory by the walk that it describes. -/
theorem normalizeAddressablePath_eq_ok_iff (hrel : isAbsolute path = false)
    (hdir : ∀ n ∈ dir, Segment n) :
    normalizeAddressablePath canonicalize path (absolute root) (absolute dir) = .ok text ↔
      ∃ rel, walk dir (components path) = root ++ rel ∧ addressable rel = true ∧
        text = joinSlash rel :=
  addressed_iff (resolve_relative hrel dir) (segment_of_walk hdir fun _ => segment_of_components)

/-- **`normalizeAddressablePath_again`** — what comes out leads to the same place from the root, however the
argument was spelled and wherever it was given. -/
theorem normalizeAddressablePath_again (hc : Canonical canonicalize) (hdir : ∀ n ∈ dir, Segment n)
    (h : normalizeAddressablePath canonicalize path (absolute root) (absolute dir) = .ok text) :
    normalizeAddressablePath canonicalize text (absolute root) (absolute root) = .ok text := by
  obtain ⟨names, hres, hnames⟩ := exists_resolve hc hdir path
  obtain ⟨rel, rfl, haddr, rfl⟩ := (addressed_iff hres hnames).mp h
  have hroot : ∀ n ∈ root, Segment n := fun n hn => hnames n (List.mem_append_left _ hn)
  have hrel : ∀ n ∈ rel, Segment n := fun n hn => hnames n (List.mem_append_right _ hn)
  have hagain : resolve canonicalize (joinSlash rel) (absolute root) = absolute (root ++ rel) := by
    rw [resolve_relative (isAbsolute_joinSlash hrel), components_joinSlash hrel, walk_normal]
  exact (addressed_iff hagain hnames).mpr ⟨rel, rfl, haddr, rfl⟩

end Resolved

theorem normalizeAddressablePath_sibling :
    normalizeAddressablePath (fun _ => none) "../b/./c/" (absolute ["r"]) (absolute ["r", "a"]) =
      .ok "b/c" :=
  (normalizeAddressablePath_eq_ok_iff (by decide) (by decide)).mpr
    ⟨["b", "c"], by decide +kernel, by decide, by decide +kernel⟩

/-- A path that exists, with no symlink in it. -/
def existing (there : List String) (path : List Component) : Option (List Component) :=
  if path = absolute there then some path else none

theorem normalizeAddressablePath_existing :
    normalizeAddressablePath (existing ["r", "b"]) "b" (absolute ["r"]) (absolute ["r"]) = .ok "b" := by
  have hc : Canonical (existing ["r", "b"]) := by
    intro path out h
    unfold existing at h
    split_ifs at h with hpath
    cases h
    exact ⟨["r", "b"], hpath, by decide⟩
  have hfirst : normalizeAddressablePath (existing ["r", "b"]) "/r/a/../b/" (absolute ["r"])
      (absolute ["r", "a"]) = .ok "b" := by decide +kernel
  exact normalizeAddressablePath_again hc (by decide) hfirst

end Omemfs.Work.PathArgument
