/-
# Omemfs.Filter.Pattern — parsing and matching `.omemfs-filter` files.

A filter file is lines: section headers, comments and patterns.  Texts are the characters of a Rust
string, and every slice the program takes is a byte offset that has to be a character boundary
(`sliceFrom`, `sliceTo`); one that is not would stop the program, which is what `Stop` is for.  The
loops over the rest of a path carry the length of the path as fuel.

`glob_match` is the search it is in the source, with its three cases by the position of the literal;
what it decides is the subject of the next file.
-/
import Mathlib.Data.List.DropRight
import Omemfs.Lib.Fallible
import Omemfs.Lib.Glob
import Omemfs.Lib.Utf8

namespace Omemfs.Filter

open Lib

abbrev Str := List Char

/-- What would end a match early: a slice inside a character, or a loop longer than its path. -/
inductive Stop where
  | charBoundary
  | outOfFuel
  deriving DecidableEq, Repr

/-! ## String operations -/

/-- `&s[n..]`. -/
def sliceFrom (s : Str) (n : Nat) : Except Stop Str :=
  match Utf8.splitAtByte s n with
  | some (_, rest) => .ok rest
  | none => .error .charBoundary

/-- `&s[..n]`. -/
def sliceTo (s : Str) (n : Nat) : Except Stop Str :=
  match Utf8.splitAtByte s n with
  | some (before, _) => .ok before
  | none => .error .charBoundary

/-- `s.find(part)`: the byte offset of the first occurrence. -/
def find (s part : Str) : Option Nat := (Glob.cut part s).map fun x => Utf8.byteLen x.1

def stripPrefix (part s : Str) : Option Str :=
  if part <+: s then some (s.drop part.length) else none

/-- The characters of Unicode's `White_Space`. -/
def isWhitespace (c : Char) : Bool :=
  let n := c.toNat
  9 ≤ n && n ≤ 13 || n == 0x20 || n == 0x85 || n == 0xA0 || n == 0x1680 ||
    0x2000 ≤ n && n ≤ 0x200A || n == 0x2028 || n == 0x2029 || n == 0x202F || n == 0x205F ||
    n == 0x3000

def trimEnd (s : Str) : Str := s.rdropWhile isWhitespace

def trim (s : Str) : Str := (trimEnd s).dropWhile isWhitespace

def trimEndMatches (c : Char) (s : Str) : Str := s.rdropWhile (· == c)

/-- `str::lines`: a line ends with a line feed, or with a carriage return and one. -/
def lines (s : Str) : List Str :=
  let parts := s.splitOn '\n'
  let whole := if parts.getLast? = some [] then parts.dropLast else parts
  let ended := if parts.getLast? = some [] then whole.length else whole.length - 1
  whole.zipIdx.map fun (line, i) =>
    if i < ended ∧ line.getLast? = some '\r' then line.dropLast else line

/-! ## Glob matching -/

/-- The loop of `glob_match` from part `i` of `n` on. -/
def globLoop (n : Nat) : Nat → List Str → Str → Except Stop Bool
  | _, [], _ => .ok true
  | i, part :: parts, remaining =>
      if i = 0 then
        if ¬ part <+: remaining then .ok false
        else do
          let remaining ← sliceFrom remaining (Utf8.byteLen part)
          globLoop n (i + 1) parts remaining
      else if i = n - 1 then
        -- the last part has to be the end, after a gap without a slash
        if ¬ part <:+ remaining then .ok false
        else do
          let matched ← sliceTo remaining (Utf8.byteLen remaining - Utf8.byteLen part)
          if '/' ∈ matched then return false
          globLoop n (i + 1) parts remaining
      else
        match find remaining part with
        | none => .ok false
        | some pos => do
            let skipped ← sliceTo remaining pos
            if '/' ∈ skipped then return false
            let remaining ← sliceFrom remaining (pos + Utf8.byteLen part)
            globLoop n (i + 1) parts remaining

def globMatch (pattern name : Str) : Except Stop Bool :=
  if '*' ∉ pattern then .ok (decide (pattern = name))
  else
    let parts := pattern.splitOn '*'
    globLoop parts.length 0 parts name

/-! ## Patterns -/

structure Pattern where
  text : Str
  anchored : Bool
  negated : Bool
  deriving DecidableEq

namespace Pattern

/-- The negation mark of a line and what follows it; an escaped `#` or `!` is only itself. -/
def splitMark (line : Str) : Except Stop (Bool × Str) :=
  if ['\\', '#'] <+: line ∨ ['\\', '!'] <+: line then do
    let rest ← sliceFrom line 1
    return (false, rest)
  else
    match stripPrefix ['!'] line with
    | some rest => .ok (true, rest)
    | none => .ok (false, line)

/-- A line's pattern, if it has one. -/
def parse (line : Str) : Except Stop (Option Pattern) :=
  let line := trimEnd line
  if line = [] ∨ ['#'] <+: line then .ok none
  else do
    let (negated, rest) ← splitMark line
    let rest := trimEndMatches '/' rest
    if rest = [] then return none
    if '?' ∈ rest ∨ '[' ∈ rest then return none
    let anchored := decide (['/'] <+: rest)
    let text ← if anchored then sliceFrom rest 1 else .ok rest
    return some { text, anchored, negated }

/-- The loop over what follows each slash of a path. -/
def descend (suffix : Str) : Nat → Str → Except Stop Bool
  | 0, _ => .error .outOfFuel
  | fuel + 1, rest =>
      match find rest ['/'] with
      | none => .ok false
      | some pos => do
          let rest ← sliceFrom rest (pos + 1)
          if ← globMatch suffix rest then return true
          descend suffix fuel rest

/-- At the root of the path, or below it. -/
def matchesAnyDepth (suffix relPath : Str) : Except Stop Bool := do
  if ← globMatch suffix relPath then return true
  descend suffix (relPath.length + 1) relPath

def matchesPath (p : Pattern) (relPath : Str) : Except Stop Bool :=
  if p.anchored then globMatch p.text relPath
  else if ['*', '*', '/'] <+: p.text then do
    let suffix ← sliceFrom p.text 3
    matchesAnyDepth suffix relPath
  else matchesAnyDepth p.text relPath

end Pattern

/-! ## Sections and files -/

structure Section where
  patterns : List Pattern

namespace Section

/-- One turn of the loop of `matches`: a pattern that matches has the say until a later one does. -/
def consider (relPath : Str) (matched : Bool) (p : Pattern) : Except Stop Bool := do
  if ← p.matchesPath relPath then return !p.negated
  return matched

def matchesPath (s : Section) (relPath : Str) : Except Stop Bool :=
  s.patterns.foldlM (consider relPath) false

end Section

structure FilterFile where
  ignore : Section
  aggregate : Section
  lineMerge : Section

inductive CurrentSection where
  | ignore
  | aggregate
  | lineMerge
  deriving DecidableEq

namespace FilterFile

def sectionHeader (trimmed : Str) : Option CurrentSection :=
  if trimmed = "[ignore]".toList then some .ignore
  else if trimmed = "[aggregate]".toList then some .aggregate
  else if trimmed = "[line_merge]".toList then some .lineMerge
  else none

def push (f : FilterFile) (current : CurrentSection) (pat : Pattern) : FilterFile :=
  match current with
  | .ignore => { f with ignore := ⟨f.ignore.patterns ++ [pat]⟩ }
  | .aggregate => { f with aggregate := ⟨f.aggregate.patterns ++ [pat]⟩ }
  | .lineMerge => { f with lineMerge := ⟨f.lineMerge.patterns ++ [pat]⟩ }

/-- One line of a file: a header, a pattern of the current section, or nothing. -/
def parseLine (x : FilterFile × CurrentSection) (line : Str) :
    Except Stop (FilterFile × CurrentSection) :=
  match sectionHeader (trim line) with
  | some next => .ok (x.1, next)
  | none => do
      match ← Pattern.parse line with
      | some pat => return (x.1.push x.2 pat, x.2)
      | none => return x

def parse (content : Str) : Except Stop FilterFile := do
  let (f, _) ← (lines content).foldlM parseLine (⟨⟨[]⟩, ⟨[]⟩, ⟨[]⟩⟩, .ignore)
  return f

end FilterFile

/-- The filter files that were loaded, with their directories. -/
structure FilterSet where
  files : List (Str × FilterFile)

namespace FilterSet

/-- The path seen from a directory above it. -/
def pathInScope (dirPrefix relPath : Str) : Option Str :=
  if dirPrefix = [] then some relPath else stripPrefix (dirPrefix ++ ['/']) relPath

/-- The loop of `test` over the files. -/
def testFiles (check : FilterFile → Str → Except Stop Bool) (relPath : Str) :
    List (Str × FilterFile) → Except Stop Bool
  | [] => .ok false
  | (dirPrefix, ff) :: files =>
      match pathInScope dirPrefix relPath with
      | none => testFiles check relPath files
      | some path => do
          if ← check ff path then return true
          testFiles check relPath files

def test (set : FilterSet) (relPath : Str) (check : FilterFile → Str → Except Stop Bool) :
    Except Stop Bool :=
  testFiles check relPath set.files

def isIgnored (set : FilterSet) (relPath : Str) : Except Stop Bool :=
  set.test relPath fun ff path => ff.ignore.matchesPath path

def isAggregated (set : FilterSet) (relPath : Str) : Except Stop Bool :=
  set.test relPath fun ff path => ff.aggregate.matchesPath path

def isLineMerge (set : FilterSet) (relPath : Str) : Except Stop Bool :=
  set.test relPath fun ff path => ff.lineMerge.matchesPath path

end FilterSet

end Omemfs.Filter
