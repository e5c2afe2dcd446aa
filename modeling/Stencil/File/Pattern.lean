import Stencil.File.Tree
import Stencil.Text.Glyph

/-!
# Patterns for file names

A star stands for any characters but slashes, a question mark for one of them, and brackets for one
character of some ranges or, behind a caret, for one outside of them.  A backslash takes the
character behind it literally.

Algorithm: `Pattern.read` is a transducer over the characters of a pattern; `Pattern.matchesAll`
goes through the pattern and the name together; `glob` finds the matching names in a file tree, one
element after the other.
-/

namespace Stencil

/-- A part of a pattern. -/
inductive Wild where
  | star
  | any
  | byte (b : UInt8)
  | oneOf (negated : Bool) (ranges : List (Char × Char))
deriving DecidableEq

namespace Pattern

/-- What is being read of a pattern: plain parts, or the ranges of brackets. -/
inductive Mode where
  | plain
  | escaped
  /-- Right behind the opening bracket. -/
  | opened
  /-- Before the low end of a range. -/
  | low (negated : Bool) (ranges : List (Char × Char)) (escaped : Bool)
  /-- Behind the low end of a range. -/
  | after (negated : Bool) (ranges : List (Char × Char)) (lo : Char)
  /-- Before the high end of a range. -/
  | high (negated : Bool) (ranges : List (Char × Char)) (lo : Char) (escaped : Bool)

/-- The parts that a literal glyph stands for. -/
def literal (g : Glyph) : List Wild := g.bytes.map .byte

/-- A glyph where the low end of a range is expected. -/
def lowStep (negated : Bool) (ranges : List (Char × Char)) : Glyph → Option (Mode × List Wild)
  | .stray _ => none
  | .char c =>
    if c = ']' ∧ ¬ ranges.isEmpty then some (.plain, [.oneOf negated ranges])
    else if c = ']' ∨ c = '-' then none
    else if c = '\\' then some (.low negated ranges true, [])
    else some (.after negated ranges c, [])

/-- One glyph of a pattern: the next mode and the parts that are complete. -/
def step : Mode → Glyph → Option (Mode × List Wild)
  | .plain, .char '*' => some (.plain, [.star])
  | .plain, .char '?' => some (.plain, [.any])
  | .plain, .char '[' => some (.opened, [])
  | .plain, .char '\\' => some (.escaped, [])
  | .plain, g => some (.plain, literal g)
  | .escaped, g => some (.plain, literal g)
  | .opened, .char '^' => some (.low true [] false, [])
  | .opened, g => lowStep false [] g
  | .low negated ranges false, g => lowStep negated ranges g
  | .low negated ranges true, .char c => some (.after negated ranges c, [])
  | .after negated ranges lo, .char '-' => some (.high negated ranges lo false, [])
  | .after negated ranges lo, g => lowStep negated (ranges ++ [(lo, lo)]) g
  | .high negated ranges lo false, .char c =>
    if c = ']' ∨ c = '-' then none
    else if c = '\\' then some (.high negated ranges lo true, [])
    else some (.low negated (ranges ++ [(lo, c)]) false, [])
  | .high negated ranges lo true, .char c => some (.low negated (ranges ++ [(lo, c)]) false, [])
  | .low _ _ true, .stray _ | .high .., .stray _ => none

/-- The parts of a pattern from a mode on. -/
def readFrom : Mode → List Glyph → Option (List Wild)
  | .plain, [] => some []
  | _, [] => none
  | mode, g :: rest => do
    let (next, parts) ← step mode g
    return parts ++ (← readFrom next rest)

/-- The parts of a pattern, when it is well-formed. -/
def read (pattern : Bytes) : Option (List Wild) := readFrom .plain (glyphs pattern)

/-- Whether a character lies in ranges. -/
def isIn (ranges : List (Char × Char)) (c : Char) : Bool :=
  ranges.any fun r => decide (r.1 ≤ c) && decide (c ≤ r.2)

/-- Whether a name matches parts. -/
def matchesAll : List Wild → Bytes → Bool
  | [], s => s.isEmpty
  | .star :: ps, [] => matchesAll ps []
  | .star :: ps, b :: s =>
    matchesAll ps (b :: s) || (b != Ascii.slash && matchesAll (.star :: ps) s)
  | .byte _ :: _, [] => false
  | .byte a :: ps, b :: s => a == b && matchesAll ps s
  | .any :: _, [] => false
  | .any :: ps, b :: s =>
    b != Ascii.slash && matchesAll ps ((b :: s).drop (Glyph.head b s).bytes.length)
  | .oneOf .. :: _, [] => false
  | .oneOf negated ranges :: ps, b :: s =>
    let g := Glyph.head b s
    (isIn ranges g.shown != negated) && matchesAll ps ((b :: s).drop g.bytes.length)
termination_by ps s => ps.length + s.length
decreasing_by all_goals simp_wf; try omega

/-- Whether a pattern has parts that do not stand for themselves. -/
def isWild (pattern : Bytes) : Bool :=
  pattern.any fun b => b == 0x2a || b == 0x3f || b == 0x5b || b == Ascii.backslash

/-- The entries of a directory that match, with their names. -/
def within (cwd : Bytes) (t : FileTree) (parts : List Wild) (directory : Bytes) : List Bytes :=
  match t.find cwd directory with
  | .ok (.directory entries) =>
    (entries.filter fun e => matchesAll parts e.1).map fun e => FileName.join [directory, e.1]
  | _ => []

/-- The name of the directory with given elements, the last one first. -/
def directoryName (inner : List Bytes) : Bytes :=
  match inner with
  | [] => FileName.here
  | [[]] => [Ascii.slash]
  | es => Bytes.join [Ascii.slash] es.reverse

/-- The names in a tree that match a pattern given by its elements, the last one first; nothing when
the pattern is malformed. -/
def globFrom (cwd : Bytes) (t : FileTree) : (elements : List Bytes) → Option (List Bytes)
  | [] => some []
  | last :: inner => do
    let pattern := Bytes.join [Ascii.slash] (last :: inner).reverse
    let _ ← read pattern
    if !isWild pattern then
      return if (t.find cwd pattern).isOk then [pattern] else []
    else
      let directory := directoryName inner
      let directories ← if isWild directory then globFrom cwd t inner else some [directory]
      let parts ← read last
      return directories.flatMap (within cwd t parts)

/-- The names in a tree that match a pattern; nothing when the pattern is malformed. -/
def glob (cwd : Bytes) (t : FileTree) (pattern : Bytes) : Option (List Bytes) :=
  globFrom cwd t (Bytes.splitOn Ascii.slash pattern).reverse

end Pattern
end Stencil
