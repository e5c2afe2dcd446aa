import Stencil.Fault

/-!
# Diagnostics

How an error in a template is shown: its message, the lines that it concerns and the culprit in
them, marked when colours are on.

Input: an error message with the name and the source of the template and a range of the source.

Results: `Context.lines` finds the lines around the range, `Report.text` is the error in one line,
and `Report.shown` is the error with its source.
-/

namespace Stencil

/-- A range of a named source.  A start of -1 stands for an unknown position. -/
structure Context where
  name : Bytes
  source : Bytes
  start : Int
  stop : Int

/-- The lines that a range touches: what stands before the range, the range itself without a line
break at its end, what follows it, and the numbers of the first and the last line. -/
structure Lines where
  head : Bytes
  culprit : Bytes
  tail : Bytes
  first : Nat
  last : Nat
deriving DecidableEq

/-- The texts around the message and around each line of the culprit. -/
structure Style where
  messageOn : Bytes
  messageOff : Bytes
  culpritOn : Bytes
  culpritOff : Bytes

namespace Style

/-- No marking. -/
def plain : Style := ⟨[], [], [], []⟩

/-- Marking for terminals: a red message and an underlined culprit. -/
def colored : Style := ⟨utf8 "\x1b[31;1m", utf8 "\x1b[m", utf8 "\x1b[1;4m", utf8 "\x1b[m"⟩

end Style

namespace Context

/-- The part of a text behind its last line break. -/
def lastLine (s : Bytes) : Bytes := (s.reverse.takeWhile (· != Ascii.newline)).reverse

/-- The part of a text before its first line break. -/
def firstLine (s : Bytes) : Bytes := s.takeWhile (· != Ascii.newline)

/-- The lines that the bytes of a source from `start` to `stop` touch. -/
def lines (source : Bytes) (start stop : Nat) : Lines :=
  let before := source.take start
  let range := Bytes.slice source start stop
  let culprit := if range.getLast? = some Ascii.newline then range.dropLast else range
  let first := before.count Ascii.newline + 1
  { head := lastLine before
    culprit := culprit
    tail := if range.getLast? = some Ascii.newline then [] else firstLine (source.drop stop)
    first := first
    last := first + culprit.count Ascii.newline }

end Context

namespace Lines

/-- The numbers of the lines. -/
def range (l : Lines) : Bytes :=
  if l.first = l.last then utf8 "line " ++ Bytes.decimal l.first ++ utf8 ":"
  else utf8 "line " ++ Bytes.decimal l.first ++ utf8 "-" ++ Bytes.decimal l.last ++ utf8 ":"

/-- The lines with the culprit marked; its further lines are indented.  An empty culprit is shown as
a caret. -/
def excerpt (style : Style) (indent : Bytes) (l : Lines) : Bytes :=
  let culprit := if l.culprit.isEmpty then utf8 "^" else l.culprit
  let marked := (Bytes.splitOn Ascii.newline culprit).map fun line =>
    style.culpritOn ++ line ++ style.culpritOff
  l.head ++ Bytes.join (Ascii.newline :: indent) marked ++ l.tail

end Lines

namespace Context

/-- Whether the range lies in the source. -/
def isValid (c : Context) : Bool :=
  decide (0 ≤ c.start) && decide (c.stop ≤ c.source.length) && decide (c.start ≤ c.stop)

/-- The name, the line numbers and the marked lines.  Further lines are indented so that they stand
under the first. -/
def shown (style : Style) (indent : Bytes) (c : Context) : Bytes :=
  if c.start = -1 then c.name ++ utf8 ", unknown position"
  else if c.isValid then
    let lines := lines c.source c.start.toNat c.stop.toNat
    let place := c.name ++ utf8 ", " ++ lines.range ++ utf8 " "
    let under := List.replicate (glyphs place).length Ascii.blank
    place ++ lines.excerpt style (indent ++ under)
  else
    c.name ++ utf8 ", invalid position " ++ Bytes.decimalInt c.start ++ utf8 "-" ++
      Bytes.decimalInt c.stop

end Context

/-- An error of some type with a message about a range of a source. -/
structure Report where
  type : Bytes
  message : Bytes
  context : Context

namespace Report

/-- A type with its first byte in upper case.  A byte that is no ASCII character is replaced. -/
def title : Bytes → Bytes
  | [] => []
  | b :: rest => if b < 0x80 then Ascii.toUpper b :: rest else utf8 "�" ++ rest

/-- The error in one line. -/
def text (r : Report) : Bytes :=
  r.type ++ utf8 ": " ++ Bytes.decimalInt r.context.start ++ utf8 "-" ++
    Bytes.decimalInt r.context.stop ++ utf8 " in " ++ r.context.name ++ utf8 ": " ++ r.message

/-- The error with its source. -/
def shown (style : Style) (indent : Bytes) (r : Report) : Bytes :=
  title r.type ++ utf8 ": " ++ style.messageOn ++ r.message ++ style.messageOff ++ utf8 "\n" ++
    r.context.shown style (indent ++ utf8 "  ")

end Report

/-- A fault of a named template. -/
structure Diagnostic where
  name : Bytes
  source : Bytes
  fault : Fault

namespace Diagnostic

/-- The report on a fault. -/
def report (d : Diagnostic) : Report :=
  { type := utf8 "compilation error"
    message := d.fault.cause.message
    context := ⟨d.name, d.source, d.fault.span.start, d.fault.span.stop⟩ }

/-- The kind of a fault. -/
def kind (d : Diagnostic) : FaultKind := d.fault.cause.kind

end Diagnostic

/-- What a user is told about an error: with its source if it is a report, otherwise as a plain
message. -/
def announce (style : Style) : Report ⊕ Bytes → Bytes
  | .inl r => r.shown style [] ++ utf8 "\n"
  | .inr message => style.messageOn ++ message ++ style.messageOff ++ utf8 "\n"

end Stencil
