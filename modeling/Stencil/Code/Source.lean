import Stencil.Code.Identifier
import Stencil.Code.Printer
import Stencil.Text.Blank

/-!
# Emitted files

The source file that a program is emitted as: a header that marks the file as generated, a comment
that names the template, and one function.

A program is first written as a draft, which a formatter then lays out or refuses.  The name of the
template ends up in a comment and the package in a clause, so either can make a file that is not
well-formed.

`Source.tidy` is the formatter for the usual drafts: the package is an identifier, and every line of
the name is blank or begins a line comment of its own and is no build constraint.  Formatters also
lay out some drafts that it refuses, such as a name that goes on in a block comment or a package with
a comment behind it, so results that depend on the layout take the formatter as a parameter.
-/

namespace Stencil

/-- Why a program cannot be emitted. -/
inductive EmitError where
  | functionName (name : Bytes)
  | unknownStep
  /-- The file of a function would not be well-formed. -/
  | malformed (function : Bytes)
deriving DecidableEq

namespace EmitError

/-- The text of an error. -/
def message : EmitError → Bytes
  | functionName name => utf8 "invalid function name " ++ Text.quote name
  | unknownStep => utf8 "unsupported op type <nil>"
  | malformed function => utf8 "format " ++ function ++ utf8 ":"

end EmitError

namespace Source

/-- The line that starts every emitted file. -/
def header : Bytes := utf8 "// Code generated by hbx. DO NOT EDIT."

/-- Whether a text may stand in a comment: it is well-formed and has neither a null character nor a
byte order mark. -/
def isCommentText (s : Bytes) : Bool :=
  isUtf8 s && !(shownChars s).any fun c => c == '\x00' || c == '\ufeff'

/-- A line without the white space at its end. -/
def trimEnd (s : Bytes) : Bytes :=
  unread ((glyphs s).reverse.dropWhile Text.isSpaceGlyph).reverse

/-- Whether a line begins a comment. -/
def isComment (line : Bytes) : Bool := Bytes.startsWith (utf8 "//") line

/-- A line without the blanks at its front. -/
def trimFront (line : Bytes) : Bytes := line.dropWhile Argument.isSpace

/-- A text without the blanks at its ends. -/
def trimBlanks (s : Bytes) : Bytes := (trimFront (trimFront s).reverse).reverse

/-- Lines with runs of empty lines shortened to one. -/
def squeeze : List Bytes → List Bytes
  | [] :: [] :: rest => squeeze ([] :: rest)
  | l :: rest => l :: squeeze rest
  | [] => []
termination_by ls => ls.length

/-- The comment that names the template, when it is one: the further lines of a name are comments
themselves or empty. -/
def comment? (name : Bytes) : Option Bytes :=
  let lines := Bytes.splitOn Ascii.newline
    (utf8 "// Source: " ++ name.filter (· != Ascii.carriageReturn))
  let lines := lines.map fun line => trimEnd (trimFront line)
  if isCommentText name && lines.all (fun line => line.isEmpty || isComment line) then
    some (Bytes.join (utf8 "\n") (squeeze (lines ++ [[]])))
  else none

mutual

/-- Whether every number in an expression can be written. -/
def isPrintable : Code → Bool
  | .nothing | .text _ | .interpolation _ => true
  | .element tag attributes children =>
    textPrintable tag && attributesPrintable attributes && isPrintable children
  | .block _ arguments named body inverse =>
    arguments.all valuePrintable && named.all (fun a => valuePrintable a.2) && isPrintable body &&
      inversePrintable inverse
  | .inclusion _ _ parameters => parameters.all fun a => valuePrintable a.2
  | .sequence parts => allPrintable parts

/-- Whether every number in some expressions can be written. -/
def allPrintable : List Code → Bool
  | [] => true
  | c :: rest => isPrintable c && allPrintable rest

/-- Whether every number in attribute values can be written. -/
def attributesPrintable : List (Bytes × TextCode) → Bool
  | [] => true
  | (_, value) :: rest => textPrintable value && attributesPrintable rest

/-- Whether every number in the section behind an `else` can be written. -/
def inversePrintable : Option Code → Bool
  | none => true
  | some c => isPrintable c

/-- Whether every number in a text expression can be written. -/
def textPrintable : TextCode → Bool
  | .literal _ => true
  | .flattened c => isPrintable c

/-- Whether a value can be written: a number that is not finite has no constant. -/
def valuePrintable : ValueCode → Bool
  | .float x => x.isFinite
  | _ => true

end

/-- The import clause. -/
def imports : Bytes :=
  utf8 (String.join [
    "import (\n",
    "\t\"github.com/kilianc/hbx/pkg/hbx/rt\"\n",
    "\t\"github.com/kilianc/hbx/pkg/vdom\"\n",
    ")\n"])

/-- The function that renders a node expression. -/
def functionText (function : Bytes) (code : Code) : Bytes :=
  utf8 "func " ++ function ++ signature ++ utf8 " " ++ bodyText 0 (code.print 1) ++ utf8 "\n"

/-- What is written for a program before it is laid out. -/
structure Draft where
  name : Bytes
  package : Bytes
  function : Bytes
  code : Code

/-- The text of a draft. -/
def Draft.text (d : Draft) : Bytes :=
  header ++ utf8 "\n// Source: " ++ d.name ++ utf8 "\n\npackage " ++ d.package ++ utf8 "\n\n" ++
    imports ++ utf8 "\n" ++ functionText d.function d.code

/-- What becomes of a draft, if it is well-formed. -/
abbrev Formatter := Draft → Option Bytes

/-- The layout of a draft whose name is a comment and whose package is an identifier. -/
def tidy : Formatter := fun d => do
  let comment ← comment? d.name
  let package := trimBlanks d.package
  if Identifier.isValid package && isPrintable d.code then
    some (header ++ utf8 "\n" ++ comment ++ utf8 "\npackage " ++ package ++ utf8 "\n\n" ++
      imports ++ utf8 "\n" ++ functionText d.function d.code)
  else none

/-- The file that a formatter makes of a program, in a package and with a function name. -/
def fileOf (format : Formatter) (p : Program) (package function : Bytes) :
    Except EmitError Bytes :=
  if !Identifier.isValid function then .error (.functionName function)
  else if !Op.allKnown p.ops then .error .unknownStep
  else
    match format ⟨p.name, package, function, Code.ofParts (Op.codes p.ops)⟩ with
    | some file => .ok file
    | none => .error (.malformed function)

/-- The file that a program is emitted as, in a package and with a function name. -/
def ofProgram (p : Program) (package function : Bytes) : Except EmitError Bytes :=
  fileOf tidy p package function

end Source
end Stencil
