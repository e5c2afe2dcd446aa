import Stencil.Code.Expr
import Stencil.Number.Written

/-!
# Printing emitted code

An expression stands on one line, except that the body of a function is a line of its own, indented
one more tab than the line that opens it.
-/

namespace Stencil

/-- A call of a function. -/
def callText (function : String) (arguments : List Bytes) : Bytes :=
  utf8 function ++ utf8 "(" ++ Bytes.join (utf8 ", ") arguments ++ utf8 ")"

/-- A list literal; an empty list is written as none. -/
def listText (type : String) (items : List Bytes) : Bytes :=
  if items.isEmpty then utf8 "nil"
  else utf8 type ++ utf8 "\x7b" ++ Bytes.join (utf8 ", ") items ++ utf8 "\x7d"

/-- The tabs of an indentation. -/
def tabs (n : Nat) : Bytes := List.replicate n Ascii.tab

/-- The head of the functions that render. -/
def signature : Bytes := utf8 "(c *rt.Ctx, s *rt.Scope) []vdom.Node"

/-- The body of a function that returns an expression; `result` is its text inside of the body. -/
def bodyText (indent : Nat) (result : Bytes) : Bytes :=
  utf8 "\x7b\n" ++ tabs (indent + 1) ++ utf8 "return " ++ result ++ utf8 "\n" ++ tabs indent ++
    utf8 "\x7d"

/-- A function literal. -/
def functionText (indent : Nat) (result : Bytes) : Bytes :=
  utf8 "func" ++ signature ++ utf8 " " ++ bodyText indent result

/-- A floating-point constant, which never reads back as an integer. -/
def floatText (x : Binary64) : Bytes :=
  let numeral := x.general
  if numeral.any fun b => b == Ascii.dot || b == 0x65 then numeral else numeral ++ utf8 ".0"

/-- The text of a path expression. -/
def PathCode.print : PathCode → Bytes
  | this => callText "rt.This" []
  | dotted segments => callText "rt.Dotted" (segments.map Text.quote)
  | metadata name tail => callText "rt.Meta" ((name :: tail).map Text.quote)
  | up hops inner => callText "rt.Up" [Bytes.decimal hops, inner.print]
  | raw inner => inner.print ++ utf8 ".Raw()"

/-- The text of a value expression. -/
def ValueCode.print : ValueCode → Bytes
  | lookup path => callText "s.Lookup" [path.print]
  | null => utf8 "rt.Null"
  | text s => callText "rt.ValueOf" [Text.quote s]
  | bool b => callText "rt.ValueOf" [utf8 (if b then "true" else "false")]
  | int n => callText "rt.ValueOf" [Bytes.decimalInt n.toInt]
  | float x => callText "rt.ValueOf" [floatText x]

/-- The texts of named arguments. -/
def namedTexts (named : List (Bytes × ValueCode)) : List Bytes :=
  named.map fun a => callText "rt.Named" [Text.quote a.1, a.2.print]

mutual

/-- The text of a node expression in a line with some indentation. -/
def Code.print (indent : Nat) : Code → Bytes
  | .nothing => utf8 "nil"
  | .text s => callText "rt.Text" [Text.quote s]
  | .interpolation path => callText "rt.Interp" [utf8 "s", path.print]
  | .element tag attributes children =>
    callText "rt.Element"
      [tag.print indent, listText "[]vdom.Attr" (Code.printAttributes indent attributes),
       children.print indent]
  | .block name arguments named body inverse =>
    callText "rt.Block"
      [utf8 "c", utf8 "s", Text.quote name,
       callText "rt.NewArgs"
        (listText "[]rt.Value" (arguments.map ValueCode.print) :: namedTexts named),
       functionText indent (body.print (indent + 1)), Code.printInverse indent inverse]
  | .inclusion name context parameters =>
    let base := match context with
      | none => callText "s.Data" []
      | some path => callText "s.Lookup" [path.print]
    callText "rt.Partial" ([utf8 "c", Text.quote name, base] ++ namedTexts parameters)
  | .sequence parts => callText "rt.Seq" (Code.printAll indent parts)

/-- The texts of node expressions. -/
def Code.printAll (indent : Nat) : List Code → List Bytes
  | [] => []
  | c :: rest => c.print indent :: Code.printAll indent rest

/-- The texts of attributes. -/
def Code.printAttributes (indent : Nat) : List (Bytes × TextCode) → List Bytes
  | [] => []
  | (key, value) :: rest =>
    callText "rt.Attr" [Text.quote key, value.print indent] :: Code.printAttributes indent rest

/-- The text of the function for the section behind an `else`. -/
def Code.printInverse (indent : Nat) : Option Code → Bytes
  | none => utf8 "nil"
  | some c => functionText indent (c.print (indent + 1))

/-- The text of a text expression. -/
def TextCode.print (indent : Nat) : TextCode → Bytes
  | .literal s => Text.quote s
  | .flattened code => callText "rt.Flatten" [code.print indent]

end

end Stencil
