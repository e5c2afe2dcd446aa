import Stencil.Text.Quoted

/-!
# Paths

A path says where a value is found: in the current context, in an enclosing one, or among the
metadata of a block, followed by property names.

`PathExpr` is a path as it is written, `PathExpr.read` reads one, and `Path` is the form that a
program holds.  `PathExpr.toPath` turns the first into the second and adds up the steps outwards.
-/

namespace Stencil

/-- A path as it is written. -/
inductive PathExpr where
  /-- The current context. -/
  | this
  /-- A metadata variable, followed by property names. -/
  | metadata (name : Bytes) (tail : List Bytes)
  /-- A path that starts some contexts further out. -/
  | parent (hops : Nat) (tail : PathExpr)
  /-- Property names from the current context on. -/
  | dotted (segments : List Bytes)
  /-- A path whose value is trusted markup. -/
  | raw (inner : PathExpr)
deriving DecidableEq

/-- Why a text is no path. -/
inductive PathError where
  | empty
  | malformed (text : Bytes)
  | partialReference (text : Bytes)
deriving DecidableEq

namespace PathError

/-- The text of an error. -/
def message : PathError → Bytes
  | empty => utf8 "empty path"
  | malformed text => utf8 "malformed path " ++ Text.quote text
  | partialReference text => utf8 "partial reference " ++ Text.quote text ++ utf8 " used as a value"

end PathError

namespace PathExpr

/-- The bytes that no segment of a path may hold. -/
def reserved : Bytes := utf8 " \t\r\n\"'\x7b\x7d=()<>@/"

/-- Whether a text is a segment of a path. -/
def isSegment (s : Bytes) : Bool := !s.isEmpty && s.all fun b => !reserved.contains b

/-- The segments between the dots of `s`; `text` is the path that an error names. -/
def readSegments (s text : Bytes) : Except PathError (List Bytes) :=
  let segments := Bytes.splitOn Ascii.dot s
  if segments.all isSegment then .ok segments else .error (.malformed text)

/-- How often a path climbs at its start, and the text behind that. -/
def climb : Bytes → Nat × Bytes
  | [Ascii.dot, Ascii.dot] => (1, [])
  | Ascii.dot :: Ascii.dot :: Ascii.slash :: rest =>
    let (hops, rest) := climb rest
    (hops + 1, rest)
  | s => (0, s)

/-- Reads a path that does not climb. -/
def readLocal (text : Bytes) : Except PathError PathExpr :=
  match text with
  | [] => .error .empty
  | b :: rest =>
    if text = utf8 "this" ∨ text = utf8 "." then .ok .this
    else if b = Ascii.atSign then do
      match ← readSegments rest text with
      | name :: tail => .ok (.metadata name tail)
      | [] => .error (.malformed text)
    else if b = Ascii.greater then .error (.partialReference text)
    else
      let local? := (Bytes.after? (utf8 "this.") text).or (Bytes.after? (utf8 "./") text)
      .dotted <$> readSegments (local?.getD text) text

/-- Reads a path. -/
def read (text : Bytes) : Except PathError PathExpr :=
  match climb text with
  | (0, _) => readLocal text
  | (hops, []) => .ok (.parent hops .this)
  | (hops, rest) => .parent hops <$> readLocal rest

/-- How many contexts a path climbs. -/
def hops : PathExpr → Nat
  | parent n tail => n + tail.hops
  | raw inner => inner.hops
  | _ => 0

end PathExpr

/-- A path in a program: steps outwards, then a metadata variable or the context, then property
reads.  A trusted path gives markup that is not escaped. -/
structure Path where
  hops : Int := 0
  metadata : Option Bytes := none
  segments : List Bytes := []
  trusted : Bool := false
deriving DecidableEq

namespace Path

/-- The path taken some contexts further out. -/
def up (n : Int) (p : Path) : Path := { p with hops := n + p.hops }

/-- The path with its value trusted. -/
def trust (p : Path) : Path := { p with trusted := true }

/-- A path in the form that templates write. -/
def written (p : Path) : Bytes :=
  let climb := (List.replicate p.hops.toNat (utf8 "../")).flatten
  let target := match p.metadata with
    | some name => Ascii.atSign :: Bytes.join [Ascii.dot] (name :: p.segments)
    | none => if p.segments.isEmpty then utf8 "this" else Bytes.join [Ascii.dot] p.segments
  if p.trusted then Ascii.lbrace :: climb ++ target ++ [Ascii.rbrace] else climb ++ target

end Path

/-- The path in a program that a written path stands for. -/
def PathExpr.toPath : PathExpr → Path
  | this => {}
  | metadata name tail => { metadata := some name, segments := tail }
  | parent n tail => tail.toPath.up n
  | dotted segments => { segments := segments }
  | raw inner => inner.toPath.trust

end Stencil
