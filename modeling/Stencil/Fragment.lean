import Stencil.Chunk
import Stencil.Fault
import Stencil.Text.Entity

/-!
# Fragments

A fragment is a piece of a text or of an attribute value with a meaning of its own: a literal, an
interpolation, a mark that opens, divides or closes a block, or a call of a partial.

Algorithm: the chunks of the text are taken in order, and `Mark.ofExpression` says what an
expression means.  A helper call outside a block stands for a block around the current context, so
it gives three fragments; comments give none.
-/

namespace Stencil

/-- What a fragment means. -/
inductive Mark where
  | literal (value : Bytes)
  | interpolation (path : PathExpr)
  | opening (name : Bytes) (arguments : List Argument) (synthetic : Bool)
  | otherwise
  | closing (name : Bytes)
  | inclusion (name : Bytes) (context : Option PathExpr)
    (parameters : List (Bytes × Operand PathExpr Literal))
deriving DecidableEq

/-- A mark and the part of the source that it comes from. -/
structure Fragment where
  span : Span
  mark : Mark
deriving DecidableEq

namespace Mark

/-- The bytes that no name of a helper or partial may hold. -/
def reserved : Bytes := utf8 " \t\r\n\"'\x7b\x7d=()<>"

/-- Whether a text can name a helper or a partial. -/
def isName (s : Bytes) : Bool := !s.isEmpty && s.all fun b => !reserved.contains b

/-- An error of arguments as a cause. -/
def ofArguments {α : Type} (r : Except ArgumentError α) : Except Cause α := r.mapError .argument

/-- Reads the path of an interpolation. -/
def readPath (text : Bytes) : Except Cause PathExpr := ofArguments (Argument.readPath text)

/-- Reads the name and the arguments of a helper call. -/
def readCall (call : Bytes) : Except Cause (Bytes × List Argument) := do
  match ← ofArguments (Argument.split call) with
  | [] => .error .missingHelperName
  | name :: tokens =>
    if isName name then
      .ok (name, ← ofArguments (tokens.mapM Argument.read))
    else .error (.badHelperName name)

/-- Reads the context and the parameters of a partial from its arguments. -/
def readInclusion (name : Bytes) (context : Option PathExpr)
    (parameters : List (Bytes × Operand PathExpr Literal)) : List Bytes → Except Cause Mark
  | [] => .ok (.inclusion name context parameters)
  | token :: tokens => do
    match ← ofArguments (Argument.read token) with
    | ⟨some key, value⟩ => readInclusion name context (parameters ++ [(key, value)]) tokens
    | ⟨none, value⟩ =>
      if context.isSome ∨ ¬ parameters.isEmpty then .error (.lateContext name)
      else match value with
        | .path p => readInclusion name (some p) parameters tokens
        | .literal _ => .error (.literalContext token)

/-- The name that the first token of a partial call writes; it may be quoted. -/
def readPartialName (token : Bytes) : Except Cause Bytes :=
  match Argument.literal? token with
  | .ok (some (.text s)) => checked s
  | .ok (some _) => .error (.literalPartialName token)
  | _ => checked token
where
  /-- The name, when it is one. -/
  checked (s : Bytes) : Except Cause Bytes :=
    if isName s then .ok s else .error (.badPartialName s)

/-- Reads a partial call. -/
def readPartial (call : Bytes) : Except Cause Mark := do
  match ← ofArguments (Argument.split call) with
  | [] => .error .missingPartialName
  | token :: tokens => readInclusion (← readPartialName token) none [] tokens

/-- Reads an expression that begins with none of the signs: a helper call or an interpolation. -/
def readBare (isHelper : Bytes → Bool) (body : Bytes) : Except Cause (List Mark) := do
  match ← ofArguments (Argument.split body) with
  | [] => .error .emptyExpression
  | head :: tokens =>
    if isHelper head then
      let (_, arguments) ← readCall body
      .ok [.opening head arguments true, .interpolation .this, .closing head]
    else if tokens.isEmpty then
      .ok [.interpolation (← readPath head)]
    else if head = utf8 "else" then .error .elseWithArguments
    else .error (.unknownHelper head)

/-- What a plain expression means.  The sign at its front decides, and no sign means a helper call
or an interpolation. -/
def ofPlain (isHelper : Bytes → Bool) (body : Bytes) : Except Cause (List Mark) :=
  match body with
  | [] => .error .emptyExpression
  | b :: rest =>
    if b = Ascii.bang then .ok []
    else if b = Ascii.greater then do
      return [← readPartial rest]
    else if b = Ascii.slash then
      let name := Text.trim rest
      if isName name then .ok [.closing name] else .error (.badBlockName name)
    else if b = Ascii.hash then do
      let (name, arguments) ← readCall rest
      return [.opening name arguments false]
    else if b = Ascii.ampersand then do
      return [.interpolation (.raw (← readPath (Text.trim rest)))]
    else if body = utf8 "else" then .ok [.otherwise]
    else readBare isHelper body

/-- What an expression means. -/
def ofExpression (isHelper : Bytes → Bool) (form : Form) (payload : Bytes) :
    Except Cause (List Mark) :=
  match form with
  | .comment => .ok []
  | .triple => do return [.interpolation (.raw (← readPath (Text.trim payload)))]
  | .plain => ofPlain isHelper (Text.trim payload)

end Mark

/-- Where fragments stand: in text from an offset on, which holds character references, or in a tag,
whose span they share. -/
inductive Site where
  | text (offset : Nat)
  | tag (span : Span)

namespace Site

/-- The span of a part of the text at a site. -/
def span : Site → (start stop : Nat) → Span
  | text offset, start, stop => Span.shift ⟨start, stop⟩ offset
  | tag span, _, _ => span

/-- The meaning of literal text. -/
def literal : Site → Bytes → Bytes
  | text _, s => Entity.decode .text s
  | tag _, s => s

/-- The meaning of the payload of an expression.  An ampersand at its front is a sign and never
begins a character reference. -/
def payload : Site → Bytes → Bytes
  | text _, s =>
    match s.dropWhile Argument.isSpace with
    | Ascii.ampersand :: rest => Ascii.ampersand :: Entity.decode .text rest
    | _ => Entity.decode .text s
  | tag _, s => s

end Site

namespace Fragment

/-- The fragments of a chunk at an offset. -/
def ofChunk (isHelper : Bytes → Bool) (site : Site) (offset : Nat) (c : Chunk) :
    Except Fault (List Fragment) :=
  let span := site.span offset (offset + c.source.length)
  match c with
  | .literal s => .ok [⟨span, .literal (site.literal s)⟩]
  | .expression form payload =>
    match Mark.ofExpression isHelper form (site.payload payload) with
    | .ok marks => .ok (marks.map (⟨span, ·⟩))
    | .error cause => .error ⟨cause, span⟩

/-- The fragments of chunks from an offset on, up to the end or to an expression that is never
closed; `length` is the length of the whole text. -/
def ofChunks (isHelper : Bytes → Bool) (site : Site) (length : Nat) (unclosed : Option Form) :
    (offset : Nat) → List Chunk → Except Fault (List Fragment)
  | offset, [] =>
    match unclosed with
    | none => .ok []
    | some form => .error ⟨.unclosed form.opener, site.span offset length⟩
  | offset, c :: rest => do
    let fragments ← ofChunk isHelper site offset c
    return fragments ++
      (← ofChunks isHelper site length unclosed (offset + c.source.length) rest)

/-- The fragments of a text. -/
def read (isHelper : Bytes → Bool) (site : Site) (s : Bytes) : Except Fault (List Fragment) :=
  ofChunks isHelper site s.length (scan s).unclosed 0 (scan s).chunks

end Fragment
end Stencil
