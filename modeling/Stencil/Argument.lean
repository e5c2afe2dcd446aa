import Stencil.Number.Numeral
import Stencil.Path
import Stencil.Text.Blank

/-!
# Arguments

The arguments of helper calls and partials: literals, paths and `name=value` pairs, separated by
blanks.

Algorithm: `Argument.split` cuts a call into tokens without looking into quoted texts and
`{{…}}` groups; `Argument.read` reads one token.
-/

namespace Stencil

/-- A literal value. -/
inductive Literal where
  | text (s : Bytes)
  | int (n : Int64)
  | float (x : Binary64)
  | bool (b : Bool)
  | null
deriving DecidableEq

/-- A value that is looked up or written out. -/
inductive Operand (π κ : Type) where
  | path (p : π)
  | literal (l : κ)
deriving DecidableEq

/-- An argument, with the name that it is passed by if it has one. -/
structure Argument where
  name : Option Bytes
  value : Operand PathExpr Literal
deriving DecidableEq

/-- Why a text is no list of arguments. -/
inductive ArgumentError where
  | unterminatedText (call : Bytes)
  | unclosedGroup (call : Bytes)
  | missingValue (name : Bytes)
  | malformed (token : Bytes)
  | badText (token : Bytes)
  | path (cause : PathError)
deriving DecidableEq

namespace ArgumentError

/-- The text of an error. -/
def message : ArgumentError → Bytes
  | unterminatedText call => utf8 "unterminated string in " ++ Text.quote call
  | unclosedGroup call => utf8 "unclosed \x7b\x7b in " ++ Text.quote call
  | missingValue name => utf8 "missing value for " ++ name
  | malformed token => utf8 "malformed argument " ++ Text.quote token
  | badText token => utf8 "bad string " ++ token
  | path cause => cause.message

end ArgumentError

namespace Argument

/-- Whether a byte separates arguments. -/
def isSpace (b : UInt8) : Bool :=
  b == Ascii.blank || b == Ascii.tab || b == Ascii.newline || b == Ascii.carriageReturn

/-- What surrounds the byte that is read next. -/
inductive Inside where
  | nothing
  | text (mark : UInt8)
  | groups (depth : Nat)
deriving DecidableEq

/-- The rest of the token that is being read, and the tokens behind it. -/
abbrev Tokens := Bytes × List Bytes

/-- Bytes in front of the token that is being read. -/
def Tokens.extend (front : Bytes) (t : Tokens) : Tokens := (front ++ t.1, t.2)

/-- All tokens; one that holds nothing does not count. -/
def Tokens.all (t : Tokens) : List Bytes := if t.1.isEmpty then t.2 else t.1 :: t.2

/-- The tokens of the input, read from inside of something; where the input ends inside of
something, that is the result. -/
def splitFrom : Inside → Bytes → Except Inside Tokens
  | .nothing, [] => .ok ([], [])
  | inside, [] => .error inside
  | .text mark, b :: rest =>
    if b = Ascii.backslash then
      match rest with
      | [] => .error (.text mark)
      | c :: rest' => (splitFrom (.text mark) rest').map (Tokens.extend [b, c])
    else (splitFrom (if b = mark then .nothing else .text mark) rest).map (Tokens.extend [b])
  | .nothing, Ascii.lbrace :: Ascii.lbrace :: rest =>
    (splitFrom (.groups 0) rest).map (Tokens.extend [Ascii.lbrace, Ascii.lbrace])
  | .groups n, Ascii.lbrace :: Ascii.lbrace :: rest =>
    (splitFrom (.groups (n + 1)) rest).map (Tokens.extend [Ascii.lbrace, Ascii.lbrace])
  | .groups n, Ascii.rbrace :: Ascii.rbrace :: rest =>
    (splitFrom (match n with | 0 => .nothing | n + 1 => .groups n) rest).map
      (Tokens.extend [Ascii.rbrace, Ascii.rbrace])
  | .groups n, b :: rest => (splitFrom (.groups n) rest).map (Tokens.extend [b])
  | .nothing, b :: rest =>
    if b = Ascii.quote ∨ b = Ascii.apostrophe then
      (splitFrom (.text b) rest).map (Tokens.extend [b])
    else if isSpace b then (splitFrom .nothing rest).map fun t => ([], t.all)
    else (splitFrom .nothing rest).map (Tokens.extend [b])

/-- The tokens of a call.  Blanks separate tokens, except in quoted texts and in groups. -/
def split (call : Bytes) : Except ArgumentError (List Bytes) :=
  match splitFrom .nothing call with
  | .ok t => .ok t.all
  | .error (.text _) => .error (.unterminatedText call)
  | .error _ => .error (.unclosedGroup call)

/-- Whether a text can name an argument: letters, digits, hyphens and underscores, no digit
first. -/
def isIdentifier : Bytes → Bool
  | [] => false
  | b :: rest =>
    let start (c : UInt8) : Bool := Ascii.isLetter c || c == Ascii.underscore || c == Ascii.minus
    start b && rest.all fun c => start c || Ascii.isDigit c

/-- The text between single quotes as it stands between double quotes. -/
def requote : Bytes → Bytes
  | Ascii.backslash :: Ascii.apostrophe :: rest => Ascii.apostrophe :: requote rest
  | Ascii.backslash :: b :: rest => Ascii.backslash :: b :: requote rest
  | Ascii.quote :: rest => Ascii.backslash :: Ascii.quote :: requote rest
  | b :: rest => b :: requote rest
  | [] => []

/-- The byte string that a text in single quotes stands for; a double quote needs no escape there,
a single quote does. -/
def unquoteSingle? : Bytes → Option Bytes
  | Ascii.apostrophe :: rest =>
    if rest.getLast? = some Ascii.apostrophe then
      Text.unquote? (Ascii.quote :: requote rest.dropLast ++ [Ascii.quote])
    else none
  | _ => none

/-- The literal that a token writes, if it writes one. -/
def literal? (token : Bytes) : Except ArgumentError (Option Literal) :=
  if token = utf8 "true" then .ok (some (.bool true))
  else if token = utf8 "false" then .ok (some (.bool false))
  else if token = utf8 "null" ∨ token = utf8 "undefined" then .ok (some .null)
  else match token with
    | [] => .ok none
    | b :: _ =>
      if b = Ascii.quote then
        match Text.unquote? token with
        | some s => .ok (some (.text s))
        | none => .error (.badText token)
      else if b = Ascii.apostrophe then
        match unquoteSingle? token with
        | some s => .ok (some (.text s))
        | none => .error (.badText token)
      else if Ascii.isDigit b ∨ b = Ascii.minus ∨ b = Ascii.plus ∨ b = Ascii.dot then
        match Bytes.int64? token with
        | some n => .ok (some (.int n))
        | none => .ok ((Binary64.ofNumeral? token).map Literal.float)
      else .ok none

/-- What stands between `n` braces on either side. -/
def unbraced? (n : Nat) (token : Bytes) : Option Bytes :=
  if 2 * n ≤ token.length ∧ Bytes.startsWith (List.replicate n Ascii.lbrace) token ∧
      Bytes.endsWith (List.replicate n Ascii.rbrace) token then
    some (Text.trim ((token.drop n).take (token.length - 2 * n)))
  else none

/-- Reads a path in an argument. -/
def readPath (text : Bytes) : Except ArgumentError PathExpr :=
  match PathExpr.read text with
  | .ok p => .ok p
  | .error e => .error (.path e)

/-- Reads the value of an argument: a path between braces is trusted, then literals are tried, and
anything else is a path. -/
def readValue (token : Bytes) : Except ArgumentError (Operand PathExpr Literal) :=
  if Bytes.startsWith [Ascii.lbrace, Ascii.lbrace] token then
    match (unbraced? 3 token).or (unbraced? 2 token) with
    | some inner => (readPath inner).map fun p => .path (.raw p)
    | none => .error (.malformed token)
  else do
    match ← literal? token with
    | some l => .ok (.literal l)
    | none => (readPath token).map .path

/-- The name of a token `name=value`, and its value. -/
def splitName (token : Bytes) : Option Bytes × Bytes :=
  match Bytes.cut? [Ascii.equals] token with
  | some (name, value) => if isIdentifier name then (some name, value) else (none, token)
  | none => (none, token)

/-- Reads one token. -/
def read (token : Bytes) : Except ArgumentError Argument :=
  match splitName token with
  | (some name, []) => .error (.missingValue name)
  | (name, value) => (readValue value).map fun v => ⟨name, v⟩

end Argument
end Stencil
