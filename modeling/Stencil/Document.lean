import Stencil.Datum
import Stencil.Number.Numeral

/-!
# Data documents

The documents that hold the data of a template.  Values are written in flow style, with braces,
brackets and quoted texts, or in block style, where indentation shows what belongs together.
Numbers, truth values and null are plain words; any other plain word is a text.  A document without
content is null, and a mapping must not repeat a key.

This is the part of the notation that plain data needs.  Documents with comments, document markers,
texts in single quotes, block scalars, anchors or tags, flow mappings with unquoted keys and numbers
in another base than ten are refused or read as texts.  What is shown about the playground holds for
any reader of documents.

Algorithm: `flowValue` reads a flow value from the front of a text, `blockValue` a block from the
front of a list of lines.  Both go one level down per unit of fuel.
-/

namespace Stencil
namespace Document

/-- Whether a byte separates the parts of a flow value. -/
def isBlank (b : UInt8) : Bool :=
  b == Ascii.blank || b == Ascii.tab || b == Ascii.newline || b == Ascii.carriageReturn

/-- A text without blanks at its front. -/
def skipBlanks (s : Bytes) : Bytes := s.dropWhile isBlank

/-- A text without blanks at its ends. -/
def trim (s : Bytes) : Bytes := (skipBlanks (skipBlanks s).reverse).reverse

/-- What a plain word of digits stands for, if it is a number: an integer if it fits in 64 bits,
otherwise a floating-point number. -/
def number? (word : Bytes) : Option Datum :=
  if !word.all fun b => Ascii.isDigit b || b == Ascii.plus || b == Ascii.minus || b == Ascii.dot ||
      b == 0x65 || b == 0x45 then none
  else match Bytes.int64? word with
    | some n => some (.int n)
    | none =>
      if !word.isEmpty && word.all Ascii.isDigit && Bytes.natOfDigits word < Nat.pow 2 64 then
        some (.natural (Bytes.natOfDigits word).toUInt64)
      else (Binary64.ofNumeral? word).map .float

/-- What a plain word stands for. -/
def plain (word : Bytes) : Datum :=
  if word.isEmpty || ["~", "null", "Null", "NULL"].any (utf8 · == word) then .null
  else if ["true", "True", "TRUE"].any (utf8 · == word) then .bool true
  else if ["false", "False", "FALSE"].any (utf8 · == word) then .bool false
  else (number? word).getD (.text word)

/-- The code point that four hexadecimal digits write. -/
def codePoint? (a b c d : UInt8) : Option Nat := do
  return (((← Ascii.hexValue? a) * 16 + (← Ascii.hexValue? b)) * 16 + (← Ascii.hexValue? c)) * 16 +
    (← Ascii.hexValue? d)

/-- The byte that an escape of one letter stands for. -/
def escape? (b : UInt8) : Option UInt8 :=
  if b = Ascii.quote ∨ b = Ascii.backslash ∨ b = Ascii.slash then some b
  else if b = 0x62 then some 0x08
  else if b = 0x66 then some Ascii.formFeed
  else if b = 0x6e then some Ascii.newline
  else if b = 0x72 then some Ascii.carriageReturn
  else if b = 0x74 then some Ascii.tab
  else none

/-- The rest of a quoted text, and what follows it. -/
def quoted : Bytes → Option (Bytes × Bytes)
  | [] => none
  | Ascii.quote :: rest => some ([], rest)
  | Ascii.backslash :: 0x75 :: a :: b :: c :: d :: rest => do
    let n ← codePoint? a b c d
    if 0xd800 ≤ n ∧ n < 0xe000 then none
    else
      let (s, rest) ← quoted rest
      return (String.utf8EncodeChar (Char.ofNat n) ++ s, rest)
  | Ascii.backslash :: b :: rest => do
    let e ← escape? b
    let (s, rest) ← quoted rest
    return (e :: s, rest)
  | b :: rest => do
    let (s, rest) ← quoted rest
    return (b :: s, rest)

/-- Entries of a mapping, when no key is repeated. -/
def mapping? (entries : List (Bytes × Datum)) : Option Datum :=
  if (entries.map (·.1)).eraseDups.length = entries.length then some (.map entries) else none

/-- Whether a byte ends a plain word in a flow value. -/
def endsWord (b : UInt8) : Bool :=
  b == Ascii.comma || b == Ascii.lbracket || b == Ascii.rbracket || b == Ascii.lbrace ||
    b == Ascii.rbrace || b == Ascii.newline

mutual

/-- A flow value at the front of a text, and what follows it. -/
def flowValue : (fuel : Nat) → Bytes → Option (Datum × Bytes)
  | 0, _ => none
  | n + 1, s =>
    match skipBlanks s with
    | [] => none
    | Ascii.lbrace :: rest =>
      match skipBlanks rest with
      | Ascii.rbrace :: rest => some (.map [], rest)
      | rest => do
        let (entries, rest) ← flowEntries n rest
        return (← mapping? entries, rest)
    | Ascii.lbracket :: rest =>
      match skipBlanks rest with
      | Ascii.rbracket :: rest => some (.list [], rest)
      | rest => do
        let (items, rest) ← flowItems n rest
        return (.list items, rest)
    | Ascii.quote :: rest => do
      let (text, rest) ← quoted rest
      return (.text text, rest)
    | rest =>
      let word := rest.takeWhile fun b => !endsWord b
      if (trim word).isEmpty then none else some (plain (trim word), rest.drop word.length)

/-- The items of a flow sequence up to its end. -/
def flowItems : (fuel : Nat) → Bytes → Option (List Datum × Bytes)
  | 0, _ => none
  | n + 1, s => do
    let (item, rest) ← flowValue n s
    match skipBlanks rest with
    | Ascii.comma :: rest =>
      let (items, rest) ← flowItems n rest
      return (item :: items, rest)
    | Ascii.rbracket :: rest => return ([item], rest)
    | _ => none

/-- The entries of a flow mapping up to its end. -/
def flowEntries : (fuel : Nat) → Bytes → Option (List (Bytes × Datum) × Bytes)
  | 0, _ => none
  | n + 1, s => do
    match skipBlanks s with
    | Ascii.quote :: rest =>
      let (key, rest) ← quoted rest
      match skipBlanks rest with
      | Ascii.colon :: rest =>
        let (value, rest) ← flowValue n rest
        match skipBlanks rest with
        | Ascii.comma :: rest =>
          let (entries, rest) ← flowEntries n rest
          return ((key, value) :: entries, rest)
        | Ascii.rbrace :: rest => return ([(key, value)], rest)
        | _ => none
      | _ => none
    | _ => none

end

/-- A value in flow style that is all of a text, or a plain word. -/
def inline? (s : Bytes) : Option Datum :=
  match s with
  | [] => some .null
  | b :: _ =>
    if b = Ascii.lbrace ∨ b = Ascii.lbracket ∨ b = Ascii.quote then
      match flowValue (2 * s.length) s with
      | some (d, rest) => if (skipBlanks rest).isEmpty then some d else none
      | none => none
    else some (plain s)

/-- A line of a block: how far it is indented, and its text without blanks at its ends. -/
structure Line where
  indent : Nat
  text : Bytes

/-- The lines of a block that have text. -/
def lines (s : Bytes) : List Line :=
  ((Bytes.splitOn Ascii.newline s).map fun l =>
    ⟨(l.takeWhile (· == Ascii.blank)).length, trim l⟩).filter fun l => !l.text.isEmpty

/-- What stands behind the hyphen of a sequence item, with its own indentation. -/
def item? (l : Line) : Option Line :=
  match l.text with
  | [Ascii.minus] => some ⟨l.indent + 1, []⟩
  | Ascii.minus :: Ascii.blank :: rest =>
    let text := skipBlanks rest
    some ⟨l.indent + 2 + (rest.length - text.length), text⟩
  | _ => none

/-- The key of a mapping entry, and what stands behind its colon. -/
def keyed? (l : Line) : Option (Bytes × Bytes) :=
  match Bytes.cut? (utf8 ": ") l.text with
  | some (key, value) => some (trim key, trim value)
  | none => (Bytes.before? (utf8 ":") l.text).map fun key => (trim key, [])

mutual

/-- The block at the front of lines, which are indented by at least some width, and the lines behind
it. -/
def blockValue : (fuel : Nat) → (width : Nat) → List Line → Option (Datum × List Line)
  | 0, _, _ => none
  | _, _, [] => some (.null, [])
  | n + 1, width, l :: rest =>
    if l.indent < width then some (.null, l :: rest)
    else if (item? l).isSome then do
      let (items, rest) ← blockItems n l.indent (l :: rest)
      return (.list items, rest)
    else if (keyed? l).isSome then do
      let (entries, rest) ← blockEntries n l.indent (l :: rest)
      return (← mapping? entries, rest)
    else do return (← inline? l.text, rest)

/-- The items of a sequence with a given indentation. -/
def blockItems : (fuel : Nat) → (indent : Nat) → List Line → Option (List Datum × List Line)
  | 0, _, _ => none
  | _, _, [] => some ([], [])
  | n + 1, indent, l :: rest =>
    match if l.indent = indent then item? l else none with
    | none => some ([], l :: rest)
    | some inner => do
      let (item, rest) ← blockValue n (indent + 1)
        (if inner.text.isEmpty then rest else inner :: rest)
      let (items, rest) ← blockItems n indent rest
      return (item :: items, rest)

/-- The entries of a mapping with a given indentation. -/
def blockEntries : (fuel : Nat) → (indent : Nat) → List Line →
    Option (List (Bytes × Datum) × List Line)
  | 0, _, _ => none
  | _, _, [] => some ([], [])
  | n + 1, indent, l :: rest =>
    match if l.indent = indent ∧ (item? l).isNone then keyed? l else none with
    | none => some ([], l :: rest)
    | some (key, text) => do
      let nested := match rest with
        | next :: _ => if (item? next).isSome then indent else indent + 1
        | [] => indent + 1
      let (value, rest) ← if text.isEmpty then blockValue n nested rest
        else (inline? text).map (·, rest)
      let (entries, rest) ← blockEntries n indent rest
      return ((key, value) :: entries, rest)

end

/-- Whether a document may hold a character. -/
def isAllowed (c : Char) : Bool :=
  let n := c.toNat
  n == 0x09 || n == 0x0a || n == 0x0d || (decide (0x20 ≤ n) && decide (n ≤ 0x7e)) || n == 0x85 ||
    (decide (0xa0 ≤ n) && decide (n ≤ 0xfffd) && n != 0xfeff) || decide (0x10000 ≤ n)

/-- The data that a document holds. -/
def read (s : Bytes) : Option Datum :=
  if !(isUtf8 s && (shownChars s).all isAllowed) then none
  else match skipBlanks s with
    | [] => some .null
    | b :: rest =>
      if b = Ascii.lbrace ∨ b = Ascii.lbracket ∨ b = Ascii.quote then inline? (b :: rest)
      else match blockValue (2 * s.length) 0 (lines s) with
        | some (d, []) => some d
        | _ => none

end Document
end Stencil
