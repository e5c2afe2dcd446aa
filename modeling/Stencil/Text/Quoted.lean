import Stencil.Text.Glyph
import Stencil.Text.Printable

/-!
# Quoted texts

A byte string in double quotes.  Printable characters stand for themselves; quotes, backslashes,
control characters, unprintable characters and stray bytes are written as escapes.

Results: `quote` writes a byte string; `unquote?` reads one, also with escapes that `quote` does
not use (octal bytes and escapes for printable characters).
-/

namespace Stencil
namespace Text

/-- The escape that a character other than a printable one is written as. -/
def escapeChar (c : Char) : Bytes :=
  let n := c.toNat
  if n = 0x07 then utf8 "\\a"
  else if n = 0x08 then utf8 "\\b"
  else if n = 0x0c then utf8 "\\f"
  else if n = 0x0a then utf8 "\\n"
  else if n = 0x0d then utf8 "\\r"
  else if n = 0x09 then utf8 "\\t"
  else if n = 0x0b then utf8 "\\v"
  else if n < 0x20 ∨ n = 0x7f then utf8 "\\x" ++ Bytes.hex 2 n
  else if n < 0x10000 then utf8 "\\u" ++ Bytes.hex 4 n
  else utf8 "\\U" ++ Bytes.hex 8 n

/-- How one glyph stands between the quotes. -/
def quoteGlyph : Glyph → Bytes
  | .stray b => utf8 "\\x" ++ Bytes.hex 2 b.toNat
  | .char c =>
    if c = '"' ∨ c = '\\' then Ascii.backslash :: String.utf8EncodeChar c
    else if isPrintable c then String.utf8EncodeChar c
    else escapeChar c

/-- A byte string in double quotes. -/
def quote (s : Bytes) : Bytes := Ascii.quote :: (glyphs s).flatMap quoteGlyph ++ [Ascii.quote]

/-- The number that the first `n` bytes write in hexadecimal digits. -/
def hexNumber? (n : Nat) (s : Bytes) : Option Nat :=
  if s.length < n then none
  else (s.take n).foldl (fun acc b => do return (← acc) * 16 + (← Ascii.hexValue? b)) (some 0)

/-- The byte that three octal digits write. -/
def octalByte? : Bytes → Option UInt8
  | a :: b :: c :: _ =>
    let octal (d : UInt8) : Bool := decide (0x30 ≤ d) && decide (d ≤ 0x37)
    if octal a && octal b && octal c then
      let n := (Ascii.digitValue a * 8 + Ascii.digitValue b) * 8 + Ascii.digitValue c
      if n < 256 then some n.toUInt8 else none
    else none
  | _ => none

/-- What the escape behind a backslash stands for, and how many bytes it takes. -/
def readEscape? (s : Bytes) : Option (Bytes × Nat) :=
  match s with
  | [] => none
  | c :: rest =>
    let char? (n : Nat) : Option (Bytes × Nat) := do
      let v ← hexNumber? n rest
      if h : v.isValidChar then some (String.utf8EncodeChar (Char.ofNatAux v h), n + 1) else none
    if c = 0x61 then some ([0x07], 1)
    else if c = 0x62 then some ([0x08], 1)
    else if c = 0x66 then some ([0x0c], 1)
    else if c = 0x6e then some ([0x0a], 1)
    else if c = 0x72 then some ([0x0d], 1)
    else if c = 0x74 then some ([0x09], 1)
    else if c = 0x76 then some ([0x0b], 1)
    else if c = 0x78 then (hexNumber? 2 rest).map fun v => ([v.toUInt8], 3)
    else if c = 0x75 then char? 4
    else if c = 0x55 then char? 8
    else if c = Ascii.backslash ∨ c = Ascii.quote then some ([c], 1)
    else (octalByte? s).map fun b => ([b], 3)

/-- What the front of `b :: rest` stands for between quotes, and how many bytes of `rest` belong
to it.  A line break may not stand there; a stray byte reads as the replacement character. -/
def readUnit? (b : UInt8) (rest : Bytes) : Option (Bytes × Nat) :=
  if b = Ascii.newline then none
  else if b = Ascii.backslash then readEscape? rest
  else if b < 0x80 then some ([b], 0)
  else
    let g := Glyph.head b rest
    some (String.utf8EncodeChar g.shown, g.bytes.length - 1)

/-- What stands before the closing quote at the very end, after skipping `skip` bytes. -/
def readQuoted? : (skip : Nat) → Bytes → Option Bytes
  | _, [] => none
  | n + 1, _ :: rest => readQuoted? n rest
  | 0, b :: rest =>
    if b = Ascii.quote then if rest.isEmpty then some [] else none
    else match readUnit? b rest with
      | some (out, n) => (readQuoted? n rest).map (out ++ ·)
      | none => none

/-- The byte string that a text in double quotes stands for. -/
def unquote? : Bytes → Option Bytes
  | Ascii.quote :: rest => readQuoted? 0 rest
  | _ => none

end Text
end Stencil
