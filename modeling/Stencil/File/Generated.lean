import Stencil.File.Tree

/-!
# Generated files

A generated file has a line that marks it as such before its package clause.  Only generated files
are ever overwritten.
-/

namespace Stencil
namespace Generated

/-- How the marking line begins. -/
def mark : Bytes := utf8 "// Code generated "

/-- How the marking line ends. -/
def warning : Bytes := utf8 " DO NOT EDIT."

/-- Whether a line marks a file as generated. -/
def isMark (line : Bytes) : Bool :=
  match Bytes.after? mark line with
  | some rest => Bytes.endsWith warning rest
  | none => false

/-- The length from which on a line is not read. -/
def lineLimit : Nat := 65536

/-- A line without a carriage return at its end. -/
def chomp (line : Bytes) : Bytes :=
  if line.getLast? = some Ascii.carriageReturn then line.dropLast else line

/-- Whether a marking line comes first among lines, before a package clause and before a line that
is too long to be read. -/
def marked : List Bytes → Bool
  | [] => false
  | line :: rest =>
    if lineLimit ≤ line.length then false
    else if isMark (chomp line) then true
    else if Bytes.startsWith (utf8 "package ") (chomp line) then false
    else marked rest

/-- Whether a file is generated. -/
def isGenerated (content : Bytes) : Bool := marked (Bytes.splitOn Ascii.newline content)

end Generated

/-- Why a generated file is not written. -/
inductive WriteError where
  | file (e : FileError)
  | notGenerated (name : Bytes)
deriving DecidableEq

/-- The text of a failed write. -/
def WriteError.message : WriteError → Bytes
  | file e => e.message
  | notGenerated name =>
    name ++ utf8 ": refusing to overwrite a file without a generated code header"

/-- Writes a generated file to an absolute place, and says whether that was needed.  A file of the
same content is left alone, and one that is not generated is refused. -/
def writeGenerated (name content : Bytes) (t : FileTree) :
    Except WriteError (Bool × FileTree) :=
  let write : Except WriteError (Bool × FileTree) :=
    match t.put name content with
    | .ok t => .ok (true, t)
    | .error e => .error (.file e)
  match t.contentOf [] name with
  | .error e => if e.cause = .missing then write else .error (.file e)
  | .ok old =>
    if old = content then .ok (false, t)
    else if Generated.isGenerated old then write
    else .error (.notGenerated name)

end Stencil
