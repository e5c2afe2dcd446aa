import Stencil.File.Tree
import Stencil.Text.Blank

/-!
# Selecting templates

Patterns select template files: `dir/...` selects the templates below a directory, a directory the
templates directly in it, and a template itself.

Result: `select`, the templates that patterns select, each once and in the order of their names.
-/

namespace Stencil
namespace Command

/-- Why the command fails before it looks at a template. -/
inductive SelectError where
  | file (e : FileError)
  | notTemplate (name : Bytes)
  | noModule (directory : Bytes)
  | exclusive
deriving DecidableEq

/-- The text of a failure. -/
def SelectError.message : SelectError → Bytes
  | file e => e.message
  | notTemplate name => utf8 "hbx: " ++ name ++ utf8 " is not a template"
  | noModule directory => utf8 "hbx: no go.mod in " ++ directory ++ utf8 " or above"
  | exclusive => utf8 "hbx: -dir and patterns are mutually exclusive"

/-- The ending of template files. -/
def ending : Bytes := utf8 ".hbx"

/-- Whether a file name is that of a template. -/
def isTemplate (name : Bytes) : Bool := Bytes.endsWith ending name

/-- The templates among the entries of a directory. -/
def templatesAmong (directory : Bytes) (entries : List (Bytes × FileTree)) : List Bytes :=
  (entries.filter fun e => !e.2.isDirectory && isTemplate e.1).map fun e =>
    FileName.join [directory, e.1]

/-- The templates directly in a directory. -/
def templatesIn (t : FileTree) (directory : Bytes) : Except FileError (List Bytes) := do
  return templatesAmong directory (← t.entriesOf [] directory)

/-- Whether a directory is left out when the directories above it are walked. -/
def isSkipped (name : Bytes) : Bool :=
  name == utf8 "vendor" || name == utf8 "node_modules" || Bytes.startsWith (utf8 ".") name

mutual

/-- The templates in a tree with a given name, and below it. -/
def walk (name : Bytes) : FileTree → List Bytes
  | .file _ => if isTemplate name then [name] else []
  | .directory entries => walkAll name entries

/-- The templates in the entries of a directory, and below them. -/
def walkAll (directory : Bytes) : List (Bytes × FileTree) → List Bytes
  | [] => []
  | (name, t) :: rest =>
    (if t.isDirectory && isSkipped name then [] else walk (FileName.join [directory, name]) t) ++
      walkAll directory rest

end

/-- The directory that a pattern with dots at its end walks. -/
def walkRoot? (pattern : Bytes) : Option Bytes :=
  (Bytes.before? (utf8 "...") pattern).map fun base => (Bytes.before? (utf8 "/") base).getD base

/-- The templates that one pattern selects. -/
def expand (cwd : Bytes) (t : FileTree) (pattern : Bytes) : Except SelectError (List Bytes) :=
  let pattern := Text.trim pattern
  if pattern.isEmpty then .ok []
  else match walkRoot? pattern with
    | some base =>
      let directory := FileName.absolute cwd base
      match t.get .lstat [] directory with
      | .ok below => .ok (walk directory below)
      | .error e => .error (.file e)
    | none =>
      let name := FileName.absolute cwd pattern
      match t.get .stat [] name with
      | .ok (.directory entries) => .ok (templatesAmong name entries)
      | .ok (.file _) => if isTemplate name then .ok [name] else .error (.notTemplate name)
      | .error e => .error (.file e)

/-- The templates that patterns select, each once and in the order of their names. -/
def select (cwd : Bytes) (t : FileTree) (patterns : List Bytes) :
    Except SelectError (List Bytes) := do
  let selected ← patterns.mapM (expand cwd t)
  return selected.flatten.eraseDups.mergeSort Bytes.le

/-- Whether a directory holds a module file. -/
def holdsModule (t : FileTree) (directory : Bytes) : Bool :=
  (t.find [] (FileName.join [directory, utf8 "go.mod"])).isOk

/-- The nearest of an absolute directory and those above it that holds a module file. -/
def moduleRoot? (t : FileTree) (directory : Bytes) : Option Bytes :=
  (FileName.upwards directory).find? (holdsModule t)

end Command
end Stencil
