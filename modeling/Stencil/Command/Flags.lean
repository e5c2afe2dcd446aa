import Stencil.Bytes

/-!
# Flags

The arguments of the command: flags with values, up to the first argument that is no flag, and then
patterns.  A flag has one or two hyphens, and its value follows behind an equals sign or as the next
argument.
-/

namespace Stencil
namespace Command

/-- What the arguments of the command say. -/
structure Flags where
  root : Bytes := []
  dir : Bytes := []
  package : Bytes := []
  helpers : Bytes := []
  patterns : List Bytes := []
deriving DecidableEq

/-- Why the arguments are not accepted. -/
inductive FlagError where
  /-- The user asks for help. -/
  | help
  | malformed (argument : Bytes)
  | unknown (name : Bytes)
  | missingValue (name : Bytes)
deriving DecidableEq

namespace Flags

/-- The flags with one of them set. -/
def set? (name value : Bytes) (f : Flags) : Option Flags :=
  if name = utf8 "root" then some { f with root := value }
  else if name = utf8 "dir" then some { f with dir := value }
  else if name = utf8 "pkg" then some { f with package := value }
  else if name = utf8 "helpers" then some { f with helpers := value }
  else none

/-- What an argument is. -/
inductive Word where
  | pattern
  | stop
  | flag (name : Bytes) (value : Option Bytes)
  | bad

/-- The name of a flag, and its value if one follows behind an equals sign. -/
def splitFlag (body : Bytes) : Word :=
  match body with
  | [] => .bad
  | b :: rest =>
    if b = Ascii.minus ∨ b = Ascii.equals then .bad
    else match Bytes.cut? [Ascii.equals] rest with
      | some (name, value) => .flag (b :: name) (some value)
      | none => .flag body none

/-- Reads one argument. -/
def word : Bytes → Word
  | [Ascii.minus, Ascii.minus] => .stop
  | Ascii.minus :: Ascii.minus :: body => splitFlag body
  | [Ascii.minus] => .pattern
  | Ascii.minus :: body => splitFlag body
  | _ => .pattern

/-- The error for a flag that is not known. -/
def unknownFlag (name : Bytes) : FlagError :=
  if name = utf8 "help" ∨ name = utf8 "h" then .help else .unknown name

/-- Reads arguments. -/
def read (f : Flags) : List Bytes → Except FlagError Flags
  | [] => .ok f
  | a :: rest =>
    match word a with
    | .pattern => .ok { f with patterns := a :: rest }
    | .stop => .ok { f with patterns := rest }
    | .bad => .error (.malformed a)
    | .flag name (some value) =>
      match f.set? name value with
      | some f => read f rest
      | none => .error (unknownFlag name)
    | .flag name none =>
      match f.set? name [], rest with
      | none, _ => .error (unknownFlag name)
      | some _, [] => .error (.missingValue name)
      | some _, value :: rest => read ((f.set? name value).getD f) rest

end Flags

/-- How the command is used. -/
def usage : Bytes :=
  utf8 (String.join [
    "Usage: hbx [flags] [patterns...]\n",
    "\n",
    "hbx writes a Go render function to <name>.hbx.go for every <name>.hbx\n",
    "template it is given. A template may use the other templates of its\n",
    "directory as partials, by base name.\n",
    "\n",
    "Patterns select templates the way go list selects packages. \"dir/...\"\n",
    "walks dir and everything below it, \"dir\" takes the templates directly in\n",
    "dir, and \"file.hbx\" takes that one template. Without patterns hbx walks\n",
    "the working directory.\n",
    "\n",
    "Flags:\n",
    "  -dir string\n",
    "    \tgenerate for the templates directly in this directory only, e.g. from a ",
    "go:generate line\n",
    "  -helpers string\n",
    "    \tcomma-separated custom helpers the templates call\n",
    "  -pkg string\n",
    "    \tpackage clause of generated files (default: the directory name)\n",
    "  -root string\n",
    "    \tmodule root; generated files name their template relative to it (default: ",
    "the nearest directory holding go.mod)\n"])

namespace FlagError

/-- What a user is told about arguments that are not accepted. -/
def message : FlagError → Bytes
  | help => usage
  | malformed argument => utf8 "bad flag syntax: " ++ argument ++ utf8 "\n" ++ usage
  | unknown name => utf8 "flag provided but not defined: -" ++ name ++ utf8 "\n" ++ usage
  | missingValue name => utf8 "flag needs an argument: -" ++ name ++ utf8 "\n" ++ usage

/-- The exit code for arguments that are not accepted. -/
def exitCode : FlagError → Nat
  | help => 0
  | _ => 2

end FlagError
end Command
end Stencil
