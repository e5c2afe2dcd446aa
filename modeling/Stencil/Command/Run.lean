import Stencil.Command.Flags
import Stencil.Command.Selection
import Stencil.Engine
import Stencil.File.Generated

/-!
# The command

The command writes the file that a template is emitted as beside the template, for all templates
that it is asked for.

Input: the arguments, the working directory and a file tree.

Result: `run`, the exit code, what is told on standard error, and the file tree afterwards.  Each
selected template is taken on its own, and a failure of one does not keep the others from being
written.
-/

namespace Stencil
namespace Command

/-- What all emitted files of a run share. -/
structure Settings where
  root : Bytes
  package : Option Bytes
  helpers : List Bytes

/-- Why a template is not written. -/
inductive TemplateError where
  | file (e : FileError)
  | build (e : BuildError)
  | write (e : WriteError)

namespace TemplateError

/-- The fault of the template, if that is the reason. -/
def diagnostic? : TemplateError → Option Diagnostic
  | build (.template d) => some d
  | _ => none

/-- The text of a failure in one line. -/
def message : TemplateError → Bytes
  | file e => e.message
  | build (.template d) => d.report.text
  | build (.emit e) => e.message
  | write e => e.message

end TemplateError

/-- The names under which the templates of a directory are called as partials. -/
def siblings (t : FileTree) (directory : Bytes) : Except FileError (List Bytes) := do
  let templates ← templatesIn t directory
  return templates.map fun name =>
    let base := FileName.base name
    (Bytes.before? ending base).getD base

/-- The file that a template in a tree is emitted as. -/
def emitted (s : Settings) (t : FileTree) (template : Bytes) : Except TemplateError Bytes := do
  let source ← (t.contentOf [] template).mapError .file
  let partials ← (siblings t (FileName.dir template)).mapError .file
  let name := FileName.relative s.root template
  (emitFile name source ⟨s.package, s.helpers, partials⟩).mapError .build

/-- The tree once the file of a template is written. -/
def generate (s : Settings) (t : FileTree) (template : Bytes) : Except TemplateError FileTree := do
  let content ← emitted s t template
  let (_, t) ← (writeGenerated (template ++ utf8 ".go") content t).mapError .write
  return t

/-- Templates written in order up to the first failure. -/
def generateAll (s : Settings) (t : FileTree) : List Bytes → Option TemplateError × FileTree
  | [] => (none, t)
  | template :: rest =>
    match generate s t template with
    | .ok t => generateAll s t rest
    | .error e => (some e, t)

/-- Templates written in order, each with its failure if it has one. -/
def generateEach (s : Settings) (t : FileTree) : List Bytes → List (Option TemplateError) × FileTree
  | [] => ([], t)
  | template :: rest =>
    let (failure, t) := match generate s t template with
      | .ok t => (none, t)
      | .error e => (some e, t)
    let (failures, t) := generateEach s t rest
    (failure :: failures, t)

/-- What a user is told about failures taken together: the first fault of a template among them, and
where there is none all messages. -/
def together (es : List TemplateError) : Report ⊕ Bytes :=
  match es.findSome? TemplateError.diagnostic? with
  | some d => .inl d.report
  | none => .inr (Bytes.join (utf8 "\n") (es.map TemplateError.message))

/-- What a user is told about a run: the failures before the last template together, and that of the
last template. -/
def told (failures : List (Option TemplateError)) : List (Report ⊕ Bytes) :=
  let earlier := failures.dropLast.filterMap id
  let last := (failures.getLast?.join).toList
  (if earlier.isEmpty then [] else [together earlier]) ++ last.map fun e => together [e]

/-- The outcome of the command. -/
structure Outcome where
  exitCode : Nat
  errors : Bytes
  tree : FileTree

/-- The outcome when a user is told something, or nothing. -/
def Outcome.of (style : Style) (tree : FileTree) (told : List (Report ⊕ Bytes)) : Outcome :=
  ⟨if told.isEmpty then 0 else 1, told.flatMap (announce style), tree⟩

/-- The names in a list with commas in between. -/
def helperNames (s : Bytes) : List Bytes :=
  ((Bytes.splitOn Ascii.comma s).map Text.trim).filter fun name => !name.isEmpty

/-- The directory that names of templates are relative to. -/
def findRoot (cwd : Bytes) (t : FileTree) (root : Bytes) : Except SelectError Bytes :=
  if root.isEmpty then
    match moduleRoot? t cwd with
    | some root => .ok (FileName.absolute cwd root)
    | none => .error (.noModule cwd)
  else .ok (FileName.absolute cwd root)

/-- Runs the command with settings on one directory. -/
def runDirectory (style : Style) (s : Settings) (t : FileTree) (directory : Bytes) : Outcome :=
  match templatesIn t directory with
  | .error e => .of style t [.inr e.message]
  | .ok templates =>
    let (failure, t) := generateAll s t templates
    .of style t (failure.toList.map fun e => together [e])

/-- Runs the command with settings on patterns. -/
def runPatterns (style : Style) (s : Settings) (cwd : Bytes) (t : FileTree)
    (patterns : List Bytes) : Outcome :=
  match select cwd t (if patterns.isEmpty then [utf8 "./..."] else patterns) with
  | .error e => .of style t [.inr e.message]
  | .ok templates =>
    let (failures, t) := generateEach s t templates
    .of style t (told failures)

/-- Runs the command in a working directory of a tree. -/
def run (style : Style) (arguments : List Bytes) (cwd : Bytes) (t : FileTree) : Outcome :=
  match Flags.read {} arguments with
  | .error e => ⟨e.exitCode, e.message, t⟩
  | .ok flags =>
    match findRoot cwd t flags.root with
    | .error e => .of style t [.inr e.message]
    | .ok root =>
      let package := Text.trim flags.package
      let s : Settings :=
        ⟨root, if package.isEmpty then none else some package, helperNames flags.helpers⟩
      let directory := Text.trim flags.dir
      if directory.isEmpty then runPatterns style s cwd t flags.patterns
      else if flags.patterns.isEmpty then runDirectory style s t (FileName.absolute cwd directory)
      else .of style t [.inr SelectError.exclusive.message]

end Command
end Stencil
