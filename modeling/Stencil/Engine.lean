import Stencil.Code.Source
import Stencil.Compile
import Stencil.Render

/-!
# Engines

An engine holds the helpers and partials that templates are checked against when they are compiled
and that they call when they are rendered.  What happens to its registries is written to its log.

Results: `Engine.compile` and `Engine.loadPartials` turn sources into programs, `Engine.render` runs
a program, and `Engine.emit` gives the file that a template is emitted as.
-/

namespace Stencil

/-- What an engine notes in its log. -/
inductive Notice where
  | registered (name : Bytes)
  | loaded (count : Nat)
  | program (name code : Bytes)
deriving DecidableEq

/-- The lines of a notice. -/
def Notice.text : Notice → Bytes
  | registered name => utf8 "hbx: registered partial " ++ Text.quote name ++ utf8 "\n"
  | loaded count => utf8 "hbx: loaded " ++ Bytes.decimal count ++ utf8 " partials\n"
  | program name code =>
    let text := utf8 "hbx: program for " ++ name ++ utf8 ":\n" ++ code
    if text.getLast? = some Ascii.newline then text else text ++ utf8 "\n"

/-- Helpers, the programs of partials, and how templates are read and run. -/
structure Engine where
  helpers : List (Bytes × Helper) := Helper.builtins
  partials : List (Bytes × List Op) := []
  /-- How many partial calls may be active at once; no limit unless positive. -/
  maxDepth : Int := 64
  keepWhitespace : Bool := false
  log : List Notice := []
  /-- How emitted files are laid out. -/
  format : Source.Formatter := Source.tidy

/-- What can go wrong with a template before it is rendered. -/
inductive BuildError where
  | template (d : Diagnostic)
  | emit (e : EmitError)

/-- What can go wrong when partials are loaded: their source breaks off, or a template is at
fault. -/
inductive LoadError where
  | source (message : Bytes)
  | template (d : Diagnostic)

/-- The text of a failed loading. -/
def LoadError.message : LoadError → Bytes
  | source m => utf8 "error loading partials: " ++ m
  | template d => d.report.text

namespace Engine

/-- Whether a name is that of a helper. -/
def hasHelper (e : Engine) (name : Bytes) : Bool := (e.helpers.lookup name).isSome

/-- Whether a name is that of a partial. -/
def hasPartial (e : Engine) (name : Bytes) : Bool := (e.partials.lookup name).isSome

/-- A helper registered in place of any other of its name. -/
def registerHelper (name : Bytes) (helper : Helper) (e : Engine) : Engine :=
  { e with helpers := Fields.insert name helper e.helpers }

/-- The steps of a partial registered in place of any other of its name. -/
def registerPartial (name : Bytes) (ops : List Op) (e : Engine) : Engine :=
  { e with
    partials := Fields.insert name ops e.partials
    log := e.log ++ [.registered name] }

/-- Compiles a template that may also call partials with further names. -/
def compileWith (e : Engine) (further : Bytes → Bool) (name source : Bytes) :
    Except Diagnostic Program :=
  Stencil.compile ⟨e.hasHelper, e.keepWhitespace⟩
    ⟨e.hasHelper, fun n => further n || e.hasPartial n⟩ name source

/-- Compiles a template. -/
def compile (e : Engine) (name source : Bytes) : Except Diagnostic Program :=
  e.compileWith (fun _ => false) name source

/-- The name of a template that is given none. -/
def unnamed : Bytes := utf8 "[template]"

/-- Compiles a template and notes the code of its program in the log. -/
def compileNoting (e : Engine) (name source : Bytes) : Except BuildError (Program × Engine) := do
  let p ← (e.compile name source).mapError .template
  let code ← (Source.fileOf e.format p (utf8 "main") (utf8 "Render")).mapError .emit
  return (p, { e with log := e.log ++ [.program name code] })

/-- Compiles a source and registers it as a partial. -/
def registerSource (name source : Bytes) (e : Engine) : Except Diagnostic Engine := do
  let p ← e.compile name source
  return e.registerPartial name p.ops

/-- The programs of named sources, in the order of their names; the sources may call each other. -/
def compileAll (e : Engine) (sources : List (Bytes × Bytes)) :
    Except Diagnostic (List (Bytes × List Op)) :=
  (Datum.sorted sources).mapM fun s => do
    let p ← e.compileWith (fun n => (sources.lookup n).isSome) s.1 s.2
    return (s.1, p.ops)

/-- Compiles named sources, which may call each other, and registers all of them.  Of several
sources with one name the last counts.  Where the enumeration of the sources fails or one does not
compile, none is registered. -/
def loadPartials (sources : Except Bytes (List (Bytes × Bytes))) (e : Engine) :
    Except LoadError Engine := do
  let sources ← sources.mapError .source
  let compiled ← (e.compileAll (Fields.insertAll sources [])).mapError .template
  return { e with
    partials := Fields.insertAll compiled e.partials
    log := e.log ++ [.loaded compiled.length] }

/-- The registries as programs use them. -/
def registry (e : Engine) : Registry := ⟨fun n => e.helpers.lookup n, fun n => e.partials.lookup n⟩

/-- The nesting of partial calls that a run without a limit has fuel for. -/
def fuel : Nat := 100000

/-- Runs steps on data. -/
def render (e : Engine) (ops : List Op) (data : Datum) : Except RenderError (List Node) :=
  Stencil.render e.registry e.maxDepth.toNat fuel ops data.toValue

/-- What a file is emitted from: the name of the template, the package, and the function. -/
structure Emission where
  name : Bytes := unnamed
  package : Bytes := utf8 "templates"
  function : Bytes := utf8 "Render"

/-- The file that a template is emitted as. -/
def emit (e : Engine) (source : Bytes) (out : Emission) : Except BuildError Bytes := do
  let p ← (e.compile out.name source).mapError .template
  (Source.fileOf e.format p out.package out.function).mapError .emit

end Engine

/-- What a template file may call when it is emitted without an engine, and the package if one is
given; the helpers that every engine has are declared anyway. -/
structure Declarations where
  package : Option Bytes := none
  helpers : List Bytes := []
  partials : List Bytes := []

/-- The file that the template in a file is emitted as: the function is named after the file, and
the package after its directory unless one is given. -/
def emitFile (path source : Bytes) (d : Declarations) : Except BuildError Bytes := do
  let isHelper (name : Bytes) : Bool := ({} : Engine).hasHelper name || d.helpers.contains name
  let p ← (Stencil.compile ⟨isHelper, false⟩ ⟨isHelper, d.partials.contains⟩ path source).mapError
    .template
  let package := d.package.getD (FileName.base (FileName.dir path))
  (Source.ofProgram p package (Identifier.ofFile path)).mapError .emit

end Stencil
