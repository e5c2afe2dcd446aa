import Stencil.Helper
import Stencil.Program

/-!
# Rendering

Running a program on data.  The steps are run in order; a call of a helper runs its actions, and a
call of a partial runs the program of the partial in a context of its own.

The first failure stays: once it is recorded, no helper and no partial is called any more.  How many
partial calls are active is counted, and a bound on it turns endless recursion into a failure.  What
happens is noted in a log.

Input: a registry of helpers and programs, a bound, and fuel for the nesting of partial calls.  With
a bound the fuel is the bound, and it never runs out; without one it is a parameter.
-/

namespace Stencil

/-- What a run notes. -/
inductive Event where
  /-- A helper is called. -/
  | helper (name : Bytes) (arguments : Arguments) (scope : Scope)
  /-- A partial is called while `depth` calls of partials are active. -/
  | inclusion (name : Bytes) (data : Value) (depth : Nat)
  /-- A helper gets back what a section of its block gave. -/
  | returned (part : Section) (outcome : Except RenderError (List Node))
  /-- A failure is recorded. -/
  | failed (error : RenderError)

/-- The state of a run: the first failure, how many partial calls are active, and what happened so
far, the last event first. -/
structure Run where
  failure : Option RenderError := none
  active : Nat := 0
  log : List Event := []

/-- An event noted. -/
def Run.note (e : Event) (r : Run) : Run := { r with log := e :: r.log }

/-- A failure recorded unless there is one already. -/
def Run.fail (e : RenderError) (r : Run) : Run :=
  match r.failure with
  | none => { r.note (.failed e) with failure := some e }
  | some _ => r

/-- Something that renders in contexts. -/
abbrev Render := Scope → Run → List Node × Run

/-- What a program can call: helpers, and partials that render. -/
structure Linkage where
  helper : Bytes → Option Helper
  inclusion : Bytes → Option Render
  bound : Option Nat

namespace Render

/-- Renders nothing. -/
def nothing : Render := fun _ r => ([], r)

/-- Renders one after the other. -/
def append (f g : Render) : Render := fun s r =>
  let (ns, r) := f s r
  let (ms, r) := g s r
  (ns ++ ms, r)

/-- Renders a section of a block for a helper: nothing when the section is missing or a failure is
recorded, and no nodes when it fails. -/
def enter (part : Option Render) (inner : Value) (outer : Scope) (metadata : Metadata) (r : Run) :
    Except RenderError (List Node) × Run :=
  match r.failure, part with
  | some e, _ => (.error e, r)
  | none, none => (.ok [], r)
  | none, some f =>
    let (ns, r) := f (outer.push inner metadata) r
    match r.failure with
    | some e => (.error e, r)
    | none => (.ok ns, r)

/-- Runs the actions of a helper up to its result. -/
def perform (body : Render) (inverse : Option Render) :
    Action → Run → Except RenderError Datum × Run
  | .done result, r => (.ok result, r)
  | .fail e, r => (.error e, r)
  | .render part inner outer metadata next, r =>
    let chosen := match part with
      | .body => some body
      | .inverse => inverse
    let (outcome, r) := enter chosen inner outer metadata r
    perform body inverse (next outcome) (r.note (.returned part outcome))

/-- Calls a helper with a body and an `else` section. -/
def block (l : Linkage) (name : Bytes) (arguments : Scope → Arguments) (body : Render)
    (inverse : Option Render) : Render := fun s r =>
  match r.failure with
  | some _ => ([], r)
  | none =>
    match l.helper name with
    | none => ([], r.fail (.unknownHelper name))
    | some helper =>
      let a := arguments s
      let r := r.note (.helper name a s)
      let (result, r) := perform body inverse (helper a s inverse.isSome) r
      match result with
      | .error e => ([], r.fail (.within name e))
      | .ok d =>
        match r.failure, d.splice with
        | some _, _ => ([], r)
        | none, .ok ns => (ns, r)
        | none, .error type => ([], r.fail (.within name (.unsupported type)))

/-- The data that a partial is called with: parameters override fields. -/
def includedData (base : Value) (parameters : List (Bytes × Value)) : Value :=
  if parameters.isEmpty then base else Value.merge [base, Value.object parameters]

/-- Calls a partial with data. -/
def inclusion (l : Linkage) (name : Bytes) (base : Value) (parameters : List (Bytes × Value))
    (r : Run) : List Node × Run :=
  match r.failure with
  | some _ => ([], r)
  | none =>
    match l.inclusion name with
    | none => ([], r.fail (.unknownPartial name))
    | some f =>
      if l.bound.any (· ≤ r.active) then ([], r.fail (.recursion name r.active))
      else
        let data := includedData base parameters
        let r := r.note (.inclusion name data r.active)
        let (ns, r) := f (Scope.root data) { r with active := r.active + 1 }
        (ns, { r with active := r.active - 1 })

end Render

/-- The value of a literal. -/
def Literal.value : Literal → Value
  | text s => .text s
  | int n => .int n
  | float x => .float x
  | bool b => .bool b
  | null => .null

/-- The value of a constant. -/
def Constant.value : Constant → Value
  | written l => l.value
  | tally n => .int n

/-- The value of an operand in contexts. -/
def Operand.value (s : Scope) : Input → Value
  | .path p => s.lookup p
  | .literal c => c.value

/-- The values of named operands in contexts. -/
def namedValues (s : Scope) (named : List (Bytes × Input)) : List (Bytes × Value) :=
  named.map fun a => (a.1, a.2.value s)

mutual

/-- What a step renders.  An element takes the texts of its attributes, then the text of its name,
then its children. -/
def Op.render (l : Linkage) : Op → Render
  | .literal v => fun _ r => ([.text v], r)
  | .interpolation p => fun s r => ((s.lookup p).display, r)
  | .element name attributes children => fun s r =>
    let (as, r) := Op.renderAttributes l attributes s r
    let (tag, r) := Op.renderAll l name s r
    let (ns, r) := Op.renderAll l children s r
    ([.element (Node.textOf tag) as ns], r)
  | .block name arguments named body inverse _ =>
    Render.block l name (fun s => ⟨arguments.map (Operand.value s), namedValues s named⟩)
      (Op.renderAll l body) (Op.renderInverse l inverse)
  | .inclusion name context parameters => fun s r =>
    Render.inclusion l name (context.elim s.data s.lookup) (namedValues s parameters) r
  | .unknown => Render.nothing

/-- What steps render one after the other. -/
def Op.renderAll (l : Linkage) : List Op → Render
  | [] => Render.nothing
  | op :: rest => Render.append (Op.render l op) (Op.renderAll l rest)

/-- The attributes of an element with the texts of their values. -/
def Op.renderAttributes (l : Linkage) :
    List (Bytes × List Op) → Scope → Run → List (Bytes × Bytes) × Run
  | [], _, r => ([], r)
  | (key, value) :: rest, s, r =>
    let (ns, r) := Op.renderAll l value s r
    let (as, r) := Op.renderAttributes l rest s r
    ((key, Node.textOf ns) :: as, r)

/-- What the section behind an `else` renders. -/
def Op.renderInverse (l : Linkage) : Option (List Op) → Option Render
  | none => none
  | some ops => some (Op.renderAll l ops)

end

/-- Helpers by name, and partials with their programs. -/
structure Registry where
  helper : Bytes → Option Helper
  partialOps : Bytes → Option (List Op)

namespace Registry

/-- What programs can call when partial calls may nest `fuel` levels deep. -/
def link (reg : Registry) (bound : Option Nat) : (fuel : Nat) → Linkage
  | 0 =>
    { helper := reg.helper
      inclusion := fun name => (reg.partialOps name).map fun _ _ r => ([], r.fail .exhausted)
      bound := bound }
  | fuel + 1 =>
    { helper := reg.helper
      inclusion := fun name => (reg.partialOps name).map (Op.renderAll (reg.link bound fuel))
      bound := bound }

end Registry

/-- The outcome of a run: the nodes, unless a failure was recorded. -/
def outcome (result : List Node × Run) : Except RenderError (List Node) :=
  match result.2.failure with
  | some e => .error e
  | none => .ok result.1

/-- Runs steps on data.  A bound of zero stands for none.  Steps of no known kind are refused before
anything is run. -/
def render (reg : Registry) (bound fuel : Nat) (ops : List Op) (data : Value) :
    Except RenderError (List Node) :=
  let limit := if bound = 0 then none else some bound
  let fuel := if bound = 0 then fuel else bound
  if Op.allKnown ops then outcome (Op.renderAll (reg.link limit fuel) ops (Scope.root data) {})
  else .error .unknownStep

end Stencil
