import Stencil.Datum
import Stencil.Scope

/-!
# Helpers

A helper is called with arguments, the contexts of the call and the sections of its block.  What it
does is given as a tree of actions: it renders a section in a context of its choice and goes on with
what came out, and in the end it gives a result or fails.

The helpers that every engine has are `if`, `unless`, `with` and `each`.
-/

namespace Stencil

/-- Why rendering fails. -/
inductive RenderError where
  | unknownHelper (name : Bytes)
  | unknownPartial (name : Bytes)
  | recursion (name : Bytes) (depth : Nat)
  | notSequence (kind : Kind)
  | unsupported (type : Bytes)
  /-- A failure that a helper reports in its own words. -/
  | reported (message : Bytes)
  /-- A failure inside a call of a helper. -/
  | within (helper : Bytes) (cause : RenderError)
  /-- A program has a step of no known kind. -/
  | unknownStep
  /-- More nested calls than there was fuel for. -/
  | exhausted
deriving DecidableEq

namespace RenderError

/-- The text of a failure. -/
def message : RenderError → Bytes
  | unknownHelper name => utf8 "unknown helper: " ++ Text.quote name
  | unknownPartial name => utf8 "unknown partial: " ++ Text.quote name
  | recursion name depth =>
    utf8 "partial recursion too deep: " ++ Text.quote name ++ utf8 " nested " ++
      Bytes.decimal depth ++ utf8 " deep"
  | notSequence kind => utf8 "argument is not a sequence: got " ++ kind.name
  | unsupported type => utf8 "unsupported value: " ++ type
  | reported message => message
  | within helper cause => utf8 "helper " ++ Text.quote helper ++ utf8 ": " ++ cause.message
  | unknownStep => utf8 "compile: unknown op"
  | exhausted => utf8 "out of fuel"

/-- The failure without the calls around it. -/
def root : RenderError → RenderError
  | within _ cause => cause.root
  | e => e

end RenderError

/-- The arguments of a call: positional values in order, and named ones. -/
structure Arguments where
  positional : List Value := []
  named : List (Bytes × Value) := []

namespace Arguments

/-- A positional argument; null where there is none. -/
def nth (a : Arguments) (i : Int) : Value :=
  if i < 0 then .null else (a.positional[i.toNat]?).getD .null

/-- The named argument with a name, the last of several; null where there is none. -/
def get (a : Arguments) (name : Bytes) : Value := (a.named.reverse.lookup name).getD .null

/-- The named arguments as a record. -/
def record (a : Arguments) : Value := Value.object a.named

end Arguments

/-- The sections of a block. -/
inductive Section where
  | body
  | inverse
deriving DecidableEq

/-- What a helper does. -/
inductive Action where
  /-- It ends with a result. -/
  | done (result : Datum)
  /-- It ends with a failure. -/
  | fail (error : RenderError)
  /-- It renders a section with a value in view inside of some contexts, and goes on with the nodes
  or with the failure. -/
  | render (part : Section) (inner : Value) (outer : Scope) (metadata : Metadata)
      (next : Except RenderError (List Node) → Action)

/-- A helper: given the arguments, the contexts of the call and whether there is an `else`, what it
does. -/
abbrev Helper := Arguments → Scope → (hasInverse : Bool) → Action

namespace Action

/-- Renders a section and ends with what came out. -/
def showSection (part : Section) (inner : Value) (outer : Scope) : Action :=
  render part inner outer [] fun
    | .ok nodes => done (.nodes nodes)
    | .error e => fail e

/-- Renders the body once per element of a sequence, each in view with its metadata, and ends with
all nodes; the first failure ends it. -/
def showEach (outer : Scope) : List (Value × Metadata) → (shown : List Node) → Action
  | [], shown => done (.nodes shown)
  | (v, metadata) :: rest, shown =>
    render .body v outer metadata fun
      | .ok nodes => showEach outer rest (shown ++ nodes)
      | .error e => fail e

end Action

namespace Helper

/-- Renders the body if the argument counts as true, with the argument in view if it is a record,
and the `else` section otherwise. -/
def ifHelper : Helper := fun a s _ =>
  let arg := a.nth 0
  if arg.truthy then
    .showSection .body (if arg.kind = .record then arg else s.data) s
  else .showSection .inverse s.data s

/-- Renders the body unless the argument counts as true, and the `else` section otherwise. -/
def unlessHelper : Helper := fun a s _ =>
  if (a.nth 0).truthy then .showSection .inverse s.data s else .showSection .body s.data s

/-- Renders the body with the argument in view if it counts as true, and the `else` section
otherwise. -/
def withHelper : Helper := fun a s _ =>
  let arg := a.nth 0
  if arg.truthy then .showSection .body arg s else .showSection .inverse s.data s

/-- The items of a list with the metadata of their places. -/
def listPasses (items : List Value) : List (Value × Metadata) :=
  items.mapIdx fun i v => (v, iterationMetadata i items.length)

/-- The fields of a record with the metadata of their places and their keys. -/
def recordPasses (entries : List (Bytes × Value)) : List (Value × Metadata) :=
  entries.mapIdx fun i e => (e.2, iterationMetadata i entries.length ++ [(utf8 "key", .text e.1)])

/-- Renders the body once per item of a list or field of a record.  What counts as false and a
record without fields renders the `else` section. -/
def eachHelper : Helper := fun a s _ =>
  let arg := a.nth 0
  if arg.truthy then
    match arg with
    | .list items => .showEach s (listPasses items) []
    | .record fields aliases =>
      if fields.isEmpty then .showSection .inverse s.data s
      else .showEach s (recordPasses (Value.record fields aliases).entries) []
    | v => .fail (.notSequence v.kind)
  else .showSection .inverse s.data s

/-- The helpers that every engine has. -/
def builtins : List (Bytes × Helper) :=
  [(utf8 "if", ifHelper), (utf8 "unless", unlessHelper), (utf8 "each", eachHelper),
   (utf8 "with", withHelper)]

end Helper
end Stencil
