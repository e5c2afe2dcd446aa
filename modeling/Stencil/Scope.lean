import Stencil.Path
import Stencil.Value

/-!
# Scopes

The contexts that a template is in, innermost first.  Each has the value in view and the metadata
that a helper has attached to it.

Result: `Scope.lookup`, the value that a path leads to.  What is not there is null.
-/

namespace Stencil

/-- Named values that a helper attaches to a context. -/
abbrev Metadata := List (Bytes × Value)

/-- One context: the value in view and its metadata. -/
structure Frame where
  data : Value
  metadata : Metadata := []

/-- The contexts from the innermost to the outermost.  There may be none. -/
abbrev Scope := List Frame

namespace Scope

/-- The outermost context alone. -/
def root (data : Value) : Scope := [{ data }]

/-- A context inside of others. -/
def push (data : Value) (metadata : Metadata) (s : Scope) : Scope := ⟨data, metadata⟩ :: s

/-- The value in view. -/
def data : Scope → Value
  | [] => .null
  | f :: _ => f.data

/-- The contexts further out. -/
def parent (s : Scope) : Scope := s.tail

/-- The outermost context. -/
def outermost (s : Scope) : Scope := s.getLast?.toList

/-- A metadata variable of the innermost context that has it. -/
def metadata (name : Bytes) : Scope → Value
  | [] => .null
  | f :: rest =>
    match f.metadata.lookup name with
    | some v => v
    | none => metadata name rest

/-- The value that a path starts from in the contexts that it climbs to. -/
def start (p : Path) (s : Scope) : Value :=
  match p.metadata with
  | none => s.data
  | some name => if name = utf8 "root" then s.outermost.data else s.metadata name

/-- The value that a path leads to. -/
def lookup (p : Path) (s : Scope) : Value :=
  let v := p.segments.foldl (fun v key => v.get key) (start p (s.drop p.hops.toNat))
  if p.trusted then v.trust else v

end Scope

/-- The metadata of the element at an index of a sequence. -/
def iterationMetadata (index count : Nat) : Metadata :=
  [(utf8 "index", .int (Int64.ofNat index)), (utf8 "first", .bool (index = 0)),
   (utf8 "last", .bool (index + 1 = count))]

end Stencil
