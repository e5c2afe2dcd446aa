import Stencil.Value

/-!
# Data

What a host program passes to a template, and how it is classified.  Maps list their keys in the
order of their bytes, structures their exported fields, and some data have no template
representation; within other data these count as null.

Results: `Datum.value?` classifies a datum, and `Datum.splice` says what it is shown as.
-/

namespace Stencil

/-- Data of a host program. -/
inductive Datum where
  | null
  | bool (b : Bool)
  | int (n : Int64)
  | natural (n : UInt64)
  | float (x : Binary64)
  | text (s : Bytes)
  | html (markup : Bytes)
  | nodes (ns : List Node)
  | value (v : Value)
  | list (items : List Datum)
  /-- Entries in no order of their own. -/
  | map (entries : List (Bytes × Datum))
  /-- Pairs in order, where a repeated name keeps its first place and its last value. -/
  | object (pairs : List (Bytes × Datum))
  /-- Pairs in order, where all names are listed and the first of several is found. -/
  | dictionary (pairs : List (Bytes × Datum))
  /-- Exported fields in order: the name of the field, its tag if it has one, and its value. -/
  | struct (fields : List (Bytes × Option Bytes × Datum))
  /-- A datum of a type without a template representation. -/
  | unsupported (type : Bytes)

instance : Inhabited Datum := ⟨.null⟩

namespace Datum

/-- The key that a tag gives to a field, up to the first comma; the name of the field when the tag
has none.  A field tagged with a hyphen has no key. -/
def fieldKey? (name : Bytes) (tag : Option Bytes) : Option Bytes :=
  let key := (tag.getD []).takeWhile (· != Ascii.comma)
  if key.isEmpty then some name else if key = utf8 "-" then none else some key

/-- The keys of a structure so far, and the values found under keys and names. -/
abbrev Index := List Bytes × List (Bytes × Value)

/-- A field added: its key is listed and found, and its name is found unless it is taken. -/
def indexField (index : Index) (name : Bytes) (tag : Option Bytes) (v : Value) : Index :=
  match fieldKey? name tag with
  | none => index
  | some key =>
    let found := Fields.insert key v index.2
    (index.1 ++ [key], if (found.lookup name).isSome then found else found ++ [(name, v)])

/-- The record of a structure. -/
def ofIndex (index : Index) : Value :=
  .record (index.1.map fun key => (key, (index.2.lookup key).getD .null))
    (index.2.filter fun entry => !index.1.contains entry.1)

/-- Entries in the order of their keys. -/
def sorted {α : Type} (entries : List (Bytes × α)) : List (Bytes × α) :=
  entries.mergeSort fun a b => Bytes.le a.1 b.1

mutual

/-- The value that a datum stands for, when it has a template representation.  A natural number
above the largest integer becomes a floating-point number. -/
def value? : Datum → Option Value
  | null => some .null
  | bool b => some (.bool b)
  | int n => some (.int n)
  | natural n =>
    some (if n.toNat < Nat.pow 2 63 then .int (Int64.ofNat n.toNat)
      else .float (Binary64.ofInt n.toNat))
  | float x => some (.float x)
  | text s => some (.text s)
  | html s => some (.html s)
  | nodes ns => some (.nodes ns)
  | value v => some v
  | list items => some (.list (values items))
  | map entries => some (.record (sorted (pairs entries)) [])
  | object ps => some (Value.object (pairs ps))
  | dictionary ps => some (.record (pairs ps) [])
  | struct fields => some (ofIndex (indexed ([], []) fields))
  | unsupported _ => none

/-- The values of data. -/
def values : List Datum → List Value
  | [] => []
  | d :: rest => (value? d).getD .null :: values rest

/-- The values of named data. -/
def pairs : List (Bytes × Datum) → List (Bytes × Value)
  | [] => []
  | (k, d) :: rest => (k, (value? d).getD .null) :: pairs rest

/-- The fields of a structure added to an index. -/
def indexed (index : Index) : List (Bytes × Option Bytes × Datum) → Index
  | [] => index
  | (name, tag, d) :: rest => indexed (indexField index name tag ((value? d).getD .null)) rest

end

/-- The value that a datum stands for; one without a template representation is null. -/
def toValue (d : Datum) : Value := (value? d).getD .null

/-- The nodes that a datum is shown as, or the name of its type when it has no template
representation.  Null shows nothing. -/
def splice : Datum → Except Bytes (List Node)
  | unsupported type => .error type
  | d =>
    match d.toValue with
    | .null => .ok []
    | v => .ok v.display

end Datum
end Stencil
