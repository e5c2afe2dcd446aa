import Stencil.Node
import Stencil.Number.Written
import Stencil.Text.Glyph

/-!
# Values

What templates compute with: null, truth values, numbers, texts, trusted markup, records, lists and
rendered nodes.

A record lists its fields in order.  Beside them it may have aliases, further names under which
values are found but which are not listed.  Reading a property never fails: what is not there is
null.
-/

namespace Stencil

/-- A value. -/
inductive Value where
  | null
  | bool (b : Bool)
  | int (n : Int64)
  | float (x : Binary64)
  | text (s : Bytes)
  | html (markup : Bytes)
  | record (fields aliases : List (Bytes × Value))
  | list (items : List Value)
  | nodes (ns : List Node)

instance : Inhabited Value := ⟨.null⟩

/-- The shapes of values. -/
inductive Kind where
  | null
  | bool
  | number
  | text
  | html
  | record
  | list
  | nodes
deriving DecidableEq

namespace Kind

/-- The name of a shape. -/
def name : Kind → Bytes
  | null => utf8 "null"
  | bool => utf8 "bool"
  | number => utf8 "number"
  | text => utf8 "string"
  | html => utf8 "html"
  | record => utf8 "record"
  | list => utf8 "list"
  | nodes => utf8 "nodes"

/-- The shapes in the order of their codes. -/
def all : List Kind := [null, bool, number, text, html, record, list, nodes]

/-- The name of the shape with a code; a code without a shape names itself. -/
def nameOfCode (n : Nat) : Bytes :=
  match all[n]? with
  | some k => k.name
  | none => utf8 "kind(" ++ Bytes.decimal n ++ utf8 ")"

end Kind

namespace Fields

/-- A field set to a value: where the name is there already it keeps its place. -/
def insert {α : Type} (key : Bytes) (value : α) : List (Bytes × α) → List (Bytes × α)
  | [] => [(key, value)]
  | (k, v) :: rest => if k = key then (k, value) :: rest else (k, v) :: insert key value rest

/-- Fields set one after the other. -/
def insertAll {α : Type} (pairs fields : List (Bytes × α)) : List (Bytes × α) :=
  pairs.foldl (fun fs p => insert p.1 p.2 fs) fields

end Fields

namespace Value

/-- The shape of a value. -/
def kind : Value → Kind
  | null => .null
  | bool _ => .bool
  | int _ | float _ => .number
  | text _ => .text
  | html _ => .html
  | record .. => .record
  | list _ => .list
  | nodes _ => .nodes

/-- Whether a value counts as true: null, false, zero, the value that is no number, the empty text
and the empty list do not. -/
def truthy : Value → Bool
  | null => false
  | bool b => b
  | int n => n != 0
  | float x => x.isNonzero
  | text s | html s => !s.isEmpty
  | record .. => true
  | list items => !items.isEmpty
  | nodes ns => !ns.isEmpty

mutual

/-- The text of a value.  A list is its items' texts with commas in between; null and records have
no text. -/
def toText : Value → Bytes
  | null => []
  | bool b => utf8 (if b then "true" else "false")
  | int n => Bytes.decimalInt n.toInt
  | float x => x.plain
  | text s | html s => s
  | record .. => []
  | list items => Bytes.join [Ascii.comma] (toTexts items)
  | nodes ns => Node.textOf ns

/-- The texts of values. -/
def toTexts : List Value → List Bytes
  | [] => []
  | v :: rest => toText v :: toTexts rest

end

/-- The number that a value is. -/
def number? : Value → Option Binary64
  | int n => some (Binary64.ofInt n.toInt)
  | float x => some x
  | _ => none

/-- The value of a field of a record, found among its fields or else among its aliases. -/
def field? (fields aliases : List (Bytes × Value)) (key : Bytes) : Option Value :=
  (fields.lookup key).or (aliases.lookup key)

/-- A property of a value.  Lists and texts have a length, and the items of a list are found by
their index. -/
def get (key : Bytes) : Value → Value
  | record fields aliases => (field? fields aliases key).getD null
  | list items =>
    if key = utf8 "length" then int (Int64.ofNat items.length)
    else match Bytes.int64? key with
      | some i => if i < 0 then null else (items[i.toInt.toNat]?).getD null
      | none => null
  | text s | html s =>
    if key = utf8 "length" then int (Int64.ofNat (glyphs s).length) else null
  | _ => null

/-- The value as trusted markup; null and nodes stay what they are. -/
def trust : Value → Value
  | null => null
  | html s => html s
  | nodes ns => nodes ns
  | v => html v.toText

/-- The fields of a record in order, each with the value that is found under its name. -/
def entries : Value → List (Bytes × Value)
  | record fields aliases =>
    fields.map fun f => (f.1, (field? fields aliases f.1).getD null)
  | _ => []

/-- A record of pairs in order.  A repeated name keeps its first place and its last value. -/
def object (pairs : List (Bytes × Value)) : Value := record (Fields.insertAll pairs []) []

/-- A record of the fields of all records among some values; later values override earlier ones. -/
def merge (values : List Value) : Value := object (values.flatMap entries)

/-- What a value is shown as. -/
def display : Value → List Node
  | html s => [.raw s]
  | nodes ns => ns
  | v => [.text v.toText]

end Value
end Stencil
