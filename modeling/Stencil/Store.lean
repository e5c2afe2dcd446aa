import Stencil.Bytes

/-!
# Stores

A store keeps the sources of partials and the files emitted for them: two tables from names to
contents, both in the order of the names.
-/

namespace Stencil

/-- Entries in the strictly increasing order of their keys. -/
abbrev Table := List (Bytes × Bytes)

/-- Why a store refuses. -/
inductive StoreError where
  | keyRequired
  | keyTooLarge
  | noPartial
  | noProgram
deriving DecidableEq

/-- The text of a refusal. -/
def StoreError.message : StoreError → Bytes
  | keyRequired => utf8 "key required"
  | keyTooLarge => utf8 "key too large"
  | noPartial => utf8 "no such partial"
  | noProgram => utf8 "no such program"

namespace Table

/-- The length that no key exceeds. -/
def maxKey : Nat := 32768

/-- An entry in its place, instead of any other with its key. -/
def insert (key value : Bytes) : Table → Table
  | [] => [(key, value)]
  | (k, v) :: rest =>
    if k = key then (key, value) :: rest
    else if Bytes.le key k then (key, value) :: (k, v) :: rest
    else (k, v) :: insert key value rest

/-- An entry in its place, when its key is neither empty nor too long. -/
def put (key value : Bytes) (t : Table) : Except StoreError Table :=
  if key.isEmpty then .error .keyRequired
  else if maxKey < key.length then .error .keyTooLarge
  else .ok (insert key value t)

/-- The table without a key. -/
def erase (key : Bytes) (t : Table) : Table := t.filter fun entry => entry.1 != key

end Table

/-- The sources of partials and the files emitted for them. -/
structure Store where
  partials : Table := []
  programs : Table := []

namespace Store

/-- The source of a partial. -/
def partialSource (name : Bytes) (s : Store) : Except StoreError Bytes :=
  match s.partials.lookup name with
  | some source => .ok source
  | none => .error .noPartial

/-- The file emitted for a partial. -/
def program (name : Bytes) (s : Store) : Except StoreError Bytes :=
  match s.programs.lookup name with
  | some code => .ok code
  | none => .error .noProgram

/-- A partial saved. -/
def setPartial (name source : Bytes) (s : Store) : Except StoreError Store := do
  return { s with partials := ← s.partials.put name source }

/-- The file emitted for a partial saved. -/
def setProgram (name code : Bytes) (s : Store) : Except StoreError Store := do
  return { s with programs := ← s.programs.put name code }

/-- A partial removed, and the file emitted for it. -/
def erase (name : Bytes) (s : Store) : Store :=
  ⟨s.partials.erase name, s.programs.erase name⟩

/-- The partials with their sources and the files emitted for them. -/
def listing (s : Store) : List (Bytes × Bytes × Option Bytes) :=
  s.partials.map fun p => (p.1, p.2, s.programs.lookup p.1)

end Store
end Stencil
