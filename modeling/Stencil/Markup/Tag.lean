import Stencil.Text.Entity

/-!
# Tags

Reading a tag from the byte behind its name up to the closing angle bracket.

Algorithm: one pass over the bytes with a state that says which part of the tag is being read.
A slash between attributes is ignored; an equals sign belongs to the key when it is the key's first
byte; a value is quoted, or bare up to the next white space or angle bracket.
-/

namespace Stencil
namespace Markup

/-- An attribute as it is written in the source. -/
structure Attribute where
  key : Bytes
  value : Bytes
deriving DecidableEq

/-- Whether a byte separates the parts of a tag. -/
def isSpace (b : UInt8) : Bool :=
  b == Ascii.blank || b == Ascii.newline || b == Ascii.carriageReturn || b == Ascii.tab ||
    b == Ascii.formFeed

/-- Which part of a tag is being read. -/
inductive TagState where
  | between
  | key (key : Bytes)
  | afterKey (key : Bytes)
  | beforeValue (key : Bytes)
  | quoted (key : Bytes) (mark : UInt8) (value : Bytes)
  | bare (key value : Bytes)

/-- An attribute in front of the ones that follow it. -/
def prepend (key value : Bytes) (tail : Option (List Attribute × Bytes)) :
    Option (List Attribute × Bytes) :=
  tail.map fun (attributes, rest) => (⟨key, value⟩ :: attributes, rest)

/-- The attributes of a tag and what follows the tag; nothing when the input ends inside it. -/
def readTag : TagState → Bytes → Option (List Attribute × Bytes)
  | _, [] => none
  | .between, b :: s =>
    if isSpace b ∨ b = Ascii.slash then readTag .between s
    else if b = Ascii.greater then some ([], s)
    else readTag (.key [b]) s
  | .key k, b :: s =>
    if b = Ascii.equals then readTag (.beforeValue k) s
    else if isSpace b then readTag (.afterKey k) s
    else if b = Ascii.slash then prepend k [] (readTag .between s)
    else if b = Ascii.greater then some ([⟨k, []⟩], s)
    else readTag (.key (k ++ [b])) s
  | .afterKey k, b :: s =>
    if isSpace b then readTag (.afterKey k) s
    else if b = Ascii.equals then readTag (.beforeValue k) s
    else if b = Ascii.slash then prepend k [] (readTag .between s)
    else if b = Ascii.greater then some ([⟨k, []⟩], s)
    else prepend k [] (readTag (.key [b]) s)
  | .beforeValue k, b :: s =>
    if isSpace b then readTag (.beforeValue k) s
    else if b = Ascii.greater then some ([⟨k, []⟩], s)
    else if b = Ascii.quote ∨ b = Ascii.apostrophe then readTag (.quoted k b []) s
    else readTag (.bare k [b]) s
  | .quoted k mark v, b :: s =>
    if b = mark then prepend k v (readTag .between s) else readTag (.quoted k mark (v ++ [b])) s
  | .bare k v, b :: s =>
    if isSpace b then prepend k v (readTag .between s)
    else if b = Ascii.greater then some ([⟨k, v⟩], s)
    else readTag (.bare k (v ++ [b])) s

/-- Whether a byte can be part of a tag's name. -/
def isNameByte (b : UInt8) : Bool := !(isSpace b || b == Ascii.slash || b == Ascii.greater)

/-- Line ends as single line feeds. -/
def unixNewlines : Bytes → Bytes
  | [] => []
  | Ascii.carriageReturn :: Ascii.newline :: s => Ascii.newline :: unixNewlines s
  | Ascii.carriageReturn :: s => Ascii.newline :: unixNewlines s
  | b :: s => b :: unixNewlines s

/-- An attribute as it is meant: the key in lower case, the value with its line ends unified and
its character references decoded. -/
def Attribute.meaning (a : Attribute) : Attribute :=
  ⟨a.key.map Ascii.toLower, Entity.decode .attribute (unixNewlines a.value)⟩

section Length

/-- Reading a tag consumes input. -/
theorem length_of_readTag {st : TagState} {s rest : Bytes} {attributes : List Attribute}
    (h : readTag st s = some (attributes, rest)) : rest.length < s.length := by
  induction s generalizing st attributes with
  | nil => cases st <;> simp [readTag] at h
  | cons b s ih =>
    have step {k v : Bytes} {st' : TagState} (h : prepend k v (readTag st' s) =
        some (attributes, rest)) : rest.length < (b :: s).length := by
      simp only [prepend, Option.map_eq_some_iff] at h
      obtain ⟨⟨as, r⟩, hr, he⟩ := h
      simp only [Prod.mk.injEq] at he
      obtain ⟨-, rfl⟩ := he
      have := ih hr
      simp only [List.length_cons]
      omega
    have direct {st' : TagState} (h : readTag st' s = some (attributes, rest)) :
        rest.length < (b :: s).length := by
      have := ih h
      simp only [List.length_cons]
      omega
    have done {as : List Attribute} (h : some (as, s) = some (attributes, rest)) :
        rest.length < (b :: s).length := by
      simp only [Option.some.injEq, Prod.mk.injEq] at h
      obtain ⟨-, rfl⟩ := h
      simp
    cases st <;> simp only [readTag] at h <;> (repeat' split at h) <;>
      first | exact direct h | exact step h | exact done h

end Length

end Markup
end Stencil
