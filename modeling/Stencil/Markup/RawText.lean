import Stencil.Markup.Tag

/-!
# Raw text

The content of some elements is text up to their end tag, whatever markup it seems to hold.  The
content of a script follows longer rules: inside a comment, a nested script start tag hides the next
script end tag.

Results: `rawRun` and `scriptRun` split the input into the content and what follows it.
-/

namespace Stencil
namespace Markup

/-- The elements whose content is raw text. -/
def rawNames : List Bytes :=
  ["iframe", "noembed", "noframes", "noscript", "plaintext", "script", "style", "textarea", "title",
   "xmp"].map utf8

/-- Whether a byte can follow a name so that the name is complete. -/
def endsName (b : UInt8) : Bool := !isNameByte b

/-- Whether the input begins with a name, in any case, that is complete. -/
def startsName (name s : Bytes) : Bool :=
  (s.take name.length).map Ascii.toLower == name && ((s.drop name.length).head?).any endsName

/-- Whether the input begins with the end tag of an element. -/
def startsEndTag (name : Bytes) : Bytes → Bool
  | Ascii.less :: Ascii.slash :: s => startsName name s
  | _ => false

/-- The input up to the end tag of an element, and the rest. -/
def rawRun (name : Bytes) : Bytes → Bytes × Bytes
  | [] => ([], [])
  | b :: s =>
    if startsEndTag name (b :: s) then ([], b :: s)
    else
      let (content, rest) := rawRun name s
      (b :: content, rest)

/-- How far the content of a script is inside a comment and inside a nested script, with the number
of dashes just read, two standing for more. -/
inductive ScriptState where
  | plain
  | comment (dashes : Nat)
  | nested (dashes : Nat)

/-- The name of script elements. -/
def scriptName : Bytes := utf8 "script"

/-- The state after a byte that opens and closes nothing. -/
def ScriptState.next : ScriptState → UInt8 → ScriptState
  | .plain, _ => .plain
  | .comment n, b =>
    if b = Ascii.minus then .comment (min (n + 1) 2)
    else if b = Ascii.greater ∧ n = 2 then .plain
    else .comment 0
  | .nested n, b =>
    if b = Ascii.minus then .nested (min (n + 1) 2)
    else if b = Ascii.greater ∧ n = 2 then .plain
    else .nested 0

/-- What an angle bracket that opens a tag does: how many more bytes belong to it, and the state
behind them. -/
def ScriptState.angle : ScriptState → Bytes → Nat × ScriptState
  | .plain, s => if Bytes.startsWith (utf8 "!--") s then (3, .comment 2) else (0, .plain)
  | .comment _, s =>
    match s with
    | [] => (0, .comment 0)
    | c :: _ =>
      if startsName scriptName s then (scriptName.length + 1, .nested 0)
      else if c = Ascii.slash ∨ Ascii.isLetter c then (0, .comment 0)
      else (0, .plain)
  | .nested _, s =>
    if startsEndTag scriptName (Ascii.less :: s) then (scriptName.length + 2, .comment 0)
    else (0, .nested 0)

/-- Whether an end tag is hidden in a state. -/
def ScriptState.hides : ScriptState → Bool
  | .nested _ => true
  | _ => false

/-- The content of a script up to its end tag, and the rest; `skip` bytes are content already. -/
def scriptRun : ScriptState → (skip : Nat) → Bytes → Bytes × Bytes
  | _, _, [] => ([], [])
  | st, n + 1, b :: s =>
    let (content, rest) := scriptRun st n s
    (b :: content, rest)
  | st, 0, b :: s =>
    if startsEndTag scriptName (b :: s) && !st.hides then ([], b :: s)
    else
      let (n, st') := if b = Ascii.less then st.angle s else (0, st.next b)
      let (content, rest) := scriptRun st' n s
      (b :: content, rest)

/-- The content of a raw-text element, and the rest; plain text never ends. -/
def contentOf (name s : Bytes) : Bytes × Bytes :=
  if name = utf8 "plaintext" then (s, [])
  else if name = scriptName then scriptRun .plain 0 s
  else rawRun name s

section Append

/-- The content and the rest are the input. -/
theorem rawRun_append (name s : Bytes) : (rawRun name s).1 ++ (rawRun name s).2 = s := by
  induction s with
  | nil => rfl
  | cons b s ih =>
    rw [rawRun]
    split
    · rfl
    · simp [ih]

/-- The content and the rest are the input. -/
theorem scriptRun_append (st : ScriptState) (n : Nat) (s : Bytes) :
    (scriptRun st n s).1 ++ (scriptRun st n s).2 = s := by
  induction s generalizing st n with
  | nil => cases n <;> rfl
  | cons b s ih =>
    cases n with
    | succ n => simp [scriptRun, ih]
    | zero =>
      rw [scriptRun]
      split
      · rfl
      · simp [ih]

/-- The content and the rest are the input. -/
theorem contentOf_append (name s : Bytes) : (contentOf name s).1 ++ (contentOf name s).2 = s := by
  rw [contentOf]
  split
  · simp
  · split
    · exact scriptRun_append .plain 0 s
    · exact rawRun_append name s

end Append

end Markup
end Stencil
