import Stencil.Fragment
import Stencil.Proofs.Offset.Argument
import Stencil.Proofs.Text.Blank

/-!
# Expressions by offsets

What an expression means, read with offsets.  The sign at the front of its body is taken after a
test that the body is not empty.  The first token of a body without a sign is taken without a test;
there is one, since a trimmed body does not begin with white space.

Result: `ofExpression_eq`.
-/

namespace Stencil
namespace Offset

/-! ## The first token -/

theorem extend_all_ne_nil
    {front : Bytes}
    (hfront : front ≠ [])
    (t : Argument.Tokens) :
    (t.extend front).all ≠ [] := by
  unfold Argument.Tokens.all Argument.Tokens.extend
  split
  · next h =>
      exact absurd (List.append_eq_nil_iff.1 (List.isEmpty_iff.1 h)).1 hfront
  · exact List.cons_ne_nil _ _

theorem splitFrom_begins
    {b : UInt8} {rest : Bytes}
    (hb : Argument.isSpace b = false) :
    ∃ front inside more, front ≠ [] ∧ Argument.splitFrom .nothing (b :: rest) =
      (Argument.splitFrom inside more).map (Argument.Tokens.extend front) := by
  by_cases hopen : ∃ more, b = Ascii.lbrace ∧ rest = Ascii.lbrace :: more
  · obtain ⟨more, rfl, rfl⟩ := hopen
    exact ⟨Form.plain.opener, .groups 0, more, List.cons_ne_nil _ _, rfl⟩
  · have hplain : ∀ more, b = Ascii.lbrace → rest = Ascii.lbrace :: more → False :=
      fun more hbrace hmore => hopen ⟨more, hbrace, hmore⟩
    rw [Argument.splitFrom, hb, if_neg Bool.false_ne_true]
    · split
      · exact ⟨[b], .text b, rest, List.cons_ne_nil _ _, rfl⟩
      · exact ⟨[b], .nothing, rest, List.cons_ne_nil _ _, rfl⟩
    · exact hplain

/-- A call that does not begin with a separator has a first token. -/
theorem split_ne_nil
    {b : UInt8} {rest : Bytes} {tokens : List Bytes}
    (hb : Argument.isSpace b = false)
    (h : Argument.split (b :: rest) = .ok tokens) :
    tokens ≠ [] := by
  obtain ⟨front, inside, more, hfront, hsplit⟩ := splitFrom_begins hb
  unfold Argument.split at h
  rw [hsplit] at h
  split at h
  · next t ht =>
      obtain rfl := Except.ok.inj h
      obtain ⟨t', _, rfl⟩ := map_eq_ok_iff.1 ht
      exact extend_all_ne_nil hfront t'
  · cases h
  · cases h

/-! ## Calls -/

/-- Reads the name and the arguments of a helper call. -/
def readCall (call : Bytes) : Checked Cause (Bytes × List Argument) := do
  let tokens ← (split call).adapt Cause.argument
  if tokens = [] then .of (.error .missingHelperName)
  else
    let name ← at? tokens 0
    if Mark.isName name then
      let rest ← from? tokens 1
      return (name, ← (rest.mapM readArgument).adapt Cause.argument)
    else .of (.error (.badHelperName name))

/-- Reads the context and the parameters of a partial from its arguments. -/
def readInclusion (name : Bytes) (context : Option PathExpr)
    (parameters : List (Bytes × Operand PathExpr Literal)) : List Bytes → Checked Cause Mark
  | [] => pure (.inclusion name context parameters)
  | token :: tokens => do
    match ← (readArgument token).adapt Cause.argument with
    | ⟨some key, value⟩ => readInclusion name context (parameters ++ [(key, value)]) tokens
    | ⟨none, value⟩ =>
      if context.isSome ∨ ¬ parameters.isEmpty then .of (.error (.lateContext name))
      else match value with
        | .path p => readInclusion name (some p) parameters tokens
        | .literal _ => .of (.error (.literalContext token))

/-- The name that the first token of a partial call writes; it may be quoted. -/
def readPartialName (token : Bytes) : Checked Cause Bytes := do
  match ← (literal? token).result with
  | .ok (some (.text s)) => .of (Mark.readPartialName.checked s)
  | .ok (some _) => .of (.error (.literalPartialName token))
  | _ => .of (Mark.readPartialName.checked token)

/-- Reads a partial call. -/
def readPartial (call : Bytes) : Checked Cause Mark := do
  let tokens ← (split call).adapt Cause.argument
  if tokens = [] then .of (.error .missingPartialName)
  else
    let name ← readPartialName (← at? tokens 0)
    readInclusion name none [] (← from? tokens 1)

/-- Reads an expression that begins with none of the signs. -/
def readBare (isHelper : Bytes → Bool) (body : Bytes) : Checked Cause (List Mark) := do
  let tokens ← (split body).adapt Cause.argument
  let head ← at? tokens 0
  if isHelper head then
    let (_, arguments) ← readCall body
    return [.opening head arguments true, .interpolation .this, .closing head]
  else if tokens.length ≤ 1 then
    return [.interpolation (← ((readPath head).adapt ArgumentError.path).adapt Cause.argument)]
  else if head = utf8 "else" then .of (.error .elseWithArguments)
  else .of (.error (.unknownHelper head))

/-- What a plain expression means. -/
def ofPlain (isHelper : Bytes → Bool) (body : Bytes) : Checked Cause (List Mark) :=
  if body = [] then .of (.error .emptyExpression)
  else do
    let b ← at? body 0
    if b = Ascii.bang then return []
    else if b = Ascii.greater then return [← readPartial (← from? body 1)]
    else if b = Ascii.slash then
      let name := Text.trim (← from? body 1)
      if Mark.isName name then return [.closing name] else .of (.error (.badBlockName name))
    else if b = Ascii.hash then
      let (name, arguments) ← readCall (← from? body 1)
      return [.opening name arguments false]
    else if b = Ascii.ampersand then
      let text := Text.trim (← from? body 1)
      let path ← ((readPath text).adapt ArgumentError.path).adapt Cause.argument
      return [.interpolation (.raw path)]
    else if body = utf8 "else" then return [.otherwise]
    else readBare isHelper body

/-- What an expression means. -/
def ofExpression (isHelper : Bytes → Bool) (form : Form) (payload : Bytes) :
    Checked Cause (List Mark) :=
  match form with
  | .comment => pure []
  | .triple => do
    let path ← ((readPath (Text.trim payload)).adapt ArgumentError.path).adapt Cause.argument
    return [.interpolation (.raw path)]
  | .plain => ofPlain isHelper (Text.trim payload)

theorem readMarkPath_eq
    (text : Bytes) :
    ((readPath text).adapt ArgumentError.path).adapt Cause.argument = .of (Mark.readPath text) := by
  rw [readPath_adapt, Checked.adapt_of]
  rfl

theorem splitCall_eq
    (call : Bytes) :
    (split call).adapt Cause.argument = .of (Mark.ofArguments (Argument.split call)) := by
  rw [split_eq, Checked.adapt_of]
  rfl

theorem readCall_eq
    (call : Bytes) :
    readCall call = .of (Mark.readCall call) := by
  unfold readCall Mark.readCall
  rw [splitCall_eq]
  refine Checked.of_bind fun tokens htokens => ?_
  cases tokens with
  | nil =>
      rfl
  | cons name rest =>
      have hfilled := ne_nil_of_mem_split (mapError_eq_ok_iff.1 htokens)
      have harguments : rest.mapM readArgument = .of (rest.mapM Argument.read) :=
        Checked.mapM_of fun token htoken =>
          readArgument_eq (hfilled token (List.mem_cons_of_mem name htoken))
      rw [if_neg (List.cons_ne_nil _ _), at?_cons_zero, from?_cons_one]
      simp only [Checked.lift_some, Checked.of_ok_bind, harguments, Checked.adapt_of]
      split
      · exact Checked.of_bind fun arguments _ => rfl
      · rfl

theorem readInclusion_eq
    (name : Bytes) (context : Option PathExpr)
    (parameters : List (Bytes × Operand PathExpr Literal)) {tokens : List Bytes}
    (htokens : ∀ token ∈ tokens, token ≠ []) :
    readInclusion name context parameters tokens =
      .of (Mark.readInclusion name context parameters tokens) := by
  induction tokens generalizing context parameters with
  | nil =>
      rfl
  | cons token rest ih =>
      obtain ⟨htoken, hrest⟩ := List.forall_mem_cons.1 htokens
      rw [readInclusion, Mark.readInclusion, readArgument_eq htoken, Checked.adapt_of]
      refine Checked.of_bind fun argument _ => ?_
      obtain ⟨key, value⟩ := argument
      cases key with
      | some key =>
          exact ih _ _ hrest
      | none =>
          simp only
          split
          · rfl
          · cases value with
            | path p =>
                exact ih _ _ hrest
            | literal l =>
                rfl

theorem readPartialName_eq
    {token : Bytes}
    (htoken : token ≠ []) :
    readPartialName token = .of (Mark.readPartialName token) := by
  unfold readPartialName Mark.readPartialName
  rw [literal?_eq htoken]
  have hresult : (Checked.of (Argument.literal? token)).result = some (Argument.literal? token) :=
    rfl
  rw [hresult, Checked.lift_some, Checked.of_ok_bind]
  cases Argument.literal? token with
  | error e =>
      rfl
  | ok l =>
      rcases l with _ | (_ | _ | _ | _ | _) <;> rfl

theorem readPartial_eq
    (call : Bytes) :
    readPartial call = .of (Mark.readPartial call) := by
  unfold readPartial Mark.readPartial
  rw [splitCall_eq]
  refine Checked.of_bind fun tokens htokens => ?_
  cases tokens with
  | nil =>
      rfl
  | cons token rest =>
      have hfilled := ne_nil_of_mem_split (mapError_eq_ok_iff.1 htokens)
      obtain ⟨hne, hmore⟩ := List.forall_mem_cons.1 hfilled
      rw [if_neg (List.cons_ne_nil _ _), at?_cons_zero, from?_cons_one]
      simp only [Checked.lift_some, Checked.of_ok_bind, readPartialName_eq hne]
      exact Checked.of_bind fun name _ => readInclusion_eq name none [] hmore

/-- The first token is taken without a test, so the body must not begin with a separator. -/
theorem readBare_eq
    (isHelper : Bytes → Bool) {b : UInt8} {rest : Bytes}
    (hb : Argument.isSpace b = false) :
    readBare isHelper (b :: rest) = .of (Mark.readBare isHelper (b :: rest)) := by
  unfold readBare Mark.readBare
  rw [splitCall_eq]
  refine Checked.of_bind fun tokens htokens => ?_
  cases tokens with
  | nil =>
      exact absurd rfl (split_ne_nil hb (mapError_eq_ok_iff.1 htokens))
  | cons head tokens =>
      rw [at?_cons_zero]
      simp only [Checked.lift_some, Checked.of_ok_bind, readCall_eq, readMarkPath_eq]
      split
      · exact Checked.of_bind fun call _ => rfl
      · cases tokens with
        | nil =>
            exact Checked.of_bind fun path _ => rfl
        | cons token more =>
            have hmany : ¬ (head :: token :: more).length ≤ 1 := by
              simp
            rw [if_neg hmany, List.isEmpty_cons, if_neg Bool.false_ne_true]
            split <;> rfl

theorem ofPlain_eq
    (isHelper : Bytes → Bool) (payload : Bytes) :
    ofPlain isHelper (Text.trim payload) = .of (Mark.ofPlain isHelper (Text.trim payload)) := by
  cases hbody : Text.trim payload with
  | nil =>
      rfl
  | cons b rest =>
      have hspace := Text.isSpace_of_trim hbody
      unfold ofPlain Mark.ofPlain
      rw [if_neg (List.cons_ne_nil b rest), at?_cons_zero, from?_cons_one]
      simp only [Checked.lift_some, Checked.of_ok_bind, readCall_eq, readMarkPath_eq,
        readPartial_eq, readBare_eq isHelper hspace]
      split
      · rfl
      · split
        · exact Checked.of_bind fun mark _ => rfl
        · split
          · split <;> rfl
          · split
            · exact Checked.of_bind fun call _ => rfl
            · split
              · exact Checked.of_bind fun path _ => rfl
              · split <;> rfl

theorem ofExpression_eq
    (isHelper : Bytes → Bool) (form : Form) (payload : Bytes) :
    ofExpression isHelper form payload = .of (Mark.ofExpression isHelper form payload) := by
  cases form with
  | comment =>
      rfl
  | triple =>
      unfold ofExpression Mark.ofExpression
      rw [readMarkPath_eq]
      exact Checked.of_bind fun path _ => rfl
  | plain =>
      exact ofPlain_eq isHelper payload

end Offset
end Stencil
