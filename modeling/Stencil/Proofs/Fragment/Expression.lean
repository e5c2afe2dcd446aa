import Stencil.Fragment
import Stencil.Proofs.Checks

/-!
# What expressions are read as

`Mark.Reads` lists the forms that an expression can have, each with the marks that it is read as.
The sign at the front of a plain expression tells its form.

Results: `Mark.reads_of_ofExpression`, by which every expression that is read has one of these forms,
and `Mark.exists_of_readPartial` for calls of partials.
-/

namespace Stencil
namespace Mark

/-- The signs at the front of a plain expression that tell what it means. -/
def signs : Bytes :=
  [Ascii.bang, Ascii.greater, Ascii.slash, Ascii.hash, Ascii.ampersand]

/-- The expressions with the marks that they are read as. -/
inductive Reads (isHelper : Bytes → Bool) : Form → (payload : Bytes) → List Mark → Prop
  | comment {payload : Bytes} : Reads isHelper .comment payload []
  | remark {payload rest : Bytes}
      (body : Text.trim payload = Ascii.bang :: rest) :
      Reads isHelper .plain payload []
  | inclusion {payload rest : Bytes} {mark : Mark}
      (body : Text.trim payload = Ascii.greater :: rest)
      (read : readPartial rest = .ok mark) :
      Reads isHelper .plain payload [mark]
  | closing {payload rest : Bytes}
      (body : Text.trim payload = Ascii.slash :: rest) :
      Reads isHelper .plain payload [.closing (Text.trim rest)]
  | opening {payload rest : Bytes} {call : Bytes × List Argument}
      (body : Text.trim payload = Ascii.hash :: rest)
      (read : readCall rest = .ok call) :
      Reads isHelper .plain payload [.opening call.1 call.2 false]
  | triple {payload : Bytes} {path : PathExpr}
      (read : readPath (Text.trim payload) = .ok path) :
      Reads isHelper .triple payload [.interpolation (.raw path)]
  | trusted {payload rest : Bytes} {path : PathExpr}
      (body : Text.trim payload = Ascii.ampersand :: rest)
      (read : readPath (Text.trim rest) = .ok path) :
      Reads isHelper .plain payload [.interpolation (.raw path)]
  | otherwise {payload : Bytes}
      (body : Text.trim payload = utf8 "else") :
      Reads isHelper .plain payload [.otherwise]
  | call {payload rest : Bytes} {b : UInt8} {head : Bytes} {tokens : List Bytes}
      {call : Bytes × List Argument}
      (body : Text.trim payload = b :: rest)
      (bare : (signs.contains b || b :: rest == utf8 "else") = false)
      (split : Argument.split (b :: rest) = .ok (head :: tokens))
      (helper : isHelper head = true)
      (read : readCall (b :: rest) = .ok call) :
      Reads isHelper .plain payload
        [.opening head call.2 true, .interpolation .this, .closing head]
  | path {payload head : Bytes} {path : PathExpr}
      (read : readPath head = .ok path) :
      Reads isHelper .plain payload [.interpolation path]

variable {isHelper : Bytes → Bool}

theorem reads_of_readBare
    {payload rest : Bytes} {b : UInt8} {marks : List Mark}
    (hbody : Text.trim payload = b :: rest)
    (hbare : (signs.contains b || b :: rest == utf8 "else") = false)
    (h : readBare isHelper (b :: rest) = .ok marks) :
    Reads isHelper .plain payload marks := by
  obtain ⟨tokens, htokens, h⟩ := bind_eq_ok_iff.1 h
  cases tokens with
  | nil =>
      cases h
  | cons head tokens =>
      simp only at h
      split at h
      · next hhelper =>
          obtain ⟨call, hcall, h⟩ := bind_eq_ok_iff.1 h
          cases h
          exact .call hbody hbare (mapError_eq_ok_iff.1 htokens) hhelper hcall
      · split at h
        · obtain ⟨path, hpath, h⟩ := bind_eq_ok_iff.1 h
          cases h
          exact .path hpath
        · split at h <;> cases h

theorem reads_of_ofPlain
    {payload rest : Bytes} {b : UInt8} {marks : List Mark}
    (hbody : Text.trim payload = b :: rest)
    (h : ofPlain isHelper (b :: rest) = .ok marks) :
    Reads isHelper .plain payload marks := by
  rw [ofPlain] at h
  split at h
  · next hsign =>
      cases h
      exact .remark (hsign ▸ hbody)
  split at h
  · next hsign =>
      obtain ⟨mark, hmark, h⟩ := bind_eq_ok_iff.1 h
      cases h
      exact .inclusion (hsign ▸ hbody) hmark
  split at h
  · next hsign =>
      simp only at h
      split at h <;> cases h
      exact .closing (hsign ▸ hbody)
  split at h
  · next hsign =>
      obtain ⟨call, hcall, h⟩ := bind_eq_ok_iff.1 h
      cases h
      exact .opening (hsign ▸ hbody) hcall
  split at h
  · next hsign =>
      obtain ⟨path, hpath, h⟩ := bind_eq_ok_iff.1 h
      cases h
      exact .trusted (hsign ▸ hbody) hpath
  split at h
  · next helse =>
      cases h
      exact .otherwise (hbody.trans helse)
  · next hbang hgreater hslash hhash hampersand helse =>
      refine reads_of_readBare hbody ?_ h
      simp [signs, hbang, hgreater, hslash, hhash, hampersand, helse]

/-- An expression that is read has one of the forms. -/
theorem reads_of_ofExpression
    {form : Form} {payload : Bytes} {marks : List Mark}
    (h : ofExpression isHelper form payload = .ok marks) :
    Reads isHelper form payload marks := by
  cases form with
  | comment =>
      cases h
      exact .comment
  | triple =>
      obtain ⟨path, hpath, h⟩ := bind_eq_ok_iff.1 h
      cases h
      exact .triple hpath
  | plain =>
      rw [ofExpression] at h
      cases hbody : Text.trim payload with
      | nil =>
          rw [hbody] at h
          cases h
      | cons b rest =>
          exact reads_of_ofPlain hbody (hbody ▸ h)

/-! ## Calls of partials -/

theorem exists_of_readInclusion
    {name : Bytes} {context : Option PathExpr}
    {parameters : List (Bytes × Operand PathExpr Literal)} {tokens : List Bytes} {mark : Mark}
    (h : readInclusion name context parameters tokens = .ok mark) :
    ∃ context' parameters', mark = .inclusion name context' parameters' ∧
      ∀ p ∈ parameters', p ∈ parameters ∨
        ∃ token a, Argument.read token = .ok a ∧ a.name = some p.1 := by
  induction tokens generalizing context parameters with
  | nil =>
      cases h
      exact ⟨context, parameters, rfl, fun p hp => .inl hp⟩
  | cons token tokens ih =>
      obtain ⟨a, ha, hread⟩ := bind_eq_ok_iff.1 h
      obtain ⟨key, value⟩ := a
      cases key with
      | some key =>
          obtain ⟨context', parameters', rfl, hparameters⟩ := ih hread
          refine ⟨context', parameters', rfl, fun p hp => ?_⟩
          rcases hparameters p hp with hmem | hnamed
          · rcases List.mem_append.1 hmem with hmem | hmem
            · exact .inl hmem
            · obtain rfl := List.mem_singleton.1 hmem
              exact .inr ⟨token, _, mapError_eq_ok_iff.1 ha, rfl⟩
          · exact .inr hnamed
      | none =>
          simp only at hread
          split at hread
          · cases hread
          · cases value with
            | path p =>
                exact ih hread
            | literal l =>
                cases hread

/-- A call of a partial, whose parameters are named by its arguments. -/
theorem exists_of_readPartial
    {text : Bytes} {mark : Mark}
    (h : readPartial text = .ok mark) :
    ∃ name context parameters, mark = .inclusion name context parameters ∧
      ∀ p ∈ parameters, ∃ token a, Argument.read token = .ok a ∧ a.name = some p.1 := by
  obtain ⟨tokens, -, htokens⟩ := bind_eq_ok_iff.1 h
  cases tokens with
  | nil =>
      cases htokens
  | cons token tokens =>
      obtain ⟨name, -, hname⟩ := bind_eq_ok_iff.1 htokens
      obtain ⟨context, parameters, rfl, hparameters⟩ := exists_of_readInclusion hname
      exact ⟨name, context, parameters, rfl, fun p hp =>
        (hparameters p hp).resolve_left List.not_mem_nil⟩

end Mark
end Stencil
