import Stencil.Code.Meaning
import Stencil.Proofs.Chunk
import Stencil.Proofs.Code.Constant
import Stencil.Proofs.Text.Quoted

/-!
# Literals in emitted code

A literal of a template is emitted as a constant.  Texts come back from their quotes, integers from
their numerals, and floating-point numbers from their shortest decimals; but a constant is an exact
number before it is converted, and there is one zero among the exact numbers.

Result: `constants_read_back_but_negative_zero`.
-/

namespace Stencil

/-- The constant of a finite number: its sign, and a constant of its absolute value. -/
theorem exists_floatText
    {x : Binary64} {negative : Bool} {m : Nat} {q : Int}
    (hx : x.decode = .finite negative m q) :
    ∃ s, floatText x = (if negative then [Ascii.minus] else []) ++ s ∧
      Exact.unsigned? s = some (.real (if m = 0 then 0 else (Decimal.shortest m q).value)) := by
  have hsigned : ∀ s, withPoint ((if negative then [Ascii.minus] else []) ++ s) =
      (if negative then [Ascii.minus] else []) ++ withPoint s := by
    intro s
    cases negative with
    | false =>
        rfl
    | true =>
        exact withPoint_minus s
  have htext : floatText x = withPoint x.general := rfl
  unfold Binary64.general Binary64.write at htext
  rw [hx] at htext
  simp only at htext
  by_cases hm : m = 0
  · rw [if_pos hm, hsigned] at htext
    refine ⟨_, htext, ?_⟩
    rw [if_pos hm]
    have hread : Exact.unsigned? ([Ascii.zero] ++ Ascii.dot :: ([Ascii.zero] ++ [])) =
        some (.real (Bytes.natOfDigits ([Ascii.zero] ++ [Ascii.zero]) *
          10 ^ ((0 : Int) - ([Ascii.zero] : Bytes).length))) :=
      Exact.unsigned?_point (List.cons_ne_nil _ _) rfl rfl rfl rfl
    have hzero : Bytes.natOfDigits ([Ascii.zero] ++ [Ascii.zero]) = 0 := rfl
    rw [hzero, Nat.cast_zero, zero_mul] at hread
    exact hread
  · rw [if_neg hm, hsigned] at htext
    refine ⟨_, htext, ?_⟩
    rw [if_neg hm]
    have hpos := Decimal.shortest_pos (Binary64.isParts_of_decode hx) (Nat.pos_of_ne_zero hm)
    split
    · exact Decimal.unsigned?_scientific hpos
    · exact Decimal.unsigned?_positional hpos

/-- A rational number as a fraction without its sign. -/
theorem Fraction.toRat_natAbs
    (x : ℚ) :
    (⟨x.num.natAbs, x.den⟩ : Fraction).toRat = |x| := by
  rw [toRat, Nat.cast_natAbs, Int.cast_abs]
  conv_rhs => rw [← Rat.num_div_den x, abs_div, Nat.abs_cast]

/-- The constant of a finite number has its value, except that no constant is a negative zero. -/
theorem constantValue?_floatText
    {x : Binary64}
    (hfinite : x.isFinite = true) :
    constantValue? (floatText x) = some (.float (if x = .zero true then .zero false else x)) := by
  cases hx : x.decode with
  | nan =>
      rw [Binary64.isFinite, hx] at hfinite
      cases hfinite
  | infinite negative =>
      rw [Binary64.isFinite, hx] at hfinite
      cases hfinite
  | finite negative m q =>
      obtain ⟨s, htext, hs⟩ := exists_floatText hx
      have hread : Exact.read? (floatText x) = some (.real ((if negative then -1 else 1) *
          if m = 0 then 0 else (Decimal.shortest m q).value)) := by
        rw [htext]
        cases negative with
        | false =>
            simpa using Exact.read?_of_unsigned? hs
        | true =>
            change (Exact.unsigned? s).map Exact.negate = _
            rw [hs, if_pos rfl, neg_one_mul]
            rfl
      rw [constantValue?_of_read? hread]
      by_cases hm : m = 0
      · -- The sign is lost, since the exact number is zero.
        have hzero : x = .zero negative := by
          rw [← Binary64.ofParts_of_decode hx, hm]
          rfl
        have hvalue : (if x = .zero true then Binary64.zero false else x) = .zero false := by
          rw [hzero]
          cases negative <;> decide
        rw [if_pos hm, mul_zero, hvalue]
        rfl
      · have hpos : 0 < (Decimal.shortest m q).value := by
          have := Decimal.shortest_pos (Binary64.isParts_of_decode hx) (Nat.pos_of_ne_zero hm)
          unfold Decimal.value
          positivity
        have hvalue : x ≠ .zero true := by
          rintro rfl
          cases hx
          exact hm rfl
        have hsign : decide ((if negative then -1 else 1) * (Decimal.shortest m q).value < 0) =
            negative := by
          cases negative with
          | false =>
              simpa using hpos.le
          | true =>
              simpa using hpos
        have hnearest := Binary64.nearest_of_shortest hx hm (f :=
            ⟨((if negative then -1 else 1) * (Decimal.shortest m q).value).num.natAbs,
              ((if negative then -1 else 1) * (Decimal.shortest m q).value).den⟩)
          (Rat.den_pos _) (by
            rw [Fraction.toRat_natAbs, abs_mul, abs_of_pos hpos]
            cases negative <;> simp)
        rw [if_neg hm, if_neg hvalue, Exact.value?]
        simp only [hsign, hnearest, hfinite, if_true]

/-- A literal that is no infinite number, as every literal of a template is. -/
def Literal.isFinite : Literal → Bool
  | float x => x.isFinite
  | _ => true

theorem Binary64.isFinite_of_ofNumeral?
    {s : Bytes} {x : Binary64}
    (h : ofNumeral? s = some x) :
    x.isFinite = true := by
  unfold ofNumeral? at h
  simp only at h
  split at h
  · obtain ⟨hfinite, heq⟩ := Option.ite_none_right_eq_some.1 h
    cases heq
    exact hfinite
  · cases h

theorem Argument.isFinite_of_literal?
    {token : Bytes} {l : Literal}
    (h : literal? token = .ok (some l)) :
    l.isFinite = true := by
  unfold literal? at h
  iterate 3
    split at h
    · cases h
      rfl
  split at h
  · cases h
  -- Quoted texts of either kind.
  iterate 2
    split at h
    · split at h
      · cases h
        rfl
      · cases h
  split at h
  · split at h
    · cases h
      rfl
    · obtain ⟨x, hx, rfl⟩ := Option.map_eq_some_iff.1 (Except.ok.inj h)
      exact Binary64.isFinite_of_ofNumeral? hx
  · cases h

theorem emittedValue?_callText
    (s : Bytes) :
    emittedValue? (callText "rt.ValueOf" [s]) = constantValue? s := by
  have hafter : Bytes.after? (utf8 "rt.ValueOf(") (callText "rt.ValueOf" [s]) =
      some (s ++ utf8 ")") :=
    Bytes.after?_eq_some_iff.2 (List.append_assoc _ _ _)
  have hbefore : Bytes.before? (utf8 ")") (s ++ utf8 ")") = some s := by
    have hend : Bytes.after? (utf8 ")").reverse (s ++ utf8 ")").reverse = some s.reverse :=
      Bytes.after?_eq_some_iff.2 List.reverse_append
    rw [Bytes.before?, hend, Option.map_some, List.reverse_reverse]
  have hnull : callText "rt.ValueOf" [s] ≠ utf8 "rt.Null" := by
    intro hnull
    have hnone : Bytes.after? (utf8 "rt.ValueOf(") (utf8 "rt.Null") = none := rfl
    rw [hnull, hnone] at hafter
    cases hafter
  rw [emittedValue?, if_neg hnull, hafter]
  change (Bytes.before? (utf8 ")") (s ++ utf8 ")")).bind constantValue? = constantValue? s
  rw [hbefore, Option.bind_some]

/-- The emitted expression for a finite literal reads back as what it means. -/
theorem Literal.emittedValue?_print
    {l : Literal}
    (h : l.isFinite = true)
    (s : Scope) :
    emittedValue? l.code.print = some (l.code.value s) := by
  cases l with
  | text t =>
      have hhead : (Text.quote t).head? = some Ascii.quote := rfl
      have htrue : Text.quote t ≠ utf8 "true" := fun heq => by
        rw [heq] at hhead
        cases hhead
      have hfalse : Text.quote t ≠ utf8 "false" := fun heq => by
        rw [heq] at hhead
        cases hhead
      refine (emittedValue?_callText _).trans ?_
      rw [constantValue?, if_neg htrue, if_neg hfalse, if_pos hhead, Text.unquote?_quote]
      rfl
  | int n =>
      exact (emittedValue?_callText _).trans (constantValue?_decimalInt n)
  | float x =>
      exact (emittedValue?_callText _).trans (constantValue?_floatText h)
  | bool b =>
      cases b <;> exact emittedValue?_callText _
  | null =>
      rfl

/-- The code of a literal means the literal's value, except that no constant is a negative zero. -/
theorem Literal.value_code
    (l : Literal) (s : Scope) :
    l.code.value s = if l = .float (.zero true) then .float (.zero false) else l.value := by
  cases l with
  | float x =>
      by_cases hx : x = .zero true
      · subst hx
        rfl
      · rw [if_neg fun heq => hx (Literal.float.inj heq), Literal.code, ValueCode.value, if_neg hx]
        rfl
  | text | int | bool | null =>
      rfl

/-- The literals that a template writes are finite.  Read by the rules of constants, the expression
that is emitted for a finite literal has the value that the closures use, and so reaches helpers as
the same argument, exactly unless the literal is a negative zero; a negative zero arrives as
zero. -/
theorem constants_read_back_but_negative_zero
    (l : Literal) :
    (∀ token, Argument.literal? token = .ok (some l) → l.isFinite = true) ∧
      (l.isFinite = true →
        (emittedValue? l.code.print = some l.value ↔ l ≠ .float (.zero true)) ∧
        (l = .float (.zero true) → emittedValue? l.code.print = some (.float (.zero false))) ∧
        ∀ s, emittedValue? l.code.print = some ((Operand.code (.literal (.written l))).value s)) := by
  refine ⟨fun _ => Argument.isFinite_of_literal?, fun hl => ?_⟩
  have hprint : ∀ s : Scope, emittedValue? l.code.print = some (l.code.value s) :=
    Literal.emittedValue?_print hl
  have hvalue := hprint (Scope.root .null)
  rw [Literal.value_code] at hvalue
  by_cases hzero : l = .float (.zero true)
  · rw [if_pos hzero] at hvalue
    refine ⟨⟨fun heq => ?_, fun hne => absurd hzero hne⟩, fun _ => hvalue, hprint⟩
    rw [hvalue, hzero] at heq
    exact absurd (Value.float.inj (Option.some.inj heq)) (by decide)
  · rw [if_neg hzero] at hvalue
    exact ⟨⟨fun _ => hzero, fun _ => hvalue⟩, fun heq => absurd heq hzero, hprint⟩

/-- A number whose shortest decimal is not its exact value, the least integer and a text that is not
valid UTF-8 come back from their constants. -/
theorem constants_read_back_samples :
    Argument.literal? (utf8 "0.1") = .ok (some (.float ⟨0x3fb999999999999a⟩)) ∧
      emittedValue? (utf8 "rt.ValueOf(0.1)") = some (.float ⟨0x3fb999999999999a⟩) ∧
      emittedValue? (utf8 "rt.ValueOf(-9223372036854775808)") =
        some (.int (Int64.ofInt (-9223372036854775808))) ∧
      emittedValue? (utf8 "rt.ValueOf(\"\\xff\\n\")") = some (.text [0xff, 0x0a]) := by
  have hback := constants_read_back_but_negative_zero
  have hread : Argument.literal? (utf8 "0.1") = .ok (some (.float ⟨0x3fb999999999999a⟩)) := by
    decide +kernel
  have hfloat : (Literal.float ⟨0x3fb999999999999a⟩).code.print = utf8 "rt.ValueOf(0.1)" := by
    decide +kernel
  have hint : (Literal.int (Int64.ofInt (-9223372036854775808))).code.print =
      utf8 "rt.ValueOf(-9223372036854775808)" := by
    decide +kernel
  have htext : (Literal.text [0xff, 0x0a]).code.print = utf8 "rt.ValueOf(\"\\xff\\n\")" := by
    decide +kernel
  refine ⟨hread, ?_, ?_, ?_⟩
  · rw [← hfloat]
    exact ((hback _).2 ((hback _).1 _ hread)).1.2 (by decide)
  · rw [← hint]
    exact ((hback _).2 rfl).1.2 (by decide)
  · rw [← htext]
    exact ((hback _).2 rfl).1.2 (by decide)

/-- A negative zero is written `-0.0` in a template and in emitted code, where it is the constant
zero; helpers print the two differently. -/
theorem negative_zero_reads_back_as_zero :
    Argument.literal? (utf8 "-0.0") = .ok (some (.float (.zero true))) ∧
      (Literal.float (.zero true)).code.print = utf8 "rt.ValueOf(-0.0)" ∧
      emittedValue? (utf8 "rt.ValueOf(-0.0)") = some (.float (.zero false)) ∧
      (Literal.float (.zero true)).value.toText = utf8 "-0" ∧
      (Value.float (.zero false)).toText = utf8 "0" := by
  have hprint : (Literal.float (.zero true)).code.print = utf8 "rt.ValueOf(-0.0)" := by
    decide +kernel
  have hread := Literal.emittedValue?_print (l := .float (.zero true)) (by decide) (Scope.root .null)
  rw [hprint] at hread
  exact ⟨by decide +kernel, hprint, hread, by decide +kernel, by decide +kernel⟩

end Stencil
