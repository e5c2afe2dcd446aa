import Stencil.Code.Printer
import Stencil.Proofs.Number.Decimal
import Stencil.Proofs.Number.Shortest
import Stencil.Value

/-!
# Numeric constants of emitted code

A numeric constant of emitted code stands for an exact number: an integer when it has digits only, a
rational number when it has a point or an exponent.  A minus sign in front negates the number, and
only the result is converted to an integer of 64 bits or to the nearest floating-point number.  The
reader of constants below follows these rules and shares nothing with the printer.

Results: `constantValue?_decimalInt` for integers, and `Decimal.unsigned?_positional` and
`Decimal.unsigned?_scientific` for the notations of decimals.
-/

namespace Stencil

/-- The exact number that a numeric constant stands for. -/
inductive Exact where
  | integer (n : Int)
  | real (x : ℚ)
deriving DecidableEq

namespace Exact

/-- The number with its sign changed. -/
def negate : Exact → Exact
  | integer n => .integer (-n)
  | real x => .real (-x)

/-- The value that a number is converted to; a number out of range has none. -/
def value? : Exact → Option Value
  | integer n => if -2 ^ 63 ≤ n ∧ n < 2 ^ 63 then some (.int (Int64.ofInt n)) else none
  | real x =>
    let number := Binary64.nearest (x < 0) ⟨x.num.natAbs, x.den⟩
    if number.isFinite then some (.float number) else none

/-- The number that decimal digits write, if there is nothing but digits. -/
def digits? (s : Bytes) : Option Nat :=
  if s.isEmpty || !s.all Ascii.isDigit then none else some (Bytes.natOfDigits s)

/-- The exponent behind the digits of a constant; there may be none. -/
def exponent? : Bytes → Option Int
  | [] => some 0
  | mark :: s =>
    if Ascii.toLower mark = 0x65 then
      match s with
      | Ascii.plus :: digits => (digits? digits).map Int.ofNat
      | Ascii.minus :: digits => (digits? digits).map fun n : Nat => -(n : Int)
      | digits => (digits? digits).map Int.ofNat
    else none

/-- The number of a constant with some digits in front.  A point or an exponent makes it a rational
number; an integer other than zero does not begin with a zero. -/
def withWhole? (whole : Bytes) : Bytes → Option Exact
  | [] =>
    if whole = [Ascii.zero] ∨ whole ≠ [] ∧ whole.head? ≠ some Ascii.zero then
      some (.integer (Bytes.natOfDigits whole))
    else none
  | Ascii.dot :: rest =>
    let places := rest.takeWhile Ascii.isDigit
    if whole ++ places = [] then none
    else (exponent? (rest.dropWhile Ascii.isDigit)).map fun e : Int =>
      .real (Bytes.natOfDigits (whole ++ places) * 10 ^ (e - places.length))
  | rest =>
    if whole = [] then none
    else (exponent? rest).map fun e : Int => .real (Bytes.natOfDigits whole * 10 ^ e)

/-- The number of a constant without a sign. -/
def unsigned? (s : Bytes) : Option Exact :=
  withWhole? (s.takeWhile Ascii.isDigit) (s.dropWhile Ascii.isDigit)

/-- The number of a constant. -/
def read? : Bytes → Option Exact
  | Ascii.minus :: s => (unsigned? s).map negate
  | s => unsigned? s

end Exact

/-- The value of a constant in emitted code: one of the two truth values, a quoted text or a
number. -/
def constantValue? (s : Bytes) : Option Value :=
  if s = utf8 "true" then some (.bool true)
  else if s = utf8 "false" then some (.bool false)
  else if s.head? = some Ascii.quote then (Text.unquote? s).map .text
  else (Exact.read? s).bind Exact.value?

/-- The value that an emitted expression for a literal has. -/
def emittedValue? (s : Bytes) : Option Value :=
  if s = utf8 "rt.Null" then some .null
  else do constantValue? (← Bytes.before? (utf8 ")") (← Bytes.after? (utf8 "rt.ValueOf(") s))

namespace Bytes

theorem natOfDigits_append
    (s t : Bytes) :
    natOfDigits (s ++ t) = natOfDigits s * 10 ^ t.length + natOfDigits t := by
  induction t using List.reverseRecOn with
  | nil =>
      rw [List.append_nil, List.length_nil, Nat.pow_zero, Nat.mul_one]
      rfl
  | append_singleton t b ih =>
      rw [← List.append_assoc, natOfDigits_concat, ih, natOfDigits_concat, List.length_append,
        List.length_singleton, Nat.pow_succ]
      ring

theorem natOfDigits_zeros
    (n : Nat) :
    natOfDigits (List.replicate n Ascii.zero) = 0 := by
  induction n with
  | zero =>
      rfl
  | succ n ih =>
      rw [List.replicate_succ', natOfDigits_concat, ih]
      rfl

theorem all_isDigit_zeros
    (n : Nat) :
    (List.replicate n Ascii.zero).all Ascii.isDigit = true :=
  List.all_eq_true.2 fun b hb => by rw [List.eq_of_mem_replicate hb]; rfl

/-- The numeral of a positive number begins with no zero. -/
theorem head?_decimal
    {n : Nat}
    (h : 0 < n) :
    (decimal n).head? ≠ some Ascii.zero := by
  induction n using Nat.strongRecOn with
  | ind n ih =>
      rw [decimal_eq]
      split
      · next hsmall =>
          have hall : ∀ d : Fin 10, d.val ≠ 0 →
              some (Nat.digitChar d).toUInt8 ≠ some Ascii.zero := by decide
          rw [Nat.mod_eq_of_lt hsmall]
          exact hall ⟨n, hsmall⟩ (Nat.pos_iff_ne_zero.1 h)
      · rw [List.head?_append_of_ne_nil _ (decimal_ne_nil _)]
        exact ih (n / 10) (by omega) (by omega)

/-- Digits are cut off up to the first byte that is none. -/
theorem span_digits
    {s t : Bytes}
    (hs : s.all Ascii.isDigit = true)
    (ht : t.head?.all (fun b => !Ascii.isDigit b) = true) :
    (s ++ t).takeWhile Ascii.isDigit = s ∧ (s ++ t).dropWhile Ascii.isDigit = t := by
  have hdigits : ∀ b ∈ s, Ascii.isDigit b = true := List.all_eq_true.1 hs
  rw [List.takeWhile_append_of_pos hdigits, List.dropWhile_append_of_pos hdigits]
  cases t with
  | nil =>
      exact ⟨List.append_nil s, rfl⟩
  | cons b t =>
      have hb : ¬ Ascii.isDigit b = true := by simpa using ht
      rw [List.takeWhile_cons_of_neg hb, List.dropWhile_cons_of_neg hb]
      exact ⟨List.append_nil s, rfl⟩

end Bytes

namespace Exact

open Bytes

theorem digits?_eq
    {s : Bytes}
    (hne : s ≠ [])
    (hs : s.all Ascii.isDigit = true) :
    digits? s = some (natOfDigits s) := by
  rw [digits?, hs, List.isEmpty_eq_false_iff.2 hne]
  rfl

/-- Digits with a point, and possibly an exponent behind them. -/
theorem unsigned?_point
    {whole places tail : Bytes} {e : Int}
    (hne : whole ≠ [])
    (hwhole : whole.all Ascii.isDigit = true)
    (hplaces : places.all Ascii.isDigit = true)
    (htail : tail.head?.all (fun b => !Ascii.isDigit b) = true)
    (he : exponent? tail = some e) :
    unsigned? (whole ++ Ascii.dot :: (places ++ tail)) =
      some (.real (natOfDigits (whole ++ places) * 10 ^ (e - places.length))) := by
  have hfront := span_digits hwhole (t := Ascii.dot :: (places ++ tail)) rfl
  have hback := span_digits hplaces htail
  have hany : whole ++ places ≠ [] := List.append_ne_nil_of_left_ne_nil hne _
  have hread : withWhole? whole (Ascii.dot :: (places ++ tail)) =
      if whole ++ (places ++ tail).takeWhile Ascii.isDigit = [] then none
      else (exponent? ((places ++ tail).dropWhile Ascii.isDigit)).map fun e : Int =>
        .real (natOfDigits (whole ++ (places ++ tail).takeWhile Ascii.isDigit) *
          10 ^ (e - ((places ++ tail).takeWhile Ascii.isDigit).length)) := rfl
  rw [unsigned?, hfront.1, hfront.2, hread, hback.1, hback.2, if_neg hany, he, Option.map_some]

/-- Digits without a point, and an exponent behind them. -/
theorem unsigned?_exponent
    {whole s : Bytes} {e : Int}
    (hne : whole ≠ [])
    (hwhole : whole.all Ascii.isDigit = true)
    (he : exponent? (0x65 :: s) = some e) :
    unsigned? (whole ++ 0x65 :: s) = some (.real (natOfDigits whole * 10 ^ e)) := by
  have hfront := span_digits hwhole (t := 0x65 :: s) rfl
  have hread : withWhole? whole (0x65 :: s) =
      if whole = [] then none
      else (exponent? (0x65 :: s)).map fun e : Int => .real (natOfDigits whole * 10 ^ e) := rfl
  rw [unsigned?, hfront.1, hfront.2, hread, if_neg hne, he, Option.map_some]

/-- The numeral of a number. -/
theorem unsigned?_decimal
    (n : Nat) :
    unsigned? (decimal n) = some (.integer n) := by
  have hfront := span_digits (all_isDigit_decimal n) (t := []) rfl
  rw [List.append_nil] at hfront
  have hzero : decimal n = [Ascii.zero] ∨ decimal n ≠ [] ∧ (decimal n).head? ≠ some Ascii.zero := by
    rcases Nat.eq_zero_or_pos n with rfl | hpos
    · exact .inl (by decide)
    · exact .inr ⟨decimal_ne_nil n, head?_decimal hpos⟩
  rw [unsigned?, hfront.1, hfront.2, withWhole?, if_pos hzero, natOfDigits_decimal]

/-- The exponent of scientific notation. -/
theorem exponent?_exponentText
    (e : Int) :
    exponent? (0x65 :: Decimal.exponentText e) = some e := by
  have hdigits : ∀ n : Nat,
      digits? (if (decimal n).length < 2 then Ascii.zero :: decimal n else decimal n) = some n := by
    intro n
    split
    · have hzero : natOfDigits [Ascii.zero] = 0 := rfl
      have hall : (Ascii.zero :: decimal n).all Ascii.isDigit = true := all_isDigit_decimal n
      rw [digits?_eq (List.cons_ne_nil _ _) hall, ← List.singleton_append,
        natOfDigits_append, natOfDigits_decimal, hzero, Nat.zero_mul, Nat.zero_add]
    · rw [digits?_eq (decimal_ne_nil n) (all_isDigit_decimal n), natOfDigits_decimal]
  by_cases he : e < 0
  · have hread : exponent? (0x65 :: Decimal.exponentText e) =
        (digits? (if (decimal e.natAbs).length < 2 then Ascii.zero :: decimal e.natAbs
          else decimal e.natAbs)).map fun n : Nat => -(n : Int) := by
      rw [Decimal.exponentText, if_pos he]
      rfl
    rw [hread, hdigits, Option.map_some]
    congr 1
    omega
  · have hread : exponent? (0x65 :: Decimal.exponentText e) =
        (digits? (if (decimal e.natAbs).length < 2 then Ascii.zero :: decimal e.natAbs
          else decimal e.natAbs)).map Int.ofNat := by
      rw [Decimal.exponentText, if_neg he]
      rfl
    rw [hread, hdigits, Option.map_some]
    congr 1
    rw [Int.ofNat_eq_natCast]
    omega

/-- A constant without a sign is read as such. -/
theorem read?_of_unsigned?
    {s : Bytes} {x : Exact}
    (h : unsigned? s = some x) :
    read? s = some x := by
  unfold read?
  split
  · next rest =>
      have hnone : unsigned? (Ascii.minus :: rest) = none := rfl
      cases hnone.symm.trans h
  · exact h

end Exact

/-- A number is neither a truth value nor a text. -/
theorem constantValue?_of_read?
    {s : Bytes} {x : Exact}
    (h : Exact.read? s = some x) :
    constantValue? s = x.value? := by
  have htrue : s ≠ utf8 "true" := by
    rintro rfl
    cases h
  have hfalse : s ≠ utf8 "false" := by
    rintro rfl
    cases h
  have hquote : s.head? ≠ some Ascii.quote := by
    intro hhead
    obtain ⟨t, rfl⟩ := List.head?_eq_some_iff.1 hhead
    have hnone : Exact.read? (Ascii.quote :: t) = none := rfl
    rw [hnone] at h
    cases h
  rw [constantValue?, if_neg htrue, if_neg hfalse, if_neg hquote, h, Option.bind_some]

theorem constantValue?_decimalInt
    (n : Int64) :
    constantValue? (Bytes.decimalInt n.toInt) = some (.int n) := by
  have hrange : -2 ^ 63 ≤ n.toInt ∧ n.toInt < 2 ^ 63 := ⟨n.le_toInt, n.toInt_lt⟩
  have hread : Exact.read? (Bytes.decimalInt n.toInt) = some (.integer n.toInt) := by
    cases n.toInt with
    | ofNat m =>
        exact Exact.read?_of_unsigned? (Exact.unsigned?_decimal m)
    | negSucc m =>
        change (Exact.unsigned? (Bytes.decimal (m + 1))).map Exact.negate = _
        rw [Exact.unsigned?_decimal]
        rfl
  rw [constantValue?_of_read? hread, Exact.value?, if_pos hrange, Int64.ofInt_toInt]

/-- A numeral with a point or an exponent, as constants of floating-point numbers have it. -/
def withPoint (s : Bytes) : Bytes :=
  if s.any fun b => b == Ascii.dot || b == 0x65 then s else s ++ utf8 ".0"

theorem withPoint_of_mem
    {s : Bytes} {b : UInt8}
    (hb : b ∈ s)
    (hmark : b = Ascii.dot ∨ b = 0x65) :
    withPoint s = s := by
  refine if_pos (List.any_eq_true.2 ⟨b, hb, ?_⟩)
  rcases hmark with rfl | rfl <;> rfl

theorem withPoint_of_digits
    {s : Bytes}
    (h : s.all Ascii.isDigit = true) :
    withPoint s = s ++ [Ascii.dot, Ascii.zero] := by
  refine if_neg ?_
  rw [List.any_eq_true]
  rintro ⟨b, hb, hmark⟩
  have hdigit := List.all_eq_true.1 h b hb
  rw [Bool.or_eq_true, beq_iff_eq, beq_iff_eq] at hmark
  rcases hmark with rfl | rfl <;> cases hdigit

theorem withPoint_minus
    (s : Bytes) :
    withPoint (Ascii.minus :: s) = Ascii.minus :: withPoint s := by
  unfold withPoint
  rw [List.any_cons]
  change (if (false || _) = true then _ else _) = _
  rw [Bool.false_or]
  split <;> rfl

namespace Decimal

open Bytes

/-- Digits around a point have the value of the decimal when they write its coefficient with as
many zeros added as the exponent and the places leave. -/
theorem unsigned?_of_places
    {d : Decimal} {whole places : Bytes}
    (hne : whole ≠ [])
    (hwhole : whole.all Ascii.isDigit = true)
    (hplaces : places.all Ascii.isDigit = true)
    (hvalue : (natOfDigits (whole ++ places) : ℚ) =
      d.coefficient * 10 ^ (d.exponent + places.length)) :
    Exact.unsigned? (whole ++ Ascii.dot :: places) = some (.real d.value) := by
  have hread : Exact.unsigned? (whole ++ Ascii.dot :: (places ++ [])) =
      some (.real (natOfDigits (whole ++ places) * 10 ^ ((0 : Int) - places.length))) :=
    Exact.unsigned?_point hne hwhole hplaces rfl rfl
  rw [List.append_nil, hvalue, mul_assoc, ← zpow_add₀ (by norm_num)] at hread
  rw [hread, value]
  congr 4
  omega

section Notation

variable {d : Decimal} (h : 0 < d.coefficient)

include h

theorem digits_eq : d.digits = decimal d.coefficient := if_neg h.ne'

theorem all_isDigit_digits : d.digits.all Ascii.isDigit = true := by
  rw [digits_eq h]
  exact all_isDigit_decimal _

theorem length_digits_pos : 0 < d.digits.length := by
  rw [digits_eq h]
  exact List.length_pos_iff.2 (decimal_ne_nil _)

theorem natOfDigits_digits : natOfDigits d.digits = d.coefficient := by
  rw [digits_eq h, natOfDigits_decimal]

/-- Positional notation: zeros stand before the digits, the point stands between them, or zeros
stand behind them. -/
theorem positional_cases :
    (d.point ≤ 0 ∧ d.positional =
      [Ascii.zero] ++ Ascii.dot :: (List.replicate (-d.point).toNat Ascii.zero ++ d.digits)) ∨
    (0 < d.point ∧ d.point < d.digits.length ∧ d.positional =
      d.digits.take d.point.toNat ++ Ascii.dot :: d.digits.drop d.point.toNat) ∨
    (d.digits.length ≤ d.point ∧ d.positional =
      d.digits ++ List.replicate d.exponent.toNat Ascii.zero) := by
  have hlength := length_digits_pos h
  have hpoint : d.point = d.digits.length + d.exponent := rfl
  unfold positional
  simp only
  by_cases hlow : d.point ≤ 0
  · left
    have hshort : ¬ (d.digits.length : Int) ≤ d.point := by omega
    have hsome : (List.replicate (-d.point).toNat Ascii.zero ++ d.digits).isEmpty = false :=
      List.isEmpty_eq_false_iff.2
        (List.append_ne_nil_of_right_ne_nil _ (List.length_pos_iff.1 hlength))
    rw [if_neg hshort, if_pos hlow, if_pos hlow, hsome]
    exact ⟨hlow, rfl⟩
  · right
    rw [if_neg hlow, if_neg hlow]
    by_cases hshort : (d.digits.length : Int) ≤ d.point
    · right
      have hzeros : d.point.toNat - d.digits.length = d.exponent.toNat := by omega
      rw [if_pos hshort, List.take_of_length_le (by omega), hzeros]
      exact ⟨hshort, rfl⟩
    · left
      have hsome : (d.digits.drop d.point.toNat).isEmpty = false :=
        List.isEmpty_eq_false_iff.2 (List.length_pos_iff.1 (by rw [List.length_drop]; omega))
      have hzeros : d.point.toNat - d.digits.length = 0 := by omega
      rw [if_neg hshort, hsome, hzeros, List.replicate_zero, List.append_nil]
      exact ⟨by omega, by omega, rfl⟩

theorem unsigned?_positional :
    Exact.unsigned? (withPoint d.positional) = some (.real d.value) := by
  have hdigits := all_isDigit_digits h
  have hnumber := natOfDigits_digits h
  have hlength := length_digits_pos h
  have hpoint : d.point = d.digits.length + d.exponent := rfl
  rcases positional_cases h with ⟨hlow, heq⟩ | ⟨hpos, hshort, heq⟩ | ⟨hlong, heq⟩
  · rw [heq, withPoint_of_mem (b := Ascii.dot) (by simp) (.inl rfl)]
    refine unsigned?_of_places (List.cons_ne_nil _ _) rfl ?_ ?_
    · rw [List.all_append, all_isDigit_zeros, hdigits]
      rfl
    · have hzero : natOfDigits [Ascii.zero] = 0 := rfl
      have hexponent : d.exponent +
          ((List.replicate (-d.point).toNat Ascii.zero ++ d.digits).length : Nat) = 0 := by
        rw [List.length_append, List.length_replicate]
        omega
      rw [natOfDigits_append, hzero, natOfDigits_append, natOfDigits_zeros, hnumber, hexponent]
      simp
  · rw [heq, withPoint_of_mem (b := Ascii.dot) (by simp) (.inl rfl)]
    have hexponent : d.exponent + ((d.digits.drop d.point.toNat).length : Nat) = 0 := by
      rw [List.length_drop]
      omega
    refine unsigned?_of_places ?_ ?_ ?_ ?_
    · exact List.length_pos_iff.1 (by rw [List.length_take]; omega)
    · exact List.all_eq_true.2 fun b hb => List.all_eq_true.1 hdigits b (List.mem_of_mem_take hb)
    · exact List.all_eq_true.2 fun b hb => List.all_eq_true.1 hdigits b (List.mem_of_mem_drop hb)
    · rw [List.take_append_drop, hnumber, hexponent, zpow_zero, mul_one]
  · have hall : (d.digits ++ List.replicate d.exponent.toNat Ascii.zero).all Ascii.isDigit = true := by
      rw [List.all_append, all_isDigit_zeros, hdigits]
      rfl
    rw [heq, withPoint_of_digits hall]
    refine unsigned?_of_places
      (List.append_ne_nil_of_left_ne_nil (List.length_pos_iff.1 hlength) _) hall rfl ?_
    have hexponent : d.exponent + (([Ascii.zero] : Bytes).length : Nat) =
        ((d.exponent.toNat + 1 : Nat) : Int) := by
      rw [List.length_singleton]
      omega
    have hzero : Ascii.digitValue Ascii.zero = 0 := rfl
    rw [natOfDigits_concat, natOfDigits_append, natOfDigits_zeros, List.length_replicate, hnumber,
      hexponent, zpow_natCast, pow_succ, ← mul_assoc, hzero]
    push_cast
    ring

theorem unsigned?_scientific :
    Exact.unsigned? (withPoint d.scientific) = some (.real d.value) := by
  have hlength := length_digits_pos h
  have hdigits := List.all_eq_true.1 (all_isDigit_digits h)
  have hpoint : d.point = d.digits.length + d.exponent := rfl
  have hhead : (d.digits.take 1).all Ascii.isDigit = true :=
    List.all_eq_true.2 fun b hb => hdigits b (List.mem_of_mem_take hb)
  have htail : (d.digits.drop 1).all Ascii.isDigit = true :=
    List.all_eq_true.2 fun b hb => hdigits b (List.mem_of_mem_drop hb)
  have hne : d.digits.take 1 ≠ [] := List.length_pos_iff.1 (by rw [List.length_take]; omega)
  have he := Exact.exponent?_exponentText (d.point - 1)
  have hwhole : d.digits.take 1 ++ d.digits.drop 1 = d.digits := List.take_append_drop 1 d.digits
  rw [withPoint_of_mem (b := 0x65) (by simp [scientific]) (.inr rfl)]
  unfold scientific
  simp only
  by_cases hsingle : d.digits.drop 1 = []
  · rw [hsingle, List.append_nil] at hwhole
    have hone : d.digits.length ≤ 1 := by
      rw [← List.drop_eq_nil_iff]
      exact hsingle
    rw [hsingle, List.isEmpty_nil, if_pos rfl, List.append_nil,
      Exact.unsigned?_exponent hne hhead he, hwhole, natOfDigits_digits h, value]
    congr 4
    omega
  · rw [List.isEmpty_eq_false_iff.2 hsingle, if_neg Bool.false_ne_true, List.append_assoc,
      List.cons_append, Exact.unsigned?_point hne hhead htail rfl he, hwhole, natOfDigits_digits h,
      value]
    congr 4
    rw [List.length_drop]
    omega

end Notation
end Decimal

end Stencil
