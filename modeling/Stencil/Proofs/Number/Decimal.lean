import Mathlib.Algebra.Group.Nat.Defs
import Stencil.Bytes

/-!
# Decimal numerals read back

Result: `int64?_decimalInt`, every integer of 64 bits reads back from its decimal numeral.
-/

namespace Stencil
namespace Bytes

/-- The last digit of a numeral, and the numeral before it. -/
theorem decimal_eq
    (n : Nat) :
    decimal n = (if n < 10 then [] else decimal (n / 10)) ++ [(Nat.digitChar (n % 10)).toUInt8] := by
  unfold decimal
  rw [Nat.toDigits_eq_if (by decide)]
  split
  · next hsmall =>
      rw [Nat.mod_eq_of_lt hsmall]
      rfl
  · rw [List.map_append]
    rfl

theorem isDigit_digitChar
    {d : Nat}
    (h : d < 10) :
    Ascii.isDigit (Nat.digitChar d).toUInt8 = true ∧
      Ascii.digitValue (Nat.digitChar d).toUInt8 = d := by
  have hall : ∀ d : Fin 10, Ascii.isDigit (Nat.digitChar d).toUInt8 = true ∧
      Ascii.digitValue (Nat.digitChar d).toUInt8 = d := by decide
  exact hall ⟨d, h⟩

theorem isDigit_of_mem_decimal
    {n : Nat} {b : UInt8}
    (h : b ∈ decimal n) :
    Ascii.isDigit b = true := by
  induction n using Nat.strongRecOn with
  | ind n ih =>
      rw [decimal_eq, List.mem_append, List.mem_singleton] at h
      rcases h with hfront | rfl
      · split at hfront
        · cases hfront
        · exact ih (n / 10) (by omega) hfront
      · exact (isDigit_digitChar (Nat.mod_lt n (by decide))).1

theorem all_isDigit_decimal
    (n : Nat) :
    (decimal n).all Ascii.isDigit = true :=
  List.all_eq_true.2 fun _ hb => isDigit_of_mem_decimal hb

theorem decimal_ne_nil
    (n : Nat) :
    decimal n ≠ [] := by
  rw [decimal_eq]
  exact List.append_ne_nil_of_right_ne_nil _ (List.cons_ne_nil _ _)

theorem mem_decimalInt
    {n : Int} {b : UInt8}
    (h : b ∈ decimalInt n) :
    Ascii.isDigit b = true ∨ b = Ascii.minus := by
  cases n with
  | ofNat n =>
      exact .inl (isDigit_of_mem_decimal h)
  | negSucc n =>
      rcases List.mem_cons.1 h with rfl | hdigits
      · exact .inr rfl
      · exact .inl (isDigit_of_mem_decimal hdigits)

theorem decimalInt_ne_nil
    (n : Int) :
    decimalInt n ≠ [] := by
  cases n with
  | ofNat n =>
      exact decimal_ne_nil n
  | negSucc n =>
      exact List.cons_ne_nil _ _

theorem natOfDigits_concat
    (s : Bytes) (b : UInt8) :
    natOfDigits (s ++ [b]) = natOfDigits s * 10 + Ascii.digitValue b := by
  rw [natOfDigits, List.foldl_append]
  rfl

theorem natOfDigits_decimal
    (n : Nat) :
    natOfDigits (decimal n) = n := by
  induction n using Nat.strongRecOn with
  | ind n ih =>
      rw [decimal_eq, natOfDigits_concat, (isDigit_digitChar (Nat.mod_lt n (by decide))).2]
      split
      · change 0 * 10 + n % 10 = n
        omega
      · rw [ih (n / 10) (by omega)]
        omega

/-- Digits without a sign. -/
theorem int64?_decimal
    {n : Nat}
    (h : n < 2 ^ 63) :
    int64? (decimal n) = some (Int64.ofInt n) := by
  have hsigned : ∀ sign, Ascii.isDigit sign = false → ∀ rest, decimal n ≠ sign :: rest := by
    intro sign hsign rest heq
    have hdigit := isDigit_of_mem_decimal (heq ▸ List.mem_cons_self : sign ∈ decimal n)
    rw [hsign] at hdigit
    cases hdigit
  unfold int64?
  split
  · next rest heq =>
      exact absurd heq (hsigned _ rfl rest)
  · next rest heq =>
      exact absurd heq (hsigned _ rfl rest)
  · simp only [all_isDigit_decimal, natOfDigits_decimal,
      List.isEmpty_eq_false_iff.2 (decimal_ne_nil n)]
    exact if_pos h

theorem int64?_minus_decimal
    {n : Nat}
    (h : n ≤ 2 ^ 63) :
    int64? (Ascii.minus :: decimal n) = some (Int64.ofInt (-(n : Int))) := by
  have hread : int64? (Ascii.minus :: decimal n) =
      if (decimal n).isEmpty || !(decimal n).all Ascii.isDigit then none
      else if natOfDigits (decimal n) ≤ 2 ^ 63 then
        some (Int64.ofInt (-(natOfDigits (decimal n) : Int)))
      else none := rfl
  simp only [hread, all_isDigit_decimal, natOfDigits_decimal,
    List.isEmpty_eq_false_iff.2 (decimal_ne_nil n)]
  exact if_pos h

/-- Every integer of 64 bits reads back from its numeral. -/
theorem int64?_decimalInt
    (n : Int64) :
    int64? (decimalInt n.toInt) = some n := by
  have hback : Int64.ofInt n.toInt = n := Int64.ofInt_toInt n
  have hlow := n.le_toInt
  have hhigh := n.toInt_lt
  cases hn : n.toInt with
  | ofNat m =>
      rw [hn] at hback hhigh
      rw [decimalInt, int64?_decimal (by simp only [Int.ofNat_eq_natCast] at hhigh; omega)]
      exact congrArg some hback
  | negSucc m =>
      rw [hn] at hback hlow
      rw [decimalInt, int64?_minus_decimal (by omega)]
      exact congrArg some hback

end Bytes
end Stencil
