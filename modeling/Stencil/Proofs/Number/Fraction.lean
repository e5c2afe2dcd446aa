import Mathlib.Algebra.Order.Field.Power
import Mathlib.Data.Rat.Cast.Order
import Mathlib.Tactic.FieldSimp
import Mathlib.Tactic.Linarith
import Mathlib.Tactic.Positivity
import Mathlib.Tactic.Ring
import Stencil.Number.Fraction

/-!
# Fractions as rational numbers

The operations on fractions are those on the rational numbers that they write.  Rounding to a natural
number is told by the distance to it, and the logarithms are exact where their guess is near enough.

Results: `nearest_eq_of_lt`, `nearest_eq_of_even`, `floorLog2_spec` and `floorLog10_le`.
-/

namespace Stencil
namespace Fraction

/-- The rational number that a fraction writes. -/
def toRat (x : Fraction) : ℚ := x.num / x.den

theorem toRat_scaled
    (n base : Nat) (e : Int) :
    (scaled n base e).toRat = n * (base : ℚ) ^ e := by
  unfold scaled
  split
  · next h =>
      obtain ⟨k, rfl⟩ := Int.eq_ofNat_of_zero_le h
      simp [toRat]
  · next h =>
      obtain ⟨k, hk⟩ := Int.eq_ofNat_of_zero_le (by omega : 0 ≤ -e)
      have he : e = -(k : Int) := by omega
      subst he
      simp [toRat, div_eq_mul_inv]

theorem den_scaled_pos
    {base : Nat}
    (hbase : 0 < base)
    (n : Nat) (e : Int) :
    0 < (scaled n base e).den := by
  unfold scaled
  split
  · exact Nat.one_pos
  · exact Nat.pow_pos hbase

theorem toRat_div
    (x y : Fraction) :
    (x.div y).toRat = x.toRat / y.toRat := by
  simp only [toRat, div, Nat.cast_mul]
  rw [div_div_div_eq]

section Order

variable {x y : Fraction} (hx : 0 < x.den) (hy : 0 < y.den)

include hx hy in
theorem le_iff :
    x.le y = true ↔ x.toRat ≤ y.toRat := by
  have hx' : (0 : ℚ) < x.den := by exact_mod_cast hx
  have hy' : (0 : ℚ) < y.den := by exact_mod_cast hy
  rw [le, decide_eq_true_iff, toRat, toRat, div_le_div_iff₀ hx' hy']
  exact_mod_cast Iff.rfl

include hx hy in
theorem lt_iff :
    x.lt y = true ↔ x.toRat < y.toRat := by
  have hx' : (0 : ℚ) < x.den := by exact_mod_cast hx
  have hy' : (0 : ℚ) < y.den := by exact_mod_cast hy
  rw [lt, decide_eq_true_iff, toRat, toRat, div_lt_div_iff₀ hx' hy']
  exact_mod_cast Iff.rfl

end Order

/-! ## Rounding -/

section Rounding

variable {x : Fraction} (hx : 0 < x.den)

include hx in
/-- A fraction is its floor and a remainder below one. -/
theorem toRat_eq :
    x.toRat = x.floor + (x.num % x.den : Nat) / (x.den : ℚ) := by
  have hden : (x.den : ℚ) ≠ 0 := by exact_mod_cast hx.ne'
  have hnum : (x.num : ℚ) = x.den * (x.num / x.den : Nat) + (x.num % x.den : Nat) := by
    exact_mod_cast (Nat.div_add_mod x.num x.den).symm
  rw [toRat, floor, eq_comm]
  field_simp
  rw [hnum, mul_comm]

include hx in
theorem floor_spec :
    (x.floor : ℚ) ≤ x.toRat ∧ x.toRat < x.floor + 1 := by
  have hden : (0 : ℚ) < x.den := by exact_mod_cast hx
  have hrest : ((x.num % x.den : Nat) : ℚ) < x.den := by exact_mod_cast Nat.mod_lt _ hx
  have hpos : (0 : ℚ) ≤ (x.num % x.den : Nat) := Nat.cast_nonneg _
  rw [toRat_eq hx]
  constructor
  · have := div_nonneg hpos hden.le
    linarith
  · have := (div_lt_one hden).2 hrest
    linarith

include hx in
/-- Rounding goes down or up as the remainder is below or above a half, and to the even neighbour at
a half. -/
theorem nearest_eq :
    x.nearest = if 2 * (x.toRat - x.floor) < 1 then x.floor
      else if 1 < 2 * (x.toRat - x.floor) then x.floor + 1
      else x.floor + x.floor % 2 := by
  have hden : (0 : ℚ) < x.den := by exact_mod_cast hx
  have hrest : 2 * (x.toRat - x.floor) = (2 * (x.num % x.den) : Nat) / (x.den : ℚ) := by
    rw [toRat_eq hx]
    push_cast
    ring
  rw [hrest, nearest, floor]
  simp only [div_lt_one hden, one_lt_div hden, Nat.cast_lt]

include hx in
/-- Rounding is at most a half off. -/
theorem abs_toRat_sub_nearest_le :
    |x.toRat - x.nearest| ≤ 1 / 2 := by
  obtain ⟨hlow, hhigh⟩ := floor_spec hx
  rw [nearest_eq hx]
  split
  · rw [abs_le]
    constructor <;> linarith
  · split
    · push_cast
      rw [abs_le]
      constructor <;> linarith
    · have hparity : ((x.floor % 2 : Nat) : ℚ) = 0 ∨ ((x.floor % 2 : Nat) : ℚ) = 1 := by
        rcases Nat.mod_two_eq_zero_or_one x.floor with h | h <;> simp [h]
      push_cast at hparity ⊢
      rw [abs_le]
      rcases hparity with h | h <;> rw [h] <;> constructor <;> linarith

include hx in
/-- A number less than a half away is the floor or the next one. -/
theorem floor_of_near
    {n : Nat}
    (h : |x.toRat - n| ≤ 1 / 2) :
    n = x.floor ∧ 2 * (x.toRat - x.floor) ≤ 1 ∨
      n = x.floor + 1 ∧ 1 ≤ 2 * (x.toRat - x.floor) := by
  obtain ⟨hlow, hhigh⟩ := floor_spec hx
  rw [abs_le] at h
  have hge : x.floor ≤ n := by
    have : (x.floor : ℚ) < n + 1 := by linarith
    exact Nat.lt_succ_iff.1 (by exact_mod_cast this)
  have hle : n ≤ x.floor + 1 := by
    have : (n : ℚ) < x.floor + 2 := by linarith
    exact Nat.lt_succ_iff.1 (by exact_mod_cast this)
  rcases Nat.lt_or_ge x.floor n with hlt | hge'
  · obtain rfl : n = x.floor + 1 := by omega
    push_cast at h
    exact .inr ⟨rfl, by linarith⟩
  · obtain rfl : n = x.floor := by omega
    exact .inl ⟨rfl, by linarith⟩

include hx in
theorem nearest_eq_of_lt
    {n : Nat}
    (h : |x.toRat - n| < 1 / 2) :
    x.nearest = n := by
  rw [nearest_eq hx]
  rcases floor_of_near hx h.le with ⟨rfl, hhalf⟩ | ⟨rfl, hhalf⟩
  · rw [abs_lt] at h
    rw [if_pos (by linarith)]
  · push_cast at h
    rw [abs_lt] at h
    rw [if_neg (by linarith), if_pos (by linarith)]

include hx in
/-- An even number is rounded to from both ends of its interval. -/
theorem nearest_eq_of_even
    {n : Nat}
    (heven : n % 2 = 0)
    (h : |x.toRat - n| ≤ 1 / 2) :
    x.nearest = n := by
  rcases lt_or_eq_of_le h with hlt | htie
  · exact nearest_eq_of_lt hx hlt
  · rw [nearest_eq hx]
    rcases floor_of_near hx h with ⟨rfl, hhalf⟩ | ⟨rfl, hhalf⟩
    · obtain ⟨hlow, -⟩ := floor_spec hx
      rw [abs_of_nonneg (by linarith)] at htie
      rw [if_neg (by linarith), if_neg (by linarith), heven]
      rfl
    · obtain ⟨-, hhigh⟩ := floor_spec hx
      push_cast at htie
      rw [abs_of_neg (by linarith)] at htie
      rw [if_neg (by linarith), if_neg (by linarith)]
      omega

end Rounding

/-! ## Logarithms -/

section Logarithm

variable {x : Fraction} (hx : 0 < x.den) {base : Nat} (hbase : 1 < base) {guess : Int}

include hx hbase in
theorem le_scaled_one_iff
    (e : Int) :
    (scaled 1 base e).le x = true ↔ (base : ℚ) ^ e ≤ x.toRat := by
  rw [le_iff (den_scaled_pos (by omega) 1 e) hx, toRat_scaled, Nat.cast_one, one_mul]

include hx hbase in
/-- The power at the logarithm is not above the fraction, where the guess is at most two too high. -/
theorem floorLog_le
    (hguess : (base : ℚ) ^ (guess - 2) ≤ x.toRat) :
    (base : ℚ) ^ x.floorLog base guess ≤ x.toRat := by
  unfold floorLog
  simp only [le_scaled_one_iff hx hbase]
  split
  · assumption
  · split
    · assumption
    · split
      · assumption
      · split
        · assumption
        · exact hguess

include hx hbase in
/-- The next power is above the fraction, where the guess is at most two too low. -/
theorem lt_floorLog
    (hguess : x.toRat < (base : ℚ) ^ (guess + 3)) :
    x.toRat < (base : ℚ) ^ (x.floorLog base guess + 1) := by
  unfold floorLog
  simp only [le_scaled_one_iff hx hbase]
  split
  · rwa [show guess + 2 + 1 = guess + 3 by omega]
  · next h =>
      split
      · rw [show guess + 1 + 1 = guess + 2 by omega]
        exact not_le.1 h
      · next h =>
          split
          · exact not_le.1 h
          · next h =>
              split
              · rw [show guess - 1 + 1 = guess by omega]
                exact not_le.1 h
              · next h =>
                  rw [show guess - 2 + 1 = guess - 1 by omega]
                  exact not_le.1 h

end Logarithm

/-- Exactness of the logarithm to base two. -/
theorem floorLog2_spec
    {x : Fraction}
    (hnum : 0 < x.num)
    (hden : 0 < x.den) :
    (2 : ℚ) ^ x.floorLog2 ≤ x.toRat ∧ x.toRat < (2 : ℚ) ^ (x.floorLog2 + 1) := by
  -- A positive number is between two neighbouring powers of two.
  have hbits : ∀ {n : Nat}, 0 < n → (2 : ℚ) ^ (n.log2 : Int) ≤ n ∧ (n : ℚ) < 2 ^ (n.log2 + 1 : Int) := by
    intro n hn
    constructor
    · rw [zpow_natCast]
      exact_mod_cast Nat.log2_self_le hn.ne'
    · have hlt : n < 2 ^ (n.log2 + 1) := Nat.lt_log2_self
      rw [show (n.log2 + 1 : Int) = ((n.log2 + 1 : Nat) : Int) by push_cast; rfl, zpow_natCast]
      exact_mod_cast hlt
  obtain ⟨hnumLow, hnumHigh⟩ := hbits hnum
  obtain ⟨hdenLow, hdenHigh⟩ := hbits hden
  have hdenPos : (0 : ℚ) < x.den := by exact_mod_cast hden
  have htwo : (2 : ℚ) ≠ 0 := two_ne_zero
  constructor
  · refine floorLog_le hden (by decide) ?_
    rw [toRat, le_div_iff₀ hdenPos]
    calc ((2 : Nat) : ℚ) ^ ((x.num.log2 : Int) - x.den.log2 - 2) * x.den
        ≤ 2 ^ ((x.num.log2 : Int) - x.den.log2 - 2) * 2 ^ (x.den.log2 + 1 : Int) := by
          push_cast
          gcongr
      _ = 2 ^ ((x.num.log2 : Int) - 1) := by
          rw [← zpow_add₀ htwo]
          congr 1
          omega
      _ ≤ 2 ^ (x.num.log2 : Int) := zpow_le_zpow_right₀ one_le_two (by omega)
      _ ≤ x.num := hnumLow
  · refine lt_floorLog hden (by decide) ?_
    rw [toRat, div_lt_iff₀ hdenPos]
    calc (x.num : ℚ) < 2 ^ (x.num.log2 + 1 : Int) := hnumHigh
      _ ≤ 2 ^ ((x.num.log2 : Int) + 3) := zpow_le_zpow_right₀ one_le_two (by omega)
      _ = 2 ^ ((x.num.log2 : Int) - x.den.log2 + 3) * 2 ^ (x.den.log2 : Int) := by
          rw [← zpow_add₀ htwo]
          congr 1
          omega
      _ ≤ ((2 : Nat) : ℚ) ^ ((x.num.log2 : Int) - x.den.log2 + 3) * x.den := by
          push_cast
          gcongr

/-- The guess for the logarithm to base ten is at most two too high, for numbers of the size that
binary numbers of 64 bits have. -/
theorem ten_zpow_guess_le
    {e : Int}
    (hlow : -1074 ≤ e)
    (hhigh : e ≤ 1023) :
    (10 : ℚ) ^ (e * 30103 / 100000 - 2) ≤ 2 ^ e := by
  -- Compare high powers, where `10 ^ 3 < 2 ^ 10` and `2 ^ 93 < 10 ^ 28` are sharp enough.
  rcases Int.le_total 0 e with hsign | hsign
  · refine le_of_pow_le_pow_left₀ (by decide : 10 ≠ 0) (by positivity) ?_
    calc ((10 : ℚ) ^ (e * 30103 / 100000 - 2)) ^ 10
        = 10 ^ ((e * 30103 / 100000 - 2) * 10) := by rw [← zpow_natCast, ← zpow_mul]; rfl
      _ ≤ 10 ^ (3 * e) := zpow_le_zpow_right₀ (by norm_num) (by omega)
      _ = (10 ^ 3) ^ e := by rw [zpow_mul]; rfl
      _ ≤ (2 ^ 10) ^ e := zpow_le_zpow_left₀ hsign (by norm_num) (by norm_num)
      _ = (2 ^ e) ^ 10 := by rw [← zpow_natCast, ← zpow_natCast, ← zpow_mul, ← zpow_mul, mul_comm]
  · refine le_of_pow_le_pow_left₀ (by decide : 93 ≠ 0) (by positivity) ?_
    calc ((10 : ℚ) ^ (e * 30103 / 100000 - 2)) ^ 93
        = 10 ^ ((e * 30103 / 100000 - 2) * 93) := by rw [← zpow_natCast, ← zpow_mul]; rfl
      _ ≤ 10 ^ (28 * e) := zpow_le_zpow_right₀ (by norm_num) (by omega)
      _ = (10 ^ 28) ^ e := by rw [zpow_mul]; rfl
      _ ≤ (2 ^ 93) ^ e := by
          have hpower : ((2 : ℚ) ^ 93) ^ (-e) ≤ (10 ^ 28) ^ (-e) :=
            zpow_le_zpow_left₀ (by omega) (by norm_num) (by norm_num)
          rw [zpow_neg, zpow_neg] at hpower
          exact (inv_le_inv₀ (by positivity) (by positivity)).1 hpower
      _ = (2 ^ e) ^ 93 := by rw [← zpow_natCast, ← zpow_natCast, ← zpow_mul, ← zpow_mul, mul_comm]

/-- The power of ten at the logarithm to base ten is not above the fraction. -/
theorem floorLog10_le
    {x : Fraction}
    (hnum : 0 < x.num)
    (hden : 0 < x.den)
    (hlow : (2 : ℚ) ^ (-1074 : Int) ≤ x.toRat)
    (hhigh : x.toRat < (2 : ℚ) ^ (1024 : Int)) :
    (10 : ℚ) ^ x.floorLog10 ≤ x.toRat := by
  obtain ⟨hfloor, hnext⟩ := floorLog2_spec hnum hden
  have hleast : -1074 < x.floorLog2 + 1 :=
    (zpow_lt_zpow_iff_right₀ one_lt_two).1 (hlow.trans_lt hnext)
  have hgreatest : x.floorLog2 < 1024 :=
    (zpow_lt_zpow_iff_right₀ one_lt_two).1 (hfloor.trans_lt hhigh)
  have hguess := ten_zpow_guess_le (e := x.floorLog2) (by omega) (by omega)
  exact floorLog_le hden (by decide) (hguess.trans hfloor)

end Fraction
end Stencil
