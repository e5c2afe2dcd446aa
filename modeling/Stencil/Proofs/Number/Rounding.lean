import Stencil.Number.Shortest
import Stencil.Proofs.Number.Fraction

/-!
# Rounding to binary numbers

A finite number `± m · 2 ^ q` is the nearest one to every fraction of its interval, which reaches
half a unit of the last place up and down, but only a quarter of it down from a power of two.

Results: `Binary64.ofParts_of_decode`, and `Binary64.nearest_of_rounds`.
-/

namespace Stencil
namespace Binary64

/-! ## The parts of finite numbers -/

/-- What the parts of a finite number are like: only the numbers with the least exponent have less
than 53 bits. -/
structure IsParts (m : Nat) (q : Int) : Prop where
  lt : m < 2 ^ 53
  least : -1074 ≤ q
  greatest : q ≤ 971
  normal : -1074 < q → 2 ^ 52 ≤ m

theorem pack_eq
    {x : Binary64} {negative : Bool} {exponent fraction : Nat}
    (h : (if negative then 2 ^ 63 else 0) + exponent * 2 ^ 52 + fraction = x.bits.toNat) :
    pack negative exponent fraction = x := by
  have hbits : pack negative exponent fraction = ⟨x.bits.toNat.toUInt64⟩ :=
    congrArg (fun n : Nat => (⟨n.toUInt64⟩ : Binary64)) h
  rw [hbits]
  exact congrArg Binary64.mk UInt64.ofNat_toNat

/-- The bits of a finite number are its sign, exponent and fraction. -/
theorem cases_of_decode
    {x : Binary64} {negative : Bool} {m : Nat} {q : Int}
    (h : x.decode = .finite negative m q) :
    m < 2 ^ 52 ∧ q = -1074 ∧ pack negative 0 m = x ∨
      ∃ exponent fraction : Nat, 0 < exponent ∧ exponent < 2047 ∧ fraction < 2 ^ 52 ∧
        m = 2 ^ 52 + fraction ∧ q = (exponent : Int) - 1075 ∧ pack negative exponent fraction = x := by
  have hsize : x.bits.toNat < 2 ^ 64 := x.bits.toNat_lt
  have hhalf : Nat.pow 2 63 = 2 ^ 63 := rfl
  have hplaces : Nat.pow 2 52 = 2 ^ 52 := rfl
  have hwidth : Nat.pow 2 11 = 2 ^ 11 := rfl
  simp only [decode, hhalf, hplaces, hwidth] at h
  have hsign : (if decide (2 ^ 63 ≤ x.bits.toNat) then 2 ^ 63 else 0) +
      (x.bits.toNat / 2 ^ 52 % 2 ^ 11) * 2 ^ 52 + x.bits.toNat % 2 ^ 52 = x.bits.toNat := by
    simp only [decide_eq_true_eq]
    split <;> omega
  split at h
  · split at h <;> cases h
  · next hfinite =>
      split at h
      · next hzero =>
          cases h
          refine .inl ⟨Nat.mod_lt _ (by decide), rfl, pack_eq ?_⟩
          rw [hzero] at hsign
          exact hsign
      · next hnormal =>
          cases h
          have hexponent : x.bits.toNat / 2 ^ 52 % 2 ^ 11 < 2 ^ 11 := Nat.mod_lt _ (by decide)
          exact .inr ⟨_, _, Nat.pos_of_ne_zero hnormal, by omega, Nat.mod_lt _ (by decide), rfl, rfl,
            pack_eq hsign⟩

theorem isParts_of_decode
    {x : Binary64} {negative : Bool} {m : Nat} {q : Int}
    (h : x.decode = .finite negative m q) :
    IsParts m q := by
  rcases cases_of_decode h with ⟨hm, rfl, -⟩ | ⟨exponent, fraction, hpos, hlt, hfraction, rfl, rfl, -⟩
  · exact ⟨by omega, by omega, by omega, by omega⟩
  · exact ⟨by omega, by omega, by omega, by omega⟩

/-- Parts of 53 and more bits are packed as they are. -/
theorem ofParts_of_le
    {negative : Bool} {m : Nat} {q : Int}
    (hm : 2 ^ 52 ≤ m) :
    ofParts negative m q = pack negative (q + 1075).toNat (m - 2 ^ 52) := by
  have hpos : m ≠ 0 := by omega
  have hlog : 52 - m.log2 = 0 := Nat.sub_eq_zero_of_le ((Nat.le_log2 hpos).2 hm)
  have hplaces : ¬ m * Nat.pow 2 0 < Nat.pow 2 52 := by
    change ¬ m * 1 < 2 ^ 52
    omega
  simp only [ofParts, hpos, if_false, hlog, Nat.zero_min, if_neg hplaces]
  simp

/-- A finite number is put together again from its parts. -/
theorem ofParts_of_decode
    {x : Binary64} {negative : Bool} {m : Nat} {q : Int}
    (h : x.decode = .finite negative m q) :
    ofParts negative m q = x := by
  rcases cases_of_decode h with ⟨hm, rfl, hx⟩ | ⟨exponent, fraction, hpos, hlt, hfraction, rfl, rfl, hx⟩
  · by_cases hzero : m = 0
    · subst hzero
      exact hx
    · have hplaces : m * Nat.pow 2 0 < Nat.pow 2 52 := by
        change m * 1 < 2 ^ 52
        omega
      have hshift : ((-1074 : Int) + 1074).toNat = 0 := rfl
      simp only [ofParts, hzero, if_false, hshift, Nat.min_zero, if_pos hplaces]
      rw [← hx]
      simp
  · have hexponent : ((exponent : Int) - 1075 + 1075).toNat = exponent := by omega
    rw [ofParts_of_le (Nat.le_add_right _ _), ← hx, hexponent, Nat.add_sub_cancel_left]

/-- A power of two with one bit more and the next lower exponent is the same number. -/
theorem ofParts_carry
    (negative : Bool) {q : Int}
    (hq : -1074 < q) :
    ofParts negative (2 ^ 53) (q - 1) = ofParts negative (2 ^ 52) q := by
  rw [ofParts_of_le (by decide), ofParts_of_le (by decide)]
  obtain ⟨k, hk⟩ := Int.eq_ofNat_of_zero_le (by omega : 0 ≤ q + 1074)
  have hlow : (q - 1 + 1075).toNat = k := by omega
  have hhigh : (q + 1075).toNat = k + 1 := by omega
  have hnumber : ∀ a : Nat, a + k * 2 ^ 52 + (2 ^ 53 - 2 ^ 52) =
      a + (k + 1) * 2 ^ 52 + (2 ^ 52 - 2 ^ 52) := by
    intro a
    omega
  rw [hlow, hhigh]
  exact congrArg (fun n : Nat => (⟨n.toUInt64⟩ : Binary64)) (hnumber _)

/-! ## The interval of a number -/

/-- Whether a number of units in the last place rounds to `m`.  Ties go to even numbers. -/
def Rounds (m : Nat) (q : Int) (y : ℚ) : Prop :=
  let below : ℚ := if m = 2 ^ 52 ∧ -1074 < q then 1 / 4 else 1 / 2
  if m % 2 = 0 then m - below ≤ y ∧ y ≤ m + 1 / 2 else m - below < y ∧ y < m + 1 / 2

theorem Rounds.bounds
    {m : Nat} {q : Int} {y : ℚ}
    (h : Rounds m q y) :
    |y - m| ≤ 1 / 2 ∧ (m % 2 = 0 ∨ |y - m| < 1 / 2) := by
  unfold Rounds at h
  have hbelow : (if m = 2 ^ 52 ∧ -1074 < q then 1 / 4 else 1 / 2 : ℚ) ≤ 1 / 2 := by
    split <;> norm_num
  simp only at h
  split at h
  · next heven =>
      refine ⟨abs_le.2 ⟨by linarith, by linarith⟩, .inl heven⟩
  · refine ⟨abs_le.2 ⟨by linarith, by linarith⟩, .inr (abs_lt.2 ⟨by linarith, by linarith⟩)⟩

/-- What is less than a quarter off rounds. -/
theorem rounds_of_lt
    {m : Nat} {q : Int} {y : ℚ}
    (h : |y - m| < 1 / 4) :
    Rounds m q y := by
  have hbelow : (1 / 4 : ℚ) ≤ if m = 2 ^ 52 ∧ -1074 < q then 1 / 4 else 1 / 2 := by
    split <;> norm_num
  rw [abs_lt] at h
  unfold Rounds
  simp only
  split <;> constructor <;> linarith

theorem roundsTo_iff
    {m : Nat} {q : Int} {x : Fraction}
    (hm : 0 < m)
    (hx : 0 < x.den) :
    Decimal.roundsTo m q x = true ↔ Rounds m q (x.toRat / 2 ^ q) := by
  have hunit : (0 : ℚ) < 2 ^ q := by positivity
  have hquarter : (2 : ℚ) ^ (q - 2) = 2 ^ q / 4 := by
    rw [zpow_sub₀ two_ne_zero]
    norm_num
  have hden : ∀ n, 0 < (Fraction.scaled n 2 (q - 2)).den := fun n =>
    Fraction.den_scaled_pos (by decide) n _
  -- The ends of the interval in units of the last place.
  have hends : ∀ k : Nat, (Fraction.scaled k 2 (q - 2)).toRat = (k / 4 : ℚ) * 2 ^ q := by
    intro k
    rw [Fraction.toRat_scaled, Nat.cast_ofNat, hquarter]
    ring
  have hpower : Nat.pow 2 52 = 2 ^ 52 := rfl
  have hlow : ((4 * m - (if m = 2 ^ 52 ∧ -1074 < q then 1 else 2) : Nat) / 4 : ℚ) =
      m - (if m = 2 ^ 52 ∧ -1074 < q then 1 / 4 else 1 / 2) := by
    split
    · rw [Nat.cast_sub (by omega)]
      push_cast
      ring
    · rw [Nat.cast_sub (by omega)]
      push_cast
      ring
  have hhigh : ((4 * m + 2 : Nat) / 4 : ℚ) = m + 1 / 2 := by
    push_cast
    ring
  unfold Decimal.roundsTo Rounds
  simp only [hpower]
  split
  · rw [Bool.and_eq_true, Fraction.le_iff (hden _) hx, Fraction.le_iff hx (hden _), hends, hends,
      hlow, hhigh, le_div_iff₀ hunit, div_le_iff₀ hunit]
  · rw [Bool.and_eq_true, Fraction.lt_iff (hden _) hx, Fraction.lt_iff hx (hden _), hends, hends,
      hlow, hhigh, lt_div_iff₀ hunit, div_lt_iff₀ hunit]

/-! ## The nearest number -/

/-- A power of two times the unit of the last place. -/
theorem two_zpow_natCast_add
    (k : Nat) (q : Int) :
    (2 : ℚ) ^ ((k : Int) + q) = 2 ^ k * 2 ^ q := by
  rw [zpow_add₀ two_ne_zero, zpow_natCast]

/-- No number of 53 bits and one of the exponents is too large. -/
theorem IsParts.mul_unit_lt
    {m : Nat} {q : Int}
    (h : IsParts m q)
    {n : Nat}
    (hn : n < 2 ^ 53) :
    (n : ℚ) * 2 ^ q < 2 ^ (1024 : Int) := by
  calc (n : ℚ) * 2 ^ q < 2 ^ 53 * 2 ^ q := by
        have : (n : ℚ) < 2 ^ 53 := by exact_mod_cast hn
        gcongr
    _ = 2 ^ (((53 : Nat) : Int) + q) := (two_zpow_natCast_add 53 q).symm
    _ ≤ 2 ^ (1024 : Int) := zpow_le_zpow_right₀ one_le_two (by have := h.greatest; omega)

section Nearest

variable {x : Fraction} (hnum : 0 < x.num) (hden : 0 < x.den)

theorem toRat_units
    (x : Fraction) (k : Int) :
    (x.div (Fraction.scaled 1 2 k)).toRat = x.toRat / 2 ^ k := by
  rw [Fraction.toRat_div, Fraction.toRat_scaled, Nat.cast_one, one_mul, Nat.cast_ofNat]

include hden in
theorem den_units_pos
    (k : Int) :
    0 < (x.div (Fraction.scaled 1 2 k)).den := by
  have hone : 0 < (Fraction.scaled 1 2 k).num := by
    unfold Fraction.scaled
    split
    · simp
    · exact Nat.one_pos
  exact Nat.mul_pos hden hone

include hnum in
/-- The nearest number has the rounded multiple of the unit that the size of the fraction asks for. -/
theorem nearest_eq_ofParts
    (negative : Bool) {m : Nat} {q : Int}
    (hq : max (x.floorLog2 - 52) (-1074) = q)
    (hm : (x.div (Fraction.scaled 1 2 q)).nearest = m)
    (hfinite : (m : ℚ) * 2 ^ q < 2 ^ (1024 : Int)) :
    nearest negative x = ofParts negative m q := by
  have hlimit : ¬ (Fraction.scaled 1 2 double.limit).le (Fraction.scaled m 2 q) = true := by
    rw [Fraction.le_iff (Fraction.den_scaled_pos (by decide) _ _)
      (Fraction.den_scaled_pos (by decide) _ _), Fraction.toRat_scaled, Fraction.toRat_scaled,
      not_le, Nat.cast_one, one_mul, Nat.cast_ofNat]
    exact hfinite
  have hexponent : max (x.floorLog2 - ((double.precision : Int) - 1)) double.least = q := hq
  unfold nearest nearestOf
  simp only [if_neg hnum.ne', hexponent, hm, if_neg hlimit]

variable {m : Nat} {q : Int}

include hnum hden

theorem Rounds.floorLog2_lt
    (h : Rounds m q (x.toRat / 2 ^ q))
    (hm : m < 2 ^ 53) :
    x.floorLog2 < 53 + q := by
  have hunit : (0 : ℚ) < 2 ^ q := by positivity
  have hbits : (m : ℚ) + 1 ≤ 2 ^ 53 := by exact_mod_cast hm
  refine (zpow_lt_zpow_iff_right₀ (one_lt_two (α := ℚ))).1 ?_
  refine (Fraction.floorLog2_spec hnum hden).1.trans_lt ?_
  rw [show (53 : Int) + q = ((53 : Nat) : Int) + q from rfl, two_zpow_natCast_add,
    ← div_lt_iff₀ hunit]
  have hnear := abs_le.1 h.bounds.1
  linarith

theorem units_lt_power
    (hbelow : x.floorLog2 + 1 ≤ 52 + q) :
    x.toRat / 2 ^ q < 2 ^ 52 := by
  rw [div_lt_iff₀ (by positivity), ← two_zpow_natCast_add]
  exact (Fraction.floorLog2_spec hnum hden).2.trans_le (zpow_le_zpow_right₀ one_le_two hbelow)

/-- Below a power of two, what rounds to a number with the greater unit rounds to that power. -/
theorem Rounds.eq_power
    (h : Rounds m q (x.toRat / 2 ^ q))
    (hnormal : 2 ^ 52 ≤ m)
    (hbelow : x.floorLog2 + 1 ≤ 52 + q) :
    m = 2 ^ 52 := by
  refine le_antisymm ?_ hnormal
  have : (m : ℚ) < 2 ^ 52 + 1 := by
    have hpower := units_lt_power hnum hden hbelow
    have hnear := abs_le.1 h.bounds.1
    linarith
  exact Nat.lt_succ_iff.1 (by exact_mod_cast this)

/-- The power is then rounded to with the smaller unit, and carried. -/
theorem nearest_of_rounds_power
    (negative : Bool)
    (hparts : IsParts (2 ^ 52) q)
    (h : Rounds (2 ^ 52) q (x.toRat / 2 ^ q))
    (hq : -1074 < q)
    (hbelow : x.floorLog2 + 1 ≤ 52 + q) :
    nearest negative x = ofParts negative (2 ^ 52) q := by
  have hunit : (0 : ℚ) < 2 ^ q := by positivity
  have hquarter : (2 : ℚ) ^ 52 - 1 / 4 ≤ x.toRat / 2 ^ q := by
    unfold Rounds at h
    simp only [hq, and_self, if_true, show 2 ^ 52 % 2 = 0 from rfl] at h
    push_cast at h
    exact h.1
  have hexponent : max (x.floorLog2 - 52) (-1074) = q - 1 := by
    have hge : 51 + q < x.floorLog2 + 1 := by
      refine (zpow_lt_zpow_iff_right₀ (one_lt_two (α := ℚ))).1
        (lt_of_le_of_lt ?_ (Fraction.floorLog2_spec hnum hden).2)
      rw [show (51 : Int) + q = ((51 : Nat) : Int) + q from rfl, two_zpow_natCast_add,
        ← le_div_iff₀ hunit]
      norm_num at hquarter ⊢
      linarith
    omega
  have hdouble : x.toRat / 2 ^ (q - 1) = 2 * (x.toRat / 2 ^ q) := by
    rw [zpow_sub₀ two_ne_zero, zpow_one]
    field_simp
  rw [← ofParts_carry negative hq]
  refine nearest_eq_ofParts hnum negative hexponent ?_ ?_
  · refine Fraction.nearest_eq_of_even (den_units_pos hden _) (by decide) ?_
    rw [toRat_units, hdouble, abs_le]
    have hpower := units_lt_power hnum hden hbelow
    push_cast
    constructor <;> linarith
  · have hcarry : ((2 ^ 53 : Nat) : ℚ) * 2 ^ (q - 1) = ((2 ^ 52 : Nat) : ℚ) * 2 ^ q := by
      rw [zpow_sub₀ two_ne_zero, zpow_one]
      push_cast
      ring
    rw [hcarry]
    exact hparts.mul_unit_lt (by norm_num)

/-- A finite number is the nearest one to every fraction of its interval. -/
theorem nearest_of_rounds
    (negative : Bool)
    (hparts : IsParts m q)
    (h : Rounds m q (x.toRat / 2 ^ q)) :
    nearest negative x = ofParts negative m q := by
  have hsize := h.floorLog2_lt hnum hden hparts.lt
  by_cases hq : max (x.floorLog2 - 52) (-1074) = q
  · obtain ⟨hnear, htie⟩ := h.bounds
    refine nearest_eq_ofParts hnum negative hq ?_ (hparts.mul_unit_lt hparts.lt)
    rcases htie with heven | hstrict
    · exact Fraction.nearest_eq_of_even (den_units_pos hden q) heven (by rwa [toRat_units])
    · exact Fraction.nearest_eq_of_lt (den_units_pos hden q) (by rwa [toRat_units])
  · have hleast := hparts.least
    obtain ⟨hmore, hbelow⟩ : -1074 < q ∧ x.floorLog2 + 1 ≤ 52 + q := by omega
    obtain rfl := h.eq_power hnum hden (hparts.normal hmore) hbelow
    exact nearest_of_rounds_power hnum hden negative hparts h hmore hbelow

end Nearest

end Binary64
end Stencil
