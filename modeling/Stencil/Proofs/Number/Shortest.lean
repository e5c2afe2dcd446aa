import Stencil.Proofs.Number.Rounding

/-!
# Shortest decimals round back

The decimal that is found for a binary number is in the interval of the number: on every grid only
decimals of the interval are taken, and the last grid is so fine that its nearest decimal is in it.

Result: `Decimal.rounds_shortest`.
-/

namespace Stencil
namespace Decimal

/-- The rational number that a decimal writes. -/
def value (d : Decimal) : ℚ := d.coefficient * 10 ^ d.exponent

theorem toRat_toFraction
    (d : Decimal) :
    d.toFraction.toRat = d.value := by
  rw [toFraction, Fraction.toRat_scaled, Nat.cast_ofNat, value]

theorem den_toFraction_pos
    (d : Decimal) :
    0 < d.toFraction.den :=
  Fraction.den_scaled_pos (by decide) _ _

theorem value_strip
    (fuel : Nat) (d : Decimal) :
    (strip fuel d).value = d.value := by
  induction fuel generalizing d with
  | zero =>
      rfl
  | succ fuel ih =>
      rw [strip]
      split
      · next h =>
          have hcoefficient : (d.coefficient : ℚ) = 10 * (d.coefficient / 10 : Nat) := by
            exact_mod_cast (Nat.mul_div_cancel' (Nat.dvd_of_mod_eq_zero h.2)).symm
          rw [ih, value, value, hcoefficient, zpow_add₀ (by norm_num), zpow_one]
          ring
      · rfl

section Search

variable {m : Nat} {q : Int}

/-- A decimal that is taken from a grid rounds back. -/
theorem roundsTo_of_onGrid?
    {k : Int} {d : Decimal}
    (h : onGrid? m q k = some d) :
    roundsTo m q d.toFraction = true := by
  unfold onGrid? at h
  simp only at h
  generalize hratio : (Fraction.scaled m 2 q).div (Fraction.scaled 1 10 k) = ratio at h
  split at h
  · next hboth =>
      rw [Bool.and_eq_true] at hboth
      cases h
      have hneighbour : ratio.nearest = ratio.floor ∨ ratio.nearest = ratio.floor + 1 := by
        unfold Fraction.nearest Fraction.floor
        simp only
        split
        · exact .inl rfl
        · split
          · exact .inr rfl
          · omega
      rcases hneighbour with hfloor | hnext
      · rw [toFraction, hfloor]
        exact hboth.1
      · rw [toFraction, hnext]
        exact hboth.2
  · split at h
    · next hlower =>
        cases h
        exact hlower
    · split at h
      · next hupper =>
          cases h
          exact hupper
      · cases h

variable (hm : 0 < m) (hbits : m < 2 ^ 53)

include hm hbits in
/-- On a grid of eighteen digits the nearest decimal rounds back. -/
theorem roundsTo_nearest
    {k : Int}
    (hk : (10 : ℚ) ^ k * 10 ^ 17 ≤ m * 2 ^ q) :
    roundsTo m q (toFraction ⟨((Fraction.scaled m 2 q).div (Fraction.scaled 1 10 k)).nearest, k⟩) =
      true := by
  have hunit : (0 : ℚ) < 2 ^ q := by positivity
  have hplace : (0 : ℚ) < 10 ^ k := by positivity
  have hsize : (m : ℚ) < 2 ^ 53 := by exact_mod_cast hbits
  generalize hratio : (Fraction.scaled m 2 q).div (Fraction.scaled 1 10 k) = ratio
  have htoRat : ratio.toRat = m * 2 ^ q / 10 ^ k := by
    rw [← hratio, Fraction.toRat_div, Fraction.toRat_scaled, Fraction.toRat_scaled, Nat.cast_one,
      one_mul, Nat.cast_ofNat, Nat.cast_ofNat]
  have hden : 0 < ratio.den := by
    rw [← hratio]
    refine Nat.mul_pos (Fraction.den_scaled_pos (by decide) _ _) ?_
    unfold Fraction.scaled
    split
    · simp
    · exact Nat.one_pos
  have herror := Fraction.abs_toRat_sub_nearest_le hden
  rw [Binary64.roundsTo_iff hm (den_toFraction_pos _), toRat_toFraction, value]
  refine Binary64.rounds_of_lt ?_
  -- The error in units of the last place is that on the grid, scaled.
  have hscaled : (ratio.nearest : ℚ) * 10 ^ k / 2 ^ q - m =
      -((ratio.toRat - ratio.nearest) * (10 ^ k / 2 ^ q)) := by
    rw [htoRat]
    field_simp
    ring
  have hstep : (10 : ℚ) ^ k / 2 ^ q * 10 ^ 17 ≤ m := by
    rw [div_mul_eq_mul_div, div_le_iff₀ hunit]
    exact hk
  rw [hscaled, abs_neg, abs_mul, abs_of_pos (div_pos hplace hunit)]
  calc |ratio.toRat - ratio.nearest| * (10 ^ k / 2 ^ q)
      ≤ 1 / 2 * (10 ^ k / 2 ^ q) := by gcongr
    _ < 1 / 4 := by
      have hfine : (2 : ℚ) ^ 53 < 1 / 2 * 10 ^ 17 := by norm_num
      linarith

include hm hbits in
/-- What the search ends with rounds back, where its last grid is fine enough. -/
theorem roundsTo_search
    (grids : Nat) {k : Int}
    (hk : (10 : ℚ) ^ (k - grids) * 10 ^ 17 ≤ m * 2 ^ q) :
    roundsTo m q (search m q grids k).toFraction = true := by
  induction grids generalizing k with
  | zero =>
      rw [Nat.cast_zero, sub_zero] at hk
      exact roundsTo_nearest hm hbits hk
  | succ grids ih =>
      rw [search]
      split
      · next d hd =>
          exact roundsTo_of_onGrid? hd
      · refine ih ?_
        have hexponent : k - 1 - (grids : Int) = k - ((grids + 1 : Nat) : Int) := by omega
        rwa [hexponent]

end Search

/-- The shortest decimal of a positive number rounds back to it. -/
theorem rounds_shortest
    {m : Nat} {q : Int}
    (hparts : Binary64.IsParts m q)
    (hm : 0 < m) :
    Binary64.Rounds m q ((shortest m q).value / 2 ^ q) := by
  have hnum : 0 < (Fraction.scaled m 2 q).num := by
    unfold Fraction.scaled
    split
    · exact Nat.mul_pos hm (Nat.two_pow_pos _)
    · exact hm
  have hone : (1 : ℚ) ≤ m := by exact_mod_cast hm
  have hbits : (m : ℚ) < 2 ^ 53 := by exact_mod_cast hparts.lt
  have hunit : (0 : ℚ) < 2 ^ q := by positivity
  have hvalue : (Fraction.scaled m 2 q).toRat = m * 2 ^ q := by
    rw [Fraction.toRat_scaled, Nat.cast_ofNat]
  have hlow : (2 : ℚ) ^ (-1074 : Int) ≤ (Fraction.scaled m 2 q).toRat := by
    rw [hvalue]
    calc (2 : ℚ) ^ (-1074 : Int) ≤ 2 ^ q := zpow_le_zpow_right₀ one_le_two hparts.least
      _ ≤ m * 2 ^ q := le_mul_of_one_le_left hunit.le hone
  have hhigh : (Fraction.scaled m 2 q).toRat < (2 : ℚ) ^ (1024 : Int) := by
    rw [hvalue]
    calc (m : ℚ) * 2 ^ q < 2 ^ 53 * 2 ^ q := by gcongr
      _ = 2 ^ (53 + q) := by rw [zpow_add₀ two_ne_zero]; rfl
      _ ≤ 2 ^ (1024 : Int) := zpow_le_zpow_right₀ one_le_two (by have := hparts.greatest; omega)
  have hlog := Fraction.floorLog10_le hnum (Fraction.den_scaled_pos (by decide) _ _) hlow hhigh
  have hsearch := roundsTo_search hm hparts.lt 17 (k := (Fraction.scaled m 2 q).floorLog10) (by
    rw [← hvalue, zpow_sub₀ (by norm_num)]
    refine le_trans (le_of_eq ?_) hlog
    exact div_mul_cancel₀ _ (by norm_num))
  rw [Binary64.roundsTo_iff hm (den_toFraction_pos _), toRat_toFraction] at hsearch
  rw [shortest, value_strip]
  exact hsearch

/-- The shortest decimal of a positive number is positive. -/
theorem shortest_pos
    {m : Nat} {q : Int}
    (hparts : Binary64.IsParts m q)
    (hm : 0 < m) :
    0 < (shortest m q).coefficient := by
  have hone : (1 : ℚ) ≤ m := by exact_mod_cast hm
  have hunit : (0 : ℚ) < 2 ^ q := by positivity
  obtain ⟨hnear, -⟩ := (rounds_shortest hparts hm).bounds
  rw [abs_le] at hnear
  refine Nat.pos_of_ne_zero fun hzero => ?_
  rw [value, hzero, Nat.cast_zero, zero_mul, zero_div] at hnear
  linarith

end Decimal

/-- Every fraction with the value of the shortest decimal of a positive finite number rounds to the
number. -/
theorem Binary64.nearest_of_shortest
    {x : Binary64} {negative : Bool} {m : Nat} {q : Int}
    (hx : x.decode = .finite negative m q)
    (hm : m ≠ 0)
    {f : Fraction}
    (hden : 0 < f.den)
    (hf : f.toRat = (Decimal.shortest m q).value) :
    nearest negative f = x := by
  have hparts := isParts_of_decode hx
  have hpos := Decimal.shortest_pos hparts (Nat.pos_of_ne_zero hm)
  have hnum : 0 < f.num := by
    refine Nat.pos_of_ne_zero fun hzero => ?_
    have hvalue : (0 : ℚ) < (Decimal.shortest m q).value := by
      unfold Decimal.value
      positivity
    rw [← hf, Fraction.toRat, hzero, Nat.cast_zero, zero_div] at hvalue
    exact lt_irrefl _ hvalue
  rw [nearest_of_rounds hnum hden negative hparts
    (hf ▸ Decimal.rounds_shortest hparts (Nat.pos_of_ne_zero hm))]
  exact ofParts_of_decode hx

end Stencil
