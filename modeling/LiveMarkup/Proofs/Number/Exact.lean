import Mathlib.Algebra.Order.Field.Power
import Mathlib.Data.Int.Log
import Mathlib.Data.Nat.Cast.Field
import Mathlib.Data.Rat.Floor
import Mathlib.Tactic.Positivity
import LiveMarkup.Number.Literal

/-! Numbers that are read exactly. Rounding a quotient whose value is that of a magnitude gives this
magnitude, so a whole number that is one is read from its digits as it is. -/
namespace LiveMarkup

variable {num den n : Nat} {k : Int} {x y : Magnitude}

theorem zpow_two_eq_div (k : Int) : (2 : ℚ) ^ k = 2 ^ k.toNat / 2 ^ (-k).toNat := by
  obtain ⟨n, rfl | rfl⟩ := k.eq_nat_or_neg <;> simp

/-- A quotient against a power of two, compared without a division. -/
theorem shiftLeft_lt_shiftLeft_iff (hden : den ≠ 0) :
    num <<< (-k).toNat < den <<< k.toNat ↔ (num : ℚ) / den < 2 ^ k := by
  have hpos : (0 : ℚ) < den := Nat.cast_pos.2 (Nat.pos_of_ne_zero hden)
  rw [zpow_two_eq_div, div_lt_div_iff₀ hpos (by positivity), Nat.shiftLeft_eq, Nat.shiftLeft_eq,
    mul_comm (2 ^ k.toNat : ℚ)]
  exact_mod_cast Iff.rfl

theorem log_two_eq {q : ℚ} (hq : 0 < q) (hlow : 2 ^ k ≤ q) (hhigh : q < 2 ^ (k + 1)) :
    Int.log 2 q = k := by
  have hle := (Int.zpow_le_iff_le_log Nat.one_lt_two hq).1 (by exact_mod_cast hlow)
  have hlt := (Int.lt_zpow_iff_log_lt Nat.one_lt_two hq).1 (by exact_mod_cast hhigh)
  omega

theorem zpow_log2_le (hn : n ≠ 0) : (2 : ℚ) ^ (n.log2 : Int) ≤ n := by
  exact_mod_cast Nat.log2_self_le hn

theorem lt_zpow_log2 (n : Nat) : (n : ℚ) < 2 ^ (n.log2 + 1 : Int) := by
  exact_mod_cast Nat.lt_log2_self (n := n)

/-- A quotient lies between the powers of two that the logarithms of its terms give. -/
theorem zpow_lt_div_and_div_lt (hnum : num ≠ 0) (hden : den ≠ 0) :
    (2 : ℚ) ^ (num.log2 - den.log2 - 1 : Int) < (num : ℚ) / den ∧
      (num : ℚ) / den < 2 ^ (num.log2 - den.log2 + 1 : Int) := by
  have hpos : (0 : ℚ) < den := Nat.cast_pos.2 (Nat.pos_of_ne_zero hden)
  have hlow : (2 : ℚ) ^ (num.log2 - den.log2 - 1 : Int) =
      2 ^ (num.log2 : Int) / 2 ^ (den.log2 + 1 : Int) := by
    rw [← zpow_sub₀ two_ne_zero]
    congr 1
    omega
  have hhigh : (2 : ℚ) ^ (num.log2 - den.log2 + 1 : Int) =
      2 ^ (num.log2 + 1 : Int) / 2 ^ (den.log2 : Int) := by
    rw [← zpow_sub₀ two_ne_zero]
    congr 1
    omega
  rw [hlow, hhigh]
  constructor
  · calc (2 : ℚ) ^ (num.log2 : Int) / 2 ^ (den.log2 + 1 : Int)
        ≤ num / 2 ^ (den.log2 + 1 : Int) := by gcongr; exact zpow_log2_le hnum
      _ < num / den := by
        gcongr
        exact lt_zpow_log2 den
  · calc (num : ℚ) / den < 2 ^ (num.log2 + 1 : Int) / den := by gcongr; exact lt_zpow_log2 num
      _ ≤ 2 ^ (num.log2 + 1 : Int) / 2 ^ (den.log2 : Int) := by gcongr; exact zpow_log2_le hden

/-- The exponent found from the terms of a quotient is its binary logarithm. -/
theorem binaryExponent_eq_log (hnum : num ≠ 0) (hden : den ≠ 0) :
    binaryExponent num den = Int.log 2 ((num : ℚ) / den) := by
  have hq : (0 : ℚ) < num / den := by positivity
  obtain ⟨hlow, hhigh⟩ := zpow_lt_div_and_div_lt hnum hden
  rw [binaryExponent]
  simp only [shiftLeft_lt_shiftLeft_iff hden]
  split
  · next hlt => exact (log_two_eq hq hlow.le (by rwa [sub_add_cancel])).symm
  · next hle => exact (log_two_eq hq (not_lt.1 hle) hhigh).symm

/-- A natural number that goes into another one is not rounded. -/
theorem roundHalfEven_mul (hden : 0 < den) (n : Nat) : roundHalfEven (n * den) den = n := by
  simp [roundHalfEven, Nat.mul_div_cancel n hden, hden]

namespace Magnitude

/-- The value of a magnitude. -/
def value (x : Magnitude) : ℚ := x.significand * 2 ^ x.exponent

theorem numerator_div_denominator (x : Magnitude) : (x.numerator : ℚ) / x.denominator = x.value := by
  rw [value, zpow_two_eq_div, numerator, denominator, Nat.shiftLeft_eq, Nat.shiftLeft_eq, one_mul,
    mul_div_assoc']
  push_cast
  rfl

/-- The natural number that a magnitude is, if it is one. -/
theorem natural?_eq_some_iff : x.natural? = some n ↔ x.value = n := by
  rw [natural?, Option.ite_none_right_eq_some, Option.some.injEq, ← numerator_div_denominator]
  constructor
  · rintro ⟨hmod, rfl⟩
    rw [Nat.cast_div_charZero (Nat.dvd_of_mod_eq_zero hmod)]
  · intro h
    rw [div_eq_iff (by exact_mod_cast x.denominator_pos.ne')] at h
    have hnumerator : x.numerator = n * x.denominator := by exact_mod_cast h
    rw [hnumerator]
    exact ⟨Nat.mul_mod_left _ _, Nat.mul_div_cancel _ x.denominator_pos⟩

theorem eq_zero (h : x.significand = 0) : x = zero := by
  obtain ⟨significand, exponent, hcanonical⟩ := x
  obtain rfl : significand = 0 := h
  obtain rfl : exponent = -1074 := hcanonical.2.2.2.resolve_left (by decide)
  rfl

theorem value_pos (h : x.significand ≠ 0) : 0 < x.value := by
  rw [value]
  positivity

/-- The binary logarithm of a magnitude tells its exponent, unless that is the least one. -/
theorem exponent_eq_max (h : x.significand ≠ 0) :
    x.exponent = max (Int.log 2 x.value - 52) (-1074) := by
  obtain ⟨hbound, hleast, -, hfull⟩ := x.canonical
  have hpos := value_pos h
  have hupper : Int.log 2 x.value < x.exponent + 53 := by
    refine (Int.lt_zpow_iff_log_lt Nat.one_lt_two hpos).1 ?_
    rw [value, add_comm, Nat.cast_ofNat, zpow_add₀ two_ne_zero]
    gcongr
    exact_mod_cast hbound
  have hlower (hm : 0x10000000000000 ≤ x.significand) : x.exponent + 52 ≤ Int.log 2 x.value := by
    refine (Int.zpow_le_iff_le_log Nat.one_lt_two hpos).1 ?_
    rw [value, add_comm, Nat.cast_ofNat, zpow_add₀ two_ne_zero]
    gcongr
    exact_mod_cast hm
  rcases hfull with hm | hm
  · have := hlower hm
    omega
  · omega

/-- Rounding a quotient whose value is that of a magnitude gives the magnitude. -/
theorem nearest?_eq (hden : den ≠ 0) (h : (num : ℚ) / den = x.value) :
    nearest? num den = some x := by
  have hpos : (0 : ℚ) < den := Nat.cast_pos.2 (Nat.pos_of_ne_zero hden)
  by_cases hzero : x.significand = 0
  · obtain rfl := eq_zero hzero
    have hnum : num = 0 := by simpa [value, zero, hden] using h
    rw [nearest?, if_pos hnum]
  · have hnum : num ≠ 0 := by
      rintro rfl
      rw [Nat.cast_zero, zero_div] at h
      exact (value_pos hzero).ne h
    have hexact : num <<< (-x.exponent).toNat =
        x.significand * (den <<< x.exponent.toNat) := by
      rw [value, zpow_two_eq_div, div_eq_iff hpos.ne', mul_div_assoc', div_mul_eq_mul_div,
        eq_div_iff (by positivity)] at h
      rw [Nat.shiftLeft_eq, Nat.shiftLeft_eq]
      have h' : num * 2 ^ (-x.exponent).toNat = x.significand * 2 ^ x.exponent.toNat * den := by
        exact_mod_cast h
      rw [h']
      ring
    have hscale : 0 < den <<< x.exponent.toNat := by
      rw [Nat.shiftLeft_eq]
      positivity
    have hbound := x.canonical.1
    rw [nearest?, if_neg hnum, binaryExponent_eq_log hnum hden, h, ← exponent_eq_max hzero]
    dsimp only
    rw [hexact, roundHalfEven_mul hscale, if_neg (by omega), dif_pos x.canonical]

/-- A product of magnitudes is exact where its value is that of a magnitude. -/
theorem mul?_eq {z : Magnitude} (h : x.value * y.value = z.value) : x.mul? y = some z := by
  have hden : x.denominator * y.denominator ≠ 0 :=
    Nat.mul_ne_zero x.denominator_pos.ne' y.denominator_pos.ne'
  refine nearest?_eq hden ?_
  rw [Nat.cast_mul, Nat.cast_mul, mul_div_mul_comm, numerator_div_denominator,
    numerator_div_denominator, h]

/-- A magnitude multiplied by one. -/
theorem mulPower?_zero (x : Magnitude) : x.mulPower? 0 = some x := by
  obtain ⟨one, hone, hvalue⟩ : ∃ one, powerOfTen? 0 = some one ∧ one.value = 1 := by
    let one : Magnitude := ⟨0x10000000000000, -52, by decide⟩
    have hvalue : one.value = 1 := by norm_num [value, one]
    exact ⟨one, nearest?_eq one_ne_zero (by simp [hvalue]), hvalue⟩
  rw [mulPower?]
  split
  · rfl
  · rw [if_pos (Nat.zero_le _), hone, Option.bind_some]
    exact mul?_eq (by rw [hvalue, mul_one])

/-- A whole number that is a magnitude is not rounded when it is read. -/
theorem ofDecimal?_natural (h : x.value = n) : ofDecimal? ⟨n, 0⟩ = some x := by
  have hvalue : (n : ℚ) / (1 : Nat) = x.value := by rw [h, Nat.cast_one, div_one]
  rw [ofDecimal?, nearest?_eq one_ne_zero hvalue]
  exact mulPower?_zero x

end Magnitude
end LiveMarkup
