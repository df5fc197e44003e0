/-! Double-precision numbers as exact data: a sign and a significand times a power of two, in the
one form that each value has, decimals as they are written, and the magnitude nearest to a quotient
of natural numbers. Numbers are only read, compared with zero and written. -/
namespace LiveMarkup

/-- The form of a finite magnitude: at most 53 bits, and exactly 53 above the least exponent. -/
def Canonical (significand : Nat) (exponent : Int) : Prop :=
  significand < 0x20000000000000 ∧ -1074 ≤ exponent ∧ exponent ≤ 971 ∧
    (0x10000000000000 ≤ significand ∨ exponent = -1074)

instance (m : Nat) (e : Int) : Decidable (Canonical m e) :=
  inferInstanceAs (Decidable (_ ∧ _ ∧ _ ∧ _))

/-- The absolute value `significand * 2 ^ exponent` of a finite number. -/
structure Magnitude where
  significand : Nat
  exponent : Int
  canonical : Canonical significand exponent
  deriving DecidableEq

namespace Magnitude

def zero : Magnitude := ⟨0, -1074, by decide⟩

/-- A magnitude as a quotient of two natural numbers. -/
def numerator (x : Magnitude) : Nat := x.significand <<< x.exponent.toNat

def denominator (x : Magnitude) : Nat := 1 <<< (-x.exponent).toNat

theorem denominator_pos (x : Magnitude) : 0 < x.denominator := by
  rw [denominator, Nat.shiftLeft_eq, Nat.one_mul]
  exact Nat.two_pow_pos _

/-- The value of a magnitude without a fraction. -/
def natural? (x : Magnitude) : Option Nat :=
  if x.numerator % x.denominator = 0 then some (x.numerator / x.denominator) else none

end Magnitude

/-- The value `digits * 10 ^ exponent`. -/
structure Decimal where
  digits : Nat
  exponent : Int

inductive Number where
  | nan
  | infinite (negative : Bool)
  | finite (negative : Bool) (magnitude : Magnitude)
  deriving DecidableEq

namespace Number

/-- Neither zero, of either sign, nor the undefined number. -/
def isTruthy : Number → Bool
  | nan => false
  | infinite _ => true
  | finite _ magnitude => magnitude.significand ≠ 0

end Number

/-- The nearest natural number to a quotient; a half goes to the even neighbour. -/
def roundHalfEven (num den : Nat) : Nat :=
  let q := num / den
  let r := num % den
  if 2 * r < den ∨ (2 * r = den ∧ q % 2 = 0) then q else q + 1

/-- The exponent of the greatest power of two that is at most `num / den`, for positive terms. -/
def binaryExponent (num den : Nat) : Int :=
  let k : Int := (num.log2 : Int) - den.log2
  if num <<< (-k).toNat < den <<< k.toNat then k - 1 else k

namespace Magnitude

/-- Rounds a quotient with positive denominator to 53 bits, or to fewer at the least exponent;
`none` when it is beyond the greatest finite magnitude. -/
def nearest? (num den : Nat) : Option Magnitude :=
  if num = 0 then some zero
  else
    let exponent := max (binaryExponent num den - 52) (-1074)
    let m := roundHalfEven (num <<< (-exponent).toNat) (den <<< exponent.toNat)
    let (m, exponent) :=
      if m = 0x20000000000000 then (0x10000000000000, exponent + 1) else (m, exponent)
    if h : Canonical m exponent then some ⟨m, exponent, h⟩ else none

/-- A product, rounded. -/
def mul? (x y : Magnitude) : Option Magnitude :=
  nearest? (x.numerator * y.numerator) (x.denominator * y.denominator)

/-- A quotient by a magnitude other than zero, rounded. -/
def div? (x y : Magnitude) : Option Magnitude :=
  nearest? (x.numerator * y.denominator) (x.denominator * y.numerator)

end Magnitude

end LiveMarkup
