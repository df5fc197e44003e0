import LiveMarkup.Number.Basic
import LiveMarkup.Text.Digits

/-! Decimal literals as magnitudes. Of a literal the leading digits count that fit 64 bits; they
are rounded, and then multiplied or divided by a rounded power of ten. -/
namespace LiveMarkup

namespace Decimal

/-- Goes on reading a number digit by digit as long as it fits 64 bits. What does not fit, and all
behind it, is left over. -/
def takeFitting (n : Nat) : List Char → Nat × List Char
  | [] => (n, [])
  | d :: ds =>
    let more := 10 * n + Text.digitValue d
    if more < 0x10000000000000000 then takeFitting more ds else (n, d :: ds)

/-- The digits before and behind a point and an exponent. Digits of the whole part that are left
over are counted as zeros, those of the fraction are dropped. -/
def ofLiteral (whole fraction : List Char) (exponent : Int) : Decimal :=
  let (n, extra) := takeFitting 0 whole
  let (m, dropped) := takeFitting n fraction
  ⟨m, exponent + extra.length - (fraction.length - dropped.length : Nat)⟩

example : ofLiteral ['1', '2'] ['5'] 0 = ⟨125, -1⟩ := rfl

end Decimal

namespace Magnitude

/-- The greatest exponent of a power of ten that is finite. -/
def maxPower : Nat := 308

def powerOfTen? (n : Nat) : Option Magnitude := nearest? (Nat.pow 10 n) 1

/-- Divides by a power of ten. One that is not finite is divided by in steps, until nothing is
left. -/
def divPower? (x : Magnitude) (n : Nat) : Option Magnitude :=
  if x.significand = 0 then some x
  else if n ≤ maxPower then (powerOfTen? n).bind x.div?
  else do
    let y ← (powerOfTen? maxPower).bind x.div?
    y.divPower? (n - maxPower)
termination_by n
decreasing_by simp only [maxPower] at *; omega

/-- Multiplies by a power of ten, if that is finite. -/
def mulPower? (x : Magnitude) (n : Nat) : Option Magnitude :=
  if x.significand = 0 then some x
  else if n ≤ maxPower then (powerOfTen? n).bind x.mul?
  else none

/-- The magnitude of a decimal, unless it is too great. -/
def ofDecimal? (d : Decimal) : Option Magnitude :=
  (nearest? d.digits 1).bind fun x =>
    if d.exponent < 0 then x.divPower? (-d.exponent).toNat else x.mulPower? d.exponent.toNat

end Magnitude

end LiveMarkup
