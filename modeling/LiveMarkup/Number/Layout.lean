import LiveMarkup.Number.Shortest

/-! How a finite number is written: what is written as a whole number, where the point goes and
when an exponent is written. -/
namespace LiveMarkup

/-- The decisions of one written form of numbers. -/
structure Layout where
  /-- Numbers without a fraction below this bound are written as whole numbers, exactly. -/
  wholeBelow : Nat
  /-- Which of two equally near shortest forms is taken. -/
  tie : Tie
  /-- Decimal exponents outside this half-open range are written out; without a range none is. -/
  positional : Option (Int × Int)
  /-- Whether a shortest form without a fraction ends in `.0`. -/
  pointZero : Bool

namespace Layout

/-- The digits of a decimal without zeros at the end, and the exponent of the first one. -/
def normalDigits (d : Decimal) : List Char × Int :=
  let ds := Text.decimal d.digits
  let kept := (ds.reverse.dropWhile (· == '0')).reverse
  (kept, d.exponent + ds.length - 1)

/-- Digits around a point; the first digit has the given exponent. -/
def pointed (layout : Layout) (ds : List Char) (e : Int) : List Char :=
  if e < 0 then '0' :: '.' :: (List.replicate (-e - 1).toNat '0' ++ ds)
  else
    let whole := e.toNat + 1
    if ds.length ≤ whole then
      ds ++ List.replicate (whole - ds.length) '0' ++ (if layout.pointZero then ['.', '0'] else [])
    else ds.take whole ++ '.' :: ds.drop whole

/-- One digit, a point, the rest, and the exponent with its sign. -/
def scientific (ds : List Char) (e : Int) : List Char :=
  let tail := ds.drop 1
  ds.take 1 ++ (if tail.isEmpty then [] else '.' :: tail) ++
    'e' :: (if e < 0 then '-' else '+') :: Text.decimal e.natAbs

def unsigned (layout : Layout) (x : Magnitude) : List Char :=
  let (ds, e) := normalDigits (x.shortest layout.tie)
  match layout.positional with
  | none => layout.pointed ds e
  | some (low, high) => if low ≤ e ∧ e < high then layout.pointed ds e else scientific ds e

/-- The written form of a finite number. Zero has no sign. -/
def finite (layout : Layout) (negative : Bool) (x : Magnitude) : List Char :=
  if x.significand = 0 then ['0']
  else
    let sign := if negative then ['-'] else []
    match x.natural? with
    | some n => if n < layout.wholeBelow then sign ++ Text.decimal n else sign ++ layout.unsigned x
    | none => sign ++ layout.unsigned x

end Layout

end LiveMarkup
