import LiveMarkup.Number.Basic
import LiveMarkup.Text.Digits

/-! The fewest decimal digits that read back to a magnitude, and among those of equal count the
nearest to it. -/
namespace LiveMarkup

/-- Which neighbour an exact half goes to. -/
inductive Tie where
  | up
  | even

/-- The reals that round to a magnitude, as an interval over one denominator: `center / unit` is
the magnitude itself, and the ends belong to it when the significand is even. -/
structure Neighbourhood where
  center : Nat
  below : Nat
  above : Nat
  unit : Nat
  closed : Bool

namespace Magnitude

/-- Half the distance to the next magnitude on either side, which below a power of two is half of
what it is above. -/
def neighbourhood (x : Magnitude) : Neighbourhood :=
  let scale := 1 <<< x.exponent.toNat
  { center := 4 * x.numerator
    below := if x.significand = 0x10000000000000 ∧ x.exponent ≠ -1074 then scale else 2 * scale
    above := 2 * scale
    unit := 4 * x.denominator
    closed := x.significand % 2 = 0 }

end Magnitude

namespace Neighbourhood

/-- Whether `(c * 10 ^ p)` reads back, where `center`, `below` and `above` are already multiplied
by `10 ^ (-p)` for a negative `p`. -/
def holds (n : Neighbourhood) (c grid : Nat) : Bool :=
  if n.closed then n.center - n.below ≤ c * grid && c * grid ≤ n.center + n.above
  else n.center - n.below < c * grid && c * grid < n.center + n.above

/-- The better of the two multiples of `10 ^ p` around the center, if one of them is inside. -/
def onGrid? (n : Neighbourhood) (tie : Tie) (p : Int) : Option Decimal :=
  let s := Nat.pow 10 (-p).toNat
  let n : Neighbourhood :=
    { n with center := n.center * s, below := n.below * s, above := n.above * s }
  let grid := n.unit * Nat.pow 10 p.toNat
  let c := n.center / grid
  let toLower := n.center - c * grid
  let toUpper := (c + 1) * grid - n.center
  let upperWins : Bool := toUpper < toLower || (toUpper == toLower && match tie with
    | .up => true
    | .even => c % 2 == 1)
  match n.holds c grid, n.holds (c + 1) grid with
  | false, false => none
  | true, false => some ⟨c, p⟩
  | false, true => some ⟨c + 1, p⟩
  | true, true => some ⟨if upperWins then c + 1 else c, p⟩

end Neighbourhood

/-- The exponent of the greatest power of ten that is at most the magnitude. -/
def Magnitude.decimalExponent (x : Magnitude) : Int :=
  if x.denominator ≤ x.numerator then
    ((Text.decimal (x.numerator / x.denominator)).length : Int) - 1
  else -((Text.decimal (x.denominator / x.numerator)).length : Int)

/-- Tries one digit, then two, and so on; seventeen always suffice. -/
def Magnitude.shortest (x : Magnitude) (tie : Tie) : Decimal :=
  let n := x.neighbourhood
  let e := x.decimalExponent
  ((List.range 17).findSome? fun (k : Nat) => n.onGrid? tie (e - k)).getD ⟨0, 0⟩

end LiveMarkup
