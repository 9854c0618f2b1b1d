import SimpleBinary.Float.Format

/-!
# The shortest decimal that reads back

A finite number `m * 2 ^ e` owns the interval of reals that round to it, half a place to each side
(a quarter below a power of two), ends included when `m` is even. `shortest` is the decimal of
fewest digits in that interval; among decimals of that many digits it is the nearest to the
number, and a `TieRule` chooses between two that are equally near.
-/

namespace SimpleBinary

/-- A decimal `digits * 10 ^ exponent`. -/
structure Decimal where
  digits : Nat
  exponent : Int
deriving DecidableEq, Repr

/-- Which of two neighbouring decimals is taken when a number lies halfway between them: the larger,
or the one whose last digit is even. -/
inductive TieRule where
  | up
  | even
deriving DecidableEq, Repr

namespace Decimal

/-- Numerator and denominator of `num / den * 10 ^ e`. -/
def scaleTen (num den : Nat) (e : Int) : Nat × Nat :=
  if 0 ≤ e then (num * Nat.pow 10 e.toNat, den) else (num, den * Nat.pow 10 (-e).toNat)

/-- The number of decimal digits of a natural, none for zero. -/
def digitCount (n : Nat) : Nat := if n = 0 then 0 else (Nat.toDigits 10 n).length

/-- How many times a fraction below one is to be multiplied by ten before it reaches one. -/
def leadingZeros (num den : Nat) : Nat → Nat
  | 0 => 0
  | fuel + 1 => if den ≤ num then 0 else leadingZeros (num * 10) den fuel + 1

/-- The greatest `k` with `10 ^ k ≤ num / den`, for positive `num` and `den`. -/
def floorLog10 (num den : Nat) : Int :=
  if den ≤ num then (digitCount (num / den) : Int) - 1
  else -(leadingZeros num den (digitCount den + 1) : Int)

/-- The interval of reals that round to one number, over the common denominator `den`. -/
structure Interval where
  low : Nat
  value : Nat
  high : Nat
  den : Nat
  closed : Bool

/-- The interval of `m * 2 ^ e`; `quarter` when the gap below is half the gap above. -/
def Interval.ofScaled (m : Nat) (e : Int) (quarter : Bool) : Interval :=
  let (unit, den) := scaleRatio 1 1 (e - 2)
  ⟨(4 * m - if quarter then 1 else 2) * unit, 4 * m * unit, (4 * m + 2) * unit, den, m % 2 == 0⟩

/-- Whether `c * 10 ^ g` rounds to the number. -/
def Interval.holds (i : Interval) (c : Nat) (g : Int) : Bool :=
  let (n, d) := scaleTen c 1 g
  let x := n * i.den
  if i.closed then i.low * d ≤ x && x ≤ i.high * d else i.low * d < x && x < i.high * d

/-- Of `n / d` and the natural above it the one that is nearer to the fraction. -/
def roundBy (ties : TieRule) (n d : Nat) : Nat :=
  let c := n / d
  if 2 * (n % d) < d || (ties == .even && 2 * (n % d) == d && c % 2 == 0) then c else c + 1

/-- The point of the grid `10 ^ g` in the interval that is nearest to the number, if any: one of
the number's two neighbours on that grid. -/
def Interval.nearest? (i : Interval) (ties : TieRule) (g : Int) : Option Nat :=
  let (n, d) := scaleTen i.value i.den (-g)
  let c := n / d
  match i.holds c g, i.holds (c + 1) g with
  | true, true => some (roundBy ties n d)
  | true, false => some c
  | false, true => some (c + 1)
  | false, false => none

/-- Moves zeros at the end of the digits into the exponent. -/
def stripZeros (digits : Nat) (exponent : Int) : Nat → Decimal
  | 0 => ⟨digits, exponent⟩
  | fuel + 1 =>
    if digits % 10 = 0 then stripZeros (digits / 10) (exponent + 1) fuel else ⟨digits, exponent⟩

/-- The shortest decimal in the interval of a positive number, on grids of 1, 2, .. 17 digits. -/
def Interval.shortest (i : Interval) (ties : TieRule) : Decimal :=
  let k := floorLog10 i.value i.den
  let hit := (List.range 17).findSome? fun (n : Nat) =>
    (i.nearest? ties (k - n)).map fun c => stripZeros c (k - n) 20
  hit.getD ⟨0, 0⟩

/-- The shortest decimal that reads back as `m * 2 ^ e`, a positive number of the format. -/
def shortest (f : FloatFormat) (ties : TieRule) (m : Nat) (e : Int) : Decimal :=
  (Interval.ofScaled m e (m == f.fractionUnit && f.minExponent < e)).shortest ties

/-- The exponent of the leading digit. -/
def leading (d : Decimal) : Int := d.exponent + digitCount d.digits - 1

end Decimal

end SimpleBinary
