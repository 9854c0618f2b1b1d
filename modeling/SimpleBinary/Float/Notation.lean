import SimpleBinary.Float.Binary64
import SimpleBinary.Float.Shortest

/-!
# Writing doubles

A double is written with the fewest digits that read back, positionally while the exponent of its
leading digit lies in the notation's window and as `d.ddde±x` outside it. A positional number
always has a digit after the point; a scientific one drops the point when it has one digit.
-/

namespace SimpleBinary

/-- The window of leading exponents written positionally, from the first and below the second, and
the choice between two shortest decimals that are equally near. -/
structure FloatNotation where
  positionalFrom : Int
  positionalBelow : Int
  ties : TieRule

namespace FloatNotation

/-- Literals in messages and generated sources: positional from `0.0001` and below `10 ^ 16`, ties
up. -/
def literal : FloatNotation := ⟨-4, 16, .up⟩

/-- Numbers in documents: positional from `0.00001` and below `10 ^ 16`, ties to even. -/
def document : FloatNotation := ⟨-5, 16, .even⟩

end FloatNotation

namespace Decimal

/-- Digits with a point, a zero on an empty side of it. -/
def positional (d : Decimal) : List Char :=
  let ds := Nat.toDigits 10 d.digits
  if 0 ≤ d.exponent then ds ++ List.replicate d.exponent.toNat '0' ++ ['.', '0']
  else
    let places := (-d.exponent).toNat
    if places < ds.length then
      ds.take (ds.length - places) ++ '.' :: ds.drop (ds.length - places)
    else '0' :: '.' :: List.replicate (places - ds.length) '0' ++ ds

/-- One digit, the others after a point, and the leading exponent. -/
def scientific (d : Decimal) : List Char :=
  let exponent := (toString d.leading).toList
  match Nat.toDigits 10 d.digits with
  | [] => []
  | [c] => c :: 'e' :: exponent
  | c :: cs => c :: '.' :: cs ++ 'e' :: exponent

/-- The decimal in the form its notation chooses. -/
def render (n : FloatNotation) (d : Decimal) : List Char :=
  if n.positionalFrom ≤ d.leading && d.leading < n.positionalBelow then d.positional
  else d.scientific

end Decimal

/-- The text of a double; NaN and the infinities are `NaN`, `inf` and `-inf`. -/
def Binary64.render (n : FloatNotation) (x : Binary64) : String :=
  match x.datum with
  | .nan _ _ => "NaN"
  | .infinite negative => if negative then "-inf" else "inf"
  | .finite negative m e =>
    let digits := if m = 0 then ['0', '.', '0'] else (Decimal.shortest .double n.ties m e).render n
    String.ofList (if negative then '-' :: digits else digits)

end SimpleBinary
