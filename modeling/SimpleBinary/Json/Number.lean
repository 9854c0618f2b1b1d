import SimpleBinary.Json.Basic

/-!
# Numbers of a document

A number without fraction and exponent is an integer if it fits 64 bits. Any other is a double: its
digits form a significand of at most 64 bits, further digits of the whole part only scale it and
further digits of the fraction are dropped; the rounded significand is then multiplied or divided
by a rounded power of ten. A number past the largest double is unreadable.
-/

namespace SimpleBinary

namespace Json.Number

/-- A significand and the power of ten that scales it. -/
structure Parts where
  significand : Nat
  exponent : Int

def digitValue (c : Char) : Nat := c.toNat - '0'.toNat

def isDigit (c : Char) : Bool := '0' ≤ c && c ≤ '9'

/-- The natural that decimal digits stand for. -/
def ofDigits (ds : List Char) : Nat := ds.foldl (fun n d => n * 10 + digitValue d) 0

/-- Reads the whole part: digits enter the significand until one would pass 64 bits. -/
def wholePart : Nat → List Char → Parts
  | n, [] => ⟨n, 0⟩
  | n, d :: ds =>
    if n * 10 + digitValue d < UInt64.size then wholePart (n * 10 + digitValue d) ds
    else ⟨n, (d :: ds).length⟩

/-- Reads the fraction onto the whole part, up to the first digit that would pass 64 bits. -/
def fraction : Parts → List Char → Parts
  | p, [] => p
  | p, d :: ds =>
    if p.significand * 10 + digitValue d < UInt64.size then
      fraction ⟨p.significand * 10 + digitValue d, p.exponent - 1⟩ ds
    else p

/-- The magnitude nearest to a power of ten that a double can hold. -/
def tenPower (e : Nat) : Nat := FloatFormat.double.ofRatio (Nat.pow 10 e) 1

/-- Scales a magnitude by a power of ten, past the range of doubles in steps of `10 ^ 308`. Three
steps down leave nothing of any magnitude. -/
def scale : (steps : Nat) → (magnitude : Nat) → (e : Int) → Option Nat
  | 0, _, _ => some 0
  | steps + 1, a, e =>
    if e.natAbs ≤ 308 then
      if 0 ≤ e then
        let p := FloatFormat.double.mulMagnitude a (tenPower e.natAbs)
        if p = FloatFormat.double.infinityWord then none else some p
      else some (FloatFormat.double.divMagnitude a (tenPower e.natAbs))
    else if a = 0 then some 0
    else if 0 ≤ e then none
    else scale steps (FloatFormat.double.divMagnitude a (tenPower 308)) (e + 308)

/-- The double of a scaled significand. -/
def toFloat? (negative : Bool) (p : Parts) : Option Binary64 :=
  (scale 4 (FloatFormat.double.ofRatio p.significand 1) p.exponent).map
    (Binary64.ofMagnitude negative)

/-- The value of a number from its sign, its digits before and after the point and its exponent. -/
def ofParts (negative : Bool) (whole : List Char) (frac : Option (List Char)) (e : Option Int) :
    Json :=
  let n := ofDigits whole
  let signed : Int := if negative then -n else n
  if frac = none ∧ e = none ∧ Int64.minValue.toInt ≤ signed ∧ signed < UInt64.size
      ∧ !(negative && n == 0) then
    .int signed
  else
    let p := fraction (wholePart 0 whole) (frac.getD [])
    match toFloat? negative ⟨p.significand, p.exponent + e.getD 0⟩ with
    | some x => .float x
    | none => .unreadable

/-- Digits, at least one, and the rest. -/
def digits? (cs : List Char) : Option (List Char × List Char) :=
  match cs.span isDigit with
  | ([], _) => none
  | r => some r

/-- The whole part: a zero alone or digits that start with another. -/
def whole? (cs : List Char) : Option (List Char × List Char) :=
  match digits? cs with
  | some ('0' :: _ :: _, _) => none
  | r => r

/-- The exponent after its letter, and the rest. -/
def exponent? : List Char → Option (Int × List Char)
  | '+' :: cs => (digits? cs).map fun (ds, rest) => ((ofDigits ds : Int), rest)
  | '-' :: cs => (digits? cs).map fun (ds, rest) => (-(ofDigits ds : Int), rest)
  | cs => (digits? cs).map fun (ds, rest) => ((ofDigits ds : Int), rest)

/-- A number at the start of a text, and the rest. -/
def read? (cs : List Char) : Option (Json × List Char) := do
  let (negative, cs) := match cs with
    | '-' :: cs => (true, cs)
    | cs => (false, cs)
  let (whole, cs) ← whole? cs
  let (frac, cs) ← match cs with
    | '.' :: cs => (digits? cs).map fun (ds, rest) => (some ds, rest)
    | cs => some (none, cs)
  let (e, cs) ← match cs with
    | 'e' :: cs | 'E' :: cs => (exponent? cs).map fun (n, rest) => (some n, rest)
    | cs => some (none, cs)
  return (ofParts negative whole frac e, cs)

end Json.Number

end SimpleBinary
