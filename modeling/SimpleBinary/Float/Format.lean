/-!
# Binary interchange formats

A word of a format is a sign bit, then exponent bits, then fraction bits. A finite word stands for
`± m * 2 ^ e` with natural `m`. `decode` gives the sign, `m` and `e`; `ofRatio` goes back: it is the
magnitude word nearest to a quotient of naturals, of two nearest the even one. `convert` carries a
word of one format to another.
-/

namespace SimpleBinary

/-- The widths of a word's exponent and fraction fields. -/
structure FloatFormat where
  exponentBits : Nat
  fractionBits : Nat
deriving DecidableEq, Repr

/-- What a word stands for; a finite one is `± m * 2 ^ e`. -/
inductive FloatDatum where
  | nan (negative : Bool) (payload : Nat)
  | infinite (negative : Bool)
  | finite (negative : Bool) (m : Nat) (e : Int)
deriving DecidableEq, Repr

/-- The natural nearest to `num / den`; a half goes to the even neighbour. -/
def roundDiv (num den : Nat) : Nat :=
  let q := num / den
  let r := num % den
  if den < 2 * r then q + 1
  else if 2 * r = den then q + q % 2
  else q

/-- Numerator and denominator of `num / den * 2 ^ e`. -/
def scaleRatio (num den : Nat) (e : Int) : Nat × Nat :=
  if 0 ≤ e then (num * Nat.pow 2 e.toNat, den) else (num, den * Nat.pow 2 (-e).toNat)

/-- The greatest `k` with `2 ^ k ≤ num / den`, for positive `num` and `den`. -/
def floorLog2 (num den : Nat) : Int :=
  let k : Int := (num.log2 : Int) - (den.log2 : Int)
  let (n, d) := scaleRatio num den (-k)
  if n < d then k - 1 else k

namespace FloatFormat

/-- Eight bits of exponent and 23 of fraction. -/
def single : FloatFormat := ⟨8, 23⟩

/-- Eleven bits of exponent and 52 of fraction. -/
def double : FloatFormat := ⟨11, 52⟩

variable (f : FloatFormat)

/-- The exponent of the last place of the smallest numbers. -/
def minExponent : Int := 2 - Nat.pow 2 (f.exponentBits - 1) - f.fractionBits

/-- The unit of the exponent field, and the leading bit that a finite word leaves out. -/
def fractionUnit : Nat := Nat.pow 2 f.fractionBits

/-- The exponent field of what is not finite. -/
def exponentLimit : Nat := Nat.pow 2 f.exponentBits - 1

/-- The magnitude of the infinities. -/
def infinityWord : Nat := f.exponentLimit * f.fractionUnit

/-- The sign bit alone. -/
def signWord : Nat := Nat.pow 2 (f.exponentBits + f.fractionBits)

/-- The sign bit of a negative number, no bit of another. -/
def signOf (negative : Bool) : Nat := if negative then f.signWord else 0

def negative (w : Nat) : Bool := w / f.signWord % 2 == 1

def exponentField (w : Nat) : Nat := w / f.fractionUnit % Nat.pow 2 f.exponentBits

def fractionField (w : Nat) : Nat := w % f.fractionUnit

def decode (w : Nat) : FloatDatum :=
  let exponent := f.exponentField w
  let fraction := f.fractionField w
  if exponent = f.exponentLimit then
    if fraction = 0 then .infinite (f.negative w) else .nan (f.negative w) fraction
  else if exponent = 0 then .finite (f.negative w) fraction f.minExponent
  else .finite (f.negative w) (f.fractionUnit + fraction) (f.minExponent + (exponent - 1 : Nat))

/-- The magnitude nearest to `num / den`, infinity past the largest finite word. The last place
has exponent `e`, and counting it from `minExponent` in units of the fraction field adds up to the
word whether or not the leading bit is explicit. -/
def ofRatio (num den : Nat) : Nat :=
  if num = 0 then 0
  else
    let e := max (floorLog2 num den - f.fractionBits) f.minExponent
    let (n, d) := scaleRatio num den (-e)
    min ((e - f.minExponent).toNat * f.fractionUnit + roundDiv n d) f.infinityWord

/-- The magnitude nearest to `m * 2 ^ e`. -/
def ofScaled (m : Nat) (e : Int) : Nat :=
  let (n, d) := scaleRatio m 1 e
  f.ofRatio n d

/-- The word of a signed magnitude. -/
def signed (negative : Bool) (magnitude : Nat) : Nat := f.signOf negative + magnitude

/-- A quiet NaN that keeps the sign and the leading payload bits. -/
def quietNaN (negative : Bool) (payload sourceBits : Nat) : Nat :=
  let p := payload * f.fractionUnit / Nat.pow 2 sourceBits
  let quiet := Nat.pow 2 (f.fractionBits - 1)
  f.signed negative (f.infinityWord + (if p / quiet % 2 = 1 then p else p + quiet))

/-- The word of `f` nearest to a word of `source`. -/
def convert (source : FloatFormat) (w : Nat) : Nat :=
  match source.decode w with
  | .nan negative payload => f.quietNaN negative payload source.fractionBits
  | .infinite negative => f.signed negative f.infinityWord
  | .finite negative m e => f.signed negative (f.ofScaled m e)

/-- The magnitude of the product of two finite magnitudes, rounded. -/
def mulMagnitude (a b : Nat) : Nat :=
  match f.decode a, f.decode b with
  | .finite _ m e, .finite _ n g => f.ofScaled (m * n) (e + g)
  | _, _ => f.infinityWord

/-- The magnitude of the quotient of two finite magnitudes, rounded. -/
def divMagnitude (a b : Nat) : Nat :=
  match f.decode a, f.decode b with
  | .finite _ m e, .finite _ n g =>
    let (p, q) := scaleRatio m n (e - g)
    f.ofRatio p q
  | _, _ => f.infinityWord

end FloatFormat

end SimpleBinary
