import SimpleBinary.Literal

/-!
# Numbers in sources

The text of a literal as a number of a type. Floats are written with the fewest digits that read
back; each language has its own names for those that have no digits. A literal that is no number of
the type is written as zero.
-/

namespace SimpleBinary

/-- A language's names for the floats without digits, and its zero for a literal that is none. -/
structure FloatNames where
  nan : String
  infinite : String
  negativeInfinite : String
  zero : String

def FloatNames.text (names : FloatNames) (x : Binary64) : String :=
  match x.datum with
  | .nan _ _ => names.nan
  | .infinite negative => if negative then names.negativeInfinite else names.infinite
  | .finite _ _ _ => x.render .literal

namespace Literal

/-- The number of a literal of an integer or character type; of bytes, the first one. -/
def sourceInt (v : Literal) (kind : PrimitiveKind) : Int :=
  if kind = .signed then v.toInt?.getD 0
  else
    match v.toBytes? with
    | some bs => (bs.head?.getD 0).toNat
    | none => v.toNat?.getD 0

/-- The bytes of a literal that is written as an array. -/
def sourceBytes (v : Literal) : List Nat :=
  match v.toBytes? with
  | some bs => bs.map (·.toNat)
  | none => [v.toNat?.getD 0]

/-- Whether a literal holds more than one byte. -/
def isLong (v : Literal) : Bool := v.toBytes?.any fun bs => 1 < bs.length

/-- A literal as a number of a type. -/
def sourceNumber (v : Literal) (names : FloatNames) (p : Primitive) : String :=
  match p.kind with
  | .float =>
    match v.toFloat? with
    | some x => names.text x
    | none => names.zero
  | kind => toString (v.sourceInt kind)

end Literal

end SimpleBinary
