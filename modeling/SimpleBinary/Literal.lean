import SimpleBinary.Float.Notation
import SimpleBinary.Primitive
import SimpleBinary.Text.Utf8

/-!
# Literals

The values a schema carries: constants, null values, values of enums, bits of set choices. An
integer is kept signed or unsigned as it was given; `agrees` compares literals by value, so that
the two forms of one integer agree and a NaN agrees with every NaN.
-/

namespace SimpleBinary

inductive Literal where
  | int (value : Int64)
  | uint (value : UInt64)
  | float (value : Binary64)
  | bytes (value : Bytes)
deriving DecidableEq, Repr

namespace Literal

/-- The integer of a literal, if it fits 64 bits with a sign. -/
def toInt? : Literal → Option Int
  | .int v => some v.toInt
  | .uint v => if v.toNat ≤ Int64.maxValue.toInt then some v.toNat else none
  | _ => none

/-- The natural of a literal. -/
def toNat? : Literal → Option Nat
  | .int v => if 0 ≤ v.toInt then some v.toInt.toNat else none
  | .uint v => some v.toNat
  | _ => none

/-- The double of a literal, an integer rounded. -/
def toFloat? : Literal → Option Binary64
  | .int v => some (Binary64.ofInt v.toInt)
  | .uint v => some (Binary64.ofInt v.toNat)
  | .float v => some v
  | .bytes _ => none

def toBytes? : Literal → Option Bytes
  | .bytes bs => some bs
  | _ => none

/-- Whether two literals have one value. A number and a float are compared as doubles. -/
def agrees : Literal → Literal → Bool
  | .float x, .float y => if x.isNaN || y.isNaN then x.isNaN && y.isNaN else x.numEq y
  | .bytes x, .bytes y => x == y
  | .float x, b => b.toFloat?.any (·.numEq x)
  | a, .float y => a.toFloat?.any (·.numEq y)
  | a, b =>
    match a.toInt?, b.toInt? with
    | some x, some y => x == y
    | _, _ => a.toNat?.isSome && a.toNat? == b.toNat?

/-- The text of a literal; bytes are shown as UTF-8. -/
def text : Literal → String
  | .int v => toString v.toInt
  | .uint v => toString v.toNat
  | .float v => v.render .literal
  | .bytes bs => lossyText bs

end Literal

/-- The value that stands for an absent element unless the schema names another. -/
def Primitive.nullLiteral (p : Primitive) : Literal :=
  match p.kind with
  | .char => .uint 0
  | .signed => .int (Int64.ofInt p.minSigned)
  | .unsigned => .uint (UInt64.ofNat p.maxUnsigned)
  | .float => .float .nan

end SimpleBinary
