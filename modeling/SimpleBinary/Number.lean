import SimpleBinary.Float.Binary64
import SimpleBinary.Literal
import SimpleBinary.Word

/-!
# Elements of fixed width

A number of one of the ten fixed widths, as its own type has it. Its word is laid out in either
byte order; a word read back as a primitive type is the number of that type.
-/

namespace SimpleBinary

inductive Number where
  | uint8 (v : UInt8)
  | uint16 (v : UInt16)
  | uint32 (v : UInt32)
  | uint64 (v : UInt64)
  | int8 (v : Int8)
  | int16 (v : Int16)
  | int32 (v : Int32)
  | int64 (v : Int64)
  | single (v : Binary32)
  | double (v : Binary64)
deriving DecidableEq, Repr

namespace Number

def primitive : Number → Primitive
  | .uint8 _ => .uint8
  | .uint16 _ => .uint16
  | .uint32 _ => .uint32
  | .uint64 _ => .uint64
  | .int8 _ => .int8
  | .int16 _ => .int16
  | .int32 _ => .int32
  | .int64 _ => .int64
  | .single _ => .float
  | .double _ => .double

/-- The bits of a number. -/
def word : Number → Nat
  | .uint8 v => v.toNat
  | .uint16 v => v.toNat
  | .uint32 v => v.toNat
  | .uint64 v => v.toNat
  | .int8 v => v.toUInt8.toNat
  | .int16 v => v.toUInt16.toNat
  | .int32 v => v.toUInt32.toNat
  | .int64 v => v.toUInt64.toNat
  | .single v => v.word
  | .double v => v.word

/-- The number of a primitive type whose bits these are; a character is a byte. -/
def ofWord (p : Primitive) (w : Nat) : Number :=
  match p with
  | .char | .uint8 => .uint8 (UInt8.ofNat w)
  | .uint16 => .uint16 (UInt16.ofNat w)
  | .uint32 => .uint32 (UInt32.ofNat w)
  | .uint64 => .uint64 (UInt64.ofNat w)
  | .int8 => .int8 (UInt8.ofNat w).toInt8
  | .int16 => .int16 (UInt16.ofNat w).toInt16
  | .int32 => .int32 (UInt32.ofNat w).toInt32
  | .int64 => .int64 (UInt64.ofNat w).toInt64
  | .float => .single (Binary32.ofWord w)
  | .double => .double (Binary64.ofWord w)

/-- The literal of the same value: integers and naturals of 64 bits, floats as doubles. -/
def literal : Number → Literal
  | .uint8 v => .uint v.toUInt64
  | .uint16 v => .uint v.toUInt64
  | .uint32 v => .uint v.toUInt64
  | .uint64 v => .uint v
  | .int8 v => .int v.toInt64
  | .int16 v => .int v.toInt64
  | .int32 v => .int v.toInt64
  | .int64 v => .int v
  | .single v => .float v.widen
  | .double v => .float v

/-- The bytes of a number. -/
def bytes (order : ByteOrder) (n : Number) : Bytes := order.bytes n.primitive.size n.word

end Number

namespace Primitive

/-- The bits of a literal as an element, unless it has another shape or lies outside the range. -/
def word? (p : Primitive) (l : Literal) : Option Nat :=
  match p.kind with
  | .char | .unsigned => l.toNat?.filter (· ≤ p.maxUnsigned)
  | .signed =>
    (l.toInt?.filter fun n => p.minSigned ≤ n && n ≤ p.maxSigned).map (wordOfInt p.size)
  | .float => l.toFloat?.map fun x => if p = .float then x.narrow.word else x.word

/-- The bytes of a literal as an element. -/
def encode? (p : Primitive) (order : ByteOrder) (l : Literal) : Option Bytes :=
  (p.word? l).map (order.bytes p.size)

end Primitive

end SimpleBinary
