/-!
# Primitive types

The eleven types of single elements: a name, a width in bytes and the way its bits are read.
-/

namespace SimpleBinary

inductive Primitive where
  | char
  | int8
  | int16
  | int32
  | int64
  | uint8
  | uint16
  | uint32
  | uint64
  | float
  | double
deriving DecidableEq, Repr

/-- How the bits of an element are read. -/
inductive PrimitiveKind where
  | char
  | signed
  | unsigned
  | float
deriving DecidableEq, Repr

namespace Primitive

/-- All types; the place of each is its index. -/
def all : List Primitive :=
  [.char, .int8, .int16, .int32, .int64, .uint8, .uint16, .uint32, .uint64, .float, .double]

def name : Primitive → String
  | .char => "char"
  | .int8 => "int8"
  | .int16 => "int16"
  | .int32 => "int32"
  | .int64 => "int64"
  | .uint8 => "uint8"
  | .uint16 => "uint16"
  | .uint32 => "uint32"
  | .uint64 => "uint64"
  | .float => "float"
  | .double => "double"

/-- The width of one element in bytes. -/
def size : Primitive → Nat
  | .char | .int8 | .uint8 => 1
  | .int16 | .uint16 => 2
  | .int32 | .uint32 | .float => 4
  | .int64 | .uint64 | .double => 8

def kind : Primitive → PrimitiveKind
  | .char => .char
  | .int8 | .int16 | .int32 | .int64 => .signed
  | .uint8 | .uint16 | .uint32 | .uint64 => .unsigned
  | .float | .double => .float

/-- The place in `all`. -/
def index (p : Primitive) : Nat := all.idxOf p

def ofName? (s : String) : Option Primitive := all.find? fun p => p.name == s

/-- Elements of one byte are the same in both orders. -/
def isOrdered (p : Primitive) : Bool := 1 < p.size

/-- The bounds of an element's bits read in two's complement. -/
def minSigned (p : Primitive) : Int := -Nat.pow 2 (8 * p.size - 1)

def maxSigned (p : Primitive) : Int := Nat.pow 2 (8 * p.size - 1) - 1

/-- The greatest natural in an element's bits. -/
def maxUnsigned (p : Primitive) : Nat := Nat.pow 2 (8 * p.size) - 1

/-- An integer of eight bytes, too wide for a double. -/
def isWide (p : Primitive) : Bool := p.size == 8 && p.kind != .float

end Primitive

end SimpleBinary
