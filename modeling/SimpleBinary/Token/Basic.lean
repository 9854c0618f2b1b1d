import SimpleBinary.Literal
import SimpleBinary.Token.Signal

/-!
# Tokens

A schema's tree is flattened to tokens. The token that opens a container counts the tokens from
itself to the one that closes it; a leaf counts one.
-/

namespace SimpleBinary

inductive Presence where
  | required
  | optional
  | constant
deriving DecidableEq, Repr

/-- How the element of a token is written. -/
structure Encoding where
  presence : Presence := .required
  primitive : Option Primitive := none
  byteOrder : ByteOrder := .littleEndian
  constValue : Option Literal := none
  nullValue : Option Literal := none
  characterEncoding : Option String := none
deriving DecidableEq, Repr

structure Token where
  signal : Signal
  name : String
  referencedName : Option String := none
  description : Option String := none
  id : Int32 := -1
  version : Int32 := 0
  offset : Nat := 0
  encodedLength : Nat := 0
  componentTokenCount : Nat := 1
  arrayLength : Nat := 1
  encoding : Encoding := {}
deriving DecidableEq, Repr

/-- The declared null value, else the one of the primitive type. -/
def Encoding.applicableNull? (e : Encoding) : Option Literal :=
  e.nullValue.or (e.primitive.map Primitive.nullLiteral)

namespace Token

/-- The name of the type that a token stands for. -/
def typeName (t : Token) : String := t.referencedName.getD t.name

def isConstant (t : Token) : Bool := t.encoding.presence == .constant

def isOptional (t : Token) : Bool := t.encoding.presence == .optional

end Token

end SimpleBinary
