import SimpleBinary.Literal
import SimpleBinary.Token.Basic

/-!
# Definitions

A schema as its author thinks of it: types, and messages of fields, groups and var-data. Offsets,
widths and block lengths follow from the order of things, unless a block length is given.
-/

namespace SimpleBinary

/-- An element or a fixed array of elements. -/
structure PrimitiveDef where
  name : String
  primitive : Primitive
  arrayLength : Nat := 1
  presence : Presence := .required
  constValue : Option Literal := none
  nullValue : Option Literal := none
  characterEncoding : Option String := none
deriving DecidableEq, Repr

inductive TypeDef where
  | primitive (d : PrimitiveDef)
  | composite (name : String) (members : List TypeDef)
  | enumeration (name : String) (encoding : Primitive) (values : List (String × Literal))
  | set (name : String) (encoding : Primitive) (choices : List (String × UInt32))

structure FieldDef where
  name : String
  id : Int32
  sinceVersion : Int32 := 0
  type : TypeDef

structure VarDataDef where
  name : String
  id : Int32
  lengthType : Primitive := .uint32
  characterEncoding : Option String := none

namespace TypeDef

def name : TypeDef → String
  | .primitive d => d.name
  | .composite name _ | .enumeration name _ _ | .set name _ _ => name

/-- An enum whose values are the integers that its encoding reads them as. -/
def ofIntegers (name : String) (encoding : Primitive) (values : List (String × Int64)) : TypeDef :=
  .enumeration name encoding <| values.map fun (name, v) =>
    (name, if encoding.kind = .signed then .int v else .uint v.toUInt64)

/-- Required elements of the given names, one behind the other. -/
def ofPrimitives (name : String) (members : List (String × Primitive)) : TypeDef :=
  .composite name <| members.map fun (name, p) => .primitive { name, primitive := p }

/-- The usual header of a message. -/
def messageHeader : TypeDef :=
  ofPrimitives "messageHeader" [("blockLength", .uint16), ("templateId", .uint16),
    ("schemaId", .uint16), ("version", .uint16)]

/-- The usual header of a group. -/
def groupSize : TypeDef :=
  ofPrimitives "groupSizeEncoding" [("blockLength", .uint16), ("numInGroup", .uint16)]

mutual

/-- The bytes a type takes in a block; a constant takes none. -/
def width : TypeDef → Nat
  | .primitive d => if d.presence = .constant then 0 else d.primitive.size * d.arrayLength
  | .composite _ members => totalWidth members
  | .enumeration _ encoding _ | .set _ encoding _ => encoding.size

def totalWidth : List TypeDef → Nat
  | [] => 0
  | t :: ts => t.width + totalWidth ts

end

end TypeDef

structure GroupDef where
  name : String
  id : Int32
  blockLength : Option Nat := none
  dimension : TypeDef := .groupSize
  fields : List FieldDef := []
  groups : List GroupDef := []
  varData : List VarDataDef := []

structure MessageDef where
  name : String
  id : Int32
  blockLength : Option Nat := none
  description : Option String := none
  fields : List FieldDef := []
  groups : List GroupDef := []
  varData : List VarDataDef := []

structure SchemaDef where
  package : Option String := none
  id : Int32
  version : Int32
  byteOrder : ByteOrder := .littleEndian
  header : TypeDef := .messageHeader
  types : List TypeDef := []
  messages : List MessageDef := []

end SimpleBinary
