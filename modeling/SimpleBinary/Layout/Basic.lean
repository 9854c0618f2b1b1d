import SimpleBinary.Schema.Error
import SimpleBinary.Token.Basic

/-!
# Layouts

Where every element of a message lies. A block is a run of fields at offsets from its start;
composites nest blocks. A body is a block followed by groups and then var-data, the three kept
apart so that their order cannot be broken; a group repeats a body behind a header of its own, and
var-data is a length and as many bytes.
-/

namespace SimpleBinary

/-- One element or a fixed array of elements. -/
structure PrimitiveLayout where
  primitive : Primitive
  byteOrder : ByteOrder
  arrayLength : Nat
  presence : Presence
  constValue : Option Literal
  nullValue : Literal
  characterEncoding : Option String
deriving DecidableEq, Repr

structure EnumValue where
  name : String
  value : Literal
deriving DecidableEq, Repr

structure EnumLayout where
  typeName : String
  encoding : Primitive
  byteOrder : ByteOrder
  values : List EnumValue
  nullValue : Literal
  description : Option String
deriving DecidableEq, Repr

/-- A named bit of a set. -/
structure Choice where
  name : String
  bit : Nat
deriving DecidableEq, Repr

structure SetLayout where
  typeName : String
  encoding : Primitive
  byteOrder : ByteOrder
  choices : List Choice
  description : Option String
deriving DecidableEq, Repr

mutual

structure CompositeLayout where
  typeName : String
  encodedLength : Nat
  members : List FieldLayout
  description : Option String
deriving Repr

/-- A field of a block, at its offset from the start of the block. -/
structure FieldLayout where
  name : String
  id : Int32
  sinceVersion : Int32
  offset : Nat
  description : Option String
  kind : FieldKind
deriving Repr

inductive FieldKind where
  | primitive (p : PrimitiveLayout)
  | composite (c : CompositeLayout)
  | enumeration (e : EnumLayout)
  | set (s : SetLayout)
deriving Repr

end

namespace PrimitiveLayout

def isConstant (p : PrimitiveLayout) : Bool := p.presence == .constant

def isOptional (p : PrimitiveLayout) : Bool := p.presence == .optional

def isArray (p : PrimitiveLayout) : Bool := 1 < p.arrayLength

/-- Characters are text in an array or under a declared character encoding. -/
def isText (p : PrimitiveLayout) : Bool :=
  p.primitive == .char && (p.isArray || p.characterEncoding.isSome)

/-- The bytes taken in the block; a constant takes none. -/
def width (p : PrimitiveLayout) : Nat :=
  if p.isConstant then 0 else p.primitive.size * p.arrayLength

end PrimitiveLayout

namespace EnumLayout

/-- The name of the null value. -/
def nullName : String := "NULL_VAL"

def width (e : EnumLayout) : Nat := e.encoding.size

/-- The first value that agrees with a literal. -/
def byValue? (e : EnumLayout) (raw : Literal) : Option EnumValue :=
  e.values.find? fun v => v.value.agrees raw

def byName? (e : EnumLayout) (name : String) : Option EnumValue :=
  e.values.find? fun v => v.name == name

end EnumLayout

namespace SetLayout

def width (s : SetLayout) : Nat := s.encoding.size

def byName? (s : SetLayout) (name : String) : Option Choice :=
  s.choices.find? fun c => c.name == name

end SetLayout

namespace FieldKind

def width : FieldKind → Nat
  | .primitive p => p.width
  | .composite c => c.encodedLength
  | .enumeration e => e.width
  | .set s => s.width

def isConstant : FieldKind → Bool
  | .primitive p => p.isConstant
  | _ => false

/-- The name of a type that has one. -/
def typeName? : FieldKind → Option String
  | .primitive _ => none
  | .composite c => some c.typeName
  | .enumeration e => some e.typeName
  | .set s => some s.typeName

end FieldKind

namespace FieldLayout

def width (f : FieldLayout) : Nat := f.kind.width

/-- The offset just past the field. -/
def stop (f : FieldLayout) : Nat := f.offset + f.width

def isConstant (f : FieldLayout) : Bool := f.kind.isConstant

end FieldLayout

def CompositeLayout.member? (c : CompositeLayout) (name : String) : Option FieldLayout :=
  c.members.find? fun m => m.name == name

/-- An integer at a fixed place of a header: of a message, of a group, of var-data. -/
structure HeaderSlot where
  primitive : Primitive
  byteOrder : ByteOrder
  offset : Nat
deriving DecidableEq, Repr

namespace HeaderSlot

def width (s : HeaderSlot) : Nat := s.primitive.size

/-- The place of a composite's member, which has to be primitive and not constant. -/
def ofMember (c : CompositeLayout) (member : String) : Except SchemaError HeaderSlot :=
  match c.member? member with
  | some ⟨_, _, _, offset, _, .primitive p⟩ =>
    if p.isConstant then .error (.missingMember c.typeName member)
    else .ok ⟨p.primitive, p.byteOrder, offset⟩
  | _ => .error (.missingMember c.typeName member)

end HeaderSlot

/-- The header of a message. -/
structure HeaderLayout where
  composite : CompositeLayout
  blockLength : HeaderSlot
  templateId : HeaderSlot
  schemaId : HeaderSlot
  version : HeaderSlot
deriving Repr

def HeaderLayout.encodedLength (h : HeaderLayout) : Nat := h.composite.encodedLength

/-- The header of a group. -/
structure DimensionLayout where
  typeName : String
  blockLength : HeaderSlot
  numInGroup : HeaderSlot
  encodedLength : Nat
deriving DecidableEq, Repr

structure VarDataLayout where
  name : String
  id : Int32
  sinceVersion : Int32
  typeName : String
  length : HeaderSlot
  characterEncoding : Option String
  description : Option String
deriving DecidableEq, Repr

def VarDataLayout.isText (d : VarDataLayout) : Bool := d.characterEncoding.isSome

/-- The bytes of the length and what lies before it. -/
def VarDataLayout.headerLength (d : VarDataLayout) : Nat := d.length.offset + d.length.width

mutual

structure BodyLayout where
  blockLength : Nat
  fields : List FieldLayout
  groups : List GroupLayout
  varData : List VarDataLayout
deriving Repr

structure GroupLayout where
  name : String
  id : Int32
  sinceVersion : Int32
  dimension : DimensionLayout
  body : BodyLayout
  description : Option String
deriving Repr

end

inductive BodyElement where
  | field (f : FieldLayout)
  | group (g : GroupLayout)
  | varData (d : VarDataLayout)
deriving Repr

namespace BodyElement

def name : BodyElement → String
  | .field f => f.name
  | .group g => g.name
  | .varData d => d.name

/-- The place of an element's region in a body. -/
def rank : BodyElement → Nat
  | .field _ => 0
  | .group _ => 1
  | .varData _ => 2

end BodyElement

namespace BodyLayout

def elements (b : BodyLayout) : List BodyElement :=
  b.fields.map .field ++ b.groups.map .group ++ b.varData.map .varData

/-- The bytes that fields need. -/
def requiredLength (fields : List FieldLayout) : Nat :=
  fields.foldl (fun n f => max n f.stop) 0

/-- A body, unless its block is too short for its fields. -/
def ofRegions (owner : String) (blockLength : Nat) (fields : List FieldLayout)
    (groups : List GroupLayout) (varData : List VarDataLayout) : Except SchemaError BodyLayout :=
  let required := requiredLength fields
  if blockLength < required then .error (.blockLengthTooSmall owner blockLength required)
  else .ok ⟨blockLength, fields, groups, varData⟩

/-- The first two neighbours of which the second belongs before the first. -/
def outOfOrder? : List BodyElement → Option (BodyElement × BodyElement)
  | a :: b :: rest => if b.rank < a.rank then some (a, b) else outOfOrder? (b :: rest)
  | _ => none

/-- A body of elements, unless they are out of order or do not fit. -/
def ofElements (owner : String) (blockLength : Nat) (elements : List BodyElement) :
    Except SchemaError BodyLayout :=
  match outOfOrder? elements with
  | some (a, b) => .error (.malformed 0 (.outOfOrder b.name owner a.name))
  | none =>
    ofRegions owner blockLength
      (elements.filterMap fun | .field f => some f | _ => none)
      (elements.filterMap fun | .group g => some g | _ => none)
      (elements.filterMap fun | .varData d => some d | _ => none)

/-- The bytes behind the block that even an empty element has: a header for each group and a
length for each var-data. -/
def trailerLength (b : BodyLayout) : Nat :=
  b.groups.foldr (·.dimension.encodedLength + ·) 0 + b.varData.foldr (·.headerLength + ·) 0

/-- Whether nothing follows the block. -/
def isFixed (b : BodyLayout) : Bool := b.groups.isEmpty && b.varData.isEmpty

end BodyLayout

structure MessageLayout where
  name : String
  id : Int32
  sinceVersion : Int32
  semanticType : Option String
  description : Option String
  body : BodyLayout
deriving Repr

/-- A type that fields refer to by its name. -/
inductive TypeLayout where
  | composite (c : CompositeLayout)
  | enumeration (e : EnumLayout)
  | set (s : SetLayout)
deriving Repr

namespace TypeLayout

def name : TypeLayout → String
  | .composite c => c.typeName
  | .enumeration e => e.typeName
  | .set s => s.typeName

def encodedLength : TypeLayout → Nat
  | .composite c => c.encodedLength
  | .enumeration e => e.width
  | .set s => s.width

end TypeLayout

end SimpleBinary
