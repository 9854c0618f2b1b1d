import SimpleBinary.Definition.Basic
import SimpleBinary.Schema.Basic

/-!
# Definitions as token streams

Every definition is flattened to tokens: a container's tokens are those inside it between an
opening and a closing token, which are the same but for the signal. Offsets count from the start of
the enclosing block or composite, each element starting where the one before ends.
-/

namespace SimpleBinary

/-- A container of the tokens `inside`, with the properties of `t`. -/
def Token.wrap (t : Token) (c : Container) (inside : List Token) : List Token :=
  let t := { t with componentTokenCount := inside.length + 2 }
  { t with signal := .opens c } :: inside ++ [{ t with signal := .closes c }]

/-- A leaf of an enum or a set: a value of the container's encoding. -/
def Token.member (signal : Signal) (order : ByteOrder) (encoding : Primitive) (name : String)
    (value : Literal) : Token :=
  { signal, name, encodedLength := encoding.size,
    encoding := { primitive := some encoding, byteOrder := order, constValue := some value } }

/-- The token of an enum or a set, but for its signal. -/
def Token.ofEncoding (order : ByteOrder) (offset : Nat) (name : String) (encoding : Primitive) :
    Token :=
  { signal := .encoding, name, referencedName := some name, offset,
    encodedLength := encoding.size,
    encoding := { primitive := some encoding, byteOrder := order } }

namespace TypeDef

mutual

/-- The tokens of a type at an offset. -/
def tokens (order : ByteOrder) (offset : Nat) : TypeDef → List Token
  | .primitive d =>
    [{ signal := .encoding, name := d.name, offset,
       encodedLength := (TypeDef.primitive d).width, arrayLength := d.arrayLength,
       encoding := {
         presence := d.presence
         primitive := some d.primitive
         byteOrder := order
         constValue := d.constValue
         nullValue := d.nullValue
         characterEncoding := d.characterEncoding } }]
  | .composite name members =>
    Token.wrap
      { signal := .encoding, name, referencedName := some name, offset,
        encodedLength := totalWidth members }
      .composite (memberTokens order 0 members)
  | .enumeration name encoding values =>
    (Token.ofEncoding order offset name encoding).wrap .enumeration
      (values.map fun (name, v) => Token.member .validValue order encoding name v)
  | .set name encoding choices =>
    (Token.ofEncoding order offset name encoding).wrap .set
      (choices.map fun (name, bit) => Token.member .choice order encoding name (.uint bit.toUInt64))

/-- The tokens of members from an offset on. -/
def memberTokens (order : ByteOrder) (offset : Nat) : List TypeDef → List Token
  | [] => []
  | t :: ts => t.tokens order offset ++ memberTokens order (offset + t.width) ts

end

end TypeDef

def FieldDef.tokens (order : ByteOrder) (offset : Nat) (f : FieldDef) : List Token :=
  Token.wrap
    { signal := .encoding, name := f.name, id := f.id, version := f.sinceVersion, offset,
      encodedLength := f.type.width }
    .field (f.type.tokens order offset)

/-- The tokens of fields from an offset on. -/
def fieldTokens (order : ByteOrder) (offset : Nat) : List FieldDef → List Token
  | [] => []
  | f :: fs => f.tokens order offset ++ fieldTokens order (offset + f.type.width) fs

/-- The bytes that fields take one behind the other. -/
def fieldsWidth (fields : List FieldDef) : Nat := TypeDef.totalWidth (fields.map (·.type))

def VarDataDef.tokens (order : ByteOrder) (d : VarDataDef) : List Token :=
  let name := "varDataEncoding"
  let size := d.lengthType.size
  Token.wrap { signal := .encoding, name := d.name, id := d.id } .varData <|
    Token.wrap { signal := .encoding, name, referencedName := some name, encodedLength := size }
      .composite
      [{ signal := .encoding, name := "length", encodedLength := size,
         encoding := { primitive := some d.lengthType, byteOrder := order } },
       { signal := .encoding, name := "varData", offset := size,
         encoding := { primitive := some .uint8, byteOrder := order,
                       characterEncoding := d.characterEncoding } }]

mutual

def GroupDef.tokens (order : ByteOrder) : GroupDef → List Token
  | ⟨name, id, blockLength, dimension, fields, groups, varData⟩ =>
    Token.wrap
      { signal := .encoding, name, id, encodedLength := blockLength.getD (fieldsWidth fields) }
      .group
      (dimension.tokens order 0 ++ fieldTokens order 0 fields ++ groupTokens order groups
        ++ varData.flatMap (·.tokens order))

def groupTokens (order : ByteOrder) : List GroupDef → List Token
  | [] => []
  | g :: gs => g.tokens order ++ groupTokens order gs

end

def MessageDef.tokens (order : ByteOrder) (m : MessageDef) : List Token :=
  Token.wrap
    { signal := .encoding, name := m.name, description := m.description, id := m.id,
      encodedLength := m.blockLength.getD (fieldsWidth m.fields) }
    .message
    (fieldTokens order 0 m.fields ++ groupTokens order m.groups
      ++ m.varData.flatMap (·.tokens order))

/-- The schema of a definition. -/
def SchemaDef.flatten (s : SchemaDef) : Schema where
  package := s.package
  id := s.id
  version := s.version
  byteOrder := s.byteOrder
  header := s.header.tokens s.byteOrder 0
  messages := s.messages.map (·.tokens s.byteOrder)
  types := s.types.map (·.tokens s.byteOrder 0)

end SimpleBinary
