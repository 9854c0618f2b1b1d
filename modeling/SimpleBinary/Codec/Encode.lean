import SimpleBinary.Buffer.Image
import SimpleBinary.Codec.Text
import SimpleBinary.Layout.Basic
import SimpleBinary.Path
import SimpleBinary.Value

/-!
# Encoding values

A body is reserved as a block of zeros, its fields are put at their offsets, and its groups and
var-data are appended behind it, each group element in the same way. Optional fields that a value
leaves out are written as their null value, constants not at all.
-/

namespace SimpleBinary

/-- Writes a number into a slot of the header at `base`; one of more than 64 bits fits no slot. -/
def HeaderSlot.put (s : HeaderSlot) (base : Nat) (path : String) (n : Nat) (image : Bytes) :
    Except CodecError Bytes :=
  let written :=
    if n < UInt64.size then
      putElement? (base + s.offset) s.primitive s.byteOrder (.uint (UInt64.ofNat n)) image
    else none
  match written with
  | some image => .ok image
  | none => .error (.outOfRange path (toString n) s.primitive.name)

/-- Writes an element of an encoding. -/
def putLiteral (p : Primitive) (order : ByteOrder) (pos : Nat) (path : String) (l : Literal)
    (image : Bytes) : Except CodecError Bytes :=
  match putElement? pos p order l image with
  | some image => .ok image
  | none => .error (.outOfRange path l.text p.name)

namespace PrimitiveLayout

def put (p : PrimitiveLayout) : (pos : Nat) → (path : String) → Literal → Bytes →
    Except CodecError Bytes :=
  putLiteral p.primitive p.byteOrder

/-- Writes elements one behind the other, all under one path. -/
def putAll (p : PrimitiveLayout) (path : String) : (pos : Nat) → List Literal → Bytes →
    Except CodecError Bytes
  | _, [], image => .ok image
  | pos, l :: ls, image => do
    let image ← p.put pos path l image
    p.putAll path (pos + p.primitive.size) ls image

/-- Writes the items of an array, each under its own path. -/
def putItems (p : PrimitiveLayout) (path : String) : (index pos : Nat) → List Value → Bytes →
    Except CodecError Bytes
  | _, _, [], image => .ok image
  | index, pos, v :: vs, image =>
    match v.toLiteral? with
    | none => .error (.typeMismatch (itemPath path index) .number)
    | some l => do
      let image ← p.put pos (itemPath path index) l image
      p.putItems path (index + 1) (pos + p.primitive.size) vs image

/-- The bytes of a text or of a value given as bytes. -/
def textBytes (p : PrimitiveLayout) (path : String) : Value → Except CodecError Bytes
  | .text s => encodeText path p.characterEncoding s
  | .bytes bs => .ok bs
  | _ => .error (.typeMismatch path .string)

/-- Writes a value that is there. -/
def encodeValue (p : PrimitiveLayout) (pos : Nat) (path : String) (v : Value) (image : Bytes) :
    Except CodecError Bytes :=
  if p.isText then do
    let bs ← p.textBytes path v
    if p.arrayLength < bs.length then
      throw (.outOfRange path s!"{bs.length} bytes" s!"char[{p.arrayLength}]")
    p.putAll path pos (bs.map fun b => .uint b.toUInt64) image
  else if p.isArray then
    match v with
    | .array items =>
      if items.length ≠ p.arrayLength then
        .error (.typeMismatch path (.elements p.arrayLength))
      else p.putItems path 0 pos items image
    | _ => .error (.typeMismatch path .array)
  else
    match v.toLiteral? with
    | some l => p.put pos path l image
    | none => .error (.typeMismatch path .number)

/-- Writes a value, or the null value for one that may be left out. -/
def encode (p : PrimitiveLayout) (pos : Nat) (path : String) (v : Option Value) (image : Bytes) :
    Except CodecError Bytes :=
  if p.isConstant then .ok image
  else
    match v with
    | some v => p.encodeValue pos path v image
    | none =>
      if p.isOptional then p.putAll path pos (List.replicate p.arrayLength p.nullValue) image
      else .error (.missingValue path)

end PrimitiveLayout

/-- The name of an enum's value, also when it is given as a text. -/
def Value.enumName? : Value → Option String
  | .enumeration _ name => some name
  | .text name => some name
  | _ => none

namespace EnumLayout

/-- The literal of a value's name. -/
def literalNamed? (e : EnumLayout) (name : String) : Option Literal :=
  if name = nullName then some e.nullValue else (e.byName? name).map (·.value)

def encode (e : EnumLayout) (pos : Nat) (path : String) (v : Value) (image : Bytes) :
    Except CodecError Bytes :=
  match v.enumName? with
  | none => .error (.typeMismatch path (.enumValue e.typeName))
  | some name =>
    match e.literalNamed? name with
    | none => .error (.unknownEnumValue path e.typeName name)
    | some raw => putLiteral e.encoding e.byteOrder pos path raw image

end EnumLayout

namespace SetLayout

/-- The bits of choices. -/
def bitsOf (s : SetLayout) (path : String) : List String → Except CodecError UInt64
  | [] => .ok 0
  | choice :: choices =>
    match s.byName? choice with
    | none => .error (.unknownChoice path s.typeName choice)
    | some c => do return UInt64.ofNat (Nat.pow 2 c.bit) ||| (← s.bitsOf path choices)

def encode (s : SetLayout) (pos : Nat) (path : String) (v : Value) (image : Bytes) :
    Except CodecError Bytes :=
  match v with
  | .set _ choices => do
    putLiteral s.encoding s.byteOrder pos path (.uint (← s.bitsOf path choices)) image
  | _ => .error (.typeMismatch path (.set s.typeName))

end SetLayout

mutual

/-- Writes the value of a field. -/
def FieldKind.encode (pos : Nat) (path : String) (v : Option Value) (image : Bytes) :
    FieldKind → Except CodecError Bytes
  | .primitive p => p.encode pos path v image
  | .composite ⟨_, _, members, _⟩ =>
    match v with
    | none => .error (.missingValue path)
    | some v =>
      if v.isObject then encodeFields pos path v image members
      else .error (.typeMismatch path .object)
  | .enumeration e =>
    match v with
    | none => .error (.missingValue path)
    | some v => e.encode pos path v image
  | .set s =>
    match v with
    | none => .error (.missingValue path)
    | some v => s.encode pos path v image

/-- Writes the fields of a block that starts at `base`. -/
def encodeFields (base : Nat) (path : String) (v : Value) (image : Bytes) :
    List FieldLayout → Except CodecError Bytes
  | [] => .ok image
  | ⟨name, _, _, offset, _, kind⟩ :: fields => do
    let image ← kind.encode (base + offset) (childPath path name) (v.field? name) image
    encodeFields base path v image fields

end

/-- The payload of var-data. -/
def VarDataLayout.payload (d : VarDataLayout) (path : String) :
    Option Value → Except CodecError Bytes
  | some (.text s) => encodeText path d.characterEncoding s
  | some (.bytes bs) => .ok bs
  | some _ => .error (.typeMismatch path .textOrBytes)
  | none => .error (.missingValue path)

/-- Appends a length and as many bytes. -/
def VarDataLayout.encode (d : VarDataLayout) (path : String) (v : Option Value) (image : Bytes) :
    Except CodecError Bytes := do
  let payload ← d.payload path v
  let reserved := padTo (image.length + d.headerLength) image
  let image ← d.length.put image.length path payload.length reserved
  return image ++ payload

/-- Appends the var-data of a value. -/
def encodeVarData (path : String) (v : Value) (image : Bytes) (ds : List VarDataLayout) :
    Except CodecError Bytes :=
  ds.foldlM (fun image d => d.encode (childPath path d.name) (v.field? d.name) image) image

/-- Appends the header of a group of `count` elements. -/
def DimensionLayout.encode (d : DimensionLayout) (path : String) (blockLength count : Nat)
    (image : Bytes) : Except CodecError Bytes := do
  let base := image.length
  let image := padTo (base + d.encodedLength) image
  let image ← d.blockLength.put base path blockLength image
  d.numInGroup.put base path count image

/-- Appends elements in turn, each under its own path. -/
def encodeItems (encode : String → Value → Bytes → Except CodecError Bytes) (path : String) :
    (index : Nat) → List Value → Bytes → Except CodecError Bytes
  | _, [], image => .ok image
  | index, v :: vs, image => do
    let image ← encode (itemPath path index) v image
    encodeItems encode path (index + 1) vs image

mutual

/-- Appends a body. -/
def BodyLayout.encode : BodyLayout → (path : String) → Value → Bytes → Except CodecError Bytes
  | ⟨blockLength, fields, groups, varData⟩, path, v, image => do
    if !v.isObject then throw (.typeMismatch path .object)
    let base := image.length
    let image ← encodeFields base path v (padTo (base + blockLength) image) fields
    let image ← encodeGroups groups path v image
    encodeVarData path v image varData

/-- Appends the groups of a value. -/
def encodeGroups : List GroupLayout → (path : String) → Value → Bytes → Except CodecError Bytes
  | [], _, _, image => .ok image
  | ⟨name, _, _, dimension, body, _⟩ :: groups, path, v, image => do
    let own := childPath path name
    let image ← match v.field? name with
      | some (.array elements) => do
        let image ← dimension.encode own body.blockLength elements.length image
        encodeItems (fun path v image => body.encode path v image) own 0 elements image
      | some _ => throw (.typeMismatch own .groupElements)
      | none => throw (.missingValue own)
    encodeGroups groups path v image

end

end SimpleBinary
