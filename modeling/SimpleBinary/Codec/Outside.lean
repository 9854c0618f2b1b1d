import SimpleBinary.Codec.Message

/-!
# Encoding with another outcome outside of the image

The encoder once more, with `outside` for its outcome as soon as an element would reach past the end
of what was reserved.  Any other failure is that of a value, as before.
-/

namespace SimpleBinary

variable (outside : Except CodecError Bytes)

/-- Writes a number into a slot of the header at `base`. -/
def HeaderSlot.putOr (s : HeaderSlot) (base : Nat) (path : String) (n : Nat) (image : Bytes) :
    Except CodecError Bytes :=
  if n < UInt64.size then
    if image.length < base + s.offset + s.primitive.size then outside
    else
      match s.primitive.encode? s.byteOrder (.uint (UInt64.ofNat n)) with
      | some bs => .ok (overwrite (base + s.offset) bs image)
      | none => .error (.outOfRange path (toString n) s.primitive.name)
  else .error (.outOfRange path (toString n) s.primitive.name)

/-- Writes an element of an encoding. -/
def putLiteralOr (p : Primitive) (order : ByteOrder) (pos : Nat) (path : String) (l : Literal)
    (image : Bytes) : Except CodecError Bytes :=
  if image.length < pos + p.size then outside
  else
    match p.encode? order l with
    | some bs => .ok (overwrite pos bs image)
    | none => .error (.outOfRange path l.text p.name)

namespace PrimitiveLayout

/-- Writes elements one behind the other, all under one path. -/
def putAllOr (p : PrimitiveLayout) (path : String) : (pos : Nat) → List Literal → Bytes →
    Except CodecError Bytes
  | _, [], image => .ok image
  | pos, l :: ls, image => do
    let image ← putLiteralOr outside p.primitive p.byteOrder pos path l image
    p.putAllOr path (pos + p.primitive.size) ls image

/-- Writes the items of an array, each under its own path. -/
def putItemsOr (p : PrimitiveLayout) (path : String) : (index pos : Nat) → List Value → Bytes →
    Except CodecError Bytes
  | _, _, [], image => .ok image
  | index, pos, v :: vs, image =>
    match v.toLiteral? with
    | none => .error (.typeMismatch (itemPath path index) .number)
    | some l => do
      let image ← putLiteralOr outside p.primitive p.byteOrder pos (itemPath path index) l image
      p.putItemsOr path (index + 1) (pos + p.primitive.size) vs image

/-- Writes a value that is there. -/
def encodeValueOr (p : PrimitiveLayout) (pos : Nat) (path : String) (v : Value) (image : Bytes) :
    Except CodecError Bytes :=
  if p.isText then do
    let bs ← p.textBytes path v
    if p.arrayLength < bs.length then
      throw (.outOfRange path s!"{bs.length} bytes" s!"char[{p.arrayLength}]")
    p.putAllOr outside path pos (bs.map fun b => .uint b.toUInt64) image
  else if p.isArray then
    match v with
    | .array items =>
      if items.length ≠ p.arrayLength then
        .error (.typeMismatch path (.elements p.arrayLength))
      else p.putItemsOr outside path 0 pos items image
    | _ => .error (.typeMismatch path .array)
  else
    match v.toLiteral? with
    | some l => putLiteralOr outside p.primitive p.byteOrder pos path l image
    | none => .error (.typeMismatch path .number)

/-- Writes a value, or the null value for one that may be left out. -/
def encodeOr (p : PrimitiveLayout) (pos : Nat) (path : String) (v : Option Value)
    (image : Bytes) : Except CodecError Bytes :=
  if p.isConstant then .ok image
  else
    match v with
    | some v => p.encodeValueOr outside pos path v image
    | none =>
      if p.isOptional then
        p.putAllOr outside path pos (List.replicate p.arrayLength p.nullValue) image
      else .error (.missingValue path)

end PrimitiveLayout

def EnumLayout.encodeOr (e : EnumLayout) (pos : Nat) (path : String) (v : Value)
    (image : Bytes) : Except CodecError Bytes :=
  match v.enumName? with
  | none => .error (.typeMismatch path (.enumValue e.typeName))
  | some name =>
    match e.literalNamed? name with
    | none => .error (.unknownEnumValue path e.typeName name)
    | some raw => putLiteralOr outside e.encoding e.byteOrder pos path raw image

def SetLayout.encodeOr (s : SetLayout) (pos : Nat) (path : String) (v : Value) (image : Bytes) :
    Except CodecError Bytes :=
  match v with
  | .set _ choices => do
    putLiteralOr outside s.encoding s.byteOrder pos path (.uint (← s.bitsOf path choices)) image
  | _ => .error (.typeMismatch path (.set s.typeName))

mutual

/-- Writes the value of a field. -/
def FieldKind.encodeOr (pos : Nat) (path : String) (v : Option Value) (image : Bytes) :
    FieldKind → Except CodecError Bytes
  | .primitive p => p.encodeOr outside pos path v image
  | .composite ⟨_, _, members, _⟩ =>
    match v with
    | none => .error (.missingValue path)
    | some v =>
      if v.isObject then encodeFieldsOr pos path v image members
      else .error (.typeMismatch path .object)
  | .enumeration e =>
    match v with
    | none => .error (.missingValue path)
    | some v => e.encodeOr outside pos path v image
  | .set s =>
    match v with
    | none => .error (.missingValue path)
    | some v => s.encodeOr outside pos path v image

/-- Writes the fields of a block that starts at `base`. -/
def encodeFieldsOr (base : Nat) (path : String) (v : Value) (image : Bytes) :
    List FieldLayout → Except CodecError Bytes
  | [] => .ok image
  | ⟨name, _, _, offset, _, kind⟩ :: fields => do
    let image ← kind.encodeOr (base + offset) (childPath path name) (v.field? name) image
    encodeFieldsOr base path v image fields

end

/-- Appends a length and as many bytes. -/
def VarDataLayout.encodeOr (d : VarDataLayout) (path : String) (v : Option Value)
    (image : Bytes) : Except CodecError Bytes := do
  let payload ← d.payload path v
  let reserved := padTo (image.length + d.headerLength) image
  let image ← d.length.putOr outside image.length path payload.length reserved
  return image ++ payload

/-- Appends the var-data of a value. -/
def encodeVarDataOr (path : String) (v : Value) (image : Bytes) (ds : List VarDataLayout) :
    Except CodecError Bytes :=
  ds.foldlM (fun image d => d.encodeOr outside (childPath path d.name) (v.field? d.name) image)
    image

/-- Appends the header of a group of `count` elements. -/
def DimensionLayout.encodeOr (d : DimensionLayout) (path : String) (blockLength count : Nat)
    (image : Bytes) : Except CodecError Bytes := do
  let base := image.length
  let image := padTo (base + d.encodedLength) image
  let image ← d.blockLength.putOr outside base path blockLength image
  d.numInGroup.putOr outside base path count image

mutual

/-- Appends a body. -/
def BodyLayout.encodeOr : BodyLayout → (path : String) → Value → Bytes → Except CodecError Bytes
  | ⟨blockLength, fields, groups, varData⟩, path, v, image => do
    if !v.isObject then throw (.typeMismatch path .object)
    let base := image.length
    let image ← encodeFieldsOr outside base path v (padTo (base + blockLength) image) fields
    let image ← encodeGroupsOr groups path v image
    encodeVarDataOr outside path v image varData

/-- Appends the groups of a value. -/
def encodeGroupsOr : List GroupLayout → (path : String) → Value → Bytes →
    Except CodecError Bytes
  | [], _, _, image => .ok image
  | ⟨name, _, _, dimension, body, _⟩ :: groups, path, v, image => do
    let own := childPath path name
    let image ← match v.field? name with
      | some (.array elements) => do
        let image ← dimension.encodeOr outside own body.blockLength elements.length image
        encodeItems (fun path v image => body.encodeOr path v image) own 0 elements image
      | some _ => throw (.typeMismatch own .groupElements)
      | none => throw (.missingValue own)
    encodeGroupsOr groups path v image

end

/-- The bytes of a header. -/
def MessageHeader.encodeOr (m : MessageHeader) (h : HeaderLayout) : Except CodecError Bytes := do
  let image := padTo h.encodedLength []
  let image ← h.blockLength.putOr outside 0 "header.blockLength" m.blockLength.toNat image
  let image ← h.templateId.putOr outside 0 "header.templateId" m.templateId.toNat image
  let image ← h.schemaId.putOr outside 0 "header.schemaId" m.schemaId.toNat image
  h.version.putOr outside 0 "header.version" m.version.toNat image

namespace MessageCodec

variable (m : MessageCodec)

/-- The bytes of a header and a body. -/
def encodeOr (v : Value) : Except CodecError Bytes := do
  let image ← m.ownHeader.encodeOr outside m.header
  m.message.body.encodeOr outside m.message.name v image

/-- The bytes of a body alone. -/
def encodeBodyOr (v : Value) : Except CodecError Bytes :=
  m.message.body.encodeOr outside m.message.name v []

end MessageCodec

end SimpleBinary
