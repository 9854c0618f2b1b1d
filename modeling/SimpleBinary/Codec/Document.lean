import SimpleBinary.Codec.Message
import SimpleBinary.Json.Basic

/-!
# Messages as documents

A decoded value carries its own shape and is written without its layout: enums by name, sets as
arrays of names, bytes as arrays of numbers, NaN as `null`. The other way the layout says what each
part of a document means. A field that is left out or `null` is left out of the value, a missing
group is empty and missing var-data has no bytes.
-/

namespace SimpleBinary

mutual

/-- The document of a value. -/
def Value.toJson : Value → Json
  | .int v => .int v.toInt
  | .uint v => .int v.toNat
  | .float v => .ofFloat v
  | .text s => .text s
  | .bytes bs => .ofBytes bs
  | .array items => .array (itemsToJson items)
  | .enumeration _ name => .text name
  | .set _ choices => .array (choices.map .text)
  | .object _ fields => .object (fieldsToJson fields)

def itemsToJson : List Value → List Json
  | [] => []
  | v :: vs => v.toJson :: itemsToJson vs

def fieldsToJson : List (String × Value) → List (String × Json)
  | [] => []
  | (name, v) :: fields => (name, v.toJson) :: fieldsToJson fields

end

/-- The bytes of an array of numbers. -/
def bytesOfJson (path : String) : (index : Nat) → List Json → Except CodecError Bytes
  | _, [] => .ok []
  | index, j :: js =>
    match j.byte? with
    | some b => do return b :: (← bytesOfJson path (index + 1) js)
    | none => .error (.typeMismatch (itemPath path index) .byte)

namespace Primitive

/-- The number of a text that is one byte long. -/
def characterOfJson? : Json → Option UInt64
  | .text s =>
    match utf8 s with
    | [b] => some b.toUInt64
    | _ => none
  | j => j.uint64?

/-- The element of a document's number. -/
def ofJson? (p : Primitive) (j : Json) : Option Value :=
  match p.kind with
  | .float => if j.isNull then some (.float .nan) else j.float?.map .float
  | .signed => j.int64?.map .int
  | .unsigned => j.uint64?.map .uint
  | .char => (characterOfJson? j).map .uint

def ofJson (p : Primitive) (path : String) (j : Json) : Except CodecError Value :=
  match p.ofJson? j with
  | some v => .ok v
  | none => .error (.typeMismatch path (.numberOf p.name))

/-- The elements of a document's array. -/
def itemsOfJson (p : Primitive) (path : String) : (index : Nat) → List Json →
    Except CodecError (List Value)
  | _, [] => .ok []
  | index, j :: js => do
    let v ← p.ofJson (itemPath path index) j
    return v :: (← p.itemsOfJson path (index + 1) js)

end Primitive

/-- The value of a field's document, or nothing for one that is left out. -/
def PrimitiveLayout.ofJson (p : PrimitiveLayout) (path : String) (j : Json) :
    Except CodecError (Option Value) :=
  if p.isText then
    match j with
    | .null => .ok none
    | .text s => .ok (some (.text s))
    | .array items => (bytesOfJson path 0 items).map fun bs => some (.bytes bs)
    | _ => .error (.typeMismatch path .string)
  else if p.isArray then
    match j with
    | .null => .ok none
    | .array items => (p.primitive.itemsOfJson path 0 items).map fun vs => some (.array vs)
    | _ => .error (.typeMismatch path .array)
  else if j.isNull && p.primitive.kind != .float then .ok none
  else (p.primitive.ofJson path j).map some

def EnumLayout.ofJson (e : EnumLayout) (path : String) (j : Json) : Except CodecError Value :=
  match j.text? with
  | none => .error (.typeMismatch path (.enumName e.typeName))
  | some name =>
    if name = nullName || (e.byName? name).isSome then .ok (.enumeration e.typeName name)
    else .error (.unknownEnumValue path e.typeName name)

/-- The choice of a document's text. -/
def SetLayout.choiceOfJson (s : SetLayout) (path : String) (j : Json) :
    Except CodecError String :=
  match j.text? with
  | none => .error (.typeMismatch path .choiceName)
  | some name =>
    if (s.byName? name).isSome then .ok name
    else .error (.unknownChoice path s.typeName name)

def SetLayout.ofJson (s : SetLayout) (path : String) (j : Json) : Except CodecError Value :=
  match j.array? with
  | none => .error (.typeMismatch path (.choices s.typeName))
  | some items => (items.mapM (s.choiceOfJson path)).map (.set s.typeName)

mutual

def FieldKind.ofJson (path : String) (j : Json) : FieldKind → Except CodecError (Option Value)
  | .primitive p => p.ofJson path j
  | .composite ⟨typeName, _, fields, _⟩ =>
    if j.isNull then .ok none
    else
      match j.object? with
      | none => .error (.typeMismatch path .object)
      | some ms => (fieldsOfJson path ms [] fields).map fun fs => some (.object typeName fs)
  | .enumeration e => if j.isNull then .ok none else (e.ofJson path j).map some
  | .set s => if j.isNull then .ok none else (s.ofJson path j).map some

/-- The fields of an object's members; constants are not looked at. -/
def fieldsOfJson (path : String) (ms : List (String × Json)) (acc : Fields) :
    List FieldLayout → Except CodecError Fields
  | [] => .ok acc
  | ⟨name, _, _, _, _, kind⟩ :: fields => do
    match if kind.isConstant then none else Json.member? ms name with
    | none => fieldsOfJson path ms acc fields
    | some j =>
      match ← kind.ofJson (childPath path name) j with
      | some v => fieldsOfJson path ms (insertField name v acc) fields
      | none => fieldsOfJson path ms acc fields

end

/-- The payload of a document's member. -/
def VarDataLayout.ofJson (d : VarDataLayout) (path : String) :
    Option Json → Except CodecError Value
  | none | some .null => .ok (if d.isText then .text "" else .bytes [])
  | some (.text s) => .ok (if d.isText then .text s else .bytes (utf8 s))
  | some (.array items) => (bytesOfJson path 0 items).map .bytes
  | some _ => .error (.typeMismatch path .textOrByteArray)

def varDataOfJson (path : String) (ms : List (String × Json)) (acc : Fields)
    (ds : List VarDataLayout) : Except CodecError Fields :=
  ds.foldlM (fun acc d => do
    let v ← d.ofJson (childPath path d.name) (Json.member? ms d.name)
    return insertField d.name v acc) acc

/-- The values of items in turn, each under its own path. -/
def elementsOfJson (read : String → Json → Except CodecError Value) (path : String) :
    (index : Nat) → List Json → Except CodecError (List Value)
  | _, [] => .ok []
  | index, j :: js => do
    let v ← read (itemPath path index) j
    return v :: (← elementsOfJson read path (index + 1) js)

mutual

/-- The value of a body's document. -/
def BodyLayout.ofJson : BodyLayout → (name path : String) → Json → Except CodecError Value
  | ⟨_, fields, groups, varData⟩, name, path, j =>
    match j.object? with
    | none => .error (.typeMismatch path .object)
    | some ms => do
      let acc ← fieldsOfJson path ms [] fields
      let acc ← groupsOfJson groups path ms acc
      let acc ← varDataOfJson path ms acc varData
      return .object name acc

def groupsOfJson : List GroupLayout → (path : String) → List (String × Json) → Fields →
    Except CodecError Fields
  | [], _, _, acc => .ok acc
  | ⟨name, _, _, _, body, _⟩ :: groups, path, ms, acc => do
    let own := childPath path name
    let elements ← match Json.member? ms name with
      | none | some .null => pure []
      | some (.array items) => elementsOfJson (fun path j => body.ofJson name path j) own 0 items
      | some _ => throw (.typeMismatch own .groupElements)
    groupsOfJson groups path ms (insertField name (.array elements) acc)

end

/-- What is wrong with a request for a message by name or with the message. -/
inductive ExchangeError where
  | unknownMessage (name : String)
  | codec (e : CodecError)
deriving DecidableEq, Repr

def ExchangeError.message : ExchangeError → String
  | .unknownMessage name => s!"Unknown message {inQuotes name}"
  | .codec e => e.message

namespace Schema

/-- The document of a message: its name, the values of its header and its body. -/
def decodeToJson (s : Schema) (bs : Bytes) : Except CodecError Json := do
  let codec ← MessageCodec.ofBytes s bs
  let header ← MessageHeader.decode codec.header bs
  let body ← codec.decode bs
  return .object [
    ("message", .text codec.message.name),
    ("header", .object [
      ("blockLength", .int header.blockLength.toNat),
      ("templateId", .int header.templateId.toNat),
      ("schemaId", .int header.schemaId.toNat),
      ("version", .int header.version.toNat)]),
    ("body", body.toJson)]

/-- The bytes of a named message whose body is a document. -/
def encodeFromJson (s : Schema) (message : String) (body : Json) :
    Except ExchangeError Bytes :=
  if (s.messageNamed? message).isNone then .error (.unknownMessage message)
  else do
    let codec ← (MessageCodec.ofName s message).mapError (.codec ∘ .schema)
    let name := codec.message.name
    let v ← (codec.message.body.ofJson name name body).mapError .codec
    (codec.encode v).mapError .codec

end Schema

end SimpleBinary
