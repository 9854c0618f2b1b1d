import SimpleBinary.Codec.Decode
import SimpleBinary.Codec.Encode
import SimpleBinary.Layout.OfTokens
import SimpleBinary.Schema.Basic

/-!
# Messages on the wire

A message is a header and a body. The header names the length of the body's block, the message and
the schema; the decoder takes the block length from it.
-/

namespace SimpleBinary

/-- The values of a message header. -/
structure MessageHeader where
  blockLength : UInt64
  templateId : UInt64
  schemaId : UInt64
  version : UInt64
deriving DecidableEq, Repr

namespace MessageHeader

/-- Reads the header at the start of bytes. -/
def decode (h : HeaderLayout) (bs : Bytes) : Except CodecError MessageHeader := do
  let (blockLength, c) ← h.blockLength.read 0 "header.blockLength" ⟨bs, 0⟩
  let (templateId, c) ← h.templateId.read 0 "header.templateId" c
  let (schemaId, c) ← h.schemaId.read 0 "header.schemaId" c
  let (version, _) ← h.version.read 0 "header.version" c
  return ⟨.ofNat blockLength, .ofNat templateId, .ofNat schemaId, .ofNat version⟩

/-- The bytes of a header. -/
def encode (m : MessageHeader) (h : HeaderLayout) : Except CodecError Bytes := do
  let image := padTo h.encodedLength []
  let image ← h.blockLength.put 0 "header.blockLength" m.blockLength.toNat image
  let image ← h.templateId.put 0 "header.templateId" m.templateId.toNat image
  let image ← h.schemaId.put 0 "header.schemaId" m.schemaId.toNat image
  h.version.put 0 "header.version" m.version.toNat image

end MessageHeader

/-- What it takes to encode and decode one message of a schema. -/
structure MessageCodec where
  header : HeaderLayout
  message : MessageLayout
  schemaId : Int32
  version : Int32
deriving Repr

/-- An identifier as headers carry it: 64 bits, the sign extended. -/
def headerId (id : Int32) : UInt64 := id.toInt64.toUInt64

namespace MessageCodec

def ofTokens (s : Schema) (tokens : List Token) : Except SchemaError MessageCodec := do
  return {
    header := ← HeaderLayout.ofTokens s.header
    message := ← MessageLayout.ofTokens tokens
    schemaId := s.id
    version := s.version }

/-- The codec of the first message of a name. -/
def ofName (s : Schema) (name : String) : Except SchemaError MessageCodec :=
  match s.messageNamed? name with
  | some tokens => ofTokens s tokens
  | none => .error (.unknownMessage name)

/-- The codec of the first message of an identifier. -/
def ofTemplate (s : Schema) (id : UInt64) : Except SchemaError MessageCodec :=
  let tokens? :=
    if id.toNat ≤ Int32.maxValue.toInt then s.messageWithId? (Int32.ofNat id.toNat) else none
  match tokens? with
  | some tokens => ofTokens s tokens
  | none => .error (.unknownTemplate id.toNat)

/-- The codec of the message that the header at the start of bytes names. -/
def ofBytes (s : Schema) (bs : Bytes) : Except CodecError MessageCodec := do
  let layout ← (HeaderLayout.ofTokens s.header).mapError .schema
  let header ← MessageHeader.decode layout bs
  (ofTemplate s header.templateId).mapError .schema

variable (m : MessageCodec)

/-- The header that the codec writes. -/
def ownHeader : MessageHeader where
  blockLength := UInt64.ofNat m.message.body.blockLength
  templateId := headerId m.message.id
  schemaId := headerId m.schemaId
  version := headerId m.version

/-- The bytes of a header and a body. -/
def encode (v : Value) : Except CodecError Bytes := do
  let image ← m.ownHeader.encode m.header
  m.message.body.encode m.message.name v image

/-- The bytes of a body alone. -/
def encodeBody (v : Value) : Except CodecError Bytes :=
  m.message.body.encode m.message.name v []

/-- Reads a body at a cursor. -/
def decodeAt (blockLength : Nat) (c : Cursor) : Except CodecError Value :=
  (m.message.body.decode blockLength m.message.name m.message.name c).map (·.1)

/-- The value of bytes that start with a header. -/
def decode (bs : Bytes) : Except CodecError Value := do
  let header ← MessageHeader.decode m.header bs
  if header.templateId ≠ headerId m.message.id then
    throw (.templateMismatch m.message.name m.message.id.toInt header.templateId.toNat)
  let c ← (Cursor.mk bs 0).seekFor m.message.name m.header.encodedLength
  m.decodeAt header.blockLength.toNat c

/-- The value of bytes of a body whose block takes `blockLength` of them. -/
def decodeBody (bs : Bytes) (blockLength : Nat) : Except CodecError Value :=
  m.decodeAt blockLength ⟨bs, 0⟩

end MessageCodec

end SimpleBinary
