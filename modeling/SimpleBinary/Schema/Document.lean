import SimpleBinary.Json.Reader
import SimpleBinary.Json.Record
import SimpleBinary.Json.Writer
import SimpleBinary.Schema.Basic

/-!
# Schemas as documents

`Schema.toJson` writes a schema, `Schema.ofJson?` reads one: members that have a default may be
left out, unknown members are passed over, anything else that is not as it is written is refused.
-/

namespace SimpleBinary

def ByteOrder.code : ByteOrder → String
  | .littleEndian => "LITTLE_ENDIAN"
  | .bigEndian => "BIG_ENDIAN"

def Presence.code : Presence → String
  | .required => "required"
  | .optional => "optional"
  | .constant => "constant"

namespace Json

def byteOrder? : Json → Option ByteOrder :=
  choice? ([ByteOrder.littleEndian, .bigEndian].map fun o => (o.code, o))

def presence? : Json → Option Presence :=
  choice? ([Presence.required, .optional, .constant].map fun p => (p.code, p))

def primitive? : Json → Option Primitive :=
  choice? (Primitive.all.map fun p => (p.name, p))

def signal? : Json → Option Signal :=
  choice? (Signal.all.map fun s => (s.code, s))

/-- An array whose items are all read the same way. -/
def listOf? {α : Type} (read : Json → Option α) : Json → Option (List α)
  | .array items => items.mapM read
  | _ => none

end Json

namespace Encoding

def memberNames : List String :=
  ["presence", "primitive_type", "byte_order", "const_value", "null_value", "character_encoding"]

def ofJson? (j : Json) : Option Encoding := do
  let r ← Record.ofJson? memberNames j
  return {
    presence := ← r.defaulted "presence" .required Json.presence?
    primitive := ← r.optional "primitive_type" Json.primitive?
    byteOrder := ← r.defaulted "byte_order" .littleEndian Json.byteOrder?
    constValue := ← r.optional "const_value" Json.literal?
    nullValue := ← r.optional "null_value" Json.literal?
    characterEncoding := ← r.optional "character_encoding" Json.text? }

def toJson (e : Encoding) : Json :=
  .object [
    ("presence", .text e.presence.code),
    ("primitive_type", .ofOption (fun p => .text p.name) e.primitive),
    ("byte_order", .text e.byteOrder.code),
    ("const_value", .ofOption .ofLiteral e.constValue),
    ("null_value", .ofOption .ofLiteral e.nullValue),
    ("character_encoding", .ofOption .text e.characterEncoding)]

end Encoding

/-- A member that is left out when there is nothing to write. -/
def optionalMember (name : String) : Option String → List (String × Json)
  | none => []
  | some s => [(name, .text s)]

namespace Token

def memberNames : List String :=
  ["signal", "name", "referenced_name", "description", "id", "version", "offset", "encoded_length",
    "component_token_count", "array_length", "encoding"]

def ofJson? (j : Json) : Option Token := do
  let r ← Record.ofJson? memberNames j
  return {
    signal := ← r.required "signal" Json.signal?
    name := ← r.required "name" Json.text?
    referencedName := ← r.optional "referenced_name" Json.text?
    description := ← r.optional "description" Json.text?
    id := ← r.defaulted "id" (-1) Json.int32?
    version := ← r.defaulted "version" 0 Json.int32?
    offset := ← r.defaulted "offset" 0 Json.size?
    encodedLength := ← r.defaulted "encoded_length" 0 Json.size?
    componentTokenCount := ← r.defaulted "component_token_count" 1 Json.size?
    arrayLength := ← r.defaulted "array_length" 1 Json.size?
    encoding := ← r.defaulted "encoding" {} Encoding.ofJson? }

def toJson (t : Token) : Json :=
  .object (
    [("signal", .text t.signal.code), ("name", .text t.name)]
    ++ optionalMember "referenced_name" t.referencedName
    ++ optionalMember "description" t.description
    ++ [("id", .int t.id.toInt), ("version", .int t.version.toInt), ("offset", .int t.offset),
      ("encoded_length", .int t.encodedLength),
      ("component_token_count", .int t.componentTokenCount),
      ("array_length", .int t.arrayLength), ("encoding", t.encoding.toJson)])

/-- A token stream as an array. -/
def streamToJson (tokens : List Token) : Json := .array (tokens.map toJson)

def stream? : Json → Option (List Token) := Json.listOf? ofJson?

end Token

namespace Schema

def memberNames : List String :=
  ["package_name", "id", "version", "byte_order", "header_structure", "messages", "types"]

def ofJson? (j : Json) : Option Schema := do
  let r ← Record.ofJson? memberNames j
  return {
    package := ← r.optional "package_name" Json.text?
    id := ← r.required "id" Json.int32?
    version := ← r.required "version" Json.int32?
    byteOrder := ← r.defaulted "byte_order" .littleEndian Json.byteOrder?
    header := ← r.required "header_structure" Token.stream?
    messages := ← r.defaulted "messages" [] (Json.listOf? Token.stream?)
    types := ← r.defaulted "types" [] (Json.listOf? Token.stream?) }

def toJson (s : Schema) : Json :=
  .object (
    optionalMember "package_name" s.package
    ++ [("id", .int s.id.toInt), ("version", .int s.version.toInt),
      ("byte_order", .text s.byteOrder.code),
      ("header_structure", Token.streamToJson s.header),
      ("messages", .array (s.messages.map Token.streamToJson)),
      ("types", .array (s.types.map Token.streamToJson))])

/-- The schema of a document's text. -/
def parse? (text : String) : Option Schema := (Json.parse? text).bind ofJson?

end Schema

end SimpleBinary
