import SimpleBinary.Layout.Schema
import SimpleBinary.Schema.Document

/-!
# Layouts as documents

Every layout as an object of its properties. Where one of several kinds is meant, a member `kind`
or `element` says which, beside the properties of that kind.
-/

namespace SimpleBinary

/-- A text or `null`. -/
def Json.ofText? (s : Option String) : Json := .ofOption .text s

def PrimitiveLayout.members (p : PrimitiveLayout) : List (String × Json) := [
  ("primitive_type", .text p.primitive.name),
  ("byte_order", .text p.byteOrder.code),
  ("array_length", .int p.arrayLength),
  ("presence", .text p.presence.code),
  ("const_value", .ofOption .ofLiteral p.constValue),
  ("null_value", .ofLiteral p.nullValue),
  ("character_encoding", .ofText? p.characterEncoding)]

def EnumValue.toJson (v : EnumValue) : Json :=
  .object [("name", .text v.name), ("value", .ofLiteral v.value)]

def EnumLayout.members (e : EnumLayout) : List (String × Json) := [
  ("type_name", .text e.typeName),
  ("encoding", .text e.encoding.name),
  ("byte_order", .text e.byteOrder.code),
  ("values", .array (e.values.map (·.toJson))),
  ("null_value", .ofLiteral e.nullValue),
  ("description", .ofText? e.description)]

def Choice.toJson (c : Choice) : Json := .object [("name", .text c.name), ("bit", .int c.bit)]

def SetLayout.members (s : SetLayout) : List (String × Json) := [
  ("type_name", .text s.typeName),
  ("encoding", .text s.encoding.name),
  ("byte_order", .text s.byteOrder.code),
  ("choices", .array (s.choices.map (·.toJson))),
  ("description", .ofText? s.description)]

mutual

def CompositeLayout.documentMembers : CompositeLayout → List (String × Json)
  | ⟨typeName, encodedLength, members, description⟩ => [
    ("type_name", .text typeName),
    ("encoded_length", .int encodedLength),
    ("members", .array (fieldDocuments members)),
    ("description", .ofText? description)]

def FieldLayout.documentMembers : FieldLayout → List (String × Json)
  | ⟨name, id, sinceVersion, offset, description, kind⟩ => [
    ("name", .text name),
    ("id", .int id.toInt),
    ("since_version", .int sinceVersion.toInt),
    ("offset", .int offset),
    ("width", .int kind.width),
    ("description", .ofText? description),
    ("kind", .object kind.documentMembers)]

def FieldKind.documentMembers : FieldKind → List (String × Json)
  | .primitive p => ("kind", .text "primitive") :: p.members
  | .composite c => ("kind", .text "composite") :: c.documentMembers
  | .enumeration e => ("kind", .text "enum") :: e.members
  | .set s => ("kind", .text "set") :: s.members

def fieldDocuments : List FieldLayout → List Json
  | [] => []
  | f :: fs => .object f.documentMembers :: fieldDocuments fs

end

def CompositeLayout.toJson (c : CompositeLayout) : Json := .object c.documentMembers

def HeaderSlot.toJson (s : HeaderSlot) : Json := .object [
  ("primitive_type", .text s.primitive.name),
  ("byte_order", .text s.byteOrder.code),
  ("offset", .int s.offset)]

def HeaderLayout.toJson (h : HeaderLayout) : Json := .object [
  ("composite", h.composite.toJson),
  ("block_length", h.blockLength.toJson),
  ("template_id", h.templateId.toJson),
  ("schema_id", h.schemaId.toJson),
  ("version", h.version.toJson)]

def DimensionLayout.toJson (d : DimensionLayout) : Json := .object [
  ("type_name", .text d.typeName),
  ("block_length", d.blockLength.toJson),
  ("num_in_group", d.numInGroup.toJson),
  ("encoded_length", .int d.encodedLength)]

def VarDataLayout.members (d : VarDataLayout) : List (String × Json) := [
  ("name", .text d.name),
  ("id", .int d.id.toInt),
  ("since_version", .int d.sinceVersion.toInt),
  ("type_name", .text d.typeName),
  ("length", d.length.toJson),
  ("character_encoding", .ofText? d.characterEncoding),
  ("description", .ofText? d.description)]

mutual

def BodyLayout.toJson : BodyLayout → Json
  | ⟨blockLength, fields, groups, varData⟩ => .object [
    ("block_length", .int blockLength),
    ("elements", .array (
      fields.map (fun f => .object (("element", .text "field") :: f.documentMembers))
      ++ groupDocuments groups
      ++ varData.map fun d => .object (("element", .text "var_data") :: d.members)))]

def groupDocuments : List GroupLayout → List Json
  | [] => []
  | ⟨name, id, sinceVersion, dimension, body, description⟩ :: gs =>
    .object [
      ("element", .text "group"),
      ("name", .text name),
      ("id", .int id.toInt),
      ("since_version", .int sinceVersion.toInt),
      ("dimension", dimension.toJson),
      ("body", body.toJson),
      ("description", .ofText? description)] :: groupDocuments gs

end

def MessageLayout.toJson (m : MessageLayout) : Json := .object [
  ("name", .text m.name),
  ("id", .int m.id.toInt),
  ("since_version", .int m.sinceVersion.toInt),
  ("semantic_type", .ofText? m.semanticType),
  ("description", .ofText? m.description),
  ("body", m.body.toJson)]

def TypeLayout.toJson : TypeLayout → Json
  | .composite c => .object (FieldKind.composite c).documentMembers
  | .enumeration e => .object (FieldKind.enumeration e).documentMembers
  | .set s => .object (FieldKind.set s).documentMembers

def SchemaLayout.toJson (s : SchemaLayout) : Json := .object [
  ("package_name", .ofText? s.package),
  ("id", .int s.id.toInt),
  ("version", .int s.version.toInt),
  ("byte_order", .text s.byteOrder.code),
  ("header", s.header.toJson),
  ("types", .array (s.types.map (·.toJson))),
  ("messages", .array (s.messages.map (·.toJson)))]

end SimpleBinary
