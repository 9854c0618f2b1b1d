import SimpleBinary.Source.Names
import SimpleBinary.Source.Number
import SimpleBinary.Source.TypeScriptSupport
import SimpleBinary.Text.Quoted

/-!
# TypeScript sources

A type is written as an interface or an enum, and a class of functions over a view of the buffer.
Integers of eight bytes are big integers, counts and lengths always plain numbers.
-/

namespace SimpleBinary.TypeScript

def banner : String := "// Generated SBE (Simple Binary Encoding) codec. Do not edit."

/-- A text between single quotes; line ends stay as they are. -/
def singleQuoted (s : String) : String :=
  let escape (c : Char) : List Char := if c = '\\' ∨ c = '\'' then ['\\', c] else [c]
  String.ofList ('\'' :: s.toList.flatMap escape ++ ['\''])

/-- The end of the names of a view's functions for one element. -/
def accessor : Primitive → String
  | .char | .uint8 => "Uint8"
  | .int8 => "Int8"
  | .int16 => "Int16"
  | .int32 => "Int32"
  | .int64 => "BigInt64"
  | .uint16 => "Uint16"
  | .uint32 => "Uint32"
  | .uint64 => "BigUint64"
  | .float => "Float32"
  | .double => "Float64"

def typeName (p : Primitive) : String := if p.isWide then "bigint" else "number"

/-- Whether an element is little-endian, as a last argument where that makes a difference. -/
def orderArgument (p : Primitive) : ByteOrder → String
  | .littleEndian => if p.isOrdered then ", true" else ""
  | .bigEndian => if p.isOrdered then ", false" else ""

def read (p : Primitive) (order : ByteOrder) (place : String) : String :=
  s!"view.get{accessor p}({place}{orderArgument p order})"

def write (p : Primitive) (order : ByteOrder) (place value : String) : String :=
  s!"view.set{accessor p}({place}, {value}{orderArgument p order})"

/-- Reads a count or a length as a plain number. -/
def readSlot (s : HeaderSlot) (place : String) : String :=
  let value := read s.primitive s.byteOrder place
  if s.primitive.isWide then s!"Number({value})" else value

def writeSlot (s : HeaderSlot) (place value : String) : String :=
  write s.primitive s.byteOrder place (if s.primitive.isWide then s!"BigInt({value})" else value)
    ++ ";"

/-- The greatest integer below which every integer is a plain number. -/
def maxSafeInteger : Nat := 9007199254740991

/-- The greatest count or length that a place in a header holds. -/
def maxCount (s : HeaderSlot) : String :=
  let bound :=
    if s.primitive.kind = .signed then s.primitive.maxSigned.toNat else s.primitive.maxUnsigned
  if maxSafeInteger < bound then "Number.MAX_SAFE_INTEGER" else toString bound

def floatNames : FloatNames := ⟨"NaN", "Infinity", "-Infinity", "0"⟩

/-- A literal as a plain number. -/
def plainNumber (v : Literal) (p : Primitive) : String := v.sourceNumber floatNames p

def number (v : Literal) (p : Primitive) : String :=
  if p.isWide then plainNumber v p ++ "n" else plainNumber v p

def block (head : String) (body : Lines) : Lines := Lines.braced 2 head body ""

/-- A block that is a value of a statement. -/
def item (head : String) (body : Lines) : Lines := Lines.braced 2 head body ";"

/-- A block with variables of its own. -/
def scope (body : Lines) : Lines := "\x7b" :: Lines.indent 2 body ++ ["\x7d"]

/-- What a field adds to its interface and its class. -/
structure FieldCode where
  members : Lines
  constants : Lines
  encode : Lines
  decode : Lines

namespace FieldCode

def none : FieldCode := ⟨[], [], [], []⟩

def append (a b : FieldCode) : FieldCode :=
  ⟨a.members ++ b.members, a.constants ++ b.constants, a.encode ++ b.encode, a.decode ++ b.decode⟩

def ofConstant (p : PrimitiveLayout) (constant : String) : FieldCode :=
  let v := p.constValue.getD (.uint 0)
  let text :=
    match v.toBytes? with
    | some bs =>
      if p.isArray || v.isLong then quoted (lossyText bs) else number v p.primitive
    | _ => number v p.primitive
  ⟨[], [s!"static readonly {constant} = {text};"], [], []⟩

def ofNumber (f : NamedField) (p : PrimitiveLayout) : FieldCode :=
  let place := placeText "offset" f.offset
  { members := [s!"{f.member}: {typeName p.primitive};"]
    constants := []
    encode := [write p.primitive p.byteOrder place s!"value.{f.member}" ++ ";"]
    decode := [s!"{f.member}: {read p.primitive p.byteOrder place},"] }

/-- An array of characters, which is a text. -/
def ofChars (f : NamedField) (p : PrimitiveLayout) : FieldCode :=
  let place := placeText "offset" f.offset
  let length := p.arrayLength
  { members := [s!"{f.member}: string;"]
    constants := []
    encode := [s!"sbe.writeChars(view, {place}, {length}, value.{f.member}, "
      ++ s!"{singleQuoted f.raw});"]
    decode := [s!"{f.member}: sbe.readChars(view, {place}, {length}),"] }

def ofItems (f : NamedField) (p : PrimitiveLayout) : FieldCode :=
  let place := placeText "offset" f.offset ++ s!" + i * {p.primitive.size}"
  let length := p.arrayLength
  let assign := write p.primitive p.byteOrder place "item"
  { members := [s!"{f.member}: {typeName p.primitive}[];"]
    constants := []
    encode := [s!"value.{f.member}.slice(0, {length}).forEach((item, i) => {assign});"]
    decode := [s!"{f.member}: Array.from(\x7b length: {length} \x7d, (_, i) => "
      ++ s!"{read p.primitive p.byteOrder place}),"] }

def ofPrimitive (f : NamedField) (p : PrimitiveLayout) (constant : String) : FieldCode :=
  if p.isConstant then ofConstant p constant
  else
    let code :=
      if !p.isArray then ofNumber f p
      else if p.primitive = .char then ofChars f p
      else ofItems f p
    if p.isOptional then
      let null := number p.nullValue p.primitive
      append ⟨[], [s!"static readonly {constant}_NULL_VALUE = {null};"], [], []⟩ code
    else code

/-- A field that the class of its type reads and writes. -/
def ofCodec (f : NamedField) (type : String) : FieldCode :=
  let place := placeText "offset" f.offset
  { members := [s!"{f.member}: {type};"]
    constants := []
    encode := [s!"{type}Codec.encode(view, {place}, value.{f.member});"]
    decode := [s!"{f.member}: {type}Codec.decode(view, {place}),"] }

/-- A value of an enum is the plain number of its encoding. -/
def ofEnum (f : NamedField) (e : EnumLayout) (type : String) : FieldCode :=
  let slot : HeaderSlot := ⟨e.encoding, e.byteOrder, f.offset⟩
  let place := placeText "offset" f.offset
  { members := [s!"{f.member}: {type};"]
    constants := []
    encode := [writeSlot slot place s!"value.{f.member}"]
    decode := [s!"{f.member}: {readSlot slot place} as {type},"] }

def ofField (f : NamedField) : FieldCode :=
  match f.kind with
  | .primitive p constant => ofPrimitive f p constant
  | .composite type => ofCodec f type
  | .enumeration e type _ => ofEnum f e type
  | .set _ type => ofCodec f type

def ofFields (fields : List NamedField) : FieldCode :=
  (fields.map ofField).foldr append none

end FieldCode

def documented (description : Option String) : Lines :=
  lineIf description fun d => s!"/** {d} */"

def compositeLines (type : String) (c : CompositeLayout) (members : List NamedField) : Lines :=
  let code := FieldCode.ofFields members
  documented c.description
    ++ block s!"export interface {type}" code.members ++ [""]
    ++ block s!"export class {type}Codec" (
      [s!"static readonly ENCODED_LENGTH = {c.encodedLength};"] ++ code.constants ++ [""]
      ++ block s!"static decode(view: DataView, offset: number): {type}" (
        s!"sbe.checkBounds(view, offset, {type}Codec.ENCODED_LENGTH, {singleQuoted c.typeName});"
        :: item "return" code.decode) ++ [""]
      ++ block s!"static encode(view: DataView, offset: number, value: {type}): void" code.encode)
    ++ [""]

def enumLines (type constant : String) (e : EnumLayout) (values : List (String × Literal))
    (null : String) : Lines :=
  documented e.description
    ++ block s!"export enum {type}" (
      values.map (fun v => s!"{v.1} = {plainNumber v.2 e.encoding},")
      ++ [s!"{null} = {plainNumber e.nullValue e.encoding},"])
    ++ ["", s!"export const {constant}_ENCODED_LENGTH = {e.width};", ""]

def setLines (type : String) (s : SetLayout) (choices : List NamedChoice) : Lines :=
  let wide := if s.encoding.isWide then "n" else ""
  let bit (c : NamedChoice) := s!"(1{wide} << {c.bit}{wide})"
  documented s.description
    ++ block s!"export interface {type}" (choices.map fun c => s!"{c.getter}: boolean;") ++ [""]
    ++ block s!"export class {type}Codec" (
      [s!"static readonly ENCODED_LENGTH = {s.width};", ""]
      ++ block s!"static decode(view: DataView, offset: number): {type}" (
        ("const bits = " ++ read s.encoding s.byteOrder "offset" ++ ";")
        :: item "return" (choices.map fun c => s!"{c.getter}: (bits & {bit c}) !== 0{wide},"))
      ++ [""]
      ++ block s!"static encode(view: DataView, offset: number, value: {type}): void" (
        [s!"let bits = 0{wide};"]
        ++ choices.flatMap (fun c => block s!"if (value.{c.getter})" [s!"bits |= {bit c};"])
        ++ [write s.encoding s.byteOrder "offset" "bits" ++ ";"]))
    ++ [""]

/-- Writes a group behind its header. -/
def encodeGroup (g : NamedGroup) : Lines :=
  let d := g.dimension
  let blockLength := placeText "dim" d.blockLength.offset
  let numInGroup := placeText "dim" d.numInGroup.offset
  scope [
    s!"sbe.checkLength(value.{g.member}.length, {maxCount d.numInGroup}, "
      ++ s!"{singleQuoted g.body.path});",
    s!"const dim = w.reserve({d.encodedLength});",
    "const view = w.view();",
    writeSlot d.blockLength blockLength s!"{g.body.type}Codec.BLOCK_LENGTH",
    writeSlot d.numInGroup numInGroup s!"value.{g.member}.length"]
  ++ block s!"for (const item of value.{g.member})" [s!"{g.body.type}Codec.encodeBody(w, item);"]

/-- Writes var-data behind its length. -/
def encodeVarData (d : NamedVarData) : Lines :=
  let length := d.layout.length
  let bytes :=
    if d.layout.isText then s!"new TextEncoder().encode(value.{d.member})" else s!"value.{d.member}"
  scope [
    s!"const bytes = {bytes};",
    s!"sbe.checkLength(bytes.length, {maxCount length}, {singleQuoted d.path});",
    s!"const at = w.reserve({length.width});",
    "const view = w.view();",
    writeSlot length "at" "bytes.length",
    "w.append(bytes);"]

def encodeBody (b : NamedBody) (fields : Lines) : Lines :=
  block s!"static encodeBody(w: sbe.Writer, value: {b.type}): void" (
    [s!"const offset = w.reserve({b.type}Codec.BLOCK_LENGTH);"]
    ++ (if fields.isEmpty then [] else "const view = w.view();" :: fields)
    ++ b.groups.flatMap encodeGroup ++ b.varData.flatMap encodeVarData)

/-- Reads a group from its header on. -/
def decodeGroup (g : NamedGroup) : Lines :=
  let d := g.dimension
  let path := singleQuoted g.body.path
  let blockLength := readSlot d.blockLength (placeText "pos" d.blockLength.offset)
  let count := readSlot d.numInGroup (placeText "pos" d.numInGroup.offset)
  scope (
    [s!"sbe.checkBounds(view, pos, {d.encodedLength}, {path});",
      s!"const groupBlockLength = {blockLength};",
      s!"const count = {count};",
      s!"pos += {d.encodedLength};",
      s!"sbe.checkGroup(view, pos, count, groupBlockLength + {g.body.layout.trailerLength}, "
        ++ s!"{path});"]
    ++ block "for (let i = 0; i < count; i++)" [
      s!"const [item, next] = {g.body.type}Codec.decodeBody(view, pos, groupBlockLength);",
      s!"value.{g.member}.push(item);",
      "pos = next;"])

/-- Reads var-data from its length on. -/
def decodeVarData (d : NamedVarData) : Lines :=
  let length := d.layout.length
  let path := singleQuoted d.path
  let value :=
    match d.layout.characterEncoding with
    | some encoding => s!"sbe.readText(view, pos, length, {singleQuoted encoding}, {path})"
    | none => s!"sbe.readBytes(view, pos, length, {path})"
  scope [
    s!"sbe.checkBounds(view, pos, {length.width}, {path});",
    "const length = " ++ readSlot length "pos" ++ ";",
    s!"pos += {length.width};",
    s!"value.{d.member} = {value};",
    "pos += length;"]

def decodeBody (b : NamedBody) (fields : Lines) : Lines :=
  let empty (d : NamedVarData) := if d.layout.isText then "''" else "new Uint8Array(0)"
  let result := s!"[{b.type}, number]"
  "/** Returns the decoded value and the offset just past it. */" ::
  block ("static decodeBody(view: DataView, offset: number, blockLength: number): " ++ result) (
    [s!"sbe.checkBounds(view, offset, Math.min(blockLength, {b.type}Codec.BLOCK_LENGTH), "
      ++ s!"{singleQuoted b.path});"]
    ++ item s!"const value: {b.type} =" (
      fields
      ++ b.groups.map (fun g => s!"{g.member}: [],")
      ++ b.varData.map (fun d => s!"{d.member}: {empty d},"))
    ++ ["let pos = offset + blockLength;"]
    ++ b.groups.flatMap decodeGroup ++ b.varData.flatMap decodeVarData
    ++ ["return [value, pos];"])

/-- The constants that identify a message. -/
def messageConstants (schema : SchemaLayout) (m : MessageLayout) : Lines :=
  [s!"static readonly TEMPLATE_ID = {m.id.toInt};",
    s!"static readonly SCHEMA_ID = {schema.id.toInt};",
    s!"static readonly SCHEMA_VERSION = {schema.version.toInt};"]

/-- Encoding and decoding with the header. -/
def messageEntry (schema : SchemaLayout) (type : String) (m : MessageLayout) : Lines :=
  let h := schema.header
  let codec := type ++ "Codec"
  let slot (s : HeaderSlot) (value : String) := writeSlot s (toString s.offset) s!"{codec}.{value}"
  "/** Encodes the message header followed by the body. */" ::
  block s!"static encode(value: {type}): Uint8Array" [
    "const w = new sbe.Writer();",
    s!"w.reserve({h.encodedLength});",
    "const view = w.view();",
    slot h.blockLength "BLOCK_LENGTH",
    slot h.templateId "TEMPLATE_ID",
    slot h.schemaId "SCHEMA_ID",
    slot h.version "SCHEMA_VERSION",
    s!"{codec}.encodeBody(w, value);",
    "return w.finish();"]
  ++ [""]
  ++ block s!"static decode(bytes: Uint8Array): {type}" (
    ["const view = new DataView(bytes.buffer, bytes.byteOffset, bytes.byteLength);",
      s!"sbe.checkBounds(view, 0, {h.encodedLength}, {singleQuoted h.composite.typeName});",
      s!"const templateId = {readSlot h.templateId (toString h.templateId.offset)};"]
    ++ block s!"if (templateId !== {codec}.TEMPLATE_ID)" [
      s!"throw new sbe.DecodeError(`{m.name} has template id $\x7b{codec}.TEMPLATE_ID\x7d "
        ++ "but the header says $\x7btemplateId\x7d`);"]
    ++ [s!"const blockLength = {readSlot h.blockLength (toString h.blockLength.offset)};",
      s!"return {codec}.decodeBody(view, {h.encodedLength}, blockLength)[0];"])
  ++ [""]

/-- One body; that of a message has its constants and its entry. -/
def bodyLines (schema : SchemaLayout) (message : Option MessageLayout) (b : NamedBody) : Lines :=
  let code := FieldCode.ofFields b.fields
  let type (d : NamedVarData) := if d.layout.isText then "string" else "Uint8Array"
  documented (message.bind (·.description))
    ++ block s!"export interface {b.type}" (
      code.members
      ++ b.groups.map (fun g => s!"{g.member}: {g.body.type}[];")
      ++ b.varData.map (fun d => s!"{d.member}: {type d};")) ++ [""]
    ++ block s!"export class {b.type}Codec" (
      [s!"static readonly BLOCK_LENGTH = {b.layout.blockLength};"]
      ++ message.elim [] (messageConstants schema)
      ++ code.constants ++ [""]
      ++ message.elim [] (messageEntry schema b.type)
      ++ encodeBody b code.encode ++ [""]
      ++ decodeBody b code.decode)

def messageLines (schema : SchemaLayout) (m : MessageLayout) (b : NamedBody) : Lines :=
  bodyLines schema (some m) b ++ b.nested.flatMap (fun g => "" :: bodyLines schema none g) ++ [""]

def elementLines (schema : SchemaLayout) : NamedElement → Lines
  | .composite type c members => compositeLines type c members
  | .enumeration type constant e values null => enumLines type constant e values null
  | .set type s choices => setLines type s choices
  | .message m b => messageLines schema m b

/-- Takes a type from its file, and its class unless it is an enum. -/
def importLine (i : Import) : String :=
  let names := if i.sort = .enumeration then i.type else s!"{i.type}, {i.type}Codec"
  s!"import \x7b {names} \x7d from './{i.file}';"

def unitLines (schema : SchemaLayout) (u : SourceUnit) : Lines :=
  [banner, "", "import * as sbe from './runtime';"] ++ u.imports.map importLine ++ [""]
    ++ elementLines schema u.element

def unitFile (schema : SchemaLayout) (u : SourceUnit) : SourceFile :=
  ⟨u.file ++ ".ts", joinLines (unitLines schema u)⟩

def supportLines : Lines := [banner, ""] ++ support ++ [""]

def supportFile : SourceFile := ⟨"runtime.ts", joinLines supportLines⟩

/-- Passes on what a file exports. -/
def exportLine (f : SourceFile) : String := s!"export * from './{f.stem}';"

def indexLines (files : List SourceFile) : Lines := [banner, ""] ++ files.map exportLine ++ [""]

/-- The root of the package, which passes on what every file exports. -/
def indexFile (files : List SourceFile) : SourceFile :=
  ⟨"index.ts", joinLines (indexLines files)⟩

end SimpleBinary.TypeScript
