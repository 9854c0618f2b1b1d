import SimpleBinary.Source.Names
import SimpleBinary.Source.Number
import SimpleBinary.Source.PythonSupport
import SimpleBinary.Text.Quoted

/-!
# Python sources

A type is written as a data class or an enum that packs and unpacks itself. A field of a body is
read only where the sender's block reaches its end, and is null otherwise.
-/

namespace SimpleBinary.Python

def banner : String := "# Generated SBE (Simple Binary Encoding) codec. Do not edit."

/-- The letter of an element in a format. -/
def letter : Primitive → String
  | .char | .uint8 => "B"
  | .int8 => "b"
  | .int16 => "h"
  | .int32 => "i"
  | .int64 => "q"
  | .uint16 => "H"
  | .uint32 => "I"
  | .uint64 => "Q"
  | .float => "f"
  | .double => "d"

def orderMark : ByteOrder → String
  | .littleEndian => "<"
  | .bigEndian => ">"

/-- The format of one element. -/
def format (p : Primitive) (order : ByteOrder) : String := s!"\"{orderMark order}{letter p}\""

/-- The format of several elements. -/
def arrayFormat (p : Primitive) (order : ByteOrder) (count : Nat) : String :=
  s!"\"{orderMark order}{count}{letter p}\""

def read (p : Primitive) (order : ByteOrder) (place : String) : String :=
  s!"struct.unpack_from({format p order}, buf, {place})[0]"

def write (p : Primitive) (order : ByteOrder) (buffer place value : String) : String :=
  s!"struct.pack_into({format p order}, {buffer}, {place}, {value})"

def readSlot (s : HeaderSlot) (base : String) : String :=
  read s.primitive s.byteOrder (placeText base s.offset)

/-- Writes into the output at a place of a header. -/
def writeSlot (s : HeaderSlot) (base value : String) : String :=
  write s.primitive s.byteOrder "out" (placeText base s.offset) value

def isFloat (p : Primitive) : Bool := p.kind == .float

def typeName (p : Primitive) : String := if isFloat p then "float" else "int"

def number (v : Literal) (p : Primitive) : String :=
  v.sourceNumber ⟨"math.nan", "math.inf", "-math.inf", "0.0"⟩ p

/-- An indented block behind a colon. -/
def block (head : String) (body : Lines) : Lines := (head ++ ":") :: Lines.indent 4 body

/-- A call with a line for each argument. -/
def call (head : String) (arguments : Lines) : Lines :=
  (head ++ "(") :: Lines.indent 4 arguments ++ [")"]

/-- How a field is read, and its value where the sender's block ends before the field does. -/
structure FieldRead where
  member : String
  stop : Nat
  read : String
  null : String

namespace FieldRead

/-- Reads a field that is there. -/
def always (f : FieldRead) : String := s!"{f.member}={f.read},"

/-- Reads a field that may lie past the block. -/
def within (f : FieldRead) : String :=
  s!"{f.member}={f.read} if block_length >= {f.stop} else {f.null},"

def asNull (f : FieldRead) : String := s!"{f.member}={f.null},"

end FieldRead

/-- What a field adds to its class. -/
structure FieldCode where
  members : Lines
  constants : Lines
  encode : Lines
  reads : List FieldRead

namespace FieldCode

def none : FieldCode := ⟨[], [], [], []⟩

def append (a b : FieldCode) : FieldCode :=
  ⟨a.members ++ b.members, a.constants ++ b.constants, a.encode ++ b.encode, a.reads ++ b.reads⟩

def ofConstant (p : PrimitiveLayout) (constant : String) : FieldCode :=
  let v := p.constValue.getD (.uint 0)
  let text :=
    match v.toBytes? with
    | some bs =>
      if p.isArray || v.isLong then quoted (lossyText bs) else number v p.primitive
    | _ => number v p.primitive
  ⟨[], [s!"{constant} = {text}"], [], []⟩

def ofNumber (f : NamedField) (p : PrimitiveLayout) : FieldCode :=
  let place := placeText "offset" f.offset
  let zero := if isFloat p.primitive then "0.0" else "0"
  { members := [s!"{f.member}: {typeName p.primitive} = {zero}"]
    constants := []
    encode := [write p.primitive p.byteOrder "buf" place s!"self.{f.member}"]
    reads := [⟨f.member, f.stop, read p.primitive p.byteOrder place,
      number p.nullValue p.primitive⟩] }

/-- An array of characters, which is a text. -/
def ofChars (f : NamedField) (p : PrimitiveLayout) : FieldCode :=
  let place := placeText "offset" f.offset
  let length := p.arrayLength
  { members := [f.member ++ ": str = \"\""]
    constants := []
    encode := [s!"write_chars(buf, {place}, {length}, self.{f.member}, {quoted f.raw})"]
    reads := [⟨f.member, f.stop, s!"read_chars(buf, {place}, {length})", "\"\""⟩] }

def ofItems (f : NamedField) (p : PrimitiveLayout) : FieldCode :=
  let place := placeText "offset" f.offset
  let items := arrayFormat p.primitive p.byteOrder p.arrayLength
  { members := [s!"{f.member}: List[{typeName p.primitive}] = "
      ++ s!"field(default_factory=lambda: [0] * {p.arrayLength})"]
    constants := []
    encode := [s!"struct.pack_into({items}, buf, {place}, *self.{f.member})"]
    reads := [⟨f.member, f.stop, s!"list(struct.unpack_from({items}, buf, {place}))",
      s!"[{number p.nullValue p.primitive}] * {p.arrayLength}"⟩] }

def ofPrimitive (f : NamedField) (p : PrimitiveLayout) (constant : String) : FieldCode :=
  if p.isConstant then ofConstant p constant
  else
    let code :=
      if !p.isArray then ofNumber f p
      else if p.primitive = .char then ofChars f p
      else ofItems f p
    if p.isOptional then
      let null := number p.nullValue p.primitive
      append ⟨[], [s!"{constant}_NULL_VALUE = {null}"], [], []⟩ code
    else code

def ofField (f : NamedField) : FieldCode :=
  let place := placeText "offset" f.offset
  match f.kind with
  | .primitive p constant => ofPrimitive f p constant
  | .composite type =>
    { members := [s!"{f.member}: {type} = field(default_factory={type})"]
      constants := []
      encode := [s!"self.{f.member}.encode(buf, {place})"]
      reads := [⟨f.member, f.stop, s!"{type}.decode(buf, {place})", s!"{type}.null()"⟩] }
  | .enumeration e type null =>
    { members := [s!"{f.member}: {type} = {type}.{null}"]
      constants := []
      encode := [write e.encoding e.byteOrder "buf" place s!"int(self.{f.member})"]
      reads := [⟨f.member, f.stop, s!"{type}.from_raw({read e.encoding e.byteOrder place})",
        s!"{type}.{null}"⟩] }
  | .set s type =>
    { members := [s!"{f.member}: {type} = field(default_factory={type})"]
      constants := []
      encode := [write s.encoding s.byteOrder "buf" place s!"self.{f.member}.bits"]
      reads := [⟨f.member, f.stop, s!"{type}({read s.encoding s.byteOrder place})",
        s!"{type}()"⟩] }

def ofFields (fields : List NamedField) : FieldCode :=
  (fields.map ofField).foldr append none

end FieldCode

/-- The documentation of a class, which is a string at its head. -/
def documented (description : Option String) : Lines :=
  description.elim [] fun d => [quoted d, ""]

def classmethod (head : String) (body : Lines) : Lines := "@classmethod" :: block head body

def compositeLines (type : String) (c : CompositeLayout) (members : List NamedField) : Lines :=
  let code := FieldCode.ofFields members
  ["@dataclass"] ++ block s!"class {type}" (
    documented c.description
    ++ [s!"ENCODED_LENGTH = {c.encodedLength}"] ++ code.constants ++ [""]
    ++ code.members ++ [""]
    ++ block "def encode(self, buf: bytearray, offset: int) -> None"
      (if code.encode.isEmpty then ["pass"] else code.encode) ++ [""]
    ++ classmethod s!"def decode(cls, buf, offset: int) -> {type}" (
      s!"check_bounds(buf, offset, cls.ENCODED_LENGTH, {quoted c.typeName})"
      :: call "return cls" (code.reads.map (·.always))) ++ [""]
    ++ classmethod s!"def null(cls) -> {type}" (
      "\"\"\"Every member at its null value.\"\"\""
      :: call "return cls" (code.reads.map (·.asNull))))
  ++ [""]

def enumLines (type constant : String) (e : EnumLayout) (values : List (String × Literal))
    (null : String) : Lines :=
  block s!"class {type}(enum.IntEnum)" (
    documented e.description
    ++ values.map (fun v => s!"{v.1} = {number v.2 e.encoding}")
    ++ [s!"{null} = {number e.nullValue e.encoding}", ""]
    ++ classmethod s!"def from_raw(cls, raw: int) -> {type}" (
      ["\"\"\"Unknown values decode as the null value.\"\"\""]
      ++ block "try" ["return cls(raw)"]
      ++ block "except ValueError" [s!"return cls.{null}"]))
  ++ ["", s!"{constant}_ENCODED_LENGTH = {e.width}", ""]

/-- The two accessors of a choice. -/
def choiceLines (type : String) (c : NamedChoice) : Lines :=
  [""] ++ block s!"def {c.getter}(self) -> bool" [s!"return bool(self.bits & (1 << {c.bit}))"]
    ++ [""] ++ block s!"def {c.setter}(self, value: bool) -> {type}" (
      block "if value" [s!"self.bits |= 1 << {c.bit}"]
      ++ block "else" [s!"self.bits &= ~(1 << {c.bit})"]
      ++ ["return self"])

def setLines (type : String) (s : SetLayout) (choices : List NamedChoice) : Lines :=
  ["@dataclass"] ++ block s!"class {type}" (
    documented s.description
    ++ [s!"ENCODED_LENGTH = {s.width}", "", "bits: int = 0"]
    ++ choices.flatMap (choiceLines type))
  ++ [""]

/-- Writes a group behind its header. -/
def encodeGroup (g : NamedGroup) : Lines :=
  let d := g.dimension
  ["dim = len(out)",
    s!"out.extend(bytes({d.encodedLength}))",
    writeSlot d.blockLength "dim" s!"{g.body.type}.BLOCK_LENGTH",
    writeSlot d.numInGroup "dim" s!"len(self.{g.member})"]
  ++ block s!"for item in self.{g.member}" ["item.encode_body(out)"]

/-- Writes var-data behind its length. -/
def encodeVarData (d : NamedVarData) : Lines :=
  let length := d.layout.length
  let data :=
    match d.layout.characterEncoding with
    | some encoding => s!"self.{d.member}.encode({quoted encoding})"
    | none => s!"bytes(self.{d.member})"
  [s!"data = {data}",
    s!"out.extend(struct.pack({format length.primitive length.byteOrder}, len(data)))",
    "out.extend(data)"]

def encodeBody (b : NamedBody) (fields : Lines) : Lines :=
  block "def encode_body(self, out: bytearray) -> None" (
    ["offset = len(out)", "out.extend(bytes(self.BLOCK_LENGTH))"]
    ++ (if fields.isEmpty then [] else "buf = out" :: fields)
    ++ b.groups.flatMap encodeGroup ++ b.varData.flatMap encodeVarData)

/-- Reads a group from its header on. -/
def decodeGroup (g : NamedGroup) : Lines :=
  let d := g.dimension
  let path := quoted g.body.path
  let trailer := g.body.layout.trailerLength
  [s!"check_bounds(buf, pos, {d.encodedLength}, {path})",
    "group_block_length = " ++ readSlot d.blockLength "pos",
    "count = " ++ readSlot d.numInGroup "pos",
    s!"pos += {d.encodedLength}",
    s!"check_group(buf, pos, count, group_block_length + {trailer}, {path})"]
  ++ block "for _ in range(count)" [
    s!"item, pos = {g.body.type}.decode_body(buf, pos, group_block_length)",
    s!"value.{g.member}.append(item)"]

/-- Reads var-data from its length on. -/
def decodeVarData (d : NamedVarData) : Lines :=
  let length := d.layout.length
  let path := quoted d.path
  let data := "bytes(buf[pos:pos + length])"
  let value :=
    match d.layout.characterEncoding with
    | some encoding => s!"decode_text({data}, {quoted encoding}, {path})"
    | none => data
  [s!"check_bounds(buf, pos, {length.width}, {path})",
    "length = " ++ read length.primitive length.byteOrder "pos",
    s!"pos += {length.width}",
    s!"check_bounds(buf, pos, length, {path})",
    s!"value.{d.member} = {value}",
    "pos += length"]

def decodeBody (b : NamedBody) (reads : List FieldRead) : Lines :=
  let head := "def decode_body(cls, buf, offset: int, block_length: int)"
  classmethod (head ++ s!" -> tuple[{b.type}, int]") (
    ["\"\"\"Returns the decoded value and the offset just past it.", "",
      "Fields past a shorter block take their null value.", "\"\"\"",
      s!"check_bounds(buf, offset, min(block_length, cls.BLOCK_LENGTH), {quoted b.path})"]
    ++ call "value = cls" (reads.map (·.within))
    ++ ["pos = offset + block_length"]
    ++ b.groups.flatMap decodeGroup ++ b.varData.flatMap decodeVarData
    ++ ["return value, pos"])

/-- The constants that identify a message. -/
def messageConstants (schema : SchemaLayout) (m : MessageLayout) : Lines :=
  [s!"TEMPLATE_ID = {m.id.toInt}",
    s!"SCHEMA_ID = {schema.id.toInt}",
    s!"SCHEMA_VERSION = {schema.version.toInt}"]

/-- Encoding and decoding with the header. -/
def messageEntry (schema : SchemaLayout) (type : String) (m : MessageLayout) : Lines :=
  let h := schema.header
  block "def encode(self) -> bytes" [
    "\"\"\"Encodes the message header followed by the body.\"\"\"",
    s!"out = bytearray({h.encodedLength})",
    writeSlot h.blockLength "" "self.BLOCK_LENGTH",
    writeSlot h.templateId "" "self.TEMPLATE_ID",
    writeSlot h.schemaId "" "self.SCHEMA_ID",
    writeSlot h.version "" "self.SCHEMA_VERSION",
    "self.encode_body(out)",
    "return bytes(out)"]
  ++ [""]
  ++ classmethod s!"def decode(cls, buf) -> {type}" (
    [s!"check_bounds(buf, 0, {h.encodedLength}, {quoted h.composite.typeName})",
      "template_id = " ++ readSlot h.templateId ""]
    ++ block "if template_id != cls.TEMPLATE_ID" [
      s!"raise DecodeError(f\"{m.name} has template id \x7bcls.TEMPLATE_ID\x7d "
        ++ "but the header says \x7btemplate_id\x7d\")"]
    ++ ["block_length = " ++ readSlot h.blockLength "",
      s!"return cls.decode_body(buf, {h.encodedLength}, block_length)[0]"])
  ++ [""]

/-- One body; that of a message has its constants and its entry. -/
def bodyLines (schema : SchemaLayout) (message : Option MessageLayout) (b : NamedBody) : Lines :=
  let code := FieldCode.ofFields b.fields
  let empty (d : NamedVarData) := if d.layout.isText then "str = \"\"" else "bytes = b\"\""
  ["@dataclass"] ++ block s!"class {b.type}" (
    documented (message.bind (·.description))
    ++ [s!"BLOCK_LENGTH = {b.layout.blockLength}"]
    ++ message.elim [] (messageConstants schema)
    ++ code.constants ++ [""]
    ++ code.members
    ++ b.groups.map (fun g => s!"{g.member}: List[{g.body.type}] = field(default_factory=list)")
    ++ b.varData.map (fun d => s!"{d.member}: {empty d}") ++ [""]
    ++ message.elim [] (messageEntry schema b.type)
    ++ encodeBody b code.encode ++ [""]
    ++ decodeBody b code.reads)

def messageLines (schema : SchemaLayout) (m : MessageLayout) (b : NamedBody) : Lines :=
  bodyLines schema (some m) b
    ++ b.nested.flatMap (fun g => "" :: "" :: bodyLines schema none g) ++ [""]

def elementLines (schema : SchemaLayout) : NamedElement → Lines
  | .composite type c members => compositeLines type c members
  | .enumeration type constant e values null => enumLines type constant e values null
  | .set type s choices => setLines type s choices
  | .message m b => messageLines schema m b

/-- What every file imports. -/
def preamble : Lines := [
  banner, "from __future__ import annotations", "", "import enum", "import math", "import struct",
  "from dataclasses import dataclass, field", "from typing import List", "",
  "from .runtime import DecodeError, EncodeError, check_bounds, check_group, decode_text, "
    ++ "read_chars, write_chars"]

def importLine (i : Import) : String := s!"from .{i.file} import {i.type}"

def unitLines (schema : SchemaLayout) (u : SourceUnit) : Lines :=
  preamble ++ u.imports.map importLine ++ ["", ""] ++ elementLines schema u.element

def unitFile (schema : SchemaLayout) (u : SourceUnit) : SourceFile :=
  ⟨u.file ++ ".py", joinLines (unitLines schema u)⟩

def supportLines : Lines := [banner, ""] ++ support ++ [""]

def supportFile : SourceFile := ⟨"runtime.py", joinLines supportLines⟩

/-- Passes on what a file defines. -/
def exportLine (f : SourceFile) : String := s!"from .{f.stem} import *  # noqa: F401,F403"

def indexLines (files : List SourceFile) : Lines := [banner, ""] ++ files.map exportLine ++ [""]

/-- The root of the package, which passes on what every file defines. -/
def indexFile (files : List SourceFile) : SourceFile :=
  ⟨"__init__.py", joinLines (indexLines files)⟩

end SimpleBinary.Python
