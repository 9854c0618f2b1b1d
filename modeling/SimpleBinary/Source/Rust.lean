import SimpleBinary.Source.Names
import SimpleBinary.Source.Number
import SimpleBinary.Source.RustSupport
import SimpleBinary.Text.Quoted

/-!
# Rust sources

A type is written as a struct or an enum with functions over byte slices. A field of a body is read
only where the sender's block reaches its end, and is null otherwise; what follows the block is
found from the block's length and not from the fields.
-/

namespace SimpleBinary.Rust

def banner : String := "// Generated SBE (Simple Binary Encoding) codec. Do not edit."

/-- The type of one element. -/
def typeName : Primitive → String
  | .char | .uint8 => "u8"
  | .int8 => "i8"
  | .int16 => "i16"
  | .int32 => "i32"
  | .int64 => "i64"
  | .uint16 => "u16"
  | .uint32 => "u32"
  | .uint64 => "u64"
  | .float => "f32"
  | .double => "f64"

def endian : ByteOrder → String
  | .littleEndian => "le"
  | .bigEndian => "be"

def number (v : Literal) (p : Primitive) : String :=
  let type := typeName p
  v.sourceNumber ⟨s!"{type}::NAN", s!"{type}::INFINITY", s!"{type}::NEG_INFINITY", "0.0"⟩ p

def byteSlice (v : Literal) : String :=
  "&[" ++ String.intercalate ", " (v.sourceBytes.map toString) ++ "]"

/-- A block of code. -/
def block (head : String) (body : Lines) : Lines := Lines.braced 4 head body ""

/-- A block that is a value of a list or a statement. -/
def item (head : String) (body : Lines) (mark : String) : Lines := Lines.braced 4 head body mark

def rangeText (base : String) (offset length : Nat) : String :=
  s!"{placeText base offset}..{placeText base (offset + length)}"

/-- Reads one element at a place. -/
def readNumber (p : Primitive) (order : ByteOrder) (place path : String) : String :=
  s!"{typeName p}::from_{endian order}_bytes(read(buf, {place}, {quoted path})?)"

/-- Writes one element at a place. -/
def writeNumber (p : Primitive) (order : ByteOrder) (base : String) (offset : Nat)
    (value : String) : String :=
  s!"buf[{rangeText base offset p.size}].copy_from_slice(&{value}.to_{endian order}_bytes());"

def readSlot (s : HeaderSlot) (base path : String) : String :=
  readNumber s.primitive s.byteOrder (placeText base s.offset) path

def writeSlot (s : HeaderSlot) (base value : String) : String :=
  writeNumber s.primitive s.byteOrder base s.offset value

/-- How a field is read, and its value where the sender's block ends before the field does. -/
structure FieldRead where
  member : String
  stop : Nat
  read : Lines
  null : String

namespace FieldRead

/-- Reads a field that is there. -/
def always (f : FieldRead) : Lines := f.read.enclose (f.member ++ ": ") ","

/-- Reads a field that may lie past the block. -/
def within (f : FieldRead) : Lines :=
  s!"{f.member}: if block_length >= {f.stop} \x7b" :: f.read.indent 4
    ++ item "\x7d else" [f.null] ","

def asNull (f : FieldRead) : String := s!"{f.member}: {f.null},"

end FieldRead

/-- What a field adds to its struct. -/
structure FieldCode where
  members : Lines
  constants : Lines
  encode : Lines
  reads : List FieldRead

namespace FieldCode

def none : FieldCode := ⟨[], [], [], []⟩

def append (a b : FieldCode) : FieldCode :=
  ⟨a.members ++ b.members, a.constants ++ b.constants, a.encode ++ b.encode, a.reads ++ b.reads⟩

/-- A constant, which is not in the block. -/
def ofConstant (p : PrimitiveLayout) (constant : String) : FieldCode :=
  let v := p.constValue.getD (.uint 0)
  let line :=
    if p.isArray || v.isLong then s!"pub const {constant}: &'static [u8] = {byteSlice v};"
    else s!"pub const {constant}: {typeName p.primitive} = {number v p.primitive};"
  ⟨[], [line], [], []⟩

/-- An array of elements wider than a byte, each at a place of its own. -/
def ofItems (f : NamedField) (p : PrimitiveLayout) (path : String) : FieldCode :=
  let type := typeName p.primitive
  let size := p.primitive.size
  let place := placeText "offset" f.offset ++ s!" + i * {size}"
  let element := readNumber p.primitive p.byteOrder place path
  { members := [s!"pub {f.member}: [{type}; {p.arrayLength}],"]
    constants := []
    encode := block s!"for (i, item) in self.{f.member}.iter().enumerate()" [
      s!"let at = {place};",
      s!"buf[at..at + {size}].copy_from_slice(&item.to_{endian p.byteOrder}_bytes());"]
    reads := [⟨f.member, f.stop,
      "\x7b" :: Lines.indent 4 (
        s!"let mut items = [{type}::default(); {p.arrayLength}];" ::
        block "for (i, item) in items.iter_mut().enumerate()" [s!"*item = {element};"]
          ++ ["items"]) ++ ["\x7d"],
      s!"[{number p.nullValue p.primitive}; {p.arrayLength}]"⟩] }

/-- An array of bytes, copied whole. -/
def ofBytes (f : NamedField) (p : PrimitiveLayout) (path : String) : FieldCode :=
  let place := placeText "offset" f.offset
  let range := rangeText "offset" f.offset p.arrayLength
  { members := [s!"pub {f.member}: [u8; {p.arrayLength}],"]
    constants := []
    encode := [s!"buf[{range}].copy_from_slice(&self.{f.member});"]
    reads := [⟨f.member, f.stop,
      [s!"read(buf, {place}, {quoted path})?"],
      s!"[{number p.nullValue p.primitive}; {p.arrayLength}]"⟩] }

/-- A single element, by the type that holds it and the ways from and to its number. -/
def ofNumber (f : NamedField) (p : Primitive) (order : ByteOrder) (path type : String)
    (value : String) (read : String → String) (null : String) : FieldCode :=
  { members := [s!"pub {f.member}: {type},"]
    constants := []
    encode := [writeNumber p order "offset" f.offset value]
    reads := [⟨f.member, f.stop,
      [read (readNumber p order (placeText "offset" f.offset) path)], null⟩] }

def ofPrimitive (f : NamedField) (p : PrimitiveLayout) (constant path : String) : FieldCode :=
  if p.isConstant then ofConstant p constant
  else
    let type := typeName p.primitive
    let null := number p.nullValue p.primitive
    let code :=
      if !p.isArray then
        ofNumber f p.primitive p.byteOrder path type s!"self.{f.member}" (fun r => r) null
      else if type = "u8" then ofBytes f p path
      else ofItems f p path
    if p.isOptional then
      append ⟨[], [s!"pub const {constant}_NULL_VALUE: {type} = {null};"], [], []⟩ code
    else code

/-- The code of a field of the element at `owner`. -/
def ofField (owner : String) (f : NamedField) : FieldCode :=
  let path := childPath owner f.raw
  match f.kind with
  | .primitive p constant => ofPrimitive f p constant path
  | .composite type =>
    let place := placeText "offset" f.offset
    { members := [s!"pub {f.member}: {type},"]
      constants := []
      encode := [s!"self.{f.member}.encode(buf, {place});"]
      reads := [⟨f.member, f.stop, [s!"{type}::decode(buf, {place})?"], s!"{type}::null()"⟩] }
  | .enumeration e type _ =>
    ofNumber f e.encoding e.byteOrder path type s!"self.{f.member}.to_raw()"
      (fun r => s!"{type}::from_raw({r})") s!"{type}::default()"
  | .set s type =>
    ofNumber f s.encoding s.byteOrder path type s!"self.{f.member}.0"
      (fun r => s!"{type}({r})") s!"{type}::default()"

def ofFields (owner : String) (fields : List NamedField) : FieldCode :=
  (fields.map (ofField owner)).foldr append none

end FieldCode

def documented (description : Option String) : Lines :=
  lineIf description fun d => s!"/// {d}"

def compositeLines (type : String) (c : CompositeLayout) (members : List NamedField) : Lines :=
  let code := FieldCode.ofFields c.typeName members
  documented c.description
    ++ ["#[derive(Debug, Clone, Copy, PartialEq)]"]
    ++ block s!"pub struct {type}" code.members ++ [""]
    ++ block s!"impl {type}" (
      [s!"pub const ENCODED_LENGTH: usize = {c.encodedLength};"] ++ code.constants ++ [""]
      ++ ["/// Writes into `buf[offset..offset + ENCODED_LENGTH]`."]
      ++ block "pub fn encode(&self, buf: &mut [u8], offset: usize)" code.encode ++ [""]
      ++ block "pub fn decode(buf: &[u8], offset: usize) -> Result<Self, DecodeError>"
        (item "Ok(Self" (code.reads.flatMap (·.always)) ")") ++ [""]
      ++ ["/// Every member at its null value."]
      ++ block "pub fn null() -> Self" (block "Self" (code.reads.map (·.asNull))))
    ++ [""]

def enumLines (type : String) (e : EnumLayout) (values : List (String × Literal))
    (null : String) : Lines :=
  let raw := typeName e.encoding
  documented e.description
    ++ ["#[derive(Debug, Clone, Copy, PartialEq, Eq, Hash, Default)]"]
    ++ block s!"pub enum {type}" (
      values.map (fun v => s!"{v.1},")
      ++ ["/// The null value, or a value this schema version doesn't know.", "#[default]",
        s!"{null},"]) ++ [""]
    ++ block s!"impl {type}" (
      [s!"pub const ENCODED_LENGTH: usize = {e.width};",
        s!"pub const NULL_VALUE: {raw} = {number e.nullValue e.encoding};", ""]
      ++ block s!"pub fn from_raw(raw: {raw}) -> Self" (block "match raw" (
        values.map (fun v => s!"{number v.2 e.encoding} => Self::{v.1},")
        ++ [s!"_ => Self::{null},"])) ++ [""]
      ++ block s!"pub fn to_raw(self) -> {raw}" (block "match self" (
        values.map (fun v => s!"Self::{v.1} => {number v.2 e.encoding},")
        ++ [s!"Self::{null} => Self::NULL_VALUE,"])))
    ++ [""]

/-- The two accessors of a choice. -/
def choiceLines (c : NamedChoice) : Lines :=
  [""] ++ block s!"pub fn {c.getter}(self) -> bool" [s!"self.0 & (1 << {c.bit}) != 0"]
    ++ [""] ++ block s!"pub fn {c.setter}(&mut self, value: bool) -> &mut Self" (
      "if value \x7b" :: Lines.indent 4 [s!"self.0 |= 1 << {c.bit};"]
        ++ block "\x7d else" [s!"self.0 &= !(1 << {c.bit});"] ++ ["self"])

def setLines (type : String) (s : SetLayout) (choices : List NamedChoice) : Lines :=
  documented s.description
    ++ ["#[derive(Debug, Clone, Copy, PartialEq, Eq, Hash, Default)]",
      s!"pub struct {type}(pub {typeName s.encoding});", ""]
    ++ block s!"impl {type}" (
      s!"pub const ENCODED_LENGTH: usize = {s.width};" :: choices.flatMap choiceLines)
    ++ [""]

/-- Writes a group behind its header. -/
def encodeGroup (g : NamedGroup) : Lines :=
  let d := g.dimension
  let count := typeName d.numInGroup.primitive
  let length := s!"({g.body.type}::BLOCK_LENGTH as {typeName d.blockLength.primitive})"
  ["", s!"let count = checked_len::<{count}>(self.{g.member}.len(), {count}::MAX as u64, "
      ++ s!"{quoted g.body.path})?;",
    "let dim = out.len();",
    s!"out.resize(dim + {d.encodedLength}, 0);",
    "let buf = &mut out[..];",
    writeSlot d.blockLength "dim" length,
    writeSlot d.numInGroup "dim" "count"]
    ++ block s!"for item in &self.{g.member}" ["item.encode_body(out)?;"]

/-- Writes var-data behind its length. -/
def encodeVarData (d : NamedVarData) : Lines :=
  let length := typeName d.layout.length.primitive
  let order := endian d.layout.length.byteOrder
  let bytes := if d.layout.isText then s!"self.{d.member}.as_bytes()" else s!"&self.{d.member}"
  ["", s!"let len = checked_len::<{length}>(self.{d.member}.len(), {length}::MAX as u64, "
      ++ s!"{quoted d.path})?;",
    s!"out.extend_from_slice(&len.to_{order}_bytes());",
    s!"out.extend_from_slice({bytes});"]

def encodeBody (b : NamedBody) (fields : Lines) : Lines :=
  "/// Appends the fixed block, padded to `BLOCK_LENGTH`, then groups and var-data." ::
  block "pub fn encode_body(&self, out: &mut Vec<u8>) -> Result<(), EncodeError>" (
    ["let offset = out.len();", "out.resize(offset + Self::BLOCK_LENGTH, 0);"]
    ++ (if fields.isEmpty then [] else "let buf = &mut out[..];" :: fields)
    ++ b.groups.flatMap encodeGroup ++ b.varData.flatMap encodeVarData ++ ["Ok(())"])

/-- Reads a group from its header on. -/
def decodeGroup (g : NamedGroup) : Lines :=
  let d := g.dimension
  let path := g.body.path
  let blockLength := readSlot d.blockLength "pos" path
  let count := readSlot d.numInGroup "pos" path
  ["", s!"let group_block_length = {blockLength} as usize;",
    s!"let count = {count} as usize;",
    s!"pos += {d.encodedLength};",
    s!"check_group(buf, pos, count, group_block_length.saturating_add("
      ++ s!"{g.body.layout.trailerLength}), {quoted path})?;",
    s!"decoded.{g.member}.reserve(count);"]
    ++ block "for _ in 0..count" [
      s!"let (item, next) = {g.body.type}::decode_body(buf, pos, group_block_length)?;",
      s!"decoded.{g.member}.push(item);",
      "pos = next;"]

/-- Reads var-data from its length on. -/
def decodeVarData (d : NamedVarData) : Lines :=
  let length := d.layout.length
  let path := quoted d.path
  let read := readNumber length.primitive length.byteOrder "pos" d.path
  let value :=
    if d.layout.isText then s!"text(slice(buf, pos, len, {path})?, {path})?"
    else s!"slice(buf, pos, len, {path})?.to_vec()"
  ["", s!"let len = {read} as usize;",
    s!"pos += {length.width};",
    s!"decoded.{d.member} = {value};",
    "pos += len;"]

def decodeBody (b : NamedBody) (reads : List FieldRead) : Lines :=
  let mutable := if b.layout.isFixed then "" else "mut "
  let empty (d : NamedVarData) := if d.layout.isText then "String::new()" else "Vec::new()"
  ["/// Decodes one body at `offset`. Fields start at `offset` and whatever follows",
    "/// them starts at `offset + block_length`, so senders with a longer block are",
    "/// skipped over. Fields past a shorter block take their null value. Returns the",
    "/// decoded value and the offset just past it."]
    ++ block ("pub fn decode_body(buf: &[u8], offset: usize, block_length: usize) "
        ++ "-> Result<(Self, usize), DecodeError>") (
      item s!"let {mutable}decoded = Self" (
        reads.flatMap (·.within)
        ++ b.groups.map (fun g => s!"{g.member}: Vec::new(),")
        ++ b.varData.map (fun d => s!"{d.member}: {empty d},")) ";"
      ++ [s!"let {mutable}pos = offset + block_length;"]
      ++ b.groups.flatMap decodeGroup ++ b.varData.flatMap decodeVarData
      ++ ["Ok((decoded, pos))"])

/-- The constants that identify a message. -/
def messageConstants (schema : SchemaLayout) (m : MessageLayout) : Lines :=
  let h := schema.header
  [s!"pub const TEMPLATE_ID: {typeName h.templateId.primitive} = {m.id.toInt};",
    s!"pub const SCHEMA_ID: {typeName h.schemaId.primitive} = {schema.id.toInt};",
    s!"pub const SCHEMA_VERSION: {typeName h.version.primitive} = {schema.version.toInt};"]

/-- Encoding and decoding with the header. -/
def messageEntry (schema : SchemaLayout) (m : MessageLayout) : Lines :=
  let h := schema.header
  let path := childPath h.composite.typeName
  let length := s!"(Self::BLOCK_LENGTH as {typeName h.blockLength.primitive})"
  let templateId := readSlot h.templateId "" (path "templateId")
  let blockLength := readSlot h.blockLength "" (path "blockLength")
  ["/// Encodes the message header followed by the body."]
    ++ block "pub fn encode(&self) -> Result<Vec<u8>, EncodeError>" [
      s!"let mut out = vec![0u8; {h.encodedLength}];",
      "let buf = &mut out[..];",
      writeSlot h.blockLength "" length,
      writeSlot h.templateId "" "Self::TEMPLATE_ID",
      writeSlot h.schemaId "" "Self::SCHEMA_ID",
      writeSlot h.version "" "Self::SCHEMA_VERSION",
      "self.encode_body(&mut out)?;",
      "Ok(out)"] ++ [""]
    ++ ["/// Decodes a message header and body. The body is read with the block length",
      "/// from the header, not `BLOCK_LENGTH`."]
    ++ block "pub fn decode(buf: &[u8]) -> Result<Self, DecodeError>" (
      [s!"let template_id = {templateId};"]
      ++ block "if template_id != Self::TEMPLATE_ID" (
        item "return Err(DecodeError::TemplateMismatch" [
          s!"message: {quoted m.name},",
          "expected: Self::TEMPLATE_ID as u64,",
          "found: template_id as u64,"] ");")
      ++ [s!"let block_length = {blockLength} as usize;",
        s!"Self::decode_body(buf, {h.encodedLength}, block_length).map(|(message, _)| message)"])
    ++ [""]

/-- One body; that of a message has its constants and its entry. -/
def bodyLines (schema : SchemaLayout) (message : Option MessageLayout) (b : NamedBody) : Lines :=
  let code := FieldCode.ofFields b.path b.fields
  let type (d : NamedVarData) := if d.layout.isText then "String" else "Vec<u8>"
  let about := (message.bind (·.description)).getD s!"`{b.path}`"
  [s!"/// {about}", "#[derive(Debug, Clone, PartialEq)]"]
    ++ block s!"pub struct {b.type}" (
      code.members
      ++ b.groups.map (fun g => s!"pub {g.member}: Vec<{g.body.type}>,")
      ++ b.varData.map (fun d => s!"pub {d.member}: {type d},")) ++ [""]
    ++ block s!"impl {b.type}" (
      [s!"pub const BLOCK_LENGTH: usize = {b.layout.blockLength};"]
      ++ message.elim [] (messageConstants schema)
      ++ code.constants ++ [""]
      ++ message.elim [] (messageEntry schema)
      ++ encodeBody b code.encode ++ [""]
      ++ decodeBody b code.reads)

def messageLines (schema : SchemaLayout) (m : MessageLayout) (b : NamedBody) : Lines :=
  bodyLines schema (some m) b ++ b.nested.flatMap (fun g => "" :: bodyLines schema none g) ++ [""]

def elementLines (schema : SchemaLayout) : NamedElement → Lines
  | .composite type c members => compositeLines type c members
  | .enumeration type _ e values null => enumLines type e values null
  | .set type s choices => setLines type s choices
  | .message m b => messageLines schema m b

def unitLines (schema : SchemaLayout) (u : SourceUnit) : Lines :=
  [banner, "#![allow(unused_imports, unused_variables, unused_mut, clippy::all)]", "",
    "use super::*;", ""] ++ elementLines schema u.element

def unitFile (schema : SchemaLayout) (u : SourceUnit) : SourceFile :=
  ⟨u.file ++ ".rs", joinLines (unitLines schema u)⟩

def indexLines (schema : SchemaLayout) (files : List SourceFile) : Lines :=
  let package := (schema.package.map fun p => s!" ({p})").getD ""
  [s!"//! Generated SBE codecs for schema {schema.id.toInt} version {schema.version.toInt}"
      ++ s!"{package}. Do not edit.", ""]
    ++ files.map (fun f => s!"pub mod {f.stem};") ++ [""]
    ++ files.map (fun f => s!"pub use {f.stem}::*;") ++ [""]
    ++ support

/-- The root of the package, which declares every file and holds what they rely on. -/
def indexFile (schema : SchemaLayout) (files : List SourceFile) : SourceFile :=
  ⟨"mod.rs", joinLines (indexLines schema files)⟩

/-- The files of a package in one: a module for each file, then the root without its
declarations. -/
def singleFile (files : List SourceFile) : String :=
  let modules := files.filter (·.name != "mod.rs")
  let root := (files.find? (·.name == "mod.rs")).map fun f =>
    (textLines f.contents).filter fun l => !l.startsWith "//!" && !l.startsWith "pub mod "
  joinLines (
    [banner, ""]
    ++ modules.flatMap (fun f =>
      [s!"pub mod {f.stem} \x7b"] ++ textLines f.contents ++ ["\x7d", ""])
    ++ root.getD [])

end SimpleBinary.Rust
