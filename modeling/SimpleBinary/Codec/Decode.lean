import SimpleBinary.Buffer.Cursor
import SimpleBinary.Codec.Text
import SimpleBinary.Layout.Basic
import SimpleBinary.Path
import SimpleBinary.Value

/-!
# Decoding values

A body is read with the block length its sender used: fields that lie within it are read, the
others left out, and the groups and var-data follow where that block ends. A group says how many
elements it has; before any is read, as many bytes have to be left as they take at the least.
-/

namespace SimpleBinary

/-- The error of a read past the end, for the element at `path`. -/
def Underflow.at (path : String) (u : Underflow) : CodecError :=
  .outOfBounds path u.offset u.needed u.length

namespace Cursor

/-- A move on behalf of an element. -/
def seekFor (c : Cursor) (path : String) (index : Nat) : Except CodecError Cursor :=
  (c.seek index).mapError (Underflow.at path)

/-- Reads the element at a place. -/
def literalAt (c : Cursor) (path : String) (pos : Nat) (p : Primitive) (order : ByteOrder) :
    Except CodecError (Literal × Cursor) := do
  let c ← c.seekFor path pos
  (c.readLiteral p order).mapError (Underflow.at path)

end Cursor

/-- Reads a slot of the header at `base`. -/
def HeaderSlot.read (s : HeaderSlot) (base : Nat) (path : String) (c : Cursor) :
    Except CodecError (Nat × Cursor) := do
  let (l, c) ← c.literalAt path (base + s.offset) s.primitive s.byteOrder
  match l.toNat? with
  | some n => return (n, c)
  | none => throw (.typeMismatch path .length)

namespace PrimitiveLayout

/-- Reads `count` items of an array from `pos` on, the first of them item `index`. -/
def readItems (p : PrimitiveLayout) (path : String) : (count index pos : Nat) → Cursor →
    Except CodecError (List Value × Cursor)
  | 0, _, _, c => .ok ([], c)
  | count + 1, index, pos, c => do
    let (l, c) ← c.literalAt (itemPath path index) pos p.primitive p.byteOrder
    let (vs, c) ← p.readItems path count (index + 1) (pos + p.primitive.size) c
    return (Value.ofLiteral l :: vs, c)

/-- Reads a text up to its first zero byte. -/
def readText (p : PrimitiveLayout) (pos : Nat) (path : String) (c : Cursor) :
    Except CodecError (Value × Cursor) := do
  let c ← c.seekFor path pos
  let (raw, c) ← (c.readBytes p.arrayLength).mapError (Underflow.at path)
  let used := raw.takeWhile (· != 0)
  match ← decodeText path (p.characterEncoding.getD "US-ASCII") used with
  | some s => return (.text s, c)
  | none => return (.bytes used, c)

/-- Reads an element; the null value of an optional one is no value. -/
def readScalar (p : PrimitiveLayout) (pos : Nat) (path : String) (c : Cursor) :
    Except CodecError (Option Value × Cursor) := do
  let (l, c) ← c.literalAt path pos p.primitive p.byteOrder
  return (if p.isOptional && l.agrees p.nullValue then none else some (.ofLiteral l), c)

/-- The value of a constant. -/
def constant? (p : PrimitiveLayout) : Option Literal :=
  if p.isConstant then p.constValue else none

def decode (p : PrimitiveLayout) (pos : Nat) (path : String) (c : Cursor) :
    Except CodecError (Option Value × Cursor) :=
  match p.constant? with
  | some l => .ok (some (.ofLiteral l), c)
  | none =>
    if p.isText then (p.readText pos path c).map fun (v, c) => (some v, c)
    else if p.isArray then
      (p.readItems path p.arrayLength 0 pos c).map fun (vs, c) => (some (.array vs), c)
    else p.readScalar pos path c

end PrimitiveLayout

/-- Reads an enum's value; the null value has a name of its own. -/
def EnumLayout.decode (e : EnumLayout) (pos : Nat) (path : String) (c : Cursor) :
    Except CodecError (Value × Cursor) := do
  let (raw, c) ← c.literalAt path pos e.encoding e.byteOrder
  match e.byValue? raw with
  | some v => return (.enumeration e.typeName v.name, c)
  | none =>
    if raw.agrees e.nullValue then return (.enumeration e.typeName nullName, c)
    else throw (.unknownEnumValue path e.typeName raw.text)

/-- The choices whose bits are set. -/
def SetLayout.choicesOf (s : SetLayout) (bits : Nat) : List String :=
  (s.choices.filter fun c => bits.testBit c.bit).map (·.name)

/-- Reads a set; an encoding that is no natural has no bits. -/
def SetLayout.decode (s : SetLayout) (pos : Nat) (path : String) (c : Cursor) :
    Except CodecError (Value × Cursor) := do
  let (raw, c) ← c.literalAt path pos s.encoding s.byteOrder
  return (.set s.typeName (s.choicesOf (raw.toNat?.getD 0)), c)

/-- The fields of an object under construction. -/
abbrev Fields := List (String × Value)

/-- Whether a field of a kind at an offset ends within `limit`; a constant takes no place. -/
def FieldKind.isWithin (limit : Option Nat) (offset : Nat) (k : FieldKind) : Bool :=
  k.isConstant || limit.all (offset + k.width ≤ ·)

mutual

/-- Reads the value of a field. -/
def FieldKind.decode (pos : Nat) (path : String) (c : Cursor) :
    FieldKind → Except CodecError (Option Value × Cursor)
  | .primitive p => p.decode pos path c
  | .composite ⟨typeName, _, members, _⟩ => do
    let (fields, c) ← decodeFields none pos path [] c members
    return (some (.object typeName fields), c)
  | .enumeration e => (e.decode pos path c).map fun (v, c) => (some v, c)
  | .set s => (s.decode pos path c).map fun (v, c) => (some v, c)

/-- Reads the fields of a block at `base`, those that lie within its first `limit` bytes. -/
def decodeFields (limit : Option Nat) (base : Nat) (path : String) (acc : Fields) (c : Cursor) :
    List FieldLayout → Except CodecError (Fields × Cursor)
  | [] => .ok (acc, c)
  | ⟨name, _, _, offset, _, kind⟩ :: fields =>
    if kind.isWithin limit offset then do
      let (v, c) ← kind.decode (base + offset) (childPath path name) c
      match v with
      | some v => decodeFields limit base path (insertField name v acc) c fields
      | none => decodeFields limit base path acc c fields
    else decodeFields limit base path acc c fields

end

/-- Reads var-data. -/
def VarDataLayout.decode (d : VarDataLayout) (path : String) (c : Cursor) :
    Except CodecError (Value × Cursor) := do
  let base := c.index
  let (length, c) ← d.length.read base path c
  let c ← c.seekFor path (base + d.headerLength)
  let (payload, c) ← (c.readBytes length).mapError (Underflow.at path)
  match d.characterEncoding with
  | none => return (.bytes payload, c)
  | some encoding =>
    match ← decodeText path encoding payload with
    | some s => return (.text s, c)
    | none => return (.bytes payload, c)

def decodeVarData (path : String) (acc : Fields) (c : Cursor) :
    List VarDataLayout → Except CodecError (Fields × Cursor)
  | [] => .ok (acc, c)
  | d :: ds => do
    let (v, c) ← d.decode (childPath path d.name) c
    decodeVarData path (insertField d.name v acc) c ds

/-- A group's header as it was read. -/
structure GroupHeader where
  blockLength : Nat
  count : Nat

/-- Reads the header of a group and checks that its elements can be there. An element takes its
block and the headers of its own groups and var-data, and at least one byte is asked for each. -/
def DimensionLayout.decode (d : DimensionLayout) (trailerLength : Nat) (path : String)
    (c : Cursor) : Except CodecError (GroupHeader × Cursor) := do
  let base := c.index
  let (blockLength, c) ← d.blockLength.read base path c
  let (count, c) ← d.numInGroup.read base path c
  let c ← c.seekFor path (base + d.encodedLength)
  let elementLength := max (min (blockLength + trailerLength) (UInt64.size - 1)) 1
  if c.remaining < count * elementLength then
    throw (.groupOverrun path base count blockLength elementLength c.remaining)
  return (⟨blockLength, count⟩, c)

/-- Reads `count` elements in turn, the first of them element `index`. -/
def decodeItems (decode : String → Cursor → Except CodecError (Value × Cursor)) (path : String) :
    (count index : Nat) → Cursor → Except CodecError (List Value × Cursor)
  | 0, _, c => .ok ([], c)
  | count + 1, index, c => do
    let (v, c) ← decode (itemPath path index) c
    let (vs, c) ← decodeItems decode path count (index + 1) c
    return (v :: vs, c)

mutual

/-- Reads a body whose block takes `blockLength` bytes. -/
def BodyLayout.decode : BodyLayout → (blockLength : Nat) → (name path : String) → Cursor →
    Except CodecError (Value × Cursor)
  | ⟨_, fields, groups, varData⟩, blockLength, name, path, c => do
    let base := c.index
    let (acc, c) ← decodeFields (some blockLength) base path [] c fields
    let c ← c.seekFor path (base + blockLength)
    let (acc, c) ← decodeGroups groups path acc c
    let (acc, c) ← decodeVarData path acc c varData
    return (.object name acc, c)

def decodeGroups : List GroupLayout → (path : String) → Fields → Cursor →
    Except CodecError (Fields × Cursor)
  | [], _, acc, c => .ok (acc, c)
  | ⟨name, _, _, dimension, body, _⟩ :: groups, path, acc, c => do
    let own := childPath path name
    let (header, c) ← dimension.decode body.trailerLength own c
    let (elements, c) ←
      decodeItems (fun path c => body.decode header.blockLength name path c) own header.count 0 c
    decodeGroups groups path (insertField name (.array elements) acc) c

end

end SimpleBinary
