import SimpleBinary.Codec.Message

/-!
# Decoding with the check of some groups only

The decoder once more, with the choice of the groups whose count is checked before their elements are
read: `checks` is asked with the bytes that an element takes at the least, its acting block and its
trailer.  An unchecked group is read element by element, until it is complete or the bytes run out.
-/

namespace SimpleBinary

/-- Reads the header of a group; its count is checked if elements of that length are. -/
def DimensionLayout.decodeChecking (checks : Nat → Bool) (d : DimensionLayout)
    (trailerLength : Nat) (path : String) (c : Cursor) :
    Except CodecError (GroupHeader × Cursor) := do
  let base := c.index
  let (blockLength, c) ← d.blockLength.read base path c
  let (count, c) ← d.numInGroup.read base path c
  let c ← c.seekFor path (base + d.encodedLength)
  let elementLength := max (min (blockLength + trailerLength) (UInt64.size - 1)) 1
  if checks (blockLength + trailerLength) ∧ c.remaining < count * elementLength then
    throw (.groupOverrun path base count blockLength elementLength c.remaining)
  return (⟨blockLength, count⟩, c)

mutual

/-- Reads a body whose block takes `blockLength` bytes. -/
def BodyLayout.decodeChecking (checks : Nat → Bool) : BodyLayout → (blockLength : Nat) →
    (name path : String) → Cursor → Except CodecError (Value × Cursor)
  | ⟨_, fields, groups, varData⟩, blockLength, name, path, c => do
    let base := c.index
    let (acc, c) ← decodeFields (some blockLength) base path [] c fields
    let c ← c.seekFor path (base + blockLength)
    let (acc, c) ← decodeGroupsChecking checks groups path acc c
    let (acc, c) ← decodeVarData path acc c varData
    return (.object name acc, c)

def decodeGroupsChecking (checks : Nat → Bool) : List GroupLayout → (path : String) → Fields →
    Cursor → Except CodecError (Fields × Cursor)
  | [], _, acc, c => .ok (acc, c)
  | ⟨name, _, _, dimension, body, _⟩ :: groups, path, acc, c => do
    let own := childPath path name
    let (header, c) ← dimension.decodeChecking checks body.trailerLength own c
    let (elements, c) ←
      decodeItems (fun path c => body.decodeChecking checks header.blockLength name path c) own
        header.count 0 c
    decodeGroupsChecking checks groups path (insertField name (.array elements) acc) c

end

namespace MessageCodec

variable (m : MessageCodec)

/-- The value of bytes of a body whose block takes `blockLength` of them. -/
def decodeBodyChecking (checks : Nat → Bool) (bs : Bytes) (blockLength : Nat) :
    Except CodecError Value :=
  (m.message.body.decodeChecking checks blockLength m.message.name m.message.name ⟨bs, 0⟩).map (·.1)

/-- The same without a check of any group whose elements take a byte at least. -/
def decodeBodyUnchecked : Bytes → (blockLength : Nat) → Except CodecError Value :=
  m.decodeBodyChecking (· == 0)

end MessageCodec

end SimpleBinary
