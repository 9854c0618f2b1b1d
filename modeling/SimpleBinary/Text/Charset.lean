import SimpleBinary.Text.Utf8

/-!
# Character encodings

A schema names the encoding of a text. Three are interpreted, under names compared without regard
to the case of ASCII letters; the bytes of a text in any other stay bytes when read and are UTF-8
when written.
-/

namespace SimpleBinary

inductive Charset where
  | ascii
  | latin1
  | utf8
deriving DecidableEq, Repr

namespace Charset

def lower (c : Char) : Char :=
  if 'A' ≤ c ∧ c ≤ 'Z' then Char.ofNat (c.toNat + 32) else c

/-- A name with its ASCII capitals lowered. -/
def fold (name : String) : List Char := name.toList.map lower

def ofName? (name : String) : Option Charset :=
  let n := fold name
  if n = "ascii".toList ∨ n = "us-ascii".toList then some .ascii
  else if n = "iso-8859-1".toList ∨ n = "latin1".toList then some .latin1
  else if n = "utf-8".toList ∨ n = "utf8".toList then some .utf8
  else none

/-- The bytes of characters that all lie below `limit`, one each. -/
def encodeBelow (limit : Nat) (cs : List Char) : Option Bytes :=
  cs.mapM fun c => if c.toNat < limit then some (UInt8.ofNat c.toNat) else none

/-- The characters of bytes that all lie below `limit`, one each. -/
def decodeBelow (limit : Nat) (bs : Bytes) : Option (List Char) :=
  bs.mapM fun b => if b.toNat < limit then some (Char.ofNat b.toNat) else none

/-- The bytes of a text, unless the encoding lacks one of its characters. -/
def encode? (c : Charset) (cs : List Char) : Option Bytes :=
  match c with
  | .ascii => encodeBelow 128 cs
  | .latin1 => encodeBelow 256 cs
  | .utf8 => some (Utf8.encode cs)

/-- The text of bytes, unless they are none of the encoding. -/
def decode? (c : Charset) (bs : Bytes) : Option (List Char) :=
  match c with
  | .ascii => decodeBelow 128 bs
  | .latin1 => decodeBelow 256 bs
  | .utf8 => Utf8.decode? bs

end Charset

end SimpleBinary
