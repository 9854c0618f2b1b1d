import SimpleBinary.Number

/-!
# Reading bytes

A cursor is a place in a run of bytes. Reads take what lies there and move past it; one that would
run past the end leaves the cursor where it is and says what it wanted.
-/

namespace SimpleBinary

structure Cursor where
  data : Bytes
  index : Nat := 0
deriving DecidableEq, Repr

/-- A read past the end: where, how many bytes, and how many there are in all. -/
structure Underflow where
  offset : Nat
  needed : Nat
  length : Nat
deriving DecidableEq, Repr

namespace Cursor

def remaining (c : Cursor) : Nat := c.data.length - c.index

/-- Moves to a place, the very end included. -/
def seek (c : Cursor) (index : Nat) : Except Underflow Cursor :=
  if c.data.length < index then .error ⟨c.index, index - c.index, c.data.length⟩
  else .ok { c with index }

def readBytes (c : Cursor) (n : Nat) : Except Underflow (Bytes × Cursor) :=
  if c.data.length < c.index + n then .error ⟨c.index, n, c.data.length⟩
  else .ok ((c.data.drop c.index).take n, { c with index := c.index + n })

/-- Reads one element of a primitive type. -/
def readNumber (c : Cursor) (p : Primitive) (order : ByteOrder) :
    Except Underflow (Number × Cursor) :=
  (c.readBytes p.size).map fun (bs, c) => (Number.ofWord p (order.word bs), c)

/-- Reads one element as a literal. -/
def readLiteral (c : Cursor) (p : Primitive) (order : ByteOrder) :
    Except Underflow (Literal × Cursor) :=
  (c.readNumber p order).map fun (n, c) => (n.literal, c)

/-- Reads a length or a count; an element that is none is passed over all the same. -/
def readNat? (c : Cursor) (p : Primitive) (order : ByteOrder) :
    Except Underflow (Option Nat × Cursor) :=
  (c.readLiteral p order).map fun (l, c) => (l.toNat?, c)

end Cursor

end SimpleBinary
