import SimpleBinary.Buffer.Image

/-!
# Writing to a buffer that is kept

The writes of an image as steps on a buffer that is there whether they succeed or not.  The bits of
an element are taken in 64 bits, of which its slot gets the low bytes: at one go in the order with
the least byte first, one by one from the last in the other.  An element is appended by reserving
its slot, and the slot is given up again if the element does not fit.
-/

namespace SimpleBinary

/-- The 64 bits of a literal as an element, unless it has another shape or lies outside the range. -/
def Primitive.bits? (p : Primitive) (l : Literal) : Option UInt64 :=
  match p.kind with
  | .char | .unsigned => do
    let n ← l.toNat?
    if p.maxUnsigned < n then none else some (UInt64.ofNat n)
  | .signed => do
    let n ← l.toInt?
    if n < p.minSigned ∨ p.maxSigned < n then none else some (Int64.ofInt n).toUInt64
  | .float => do
    let x ← l.toFloat?
    some (if p = .float then x.narrow.bits.toUInt64 else x.bits)

/-- Fills a slot with the low bytes of 64 bits. -/
def fillSlot (order : ByteOrder) (size pos : Nat) (bits : UInt64) (buffer : Bytes) : Bytes :=
  let low := lowBytes 8 bits.toNat
  match order with
  | .littleEndian => overwrite pos (low.take size) buffer
  | .bigEndian =>
    (List.range size).foldl (fun buffer i => buffer.set (pos + i) (low.getD (size - 1 - i) 0)) buffer

/-- Puts an element at a place: whether it fits there, and the buffer afterwards. -/
def putInPlace (pos : Nat) (p : Primitive) (order : ByteOrder) (l : Literal) (buffer : Bytes) :
    Bool × Bytes :=
  if buffer.length < pos + p.size then (false, buffer)
  else
    match p.bits? l with
    | none => (false, buffer)
    | some bits => (true, fillSlot order p.size pos bits buffer)

/-- Appends an element: whether it fits its type, and the buffer afterwards. -/
def pushInPlace (p : Primitive) (order : ByteOrder) (l : Literal) (buffer : Bytes) :
    Bool × Bytes :=
  let start := buffer.length
  let (fits, after) := putInPlace start p order l (padTo (start + p.size) buffer)
  (fits, if fits then after else after.take start)

end SimpleBinary
