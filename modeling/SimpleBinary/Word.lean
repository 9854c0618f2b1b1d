/-!
# Words as bytes

A word of a given width is laid out with its least or its greatest byte first. Both orders are
written through the least-first form, the other being its reverse.
-/

namespace SimpleBinary

/-- The bytes of a message, a block or a text. -/
abbrev Bytes := List UInt8

inductive ByteOrder where
  | littleEndian
  | bigEndian
deriving DecidableEq, Repr, Inhabited

/-- The `width` low bytes of a natural, least first. -/
def lowBytes : (width : Nat) → Nat → Bytes
  | 0, _ => []
  | width + 1, n => UInt8.ofNat (n % 256) :: lowBytes width (n / 256)

/-- The natural whose bytes, least first, these are. -/
def ofLowBytes : Bytes → Nat
  | [] => 0
  | b :: bs => b.toNat + 256 * ofLowBytes bs

theorem length_lowBytes (width n : Nat) : (lowBytes width n).length = width := by
  induction width generalizing n with
  | zero => rfl
  | succ width ih => simp [lowBytes, ih]

namespace ByteOrder

/-- The `width` low bytes of a natural in this order. -/
def bytes (order : ByteOrder) (width n : Nat) : Bytes :=
  match order with
  | .littleEndian => lowBytes width n
  | .bigEndian => (lowBytes width n).reverse

/-- The natural that bytes in this order stand for. -/
def word (order : ByteOrder) (bs : Bytes) : Nat :=
  match order with
  | .littleEndian => ofLowBytes bs
  | .bigEndian => ofLowBytes bs.reverse

theorem length_bytes (order : ByteOrder) (width n : Nat) :
    (order.bytes width n).length = width := by
  cases order <;> simp [bytes, length_lowBytes]

end ByteOrder

/-- The integer that a word of `width` bytes stands for in two's complement. -/
def signedWord (width n : Nat) : Int := (n : Int).bmod (Nat.pow 256 width)

/-- The word of `width` bytes that stands for an integer in two's complement. -/
def wordOfInt (width : Nat) (n : Int) : Nat := (n % Nat.pow 256 width).toNat

end SimpleBinary
