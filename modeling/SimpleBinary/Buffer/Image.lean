import SimpleBinary.Number

/-!
# Writing bytes

The image of a message grows at its end: a block is reserved as zeros and its elements are put in
their places, everything else is appended.
-/

namespace SimpleBinary

/-- Fills up with zeros to a length; nothing happens to an image that is as long. -/
def padTo (length : Nat) (image : Bytes) : Bytes :=
  image ++ List.replicate (length - image.length) 0

/-- Puts bytes over those at a place. -/
def overwrite (pos : Nat) (bs image : Bytes) : Bytes :=
  image.take pos ++ bs ++ image.drop (pos + bs.length)

/-- Puts an element at a place, unless it reaches past the end or does not fit its type. -/
def putElement? (pos : Nat) (p : Primitive) (order : ByteOrder) (l : Literal) (image : Bytes) :
    Option Bytes :=
  if image.length < pos + p.size then none
  else (p.encode? order l).map fun bs => overwrite pos bs image

/-- Appends an element, unless it does not fit its type. -/
def appendElement? (p : Primitive) (order : ByteOrder) (l : Literal) (image : Bytes) :
    Option Bytes :=
  putElement? image.length p order l (padTo (image.length + p.size) image)

/-- Appends a number. -/
def appendNumber (order : ByteOrder) (n : Number) (image : Bytes) : Bytes :=
  image ++ n.bytes order

end SimpleBinary
