import SimpleBinary.Float.Binary64
import SimpleBinary.Literal

/-!
# Documents

The values of JSON. A number is an integer when it is written as one and fits 64 bits, signed or
unsigned; every other number is a double. The members of an object are kept in order, repeated
ones too: what a repeated member means is for the reader of the document to say. A well-formed
value that no double or text can hold is `unreadable`; it matters only to those who look at it.
-/

namespace SimpleBinary

inductive Json where
  | null
  | bool (value : Bool)
  | int (value : Int)
  | float (value : Binary64)
  | text (value : String)
  | unreadable
  | array (items : List Json)
  | object (members : List (String × Json))
deriving Repr, Inhabited

namespace Json

/-- The last member of a name. -/
def member? (members : List (String × Json)) (name : String) : Option Json :=
  members.reverse.lookup name

def isNull : Json → Bool
  | .null => true
  | _ => false

def text? : Json → Option String
  | .text s => some s
  | _ => none

def array? : Json → Option (List Json)
  | .array items => some items
  | _ => none

def object? : Json → Option (List (String × Json))
  | .object members => some members
  | _ => none

/-- An integer between two bounds, the second one excluded. -/
def intIn? (low high : Int) : Json → Option Int
  | .int n => if low ≤ n ∧ n < high then some n else none
  | _ => none

def int64? (j : Json) : Option Int64 :=
  (j.intIn? Int64.minValue.toInt (Int64.maxValue.toInt + 1)).map Int64.ofInt

def uint64? (j : Json) : Option UInt64 := (j.intIn? 0 UInt64.size).map fun n => UInt64.ofNat n.toNat

def int32? (j : Json) : Option Int32 :=
  (j.intIn? Int32.minValue.toInt (Int32.maxValue.toInt + 1)).map Int32.ofInt

/-- A length or a count. -/
def size? (j : Json) : Option Nat := (j.intIn? 0 UInt64.size).map Int.toNat

def byte? (j : Json) : Option UInt8 := (j.intIn? 0 256).map fun n => UInt8.ofNat n.toNat

/-- The double of a number. -/
def float? : Json → Option Binary64
  | .int n => some (Binary64.ofInt n)
  | .float x => some x
  | _ => none

/-- An array of bytes. -/
def bytes? : Json → Option Bytes
  | .array items => items.mapM byte?
  | _ => none

/-- Of the forms of a literal the first that fits: signed, unsigned, double, bytes. -/
def literal? (j : Json) : Option Literal :=
  match j.int64?, j.uint64?, j.float?, j.bytes? with
  | some n, _, _, _ => some (.int n)
  | _, some n, _, _ => some (.uint n)
  | _, _, some x, _ => some (.float x)
  | _, _, _, some bs => some (.bytes bs)
  | _, _, _, _ => none

/-- A finite double, `null` for the others. -/
def ofFloat (x : Binary64) : Json := if x.isFinite then .float x else .null

def ofBytes (bs : Bytes) : Json := .array (bs.map fun b => .int b.toNat)

def ofLiteral : Literal → Json
  | .int v => .int v.toInt
  | .uint v => .int v.toNat
  | .float v => ofFloat v
  | .bytes bs => ofBytes bs

def ofOption {α : Type} (f : α → Json) : Option α → Json
  | none => .null
  | some a => f a

end Json

end SimpleBinary
