import SimpleBinary.Literal
import SimpleBinary.Text.Quoted

/-!
# Values

What a message holds, field by field: numbers, texts, bytes, arrays, values of enums, choices of
sets, and objects whose fields are kept in the order of their names, each name once. `Value.agrees`
is equality of values; a NaN differs from itself, as numbers do.
-/

namespace SimpleBinary

inductive Value where
  | int (value : Int64)
  | uint (value : UInt64)
  | float (value : Binary64)
  | text (value : String)
  | bytes (value : Bytes)
  | array (items : List Value)
  | enumeration (typeName name : String)
  | set (typeName : String) (choices : List String)
  | object (name : String) (fields : List (String × Value))
deriving Repr, Inhabited

/-- Puts a field in its place among fields ordered by name, over one of the same name. -/
def insertField {α : Type} (name : String) (value : α) : List (String × α) → List (String × α)
  | [] => [(name, value)]
  | (n, v) :: fields =>
    if name < n then (name, value) :: (n, v) :: fields
    else if name = n then (name, value) :: fields
    else (n, v) :: insertField name value fields

namespace Value

/-- An object of fields in any order; of fields with one name the last counts. -/
def ofFields (name : String) (fields : List (String × Value)) : Value :=
  .object name (fields.foldl (fun fs (n, v) => insertField n v fs) [])

/-- An integer with a sign, zero if there is none that fits. -/
def asInt : Value → Int64
  | .int v => v
  | .uint v => if v.toNat ≤ Int64.maxValue.toInt then v.toInt64 else 0
  | _ => 0

/-- A natural, zero if there is none. -/
def asUInt : Value → UInt64
  | .uint v => v
  | .int v => if 0 ≤ v.toInt then v.toUInt64 else 0
  | _ => 0

/-- A double, zero for anything else. -/
def asFloat : Value → Binary64
  | .float v => v
  | _ => .zero

/-- A text or the name of an enum's value, empty for anything else. -/
def asText : Value → String
  | .text s => s
  | .enumeration _ name => name
  | _ => ""

/-- Bytes, those of a text among them. -/
def asBytes : Value → Bytes
  | .bytes bs => bs
  | .text s => utf8 s
  | _ => []

/-- The items of an array. -/
def asArray : Value → List Value
  | .array items => items
  | _ => []

/-- The type and name of an enum's value. -/
def asEnum : Value → String × String
  | .enumeration typeName name => (typeName, name)
  | _ => ("", "")

/-- The choices of a set. -/
def asSet : Value → List String
  | .set _ choices => choices
  | _ => []

/-- The number of an array's items. -/
def length (v : Value) : Nat := v.asArray.length

def isObject : Value → Bool
  | .object _ _ => true
  | _ => false

/-- The item of an array. -/
def item? (v : Value) (index : Nat) : Option Value := v.asArray[index]?

/-- The field of an object. -/
def field? (v : Value) (name : String) : Option Value :=
  match v with
  | .object _ fields => fields.lookup name
  | _ => none

/-- Adds an item to an array. -/
def push (v item : Value) : Value :=
  match v with
  | .array items => .array (items ++ [item])
  | v => v

/-- Sets a field of an object. -/
def setField (v : Value) (name : String) (field : Value) : Value :=
  match v with
  | .object n fields => .object n (insertField name field fields)
  | v => v

/-- Takes a field out of an object. -/
def removeField (v : Value) (name : String) : Value :=
  match v with
  | .object n fields => .object n (fields.filter fun f => f.1 != name)
  | v => v

/-- The literal of a number. -/
def toLiteral? : Value → Option Literal
  | .int v => some (.int v)
  | .uint v => some (.uint v)
  | .float v => some (.float v)
  | _ => none

/-- The value of a literal; bytes are a text. -/
def ofLiteral : Literal → Value
  | .int v => .int v
  | .uint v => .uint v
  | .float v => .float v
  | .bytes bs => .text (lossyText bs)

mutual

def agrees : Value → Value → Bool
  | .int x, .int y => x == y
  | .uint x, .uint y => x == y
  | .float x, .float y => x.numEq y
  | .text x, .text y => x == y
  | .bytes x, .bytes y => x == y
  | .array xs, .array ys => agreeItems xs ys
  | .enumeration t n, .enumeration u m => t == u && n == m
  | .set t xs, .set u ys => t == u && xs == ys
  | .object n fs, .object m gs => n == m && agreeFields fs gs
  | _, _ => false

def agreeItems : List Value → List Value → Bool
  | [], [] => true
  | x :: xs, y :: ys => x.agrees y && agreeItems xs ys
  | _, _ => false

def agreeFields : List (String × Value) → List (String × Value) → Bool
  | [], [] => true
  | (n, x) :: xs, (m, y) :: ys => n == m && x.agrees y && agreeFields xs ys
  | _, _ => false

end

/-- Numbers of bytes in brackets. -/
def bytesText (bs : Bytes) : String :=
  "b[" ++ String.intercalate ", " (bs.map fun b => toString b.toNat) ++ "]"

mutual

/-- The value as shown to a reader. -/
def render : Value → String
  | .int v => toString v.toInt
  | .uint v => toString v.toNat
  | .float v => v.render .literal
  | .text s => debugQuoted s
  | .bytes bs => bytesText bs
  | .array items => "[" ++ String.intercalate ", " (renderItems items) ++ "]"
  | .enumeration typeName name => typeName ++ "::" ++ name
  | .set typeName choices => typeName ++ "\x7b" ++ String.intercalate "|" choices ++ "\x7d"
  | .object name fields =>
    name ++ " \x7b" ++ String.intercalate ", " (renderFields fields) ++ "\x7d"

def renderItems : List Value → List String
  | [] => []
  | v :: vs => v.render :: renderItems vs

def renderFields : List (String × Value) → List String
  | [] => []
  | (n, v) :: fs => (n ++ ": " ++ v.render) :: renderFields fs

end

end Value

end SimpleBinary
