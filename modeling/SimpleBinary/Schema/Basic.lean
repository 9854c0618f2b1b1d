import SimpleBinary.Token.Basic

/-!
# Schemas

A schema is the token streams of its message header, of its types and of its messages.
-/

namespace SimpleBinary

structure Schema where
  package : Option String := none
  id : Int32
  version : Int32
  byteOrder : ByteOrder := .littleEndian
  header : List Token
  messages : List (List Token) := []
  types : List (List Token) := []
deriving DecidableEq, Repr

/-- The first stream whose first token has a property. -/
def firstStream? (streams : List (List Token)) (p : Token → Bool) : Option (List Token) :=
  streams.find? fun tokens => tokens.head?.any p

namespace Schema

def messageNamed? (s : Schema) (name : String) : Option (List Token) :=
  firstStream? s.messages fun t => t.name == name

def messageWithId? (s : Schema) (id : Int32) : Option (List Token) :=
  firstStream? s.messages fun t => t.id == id

def typeNamed? (s : Schema) (name : String) : Option (List Token) :=
  firstStream? s.types fun t => t.name == name

end Schema

end SimpleBinary
