import SimpleBinary.Layout.OfTokens
import SimpleBinary.Path
import SimpleBinary.Schema.Basic

/-!
# The layout of a schema

`SchemaLayout.resolve` lays out the header, the types and the messages, in that order, and checks
of each message that the types its fields refer to are among the schema's.
-/

namespace SimpleBinary

structure SchemaLayout where
  package : Option String
  id : Int32
  version : Int32
  byteOrder : ByteOrder
  header : HeaderLayout
  types : List TypeLayout
  messages : List MessageLayout
deriving Repr

/-- Checks that the type of a field is known. -/
def FieldLayout.checkReference (known : List String) (owner : String) (f : FieldLayout) :
    Except SchemaError Unit :=
  match f.kind.typeName? with
  | some name =>
    if known.contains name then .ok ()
    else .error (.unresolvedType name (childPath owner f.name))
  | none => .ok ()

mutual

/-- Checks that the types of a body's fields are known, then those of its groups. -/
def BodyLayout.checkReferences (known : List String) (owner : String) :
    BodyLayout → Except SchemaError Unit
  | ⟨_, fields, groups, _⟩ => do
    fields.forM (·.checkReference known owner)
    checkGroupReferences known owner groups

def checkGroupReferences (known : List String) (owner : String) :
    List GroupLayout → Except SchemaError Unit
  | [] => .ok ()
  | ⟨name, _, _, _, body, _⟩ :: gs => do
    body.checkReferences known (childPath owner name)
    checkGroupReferences known owner gs

end

namespace SchemaLayout

def resolve (s : Schema) : Except SchemaError SchemaLayout := do
  let header ← HeaderLayout.ofTokens s.header
  let types := (← s.types.mapM TypeLayout.ofTokens).filterMap fun t => t
  let known := types.map (·.name)
  let messages ← s.messages.mapM fun tokens => do
    let m ← MessageLayout.ofTokens tokens
    m.body.checkReferences known m.name
    return m
  return {
    package := s.package
    id := s.id
    version := s.version
    byteOrder := s.byteOrder
    header
    types
    messages }

/-- The first type of a name. -/
def typeNamed? (s : SchemaLayout) (name : String) : Option TypeLayout :=
  s.types.find? fun t => t.name == name

end SchemaLayout

end SimpleBinary
