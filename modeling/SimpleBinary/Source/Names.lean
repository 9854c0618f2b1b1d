import SimpleBinary.Layout.Schema
import SimpleBinary.Name.Namer
import SimpleBinary.Path

/-!
# Named elements

Before a source is written every element of its layout is given its identifiers. This is the only
step that can fail; what writes the source works on named elements and cannot. Where two names are
refused, the first of them is reported: of a body the fields come first, then the groups and the
var-data, then what the groups hold.
-/

namespace SimpleBinary

/-- The identifiers that a field has by its kind. -/
inductive NamedKind where
  | primitive (layout : PrimitiveLayout) (constant : String)
  | composite (type : String)
  | enumeration (layout : EnumLayout) (type null : String)
  | set (layout : SetLayout) (type : String)
deriving Repr

/-- A field of a block. `raw` is its name in the schema. -/
structure NamedField where
  raw : String
  member : String
  offset : Nat
  stop : Nat
  kind : NamedKind
deriving Repr

structure NamedVarData where
  member : String
  path : String
  layout : VarDataLayout
deriving Repr

mutual

/-- A body, the type it is written as, and its path in the schema. -/
structure NamedBody where
  type : String
  path : String
  layout : BodyLayout
  fields : List NamedField
  groups : List NamedGroup
  varData : List NamedVarData
deriving Repr

structure NamedGroup where
  member : String
  dimension : DimensionLayout
  body : NamedBody
deriving Repr

end

mutual

/-- The bodies of a body's groups, at every depth, each before those inside it. -/
def NamedBody.nested : NamedBody → List NamedBody
  | ⟨_, _, _, _, groups, _⟩ => nestedBodies groups

def nestedBodies : List NamedGroup → List NamedBody
  | [] => []
  | ⟨_, _, body⟩ :: gs => (body :: body.nested) ++ nestedBodies gs

end

/-- A choice of a set and the identifiers of its two accessors. -/
structure NamedChoice where
  getter : String
  setter : String
  bit : Nat
deriving Repr

inductive TypeSort where
  | composite
  | enumeration
  | set
deriving DecidableEq, Repr

/-- A type that a source takes from another one. -/
structure Import where
  type : String
  file : String
  sort : TypeSort
deriving DecidableEq, Repr

inductive NamedElement where
  | composite (type : String) (layout : CompositeLayout) (members : List NamedField)
  | enumeration (type constant : String) (layout : EnumLayout) (values : List (String × Literal))
      (null : String)
  | set (type : String) (layout : SetLayout) (choices : List NamedChoice)
  | message (layout : MessageLayout) (body : NamedBody)
deriving Repr

/-- What one file is written from. -/
structure SourceUnit where
  file : String
  imports : List Import
  element : NamedElement
deriving Repr

def FieldKind.sort? : FieldKind → Option TypeSort
  | .primitive _ => none
  | .composite _ => some .composite
  | .enumeration _ => some .enumeration
  | .set _ => some .set

/-- The types of fields by their names, with the sort of the last field of each name. -/
def usedTypes (fields : List FieldLayout) : List (String × TypeSort) :=
  fields.foldl (fun types f =>
    match f.kind.typeName?, f.kind.sort? with
    | some name, some sort => insertType name sort types
    | _, _ => types) []
where
  /-- Keeps the names in order and each one once. -/
  insertType (name : String) (sort : TypeSort) :
      List (String × TypeSort) → List (String × TypeSort)
    | [] => [(name, sort)]
    | t :: ts =>
      if name < t.1 then (name, sort) :: t :: ts
      else if name = t.1 then (name, sort) :: ts
      else t :: insertType name sort ts

mutual

/-- The fields of a body and of its groups at every depth. -/
def BodyLayout.allFields : BodyLayout → List FieldLayout
  | ⟨_, fields, groups, _⟩ => fields ++ allGroupFields groups

def allGroupFields : List GroupLayout → List FieldLayout
  | [] => []
  | ⟨_, _, _, _, body, _⟩ :: gs => body.allFields ++ allGroupFields gs

end

namespace Namer

/-- The identifiers of a field besides its own. -/
def kind (n : Namer) (name : String) : FieldKind → Except NameError NamedKind
  | .primitive p => do return .primitive p (← n.constant name)
  | .composite c => do return .composite (← n.type c.typeName)
  | .enumeration e => do
    return .enumeration e (← n.type e.typeName) (← n.variant EnumLayout.nullName)
  | .set s => do return .set s (← n.type s.typeName)

def field (n : Namer) (f : FieldLayout) : Except NameError NamedField := do
  return ⟨f.name, ← n.member f.name, f.offset, f.stop, ← n.kind f.name f.kind⟩

def varData (n : Namer) (path : String) (d : VarDataLayout) : Except NameError NamedVarData := do
  return ⟨← n.member d.name, childPath path d.name, d⟩

/-- The member that holds a group, and what its elements' type adds to the type around it. -/
def groupHead (n : Namer) (name : String) : Except NameError (String × String) := do
  return (← n.member name, ← n.type name)

mutual

/-- The groups are named twice: all of them before anything inside one of them. -/
def body (n : Namer) (type path : String) : BodyLayout → Except NameError NamedBody
  | ⟨blockLength, fields, groups, varData⟩ => do
    let namedFields ← fields.mapM n.field
    let _ ← groups.mapM fun g => n.groupHead g.name
    let namedData ← varData.mapM (n.varData path)
    let namedGroups ← groupBodies n type path groups
    return ⟨type, path, ⟨blockLength, fields, groups, varData⟩, namedFields, namedGroups, namedData⟩

def groupBodies (n : Namer) (type path : String) :
    List GroupLayout → Except NameError (List NamedGroup)
  | [] => .ok []
  | ⟨name, _, _, dimension, layout, _⟩ :: gs => do
    let (member, suffix) ← n.groupHead name
    let named ← body n (type ++ suffix) (childPath path name) layout
    return ⟨member, dimension, named⟩ :: (← groupBodies n type path gs)

end

/-- What a file takes from others; a language with one scope for all files needs nothing. -/
def imports (n : Namer) (fields : List FieldLayout) : Except NameError (List Import) :=
  match n.language with
  | .rust => .ok []
  | .typeScript | .python =>
    (usedTypes fields).mapM fun (name, sort) => do
      return ⟨← n.type name, ← n.moduleName name, sort⟩

def composite (n : Namer) (c : CompositeLayout) : Except NameError SourceUnit := do
  let type ← n.type c.typeName
  let members ← c.members.mapM n.field
  let imports ← n.imports c.members
  return ⟨← n.moduleName c.typeName, imports, .composite type c members⟩

def enumeration (n : Namer) (e : EnumLayout) : Except NameError SourceUnit := do
  let type ← n.type e.typeName
  let values ← e.values.mapM fun v => do return (← n.variant v.name, v.value)
  let null ← n.variant EnumLayout.nullName
  let constant ← n.constant e.typeName
  return ⟨← n.moduleName e.typeName, [], .enumeration type constant e values null⟩

def set (n : Namer) (s : SetLayout) : Except NameError SourceUnit := do
  let type ← n.type s.typeName
  let choices ← s.choices.mapM fun c => do
    return NamedChoice.mk (← n.member c.name) (← n.member ("set_" ++ c.name)) c.bit
  return ⟨← n.moduleName s.typeName, [], .set type s choices⟩

def typeUnit (n : Namer) : TypeLayout → Except NameError SourceUnit
  | .composite c => n.composite c
  | .enumeration e => n.enumeration e
  | .set s => n.set s

def message (n : Namer) (m : MessageLayout) : Except NameError SourceUnit := do
  let type ← n.type m.name
  let body ← n.body type m.name m.body
  let imports ← n.imports m.body.allFields
  return ⟨← n.moduleName m.name, imports, .message m body⟩

end Namer

end SimpleBinary
