import Mathlib
import SimpleBinary.Proofs.Numerals

/-!
# What sources declare

The scopes that are to be written for an element, and the names that each of them is to declare in
order: of a struct, an interface or a data class those of its members, and with them or in an
implementation those of its constants and functions.  A name is told by what it is made from
(`Declared`), and a namer spells it (`Namer.Spells`).
-/

namespace SimpleBinary

/-! ## Declared names -/

/-- What a declared name is made from: nothing, a name in its role, the name of a field with a null
value, or the names of a message and of groups inside each other. -/
inductive Declared where
  | fixed (name : String)
  | named (role : NameRole) (raw : String)
  | nullValue (raw : String)
  | type (parts : List String) (suffix : String)
deriving DecidableEq

namespace Namer

/-- The name that is declared. -/
def declare (n : Namer) : Declared → Except NameError String
  | .fixed name => .ok name
  | .named role raw => n.identifier role raw
  | .nullValue raw => do return (← n.constant raw) ++ "_NULL_VALUE"
  | .type parts suffix => do
    let types ← parts.mapM n.type
    return types.foldl (· ++ ·) "" ++ suffix

/-- Names that are declared, in order. -/
def Spells (n : Namer) : List Declared → List String → Prop :=
  List.Forall₂ fun d name => n.declare d = .ok name

variable {n : Namer}

theorem Spells.append {ds ds' : List Declared} {names names' : List String}
    (h : n.Spells ds names) (h' : n.Spells ds' names') : n.Spells (ds ++ ds') (names ++ names') :=
  List.rel_append h h'

theorem spells_fixed : ∀ names : List String, n.Spells (names.map .fixed) names
  | [] => .nil
  | _ :: names => .cons rfl (spells_fixed names)

theorem spells_singleton {d : Declared} {name : String} (h : n.declare d = .ok name) :
    n.Spells [d] [name] := .cons h .nil

/-- What the elements of a list declare, one after the other. -/
theorem spells_flatMap {α β : Type} {f : α → Except NameError β} {declared : α → List Declared}
    {names : β → List String} (h : ∀ a b, f a = .ok b → n.Spells (declared a) (names b)) :
    ∀ {as : List α} {bs : List β}, as.mapM f = .ok bs →
      n.Spells (as.flatMap declared) (bs.flatMap names) := by
  intro as bs hmap
  have hall := mapM_eq_ok_iff.1 hmap
  induction hall with
  | nil => exact .nil
  | cons hab _ ih => exact (h _ _ hab).append (ih (mapM_eq_ok_iff.2 ‹_›))

theorem spells_map {α β : Type} {f : α → Except NameError β} {declared : α → Declared}
    {name : β → String} (h : ∀ a b, f a = .ok b → n.declare (declared a) = .ok (name b))
    {as : List α} {bs : List β} (hmap : as.mapM f = .ok bs) :
    n.Spells (as.map declared) (bs.map name) := by
  rw [List.map_eq_flatMap, List.map_eq_flatMap]
  exact spells_flatMap (fun a b hab => spells_singleton (h a b hab)) hmap

end Namer

/-- The member that a field is in its type; a constant is none. -/
def FieldLayout.members (f : FieldLayout) : List Declared :=
  if f.isConstant then [] else [.named .member f.name]

/-- The constants that a field has in its type. -/
def FieldLayout.constants (f : FieldLayout) : List Declared :=
  match f.kind with
  | .primitive p =>
    if p.isConstant then [.named .constant f.name]
    else if p.isOptional then [.nullValue f.name] else []
  | _ => []

/-- A literal that is written as a number: where, under which name, and as which kind. -/
structure DeclaredNumber where
  place : NumberPlace
  name : Declared
  value : Literal
  kind : PrimitiveKind
deriving DecidableEq

namespace PrimitiveLayout

/-- The literal of a constant that is one integer, or of an integer's null constant. -/
def constantLiteral? (p : PrimitiveLayout) : Option Literal :=
  if p.primitive.kind = .float then none
  else if p.isConstant then p.constValue.filter fun v => !p.isArray && !v.isLong
  else if p.isOptional then some p.nullValue else none

/-- The literal of the integers that an element is made of where it is null; in Python a text is
empty there, and TypeScript writes no null. -/
def nullLiteral? (language : Language) (p : PrimitiveLayout) : Option Literal :=
  if p.primitive.kind = .float || p.isConstant then none
  else
    match language with
    | .rust => some p.nullValue
    | .typeScript => none
    | .python => if p.isArray && p.primitive == .char then none else some p.nullValue

variable {p : PrimitiveLayout} {v : Literal}

theorem of_constantLiteral? (h : p.constantLiteral? = some v) : p.primitive.kind ≠ .float
    ∧ if p.isConstant then p.constValue = some v ∧ p.isArray = false ∧ v.isLong = false
      else p.isOptional ∧ v = p.nullValue := by
  unfold constantLiteral? at h
  split at h
  · cases h
  · rename_i hkind
    refine ⟨hkind, ?_⟩
    split at h
    · rw [Option.filter_eq_some_iff] at h
      simp only [Bool.and_eq_true, Bool.not_eq_true'] at h
      rw [if_pos ‹_›]
      exact h
    · rw [if_neg ‹_›]
      split at h
      · cases h
        exact ⟨‹_›, rfl⟩
      · cases h

theorem of_nullLiteral? {language : Language} (h : p.nullLiteral? language = some v) :
    p.primitive.kind ≠ .float ∧ p.isConstant = false ∧ v = p.nullValue
      ∧ language ≠ .typeScript
      ∧ (language = .python → p.isArray = true → p.primitive ≠ .char) := by
  unfold nullLiteral? at h
  split at h
  · cases h
  · rename_i hnot
    simp only [Bool.or_eq_true, decide_eq_true_eq, not_or, Bool.not_eq_true] at hnot
    refine ⟨hnot.1, hnot.2, ?_⟩
    cases language with
    | rust =>
      cases h
      exact ⟨rfl, by decide, fun h => by cases h⟩
    | typeScript => cases h
    | python =>
      dsimp only at h
      split at h
      · cases h
      · rename_i hchar
        cases h
        exact ⟨rfl, by decide, fun _ harray hp => hchar (by simp [harray, hp])⟩

end PrimitiveLayout

/-- The numbers in the constants of a field. -/
def FieldLayout.constantNumbers (f : FieldLayout) : List DeclaredNumber :=
  match f.kind with
  | .primitive p => p.constantLiteral?.toList.map fun v =>
      ⟨.constant, if p.isConstant then .named .constant f.name else .nullValue f.name, v,
        p.primitive.kind⟩
  | _ => []

/-- The numbers that make a field null. -/
def FieldLayout.nullNumbers (language : Language) (f : FieldLayout) : List DeclaredNumber :=
  match f.kind with
  | .primitive p => (p.nullLiteral? language).toList.map fun v =>
      ⟨.null, .named .member f.name, v, p.primitive.kind⟩
  | _ => []

/-- The numbers of an enum's values. -/
def EnumLayout.valueNumbers (e : EnumLayout) (place : NumberPlace) : List DeclaredNumber :=
  e.values.map fun v => ⟨place, .named .variant v.name, v.value, e.encoding.kind⟩

/-- The numbers of an enum's values and of its null value; an enum of floats has none that are
looked at here. -/
def EnumLayout.numbers (language : Language) (e : EnumLayout) : List DeclaredNumber :=
  if e.encoding.kind = .float then []
  else
    match language with
    | .rust => [⟨.constant, .fixed "NULL_VALUE", e.nullValue, e.encoding.kind⟩]
        ++ e.valueNumbers .read ++ e.valueNumbers .written
    | .typeScript | .python => e.valueNumbers .constant
        ++ [⟨.constant, .named .variant EnumLayout.nullName, e.nullValue, e.encoding.kind⟩]

/-- A scope that is written for a type of the layout: whether it declares the type, the type it is
for, what is declared inside it, and which numbers stand there. -/
structure DeclaredScope where
  isType : Bool
  type : Declared
  names : List Declared
  numbers : List DeclaredNumber
deriving DecidableEq

namespace Language

/-- The scopes of a type of some constants, members and functions. -/
def scopesOfType (language : Language) (parts : List String)
    (constants members functions : List Declared) (numbers : List DeclaredNumber) :
    List DeclaredScope :=
  match language with
  | .rust => [⟨true, .type parts "", members, []⟩,
      ⟨false, .type parts "", constants ++ functions, numbers⟩]
  | .typeScript => [⟨true, .type parts "", members, []⟩,
      ⟨true, .type parts "Codec", constants ++ functions, numbers⟩]
  | .python => [⟨true, .type parts "", constants ++ members ++ functions, numbers⟩]

/-- The functions of a type that can be inside another. -/
def compositeFunctions : Language → List String
  | .rust | .python => ["encode", "decode", "null"]
  | .typeScript => ["decode", "encode"]

/-- The functions of a body, and before them those of a message. -/
def bodyFunctions (isMessage : Bool) : Language → List String
  | .rust | .python =>
    (if isMessage then ["encode", "decode"] else []) ++ ["encode_body", "decode_body"]
  | .typeScript =>
    (if isMessage then ["encode", "decode"] else []) ++ ["encodeBody", "decodeBody"]

end Language

/-- The constants that only the type of a message has. -/
def messageConstantNames (isMessage : Bool) : List String :=
  if isMessage then ["TEMPLATE_ID", "SCHEMA_ID", "SCHEMA_VERSION"] else []

def CompositeLayout.scopes (language : Language) (c : CompositeLayout) : List DeclaredScope :=
  language.scopesOfType [c.typeName] (.fixed "ENCODED_LENGTH" :: c.members.flatMap (·.constants))
    (c.members.flatMap (·.members)) (language.compositeFunctions.map .fixed)
    (c.members.flatMap (·.constantNumbers) ++ c.members.flatMap (·.nullNumbers language))

def EnumLayout.scopes (language : Language) (e : EnumLayout) : List DeclaredScope :=
  let type : Declared := .type [e.typeName] ""
  let values := e.values.map (.named .variant ·.name) ++ [.named .variant EnumLayout.nullName]
  match language with
  | .rust => [⟨true, type, values, []⟩,
      ⟨false, type, ["ENCODED_LENGTH", "NULL_VALUE", "from_raw", "to_raw"].map .fixed,
        e.numbers language⟩]
  | .typeScript => [⟨true, type, values, e.numbers language⟩]
  | .python => [⟨true, type, values ++ [.fixed "from_raw"], e.numbers language⟩]

/-- The two accessors of a choice. -/
def Choice.accessors (c : Choice) : List Declared :=
  [.named .member c.name, .named .member ("set_" ++ c.name)]

def SetLayout.scopes (language : Language) (s : SetLayout) : List DeclaredScope :=
  let type : Declared := .type [s.typeName] ""
  match language with
  | .rust => [⟨true, type, [], []⟩,
      ⟨false, type, .fixed "ENCODED_LENGTH" :: s.choices.flatMap (·.accessors), []⟩]
  | .typeScript => [⟨true, type, s.choices.map (.named .member ·.name), []⟩,
      ⟨true, .type [s.typeName] "Codec", ["ENCODED_LENGTH", "decode", "encode"].map .fixed, []⟩]
  | .python =>
    [⟨true, type, ["ENCODED_LENGTH", "bits"].map .fixed ++ s.choices.flatMap (·.accessors), []⟩]

/-- The scopes of a body whose type is made of some names. -/
def BodyLayout.scopes (language : Language) (isMessage : Bool) (parts : List String)
    (b : BodyLayout) : List DeclaredScope :=
  language.scopesOfType parts
    (("BLOCK_LENGTH" :: messageConstantNames isMessage).map .fixed
      ++ b.fields.flatMap (·.constants))
    (b.fields.flatMap (·.members) ++ b.groups.map (.named .member ·.name)
      ++ b.varData.map (.named .member ·.name))
    ((Language.bodyFunctions isMessage language).map .fixed) (b.fields.flatMap (·.constantNumbers))

def TypeLayout.scopes (language : Language) : TypeLayout → List DeclaredScope
  | .composite c => c.scopes language
  | .enumeration e => e.scopes language
  | .set s => s.scopes language

mutual

/-- The scopes of a body and of its groups at every depth. -/
def BodyLayout.allScopes (language : Language) (isMessage : Bool) (parts : List String) :
    BodyLayout → List DeclaredScope
  | ⟨blockLength, fields, groups, varData⟩ =>
    BodyLayout.scopes language isMessage parts ⟨blockLength, fields, groups, varData⟩
      ++ groupScopes language parts groups

/-- The scopes of the elements of groups: to the names that a type is made of each group adds its
own. -/
def groupScopes (language : Language) (parts : List String) : List GroupLayout → List DeclaredScope
  | [] => []
  | ⟨name, _, _, _, body, _⟩ :: gs =>
    body.allScopes language false (parts ++ [name]) ++ groupScopes language parts gs

end

def MessageLayout.scopes (language : Language) (m : MessageLayout) : List DeclaredScope :=
  m.body.allScopes language true [m.name]

/-- The scopes that are written for a schema. -/
def SchemaLayout.scopes (language : Language) (l : SchemaLayout) : List DeclaredScope :=
  l.sourceTypes.flatMap (·.scopes language) ++ l.messages.flatMap (·.scopes language)

/-! ## Named fields -/

/-- The member of a field that is not constant. -/
def NamedField.memberNames (f : NamedField) : List String :=
  if f.isConstant then [] else [f.member]

/-- The names of a field's constants. -/
def NamedField.constantNames (f : NamedField) : List String :=
  match f.kind with
  | .primitive p constant =>
    if p.isConstant then [constant]
    else if p.isOptional then [constant ++ "_NULL_VALUE"] else []
  | _ => []

/-- A field whose member and whose constant are identifiers. -/
structure NamedField.PlainNames (f : NamedField) : Prop where
  member : IsPlain f.member
  constant : ∀ p constant, f.kind = .primitive p constant → IsPlain constant

namespace Namer

variable {n : Namer} {f : FieldLayout} {named : NamedField}

theorem plainNames_of_field (h : n.field f = .ok named) : named.PlainNames := by
  obtain ⟨member, kind, hmember, hkind, rfl⟩ := parts_of_field h
  refine ⟨plain_of_identifier .member hmember, fun p constant hp => ?_⟩
  dsimp only at hp
  subst hp
  generalize f.kind = k at hkind
  cases hkind with
  | primitive hconstant => exact plain_of_identifier .constant hconstant

theorem spells_members (h : n.field f = .ok named) :
    n.Spells f.members named.memberNames := by
  have hconstant := isConstant_of_field h
  obtain ⟨member, kind, hmember, -, rfl⟩ := parts_of_field h
  unfold FieldLayout.members NamedField.memberNames
  rw [hconstant]
  split
  · exact .nil
  · exact spells_singleton hmember

theorem spells_constants (h : n.field f = .ok named) :
    n.Spells f.constants named.constantNames := by
  obtain ⟨member, kind, -, hkind, rfl⟩ := parts_of_field h
  obtain ⟨name, id, sinceVersion, offset, description, k⟩ := f
  unfold FieldLayout.constants NamedField.constantNames
  cases hkind with
  | primitive hconstant =>
    dsimp only
    split
    · exact spells_singleton hconstant
    · split
      · refine spells_singleton ?_
        show (do return (← n.constant name) ++ "_NULL_VALUE") = _
        rw [hconstant]
        rfl
      · exact .nil
  | composite | enumeration | set => exact .nil

theorem exists_of_mem_constantNumbers (h : n.field f = .ok named) {d : DeclaredNumber}
    (hd : d ∈ f.constantNumbers) : ∃ p constant, named.kind = .primitive p constant
      ∧ p.constantLiteral? = some d.value ∧ d.place = .constant ∧ d.kind = p.primitive.kind
      ∧ n.declare d.name = .ok (if p.isConstant then constant else constant ++ "_NULL_VALUE") := by
  obtain ⟨member, kind, -, hkind, rfl⟩ := parts_of_field h
  obtain ⟨name, id, sinceVersion, offset, description, k⟩ := f
  unfold FieldLayout.constantNumbers at hd
  cases hkind with
  | @primitive p constant hconstant =>
    obtain ⟨v, hv, rfl⟩ := List.mem_map.1 hd
    refine ⟨p, constant, rfl, Option.mem_toList.1 hv, rfl, rfl, ?_⟩
    dsimp only
    split
    · exact hconstant
    · exact bind_eq_ok_iff.2 ⟨constant, hconstant, rfl⟩
  | composite | enumeration | set => cases hd

theorem exists_of_mem_nullNumbers (h : n.field f = .ok named) {d : DeclaredNumber}
    (hd : d ∈ f.nullNumbers n.language) : ∃ p constant, named.kind = .primitive p constant
      ∧ p.nullLiteral? n.language = some d.value ∧ d.place = .null ∧ d.kind = p.primitive.kind
      ∧ n.declare d.name = .ok named.member := by
  obtain ⟨member, kind, hmember, hkind, rfl⟩ := parts_of_field h
  obtain ⟨name, id, sinceVersion, offset, description, k⟩ := f
  unfold FieldLayout.nullNumbers at hd
  cases hkind with
  | @primitive p constant _ =>
    obtain ⟨v, hv, rfl⟩ := List.mem_map.1 hd
    exact ⟨p, constant, rfl, Option.mem_toList.1 hv, rfl, rfl, hmember⟩
  | composite | enumeration | set => cases hd

end Namer

/-- The members of a body's type. -/
def NamedBody.memberNames (b : NamedBody) : List String :=
  b.fields.flatMap (·.memberNames) ++ b.groups.map (·.member) ++ b.varData.map (·.member)

/-- A body whose type and members are identifiers, as are the constants of its fields. -/
structure NamedBody.PlainNames (b : NamedBody) : Prop where
  type : IsPlain b.type
  fields : ∀ f ∈ b.fields, f.PlainNames
  groups : ∀ g ∈ b.groups, IsPlain g.member
  varData : ∀ d ∈ b.varData, IsPlain d.member

end SimpleBinary
