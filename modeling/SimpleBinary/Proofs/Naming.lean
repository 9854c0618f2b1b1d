import Mathlib
import SimpleBinary.Proofs.Identifiers
import SimpleBinary.Proofs.Layouts
import SimpleBinary.Source.Package

/-!
# Names of elements

An element uses its name for one or more identifiers, as do the elements inside it (`uses`).  Naming
an element succeeds only if each of these names has an identifier for its use, and what is declared
in the element's file is made of identifiers (`declared`).
-/

namespace SimpleBinary

/-- A text of an identifier's characters. -/
def IsPlain (s : String) : Prop := ∀ c ∈ s.toList, isIdentifierRest c

theorem IsPlain.append {s t : String} (hs : IsPlain s) (ht : IsPlain t) : IsPlain (s ++ t) := by
  unfold IsPlain
  rw [String.toList_append]
  exact List.forall_mem_append.2 ⟨hs, ht⟩

/-! ## Uses of names -/

/-- The name of a field and what it is used for. -/
def FieldLayout.uses (f : FieldLayout) : List (NameRole × String) :=
  match f.kind with
  | .primitive _ => [(.member, f.name), (.constant, f.name)]
  | _ => [(.member, f.name)]

/-- The names in a body, without those inside its groups. -/
def BodyLayout.uses (b : BodyLayout) : List (NameRole × String) :=
  b.fields.flatMap (·.uses)
    ++ b.groups.flatMap (fun g => [(.member, g.name), (.type, g.name)])
    ++ b.varData.map fun d => (.member, d.name)

/-- What the name of a file's element is used for. -/
def fileUses (name : String) : List (NameRole × String) := [(.type, name), (.moduleName, name)]

/-- The name of a message and the names in its body and its groups. -/
def MessageLayout.uses (m : MessageLayout) : List (NameRole × String) :=
  fileUses m.name ++ m.body.bodies.flatMap (·.uses)

/-- The names of a type's members, values or choices. -/
def TypeLayout.innerUses : TypeLayout → List (NameRole × String)
  | .composite c => c.members.flatMap (·.uses)
  | .enumeration e => e.values.map fun v => (.variant, v.name)
  | .set s => s.choices.map fun c => (.member, c.name)

/-- The name of a type and the names in it. -/
def TypeLayout.uses (t : TypeLayout) : List (NameRole × String) := fileUses t.name ++ t.innerUses

/-- The fields of a composite; other types have none. -/
def TypeLayout.fields : TypeLayout → List FieldLayout
  | .composite c => c.members
  | .enumeration _ => []
  | .set _ => []

/-- The names at the start of what an element's file declares. -/
def NamedElement.declared : NamedElement → List String
  | .composite type _ _ => [type]
  | .enumeration type constant _ _ _ => [type, constant]
  | .set type _ _ => [type]
  | .message _ b => b.type :: b.nested.map (·.type)

/-- The name in the schema of the type that a unit is for; a message has none. -/
def SourceUnit.typeName? (u : SourceUnit) : Option String :=
  match u.element with
  | .composite _ c _ => some c.typeName
  | .enumeration _ _ e _ _ => some e.typeName
  | .set _ s _ => some s.typeName
  | .message _ _ => none

namespace Namer

variable {n : Namer}

/-- Names that have an identifier for what they are used for. -/
def Accepts (n : Namer) (uses : List (NameRole × String)) : Prop :=
  ∀ p ∈ uses, ∃ s, n.identifier p.1 p.2 = .ok s

@[simp]
theorem accepts_nil : n.Accepts [] := by simp [Accepts]

@[simp]
theorem accepts_cons {p : NameRole × String} {uses : List (NameRole × String)} :
    n.Accepts (p :: uses) ↔ (∃ s, n.identifier p.1 p.2 = .ok s) ∧ n.Accepts uses := by
  simp [Accepts]

@[simp]
theorem accepts_append {uses uses' : List (NameRole × String)} :
    n.Accepts (uses ++ uses') ↔ n.Accepts uses ∧ n.Accepts uses' :=
  List.forall_mem_append

@[simp]
theorem accepts_flatMap {α : Type} {f : α → List (NameRole × String)} {as : List α} :
    n.Accepts (as.flatMap f) ↔ ∀ a ∈ as, n.Accepts (f a) := by
  simp only [Accepts, List.mem_flatMap]
  exact ⟨fun h a ha p hp => h p ⟨a, ha, hp⟩, fun h p ⟨a, ha, hp⟩ => h a ha p hp⟩

@[simp]
theorem accepts_map {α : Type} {f : α → NameRole × String} {as : List α} :
    n.Accepts (as.map f) ↔ ∀ a ∈ as, ∃ s, n.identifier (f a).1 (f a).2 = .ok s := by
  simp [Accepts]

theorem plain_of_identifier (role : NameRole) {raw s : String}
    (h : n.identifier role raw = .ok s) : IsPlain s := rest_of_identifier h

/-! ## Fields -/

/-- A kind of field and what it is named as: a primitive one has a constant after the field, and the
others the names of their types. -/
inductive NamesKind (n : Namer) (name : String) : FieldKind → NamedKind → Prop
  | primitive {p : PrimitiveLayout} {constant : String} (h : n.constant name = .ok constant) :
    NamesKind n name (.primitive p) (.primitive p constant)
  | composite {c : CompositeLayout} {type : String} (h : n.type c.typeName = .ok type) :
    NamesKind n name (.composite c) (.composite type)
  | enumeration {e : EnumLayout} {type null : String} (h : n.type e.typeName = .ok type) :
    NamesKind n name (.enumeration e) (.enumeration e type null)
  | set {s : SetLayout} {type : String} (h : n.type s.typeName = .ok type) :
    NamesKind n name (.set s) (.set s type)

theorem namesKind_of_kind {name : String} {k : FieldKind} {named : NamedKind}
    (h : n.kind name k = .ok named) : n.NamesKind name k named := by
  cases k with
  | primitive p =>
    obtain ⟨constant, hconstant, h⟩ := bind_eq_ok_iff.1 h
    cases h
    exact .primitive hconstant
  | composite c =>
    obtain ⟨type, htype, h⟩ := bind_eq_ok_iff.1 h
    cases h
    exact .composite htype
  | enumeration e =>
    obtain ⟨type, htype, h⟩ := bind_eq_ok_iff.1 h
    obtain ⟨null, -, h⟩ := bind_eq_ok_iff.1 h
    cases h
    exact .enumeration htype
  | set s =>
    obtain ⟨type, htype, h⟩ := bind_eq_ok_iff.1 h
    cases h
    exact .set htype

theorem parts_of_field {f : FieldLayout} {named : NamedField} (h : n.field f = .ok named) :
    ∃ member kind, n.member f.name = .ok member ∧ n.NamesKind f.name f.kind kind
      ∧ named = ⟨f.name, member, f.offset, f.stop, kind⟩ := by
  obtain ⟨member, hmember, h⟩ := bind_eq_ok_iff.1 h
  obtain ⟨kind, hkind, h⟩ := bind_eq_ok_iff.1 h
  cases h
  exact ⟨member, kind, hmember, namesKind_of_kind hkind, rfl⟩

theorem accepts_of_field {f : FieldLayout} {named : NamedField} (h : n.field f = .ok named) :
    n.Accepts f.uses := by
  obtain ⟨member, kind, hmember, hkind, -⟩ := parts_of_field h
  obtain ⟨name, id, sinceVersion, offset, description, k⟩ := f
  unfold FieldLayout.uses
  cases hkind with
  | primitive hconstant =>
    simp only [accepts_cons, accepts_nil, and_true]
    exact ⟨⟨member, hmember⟩, _, hconstant⟩
  | composite | enumeration | set =>
    simp only [accepts_cons, accepts_nil, and_true]
    exact ⟨member, hmember⟩

theorem accepts_of_fields {fields : List FieldLayout} {named : List NamedField}
    (h : fields.mapM n.field = .ok named) : n.Accepts (fields.flatMap (·.uses)) := by
  rw [accepts_flatMap]
  intro f hf
  obtain ⟨named, hnamed⟩ := exists_of_mapM h hf
  exact accepts_of_field hnamed

/-! ## Bodies -/

theorem parts_of_body {blockLength : Nat} {fields : List FieldLayout} {groups : List GroupLayout}
    {varData : List VarDataLayout} {type path : String} {named : NamedBody}
    (h : n.body type path ⟨blockLength, fields, groups, varData⟩ = .ok named) :
    ∃ namedFields heads namedData namedGroups, fields.mapM n.field = .ok namedFields
      ∧ groups.mapM (fun g => n.groupHead g.name) = .ok heads
      ∧ varData.mapM (n.varData path) = .ok namedData
      ∧ n.groupBodies type path groups = .ok namedGroups
      ∧ named = ⟨type, path, ⟨blockLength, fields, groups, varData⟩, namedFields, namedGroups,
          namedData⟩ := by
  rw [body] at h
  obtain ⟨namedFields, hfields, h⟩ := bind_eq_ok_iff.1 h
  obtain ⟨heads, hheads, h⟩ := bind_eq_ok_iff.1 h
  obtain ⟨namedData, hdata, h⟩ := bind_eq_ok_iff.1 h
  obtain ⟨namedGroups, hgroups, h⟩ := bind_eq_ok_iff.1 h
  cases h
  exact ⟨_, _, _, _, hfields, hheads, hdata, hgroups, rfl⟩

theorem parts_of_groupBodies {name : String} {id version : Int32} {dimension : DimensionLayout}
    {layout : BodyLayout} {description : Option String} {groups : List GroupLayout}
    {type path : String} {named : List NamedGroup}
    (h : n.groupBodies type path (⟨name, id, version, dimension, layout, description⟩ :: groups)
      = .ok named) :
    ∃ member suffix namedBody namedGroups, n.member name = .ok member ∧ n.type name = .ok suffix
      ∧ n.body (type ++ suffix) (childPath path name) layout = .ok namedBody
      ∧ n.groupBodies type path groups = .ok namedGroups
      ∧ named = ⟨member, dimension, namedBody⟩ :: namedGroups := by
  rw [groupBodies] at h
  obtain ⟨⟨member, suffix⟩, hhead, h⟩ := bind_eq_ok_iff.1 h
  obtain ⟨namedBody, hbody, h⟩ := bind_eq_ok_iff.1 h
  obtain ⟨namedGroups, hgroups, h⟩ := bind_eq_ok_iff.1 h
  cases h
  obtain ⟨member', hmember, hhead⟩ := bind_eq_ok_iff.1 hhead
  obtain ⟨suffix', hsuffix, hhead⟩ := bind_eq_ok_iff.1 hhead
  cases hhead
  exact ⟨_, _, _, _, hmember, hsuffix, hbody, hgroups, rfl⟩

mutual

theorem accepts_of_body : ∀ {b : BodyLayout} {type path : String} {named : NamedBody},
    n.body type path b = .ok named → ∀ c ∈ b.bodies, n.Accepts c.uses
  | ⟨blockLength, fields, groups, varData⟩, type, path, named, h, c, hc => by
    obtain ⟨_, _, _, _, hfields, hheads, hdata, hgroups, -⟩ := parts_of_body h
    rw [BodyLayout.bodies, List.mem_cons] at hc
    rcases hc with rfl | hc
    · unfold BodyLayout.uses
      rw [accepts_append, accepts_append]
      refine ⟨⟨accepts_of_fields hfields, accepts_flatMap.2 fun g hg => ?_⟩,
        accepts_map.2 fun d hd => ?_⟩
      · obtain ⟨head, hhead⟩ := exists_of_mapM hheads hg
        obtain ⟨member, hmember, hhead⟩ := bind_eq_ok_iff.1 hhead
        obtain ⟨type, htype, -⟩ := bind_eq_ok_iff.1 hhead
        simp only [accepts_cons, accepts_nil, and_true]
        exact ⟨⟨member, hmember⟩, type, htype⟩
      · obtain ⟨data, hdata⟩ := exists_of_mapM hdata hd
        obtain ⟨member, hmember, -⟩ := bind_eq_ok_iff.1 hdata
        exact ⟨member, hmember⟩
    · exact accepts_of_groupBodies hgroups c hc

theorem accepts_of_groupBodies : ∀ {groups : List GroupLayout} {type path : String}
    {named : List NamedGroup}, n.groupBodies type path groups = .ok named →
      ∀ c ∈ groupsBodies groups, n.Accepts c.uses
  | [], _, _, _, _, c, hc => by simp [groupsBodies] at hc
  | ⟨name, _, _, dimension, body, _⟩ :: groups, type, path, named, h, c, hc => by
    obtain ⟨_, _, _, _, -, -, hbody, hgroups, -⟩ := parts_of_groupBodies h
    rw [groupsBodies, List.mem_append] at hc
    rcases hc with hc | hc
    · exact accepts_of_body hbody c hc
    · exact accepts_of_groupBodies hgroups c hc

end

theorem type_of_body {b : BodyLayout} {type path : String} {named : NamedBody}
    (h : n.body type path b = .ok named) : named.type = type := by
  obtain ⟨blockLength, fields, groups, varData⟩ := b
  obtain ⟨_, _, _, _, -, -, -, -, rfl⟩ := parts_of_body h
  rfl

mutual

theorem plain_of_body : ∀ {b : BodyLayout} {type path : String} {named : NamedBody},
    n.body type path b = .ok named → IsPlain type → ∀ c ∈ named.nested, IsPlain c.type
  | ⟨blockLength, fields, groups, varData⟩, type, path, named, h, hplain, c, hc => by
    obtain ⟨_, _, _, _, -, -, -, hgroups, rfl⟩ := parts_of_body h
    rw [NamedBody.nested] at hc
    exact plain_of_groupBodies hgroups hplain c hc

theorem plain_of_groupBodies : ∀ {groups : List GroupLayout} {type path : String}
    {named : List NamedGroup}, n.groupBodies type path groups = .ok named → IsPlain type →
      ∀ c ∈ nestedBodies named, IsPlain c.type
  | [], _, _, named, h, _, c, hc => by
    cases h
    simp [nestedBodies] at hc
  | ⟨name, _, _, dimension, body, _⟩ :: groups, type, path, named, h, hplain, c, hc => by
    obtain ⟨_, suffix, _, _, -, htype, hbody, hgroups, rfl⟩ := parts_of_groupBodies h
    have hsuffix : IsPlain (type ++ suffix) := hplain.append (plain_of_identifier .type htype)
    rw [nestedBodies, List.mem_append, List.mem_cons] at hc
    rcases hc with (rfl | hc) | hc
    · rw [type_of_body hbody]
      exact hsuffix
    · exact plain_of_body hbody hsuffix c hc
    · exact plain_of_groupBodies hgroups hplain c hc

end

/-! ## Imports -/

theorem mem_insertType {p : String × TypeSort} {name : String} {sort : TypeSort} :
    ∀ {types : List (String × TypeSort)}, p ∈ usedTypes.insertType name sort types →
      p = (name, sort) ∨ p ∈ types
  | [], h => by
    rw [usedTypes.insertType, List.mem_singleton] at h
    exact .inl h
  | t :: ts, h => by
    rw [usedTypes.insertType] at h
    split at h
    · exact List.mem_cons.1 h
    · split at h
      · rcases List.mem_cons.1 h with h | h
        · exact .inl h
        · exact .inr (List.mem_cons_of_mem _ h)
      · rcases List.mem_cons.1 h with rfl | h
        · exact .inr List.mem_cons_self
        · exact (mem_insertType h).imp_right (List.mem_cons_of_mem _)

/-- A type is used by one of the fields. -/
theorem exists_of_mem_usedTypes {p : String × TypeSort} {fields : List FieldLayout}
    (h : p ∈ usedTypes fields) : ∃ f ∈ fields, f.kind.typeName? = some p.1 := by
  unfold usedTypes at h
  induction fields using List.reverseRecOn with
  | nil => simp at h
  | append_singleton fs f ih =>
    rw [List.foldl_append, List.foldl_cons, List.foldl_nil] at h
    have hold : p ∈ usedTypes fs → ∃ g ∈ fs ++ [f], g.kind.typeName? = some p.1 := fun hp => by
      obtain ⟨g, hg, hname⟩ := ih hp
      exact ⟨g, List.mem_append_left _ hg, hname⟩
    split at h
    · rename_i name sort hname _
      rcases mem_insertType h with rfl | h
      · exact ⟨f, by simp, hname⟩
      · exact hold h
    · exact hold h

/-- What is imported is the type of a field, from the file of that type's name. -/
theorem exists_of_mem_imports {fields : List FieldLayout} {imports : List Import}
    (h : n.imports fields = .ok imports) : ∀ i ∈ imports, IsPlain i.type ∧ ∃ f ∈ fields, ∃ name,
      f.kind.typeName? = some name ∧ n.moduleName name = .ok i.file := by
  intro i hi
  have hused : ∃ p ∈ usedTypes fields,
      (do return Import.mk (← n.type p.1) (← n.moduleName p.1) p.2) = Except.ok i := by
    unfold Namer.imports at h
    split at h
    · cases h
      simp at hi
    · exact exists_of_mem_mapM h hi
    · exact exists_of_mem_mapM h hi
  obtain ⟨⟨name, sort⟩, hp, h⟩ := hused
  obtain ⟨type, htype, h⟩ := bind_eq_ok_iff.1 h
  obtain ⟨file, hfile, h⟩ := bind_eq_ok_iff.1 h
  cases h
  obtain ⟨f, hf, hname⟩ := exists_of_mem_usedTypes hp
  exact ⟨plain_of_identifier .type htype, f, hf, name, hname, hfile⟩

/-! ## Units -/

/-- The unit of an element: its file has the element's name, it imports the types of the element's
fields, and it declares plain names only. -/
structure IsUnit (n : Namer) (name : String) (fields : List FieldLayout) (u : SourceUnit) :
    Prop where
  file : n.moduleName name = .ok u.file
  imports : n.imports fields = .ok u.imports
  declared : ∀ s ∈ u.element.declared, IsPlain s

theorem imports_nil (n : Namer) : n.imports [] = .ok [] := by
  obtain ⟨language, policy⟩ := n
  cases language <;> rfl

theorem accepts_fileUses {name type file : String} (ht : n.type name = .ok type)
    (hf : n.moduleName name = .ok file) : n.Accepts (fileUses name) := by
  simp only [fileUses, accepts_cons, accepts_nil, and_true]
  exact ⟨⟨type, ht⟩, file, hf⟩

theorem parts_of_composite {c : CompositeLayout} {u : SourceUnit} (h : n.composite c = .ok u) :
    ∃ type members imports file, n.type c.typeName = .ok type
      ∧ c.members.mapM n.field = .ok members ∧ n.imports c.members = .ok imports
      ∧ n.moduleName c.typeName = .ok file ∧ u = ⟨file, imports, .composite type c members⟩ := by
  obtain ⟨type, htype, h⟩ := bind_eq_ok_iff.1 h
  obtain ⟨members, hmembers, h⟩ := bind_eq_ok_iff.1 h
  obtain ⟨imports, himports, h⟩ := bind_eq_ok_iff.1 h
  obtain ⟨file, hfile, h⟩ := bind_eq_ok_iff.1 h
  cases h
  exact ⟨_, _, _, _, htype, hmembers, himports, hfile, rfl⟩

theorem parts_of_enumeration {e : EnumLayout} {u : SourceUnit} (h : n.enumeration e = .ok u) :
    ∃ type values null constant file, n.type e.typeName = .ok type
      ∧ (e.values.mapM fun v => do return (← n.variant v.name, v.value)) = .ok values
      ∧ n.variant EnumLayout.nullName = .ok null ∧ n.constant e.typeName = .ok constant
      ∧ n.moduleName e.typeName = .ok file
      ∧ u = ⟨file, [], .enumeration type constant e values null⟩ := by
  obtain ⟨type, htype, h⟩ := bind_eq_ok_iff.1 h
  obtain ⟨values, hvalues, h⟩ := bind_eq_ok_iff.1 h
  obtain ⟨null, hnull, h⟩ := bind_eq_ok_iff.1 h
  obtain ⟨constant, hconstant, h⟩ := bind_eq_ok_iff.1 h
  obtain ⟨file, hfile, h⟩ := bind_eq_ok_iff.1 h
  cases h
  exact ⟨_, _, _, _, _, htype, hvalues, hnull, hconstant, hfile, rfl⟩

theorem parts_of_set {s : SetLayout} {u : SourceUnit} (h : n.set s = .ok u) :
    ∃ type choices file, n.type s.typeName = .ok type
      ∧ (s.choices.mapM fun c => do
        return NamedChoice.mk (← n.member c.name) (← n.member ("set_" ++ c.name)) c.bit)
          = .ok choices
      ∧ n.moduleName s.typeName = .ok file ∧ u = ⟨file, [], .set type s choices⟩ := by
  obtain ⟨type, htype, h⟩ := bind_eq_ok_iff.1 h
  obtain ⟨choices, hchoices, h⟩ := bind_eq_ok_iff.1 h
  obtain ⟨file, hfile, h⟩ := bind_eq_ok_iff.1 h
  cases h
  exact ⟨_, _, _, htype, hchoices, hfile, rfl⟩

theorem parts_of_message {m : MessageLayout} {u : SourceUnit} (h : n.message m = .ok u) :
    ∃ type named imports file, n.type m.name = .ok type
      ∧ n.body type m.name m.body = .ok named ∧ n.imports m.body.allFields = .ok imports
      ∧ n.moduleName m.name = .ok file ∧ u = ⟨file, imports, .message m named⟩ := by
  obtain ⟨type, htype, h⟩ := bind_eq_ok_iff.1 h
  obtain ⟨named, hbody, h⟩ := bind_eq_ok_iff.1 h
  obtain ⟨imports, himports, h⟩ := bind_eq_ok_iff.1 h
  obtain ⟨file, hfile, h⟩ := bind_eq_ok_iff.1 h
  cases h
  exact ⟨_, _, _, _, htype, hbody, himports, hfile, rfl⟩

theorem isUnit_of_composite {c : CompositeLayout} {u : SourceUnit} (h : n.composite c = .ok u) :
    n.IsUnit c.typeName c.members u ∧ u.typeName? = some c.typeName
      ∧ n.Accepts (TypeLayout.composite c).uses := by
  obtain ⟨_, _, _, _, htype, hmembers, himports, hfile, rfl⟩ := parts_of_composite h
  refine ⟨⟨hfile, himports, ?_⟩, rfl, ?_⟩
  · simpa [NamedElement.declared] using plain_of_identifier .type htype
  · exact accepts_append.2 ⟨accepts_fileUses htype hfile, accepts_of_fields hmembers⟩

theorem isUnit_of_enumeration {e : EnumLayout} {u : SourceUnit} (h : n.enumeration e = .ok u) :
    n.IsUnit e.typeName [] u ∧ u.typeName? = some e.typeName
      ∧ n.Accepts (TypeLayout.enumeration e).uses := by
  obtain ⟨_, _, _, _, _, htype, hvalues, -, hconstant, hfile, rfl⟩ := parts_of_enumeration h
  refine ⟨⟨hfile, imports_nil n, ?_⟩, rfl, accepts_append.2 ⟨accepts_fileUses htype hfile, ?_⟩⟩
  · have htype := plain_of_identifier .type htype
    have hconstant := plain_of_identifier .constant hconstant
    simpa [NamedElement.declared] using ⟨htype, hconstant⟩
  · rw [TypeLayout.innerUses, accepts_map]
    intro v hv
    obtain ⟨named, hnamed⟩ := exists_of_mapM hvalues hv
    obtain ⟨variant, hvariant, -⟩ := bind_eq_ok_iff.1 hnamed
    exact ⟨variant, hvariant⟩

theorem isUnit_of_set {s : SetLayout} {u : SourceUnit} (h : n.set s = .ok u) :
    n.IsUnit s.typeName [] u ∧ u.typeName? = some s.typeName
      ∧ n.Accepts (TypeLayout.set s).uses := by
  obtain ⟨_, _, _, htype, hchoices, hfile, rfl⟩ := parts_of_set h
  refine ⟨⟨hfile, imports_nil n, ?_⟩, rfl, accepts_append.2 ⟨accepts_fileUses htype hfile, ?_⟩⟩
  · simpa [NamedElement.declared] using plain_of_identifier .type htype
  · rw [TypeLayout.innerUses, accepts_map]
    intro c hc
    obtain ⟨named, hnamed⟩ := exists_of_mapM hchoices hc
    obtain ⟨getter, hgetter, -⟩ := bind_eq_ok_iff.1 hnamed
    exact ⟨getter, hgetter⟩

theorem isUnit_of_typeUnit {t : TypeLayout} {u : SourceUnit} (h : n.typeUnit t = .ok u) :
    n.IsUnit t.name t.fields u ∧ u.typeName? = some t.name ∧ n.Accepts t.uses := by
  cases t with
  | composite c => exact isUnit_of_composite h
  | enumeration e => exact isUnit_of_enumeration h
  | set s => exact isUnit_of_set h

theorem isUnit_of_message {m : MessageLayout} {u : SourceUnit} (h : n.message m = .ok u) :
    n.IsUnit m.name m.body.allFields u ∧ u.typeName? = none ∧ n.Accepts m.uses := by
  obtain ⟨_, _, _, _, htype, hbody, himports, hfile, rfl⟩ := parts_of_message h
  refine ⟨⟨hfile, himports, ?_⟩, rfl, accepts_append.2 ⟨accepts_fileUses htype hfile, ?_⟩⟩
  · have hplain := plain_of_identifier .type htype
    simp only [NamedElement.declared, List.forall_mem_cons, List.forall_mem_map]
    rw [type_of_body hbody]
    exact ⟨hplain, plain_of_body hbody hplain⟩
  · exact accepts_flatMap.2 (accepts_of_body hbody)

end Namer

/-! ## Packages -/

theorem mapError_eq_ok_iff {ε ε' α : Type} {f : ε → ε'} {x : Except ε α} {a : α} :
    x.mapError f = .ok a ↔ x = .ok a := by
  cases x <;> simp [Except.mapError]

theorem mapError_eq_error_iff {ε ε' α : Type} {f : ε → ε'} {x : Except ε α} {e' : ε'} :
    x.mapError f = .error e' ↔ ∃ e, x = .error e ∧ f e = e' := by
  cases x <;> simp [Except.mapError]

/-- Without a name that is repeated all names differ, also from those seen before. -/
theorem nodup_of_repeatedName? : ∀ {seen : List String} {files : List SourceFile},
    repeatedName? seen files = none →
      (files.map (·.name)).Nodup ∧ ∀ f ∈ files, f.name ∉ seen
  | _, [], _ => by simp
  | seen, f :: fs, h => by
    rw [repeatedName?] at h
    split at h
    · simp at h
    · rename_i hseen
      obtain ⟨hnodup, hfresh⟩ := nodup_of_repeatedName? h
      rw [List.map_cons, List.nodup_cons, List.forall_mem_cons]
      refine ⟨⟨fun hmem => ?_, hnodup⟩, by simpa using hseen, fun g hg hname => ?_⟩
      · obtain ⟨g, hg, hname⟩ := List.mem_map.1 hmem
        exact hfresh g hg (hname ▸ List.mem_cons_self)
      · exact hfresh g hg (List.mem_cons_of_mem _ hname)

namespace SchemaLayout

/-- The files of a package without its root. -/
def frontFiles (l : SchemaLayout) (language : Language) (units : List SourceUnit) :
    List SourceFile :=
  language.dialect.support.toList ++ units.map (language.dialect.unitFile l)

theorem sourceUnits_eq_ok_iff {l : SchemaLayout} {n : Namer} {units : List SourceUnit} :
    l.sourceUnits n = .ok units ↔ ∃ types messages, l.sourceTypes.mapM n.typeUnit = .ok types
      ∧ l.messages.mapM n.message = .ok messages ∧ units = types ++ messages := by
  unfold sourceUnits
  simp only [bind_eq_ok_iff, pure_eq_ok_iff]
  constructor
  · rintro ⟨types, htypes, messages, hmessages, rfl⟩
    exact ⟨types, messages, htypes, hmessages, rfl⟩
  · rintro ⟨types, messages, htypes, hmessages, rfl⟩
    exact ⟨types, htypes, messages, hmessages, rfl⟩

/-- The unit of a message or of a type. -/
theorem exists_of_mem_sourceUnits {l : SchemaLayout} {n : Namer} {units : List SourceUnit}
    (h : l.sourceUnits n = .ok units) {u : SourceUnit} (hu : u ∈ units) :
    (∃ t ∈ l.sourceTypes, n.typeUnit t = .ok u) ∨ ∃ m ∈ l.messages, n.message m = .ok u := by
  obtain ⟨types, messages, htypes, hmessages, rfl⟩ := sourceUnits_eq_ok_iff.1 h
  rcases List.mem_append.1 hu with hu | hu
  · exact .inl (exists_of_mem_mapM htypes hu)
  · exact .inr (exists_of_mem_mapM hmessages hu)

end SchemaLayout

/-- The files of a schema are those of its units, each of a name of its own. -/
theorem Schema.sources_eq_ok_iff {s : Schema} {config : SourceConfig} {files : List SourceFile} :
    s.sources config = .ok files ↔ ∃ l units, SchemaLayout.resolve s = .ok l
      ∧ l.sourceUnits config.namer = .ok units
      ∧ files = l.frontFiles config.language units
        ++ [config.language.dialect.indexFile l (l.frontFiles config.language units)]
      ∧ repeatedName? [] files = none := by
  unfold Schema.sources SchemaLayout.sourceFiles
  simp only [bind_eq_ok_iff, mapError_eq_ok_iff, pure_eq_ok_iff]
  constructor
  · rintro ⟨l, hl, files', ⟨units, hunits, rfl⟩, h⟩
    split at h
    · exact absurd h throw_ne_ok
    · rename_i hnone
      cases h
      exact ⟨l, units, hl, hunits, rfl, hnone⟩
  · rintro ⟨l, units, hl, hunits, rfl, hnone⟩
    refine ⟨l, hl, _, ⟨units, hunits, rfl⟩, ?_⟩
    split
    · rename_i name hname
      exact absurd (hname.symm.trans hnone) (by simp)
    · rfl

theorem Schema.exists_sources {s : Schema} {config : SourceConfig} {l : SchemaLayout}
    (hl : SchemaLayout.resolve s = .ok l)
    (hfiles : ((l.sourceUnits config.namer).toOption.map fun units =>
      repeatedName? [] (l.frontFiles config.language units
        ++ [config.language.dialect.indexFile l (l.frontFiles config.language units)]))
      = some none) :
    ∃ files, s.sources config = .ok files := by
  obtain ⟨units, hunits, hnone⟩ := Option.map_eq_some_iff.1 hfiles
  exact ⟨_, sources_eq_ok_iff.2 ⟨l, units, hl, toOption_eq_some_iff.1 hunits, rfl, hnone⟩⟩

end SimpleBinary
