import Mathlib
import SimpleBinary.Proofs.FreeTexts
import SimpleBinary.Proofs.Naming

/-!
# Free texts do not name anything

No identifier, file or import is made of a free text: the units of a schema without texts are those
of the schema, up to the texts that they are written from (`SchemaLayout.sourceUnits_withoutTexts`).
-/

namespace SimpleBinary

/-! ## Named elements without texts -/

def NamedKind.withoutTexts : NamedKind → NamedKind
  | .primitive p constant => .primitive p.withoutTexts constant
  | .composite type => .composite type
  | .enumeration e type null => .enumeration e.withoutTexts type null
  | .set s type => .set s.withoutTexts type

def NamedField.withoutTexts (f : NamedField) : NamedField :=
  { f with kind := f.kind.withoutTexts }

def NamedVarData.withoutTexts (d : NamedVarData) : NamedVarData :=
  { d with layout := d.layout.withoutTexts }

mutual

def NamedBody.withoutTexts : NamedBody → NamedBody
  | ⟨type, path, layout, fields, groups, varData⟩ =>
    ⟨type, path, layout.withoutTexts, fields.map (·.withoutTexts), namedGroupsWithoutTexts groups,
      varData.map (·.withoutTexts)⟩

def namedGroupsWithoutTexts : List NamedGroup → List NamedGroup
  | [] => []
  | ⟨member, dimension, body⟩ :: groups =>
    ⟨member, dimension, body.withoutTexts⟩ :: namedGroupsWithoutTexts groups

end

def NamedGroup.withoutTexts (g : NamedGroup) : NamedGroup := { g with body := g.body.withoutTexts }

def NamedElement.withoutTexts : NamedElement → NamedElement
  | .composite type c members => .composite type c.withoutTexts (members.map (·.withoutTexts))
  | .enumeration type constant e values null =>
    .enumeration type constant e.withoutTexts values null
  | .set type s choices => .set type s.withoutTexts choices
  | .message m body => .message m.withoutTexts body.withoutTexts

def SourceUnit.withoutTexts (u : SourceUnit) : SourceUnit :=
  { u with element := u.element.withoutTexts }

theorem namedGroupsWithoutTexts_eq (groups : List NamedGroup) :
    namedGroupsWithoutTexts groups = groups.map (·.withoutTexts) := by
  induction groups with
  | nil => rfl
  | cons g groups ih =>
    obtain ⟨member, dimension, body⟩ := g
    rw [namedGroupsWithoutTexts, ih, List.map_cons]
    rfl

theorem NamedBody.withoutTexts_eq (b : NamedBody) : b.withoutTexts
    = ⟨b.type, b.path, b.layout.withoutTexts, b.fields.map (·.withoutTexts),
      b.groups.map (·.withoutTexts), b.varData.map (·.withoutTexts)⟩ := by
  obtain ⟨type, path, layout, fields, groups, varData⟩ := b
  rw [withoutTexts, namedGroupsWithoutTexts_eq]

namespace NamedBody

variable (b : NamedBody)

@[simp]
theorem type_withoutTexts : b.withoutTexts.type = b.type := by rw [withoutTexts_eq]

@[simp]
theorem path_withoutTexts : b.withoutTexts.path = b.path := by rw [withoutTexts_eq]

@[simp]
theorem layout_withoutTexts : b.withoutTexts.layout = b.layout.withoutTexts := by
  rw [withoutTexts_eq]

@[simp]
theorem fields_withoutTexts : b.withoutTexts.fields = b.fields.map (·.withoutTexts) := by
  rw [withoutTexts_eq]

@[simp]
theorem groups_withoutTexts : b.withoutTexts.groups = b.groups.map (·.withoutTexts) := by
  rw [withoutTexts_eq]

@[simp]
theorem varData_withoutTexts : b.withoutTexts.varData = b.varData.map (·.withoutTexts) := by
  rw [withoutTexts_eq]

end NamedBody

mutual

theorem NamedBody.nested_withoutTexts : ∀ b : NamedBody,
    b.withoutTexts.nested = b.nested.map (·.withoutTexts)
  | ⟨_, _, _, _, groups, _⟩ => by
    rw [NamedBody.withoutTexts, NamedBody.nested, NamedBody.nested,
      nestedBodies_withoutTexts groups]

theorem nestedBodies_withoutTexts : ∀ groups : List NamedGroup,
    nestedBodies (namedGroupsWithoutTexts groups) = (nestedBodies groups).map (·.withoutTexts)
  | [] => rfl
  | ⟨_, _, body⟩ :: groups => by
    rw [namedGroupsWithoutTexts, nestedBodies, nestedBodies, body.nested_withoutTexts,
      nestedBodies_withoutTexts groups, List.map_append, List.map_cons]

end

/-! ## Naming -/

namespace Namer

variable (n : Namer)

theorem kind_withoutTexts (name : String) (k : FieldKind) :
    n.kind name k.withoutTexts = (n.kind name k).map (·.withoutTexts) := by
  cases k with
  | primitive p => exact bind_eq_map_right fun constant => rfl
  | composite c =>
    rw [FieldKind.withoutTexts_composite]
    exact bind_eq_map_right fun type => rfl
  | enumeration e => exact bind_eq_map_right fun type => bind_eq_map_right fun null => rfl
  | set s => exact bind_eq_map_right fun type => rfl

theorem field_withoutTexts (f : FieldLayout) :
    n.field f.withoutTexts = (n.field f).map (·.withoutTexts) := by
  unfold field
  rw [f.stop_withoutTexts]
  exact bind_eq_map_right fun member => bind_eq_map (n.kind_withoutTexts f.name f.kind)
    fun kind => rfl

theorem fields_withoutTexts (fields : List FieldLayout) :
    (fields.map (·.withoutTexts)).mapM n.field
      = (fields.mapM n.field).map (List.map (·.withoutTexts)) := by
  rw [List.mapM_map]
  exact mapM_eq_map fun f _ => n.field_withoutTexts f

theorem varData_withoutTexts (path : String) (d : VarDataLayout) :
    n.varData path d.withoutTexts = (n.varData path d).map (·.withoutTexts) :=
  bind_eq_map_right fun _ => rfl

mutual

theorem body_withoutTexts (type path : String) : ∀ b : BodyLayout,
    n.body type path b.withoutTexts = (n.body type path b).map (·.withoutTexts)
  | ⟨blockLength, fields, groups, varData⟩ => by
    rw [BodyLayout.withoutTexts, body, body]
    refine bind_eq_map (n.fields_withoutTexts fields) fun namedFields => ?_
    have hheads : ((groupsWithoutTexts groups).mapM fun g => n.groupHead g.name)
        = groups.mapM fun g => n.groupHead g.name := by
      rw [groupsWithoutTexts_eq, List.mapM_map]
      rfl
    rw [hheads]
    refine bind_eq_map_right fun heads => ?_
    refine bind_eq_map (m := List.map (·.withoutTexts)) ?_ fun namedData => ?_
    · rw [List.mapM_map]
      exact mapM_eq_map fun d _ => n.varData_withoutTexts path d
    · exact bind_eq_map (groupBodies_withoutTexts type path groups) fun namedGroups => rfl

theorem groupBodies_withoutTexts (type path : String) : ∀ groups : List GroupLayout,
    n.groupBodies type path (groupsWithoutTexts groups)
      = (n.groupBodies type path groups).map namedGroupsWithoutTexts
  | [] => rfl
  | ⟨name, _, _, dimension, layout, _⟩ :: groups => by
    rw [groupsWithoutTexts, groupBodies, groupBodies]
    refine bind_eq_map_right fun head => ?_
    refine bind_eq_map (body_withoutTexts _ _ layout) fun named => ?_
    exact bind_eq_map (groupBodies_withoutTexts type path groups) fun rest => rfl

end

theorem imports_withoutTexts (fields : List FieldLayout) :
    n.imports (fields.map (·.withoutTexts)) = n.imports fields := by
  have hsort : ∀ k : FieldKind, k.withoutTexts.sort? = k.sort? := by
    intro k
    cases k with
    | composite c => rw [FieldKind.withoutTexts_composite]; rfl
    | primitive p | enumeration e | set s => rfl
  have hused : usedTypes (fields.map (·.withoutTexts)) = usedTypes fields := by
    unfold usedTypes
    rw [List.foldl_map]
    simp only [FieldLayout.withoutTexts, FieldKind.typeName?_withoutTexts, hsort]
  unfold imports
  rw [hused]

theorem composite_withoutTexts (c : CompositeLayout) :
    n.composite c.withoutTexts = (n.composite c).map (·.withoutTexts) := by
  unfold composite CompositeLayout.withoutTexts
  dsimp only
  rw [imports_withoutTexts]
  exact bind_eq_map_right fun type => bind_eq_map (n.fields_withoutTexts c.members) fun members =>
    bind_eq_map_right fun imports => bind_eq_map_right fun file => rfl

theorem enumeration_withoutTexts (e : EnumLayout) :
    n.enumeration e.withoutTexts = (n.enumeration e).map (·.withoutTexts) :=
  bind_eq_map_right fun _ => bind_eq_map_right fun _ => bind_eq_map_right fun _ =>
    bind_eq_map_right fun _ => bind_eq_map_right fun _ => rfl

theorem set_withoutTexts (s : SetLayout) :
    n.set s.withoutTexts = (n.set s).map (·.withoutTexts) :=
  bind_eq_map_right fun _ => bind_eq_map_right fun _ => bind_eq_map_right fun _ => rfl

theorem typeUnit_withoutTexts (t : TypeLayout) :
    n.typeUnit t.withoutTexts = (n.typeUnit t).map (·.withoutTexts) := by
  cases t with
  | composite c => exact n.composite_withoutTexts c
  | enumeration e => exact n.enumeration_withoutTexts e
  | set s => exact n.set_withoutTexts s

end Namer

mutual

theorem BodyLayout.allFields_withoutTexts : ∀ b : BodyLayout,
    b.withoutTexts.allFields = b.allFields.map (·.withoutTexts)
  | ⟨_, fields, groups, _⟩ => by
    rw [BodyLayout.withoutTexts, BodyLayout.allFields, BodyLayout.allFields,
      allGroupFields_withoutTexts groups, List.map_append]

theorem allGroupFields_withoutTexts : ∀ groups : List GroupLayout,
    allGroupFields (groupsWithoutTexts groups) = (allGroupFields groups).map (·.withoutTexts)
  | [] => rfl
  | ⟨_, _, _, _, body, _⟩ :: groups => by
    rw [groupsWithoutTexts, allGroupFields, allGroupFields, body.allFields_withoutTexts,
      allGroupFields_withoutTexts groups, List.map_append]

end

theorem Namer.message_withoutTexts (n : Namer) (m : MessageLayout) :
    n.message m.withoutTexts = (n.message m).map (·.withoutTexts) := by
  unfold message MessageLayout.withoutTexts
  dsimp only
  rw [BodyLayout.allFields_withoutTexts, imports_withoutTexts]
  exact bind_eq_map_right fun type => bind_eq_map (n.body_withoutTexts type m.name m.body)
    fun body => bind_eq_map_right fun imports => bind_eq_map_right fun file => rfl

/-! ## Types found inside composites -/

theorem FieldLayout.type?_withoutTexts (f : FieldLayout) :
    f.withoutTexts.type? = f.type?.map (·.withoutTexts) := by
  obtain ⟨name, id, sinceVersion, offset, description, kind⟩ := f
  cases kind with
  | composite c =>
    rw [FieldLayout.withoutTexts, FieldKind.withoutTexts_composite]
    rfl
  | primitive p | enumeration e | set s => rfl

theorem CompositeLayout.memberTypes_withoutTexts (c : CompositeLayout) :
    c.withoutTexts.memberTypes = c.memberTypes.map (·.withoutTexts) := by
  unfold memberTypes CompositeLayout.withoutTexts
  rw [List.filterMap_map, List.map_filterMap]
  exact List.filterMap_congr fun f _ => f.type?_withoutTexts

mutual

theorem CompositeLayout.selfAndNested_withoutTexts : ∀ c : CompositeLayout,
    c.withoutTexts.selfAndNested = c.selfAndNested.map (·.withoutTexts)
  | ⟨typeName, encodedLength, members, description⟩ => by
    rw [CompositeLayout.withoutTexts, ← fieldsWithoutTexts_eq, CompositeLayout.selfAndNested,
      CompositeLayout.selfAndNested, nestedComposites_withoutTexts members, List.map_cons,
      CompositeLayout.withoutTexts, ← fieldsWithoutTexts_eq]

theorem nestedComposites_withoutTexts (fields : List FieldLayout) :
    nestedComposites (fieldsWithoutTexts fields)
      = (nestedComposites fields).map (·.withoutTexts) := by
  cases fields with
  | nil => rfl
  | cons f fields =>
    cases f with
    | mk name id sinceVersion offset description kind =>
      rw [fieldsWithoutTexts, nestedComposites, nestedComposites,
        nestedComposites_withoutTexts fields, kind.composites_withoutTexts, List.map_append]

theorem FieldKind.composites_withoutTexts : ∀ k : FieldKind,
    k.withoutTexts.composites = k.composites.map (·.withoutTexts)
  | .composite c => by
    rw [FieldKind.withoutTexts_composite, FieldKind.composites, FieldKind.composites,
      c.selfAndNested_withoutTexts]
  | .primitive _ | .enumeration _ | .set _ => rfl

end

theorem newTypes_withoutTexts : ∀ (known : List String) (types : List TypeLayout),
    newTypes known (types.map (·.withoutTexts)) = (newTypes known types).map (·.withoutTexts)
  | _, [] => rfl
  | known, t :: types => by
    rw [List.map_cons, newTypes, newTypes, t.name_withoutTexts, newTypes_withoutTexts known types,
      newTypes_withoutTexts (t.name :: known) types]
    split <;> rfl

/-! ## Units -/

namespace SchemaLayout

variable (l : SchemaLayout)

theorem inlineTypes_withoutTexts :
    l.withoutTexts.inlineTypes = l.inlineTypes.map (·.withoutTexts) := by
  have hcomposite : ∀ t : TypeLayout,
      t.withoutTexts.composite? = t.composite?.map (·.withoutTexts) :=
    fun t => by cases t <;> rfl
  have houter : (l.types.map (·.withoutTexts)).filterMap (·.composite?)
      = (l.types.filterMap (·.composite?)).map (·.withoutTexts) := by
    rw [List.filterMap_map, List.map_filterMap]
    exact List.filterMap_congr fun t _ => hcomposite t
  have hnames : (l.types.map (·.withoutTexts)).map (·.name) = l.types.map (·.name) := by
    rw [List.map_map]
    exact List.map_congr_left fun t _ => t.name_withoutTexts
  unfold inlineTypes
  show newTypes (l.header.composite.typeName :: (l.types.map (·.withoutTexts)).map (·.name))
    ((l.header.composite.withoutTexts
      :: (l.types.map (·.withoutTexts)).filterMap (·.composite?)).reverse.flatMap
        fun c => c.selfAndNested.flatMap (·.memberTypes)) = _
  rw [hnames, houter, ← List.map_cons, ← List.map_reverse, List.flatMap_map,
    ← newTypes_withoutTexts, List.map_flatMap]
  simp only [CompositeLayout.selfAndNested_withoutTexts, List.flatMap_map, List.map_flatMap,
    CompositeLayout.memberTypes_withoutTexts]

theorem sourceTypes_withoutTexts :
    l.withoutTexts.sourceTypes = l.sourceTypes.map (·.withoutTexts) := by
  have hnamed : (l.withoutTexts.typeNamed? l.withoutTexts.header.composite.typeName).isNone
      = (l.typeNamed? l.header.composite.typeName).isNone := by
    unfold typeNamed? SchemaLayout.withoutTexts
    rw [List.find?_map, Option.isNone_map]
    refine congrArg (fun p => (l.types.find? p).isNone) (funext fun t => ?_)
    exact congrArg (· == l.header.composite.typeName) t.name_withoutTexts
  unfold sourceTypes
  dsimp only
  rw [hnamed, inlineTypes_withoutTexts, List.map_append, List.map_append]
  split <;> rfl

/-- The units of a schema without texts are those of the schema without theirs. -/
theorem sourceUnits_withoutTexts (n : Namer) : l.withoutTexts.sourceUnits n
    = (l.sourceUnits n).map (List.map (·.withoutTexts)) := by
  have hmessages : (l.messages.map (·.withoutTexts)).mapM n.message
      = (l.messages.mapM n.message).map (List.map (·.withoutTexts)) := by
    rw [List.mapM_map]
    exact mapM_eq_map fun m _ => n.message_withoutTexts m
  unfold sourceUnits
  rw [sourceTypes_withoutTexts, List.mapM_map]
  refine bind_eq_map (mapM_eq_map fun t _ => n.typeUnit_withoutTexts t) fun types => ?_
  refine bind_eq_map hmessages fun messages => ?_
  exact congrArg Except.ok List.map_append.symm

end SchemaLayout

end SimpleBinary
