import Mathlib
import SimpleBinary.Layout.Schema
import SimpleBinary.Proofs.Layouts
import SimpleBinary.Proofs.Streams

/-!
# Free texts do not steer a layout

The name of a package, descriptions and character encodings are texts that a schema holds for its
readers.  Laying a schema out hands them on and asks at most whether they are there: a schema whose
texts are made empty is accepted or refused as the schema is, for the same reason, and its layout
differs from the schema's in these texts only (`SchemaLayout.resolve_withoutTexts`).
-/

namespace SimpleBinary

/-! ## Without texts -/

/-- Nothing in place of a text that is there. -/
def emptied (text : Option String) : Option String := text.map fun _ => ""

@[simp]
theorem isSome_emptied (text : Option String) : (emptied text).isSome = text.isSome := by
  cases text <;> rfl

theorem emptied_or (text other : Option String) :
    emptied (text.or other) = (emptied text).or (emptied other) := by
  cases text <;> rfl

def Encoding.withoutTexts (e : Encoding) : Encoding :=
  { e with characterEncoding := emptied e.characterEncoding }

def Token.withoutTexts (t : Token) : Token :=
  { t with description := emptied t.description, encoding := t.encoding.withoutTexts }

/-- A schema that differs from another one in free texts only has the same one without texts. -/
def Schema.withoutTexts (s : Schema) : Schema :=
  { s with
    package := emptied s.package
    header := s.header.map (·.withoutTexts)
    messages := s.messages.map (·.map (·.withoutTexts))
    types := s.types.map (·.map (·.withoutTexts)) }

def PrimitiveLayout.withoutTexts (p : PrimitiveLayout) : PrimitiveLayout :=
  { p with characterEncoding := emptied p.characterEncoding }

def EnumLayout.withoutTexts (e : EnumLayout) : EnumLayout :=
  { e with description := emptied e.description }

def SetLayout.withoutTexts (s : SetLayout) : SetLayout :=
  { s with description := emptied s.description }

mutual

def FieldKind.withoutTexts : FieldKind → FieldKind
  | .primitive p => .primitive p.withoutTexts
  | .composite ⟨typeName, encodedLength, members, description⟩ =>
    .composite ⟨typeName, encodedLength, fieldsWithoutTexts members, emptied description⟩
  | .enumeration e => .enumeration e.withoutTexts
  | .set s => .set s.withoutTexts

def fieldsWithoutTexts : List FieldLayout → List FieldLayout
  | [] => []
  | ⟨name, id, sinceVersion, offset, description, kind⟩ :: fields =>
    ⟨name, id, sinceVersion, offset, emptied description, kind.withoutTexts⟩
      :: fieldsWithoutTexts fields

end

def FieldLayout.withoutTexts (f : FieldLayout) : FieldLayout :=
  { f with description := emptied f.description, kind := f.kind.withoutTexts }

def CompositeLayout.withoutTexts (c : CompositeLayout) : CompositeLayout :=
  { c with members := c.members.map (·.withoutTexts), description := emptied c.description }

def VarDataLayout.withoutTexts (d : VarDataLayout) : VarDataLayout :=
  { d with
    characterEncoding := emptied d.characterEncoding
    description := emptied d.description }

mutual

def BodyLayout.withoutTexts : BodyLayout → BodyLayout
  | ⟨blockLength, fields, groups, varData⟩ =>
    ⟨blockLength, fields.map (·.withoutTexts), groupsWithoutTexts groups,
      varData.map (·.withoutTexts)⟩

def groupsWithoutTexts : List GroupLayout → List GroupLayout
  | [] => []
  | ⟨name, id, sinceVersion, dimension, body, description⟩ :: groups =>
    ⟨name, id, sinceVersion, dimension, body.withoutTexts, emptied description⟩
      :: groupsWithoutTexts groups

end

def GroupLayout.withoutTexts (g : GroupLayout) : GroupLayout :=
  { g with body := g.body.withoutTexts, description := emptied g.description }

def MessageLayout.withoutTexts (m : MessageLayout) : MessageLayout :=
  { m with description := emptied m.description, body := m.body.withoutTexts }

def HeaderLayout.withoutTexts (h : HeaderLayout) : HeaderLayout :=
  { h with composite := h.composite.withoutTexts }

def TypeLayout.withoutTexts : TypeLayout → TypeLayout
  | .composite c => .composite c.withoutTexts
  | .enumeration e => .enumeration e.withoutTexts
  | .set s => .set s.withoutTexts

def SchemaLayout.withoutTexts (l : SchemaLayout) : SchemaLayout :=
  { l with
    package := emptied l.package
    header := l.header.withoutTexts
    types := l.types.map (·.withoutTexts)
    messages := l.messages.map (·.withoutTexts) }

theorem fieldsWithoutTexts_eq (fields : List FieldLayout) :
    fieldsWithoutTexts fields = fields.map (·.withoutTexts) := by
  induction fields with
  | nil => rfl
  | cons f fields ih =>
    obtain ⟨name, id, sinceVersion, offset, description, kind⟩ := f
    rw [fieldsWithoutTexts, ih, List.map_cons]
    rfl

theorem groupsWithoutTexts_eq (groups : List GroupLayout) :
    groupsWithoutTexts groups = groups.map (·.withoutTexts) := by
  induction groups with
  | nil => rfl
  | cons g groups ih =>
    obtain ⟨name, id, sinceVersion, dimension, body, description⟩ := g
    rw [groupsWithoutTexts, ih, List.map_cons]
    rfl

theorem FieldKind.withoutTexts_composite (c : CompositeLayout) :
    (FieldKind.composite c).withoutTexts = .composite c.withoutTexts := by
  obtain ⟨typeName, encodedLength, members, description⟩ := c
  rw [withoutTexts, fieldsWithoutTexts_eq]
  rfl

theorem FieldKind.width_withoutTexts (k : FieldKind) : k.withoutTexts.width = k.width := by
  cases k with
  | composite c => rw [withoutTexts_composite]; rfl
  | primitive p | enumeration e | set s => rfl

theorem FieldKind.typeName?_withoutTexts (k : FieldKind) :
    k.withoutTexts.typeName? = k.typeName? := by
  cases k with
  | composite c => rw [withoutTexts_composite]; rfl
  | primitive p | enumeration e | set s => rfl

theorem BodyLayout.withoutTexts_eq (b : BodyLayout) : b.withoutTexts
    = ⟨b.blockLength, b.fields.map (·.withoutTexts), b.groups.map (·.withoutTexts),
      b.varData.map (·.withoutTexts)⟩ := by
  obtain ⟨blockLength, fields, groups, varData⟩ := b
  rw [withoutTexts, groupsWithoutTexts_eq]

@[simp]
theorem BodyLayout.blockLength_withoutTexts (b : BodyLayout) :
    b.withoutTexts.blockLength = b.blockLength := by rw [withoutTexts_eq]

@[simp]
theorem BodyLayout.isFixed_withoutTexts (b : BodyLayout) :
    b.withoutTexts.isFixed = b.isFixed := by
  rw [withoutTexts_eq, isFixed, isFixed, List.isEmpty_map, List.isEmpty_map]

@[simp]
theorem BodyLayout.trailerLength_withoutTexts (b : BodyLayout) :
    b.withoutTexts.trailerLength = b.trailerLength := by
  rw [withoutTexts_eq, trailerLength, trailerLength, List.foldr_map, List.foldr_map]
  rfl

theorem TypeLayout.name_withoutTexts (t : TypeLayout) : t.withoutTexts.name = t.name := by
  cases t <;> rfl

/-! ## Placing elements -/

theorem FieldLayout.stop_withoutTexts (f : FieldLayout) : f.withoutTexts.stop = f.stop :=
  congrArg (f.offset + ·) f.kind.width_withoutTexts

theorem placeMembers_withoutTexts : ∀ (cursor : Nat) (ms : List (Token × FieldKind)),
    placeMembers cursor (ms.map fun m => (m.1.withoutTexts, m.2.withoutTexts))
      = (placeMembers cursor ms).map (·.withoutTexts)
  | _, [] => rfl
  | cursor, (t, kind) :: ms => by
    have hstop := FieldLayout.stop_withoutTexts
      ⟨t.name, t.id, t.version, max cursor t.offset, t.description, kind⟩
    rw [List.map_cons, placeMembers, placeMembers, List.map_cons, ← placeMembers_withoutTexts _ ms,
      ← hstop]
    rfl

theorem CompositeLayout.ofMembers_withoutTexts (t : Token) (ms : List (Token × FieldKind)) :
    ofMembers t.withoutTexts (ms.map fun m => (m.1.withoutTexts, m.2.withoutTexts))
      = (ofMembers t ms).withoutTexts := by
  have hlast : ((placeMembers 0 ms).map (·.withoutTexts)).getLast?.map (·.stop)
      = (placeMembers 0 ms).getLast?.map (·.stop) := by
    rw [List.getLast?_map, Option.map_map]
    exact Option.map_congr fun f _ => f.stop_withoutTexts
  unfold ofMembers
  rw [placeMembers_withoutTexts]
  dsimp only
  rw [hlast]
  rfl

theorem BodyLayout.ofRegions_withoutTexts (owner : String) (blockLength : Nat)
    (fields : List FieldLayout) (groups : List GroupLayout) (varData : List VarDataLayout) :
    ofRegions owner blockLength (fields.map (·.withoutTexts)) (groups.map (·.withoutTexts))
        (varData.map (·.withoutTexts))
      = (ofRegions owner blockLength fields groups varData).map (·.withoutTexts) := by
  have hrequired : requiredLength (fields.map (·.withoutTexts)) = requiredLength fields := by
    unfold requiredLength
    rw [List.foldl_map]
    simp only [FieldLayout.stop_withoutTexts]
  unfold ofRegions
  rw [hrequired]
  dsimp only
  split_ifs
  · rfl
  · rw [Except.map, withoutTexts, groupsWithoutTexts_eq]

theorem HeaderSlot.ofMember_withoutTexts (c : CompositeLayout) (member : String) :
    ofMember c.withoutTexts member = ofMember c member := by
  have hmember : c.withoutTexts.member? member = (c.member? member).map (·.withoutTexts) :=
    List.find?_map
  unfold ofMember
  rw [hmember]
  rcases c.member? member with _ | ⟨_, _, _, _, _, kind⟩
  · rfl
  · cases kind with
    | composite c =>
      rw [Option.map_some, FieldLayout.withoutTexts, FieldKind.withoutTexts_composite]
      rfl
    | primitive p | enumeration e | set s => rfl

theorem Token.keepsWalks_withoutTexts : KeepsWalks fun t => t.withoutTexts :=
  ⟨fun _ => rfl, fun _ => rfl, fun _ => rfl⟩

/-! ## Types -/

variable (ts : List Token)

theorem PrimitiveLayout.ofToken_withoutTexts (t : Token) (i : Nat) :
    ofToken t.withoutTexts i = (ofToken t i).map (·.withoutTexts) := by
  have hprimitive : t.withoutTexts.encoding.primitive = t.encoding.primitive := rfl
  have hconstant : t.withoutTexts.isConstant = t.isConstant := rfl
  have hvalue : t.withoutTexts.encoding.constValue = t.encoding.constValue := rfl
  unfold ofToken
  rw [hprimitive, hconstant, hvalue]
  cases t.encoding.primitive with
  | none => rfl
  | some primitive =>
    dsimp only
    split_ifs <;> rfl

theorem enumAt_withoutTexts (s : Span) :
    enumAt (ts.map (·.withoutTexts)) s = (enumAt ts s).map (·.withoutTexts) := by
  unfold enumAt
  refine bind_eq_map (tokenAt_map _ ts s.start) fun t => ?_
  have hprimitive : t.withoutTexts.encoding.primitive = t.encoding.primitive := rfl
  rw [hprimitive, numbered_map]
  cases t.encoding.primitive with
  | none => rfl
  | some encoding =>
    dsimp only
    rw [List.mapM_map]
    exact bind_eq_map_right fun values => rfl

theorem setAt_withoutTexts (s : Span) :
    setAt (ts.map (·.withoutTexts)) s = (setAt ts s).map (·.withoutTexts) := by
  unfold setAt
  refine bind_eq_map (tokenAt_map _ ts s.start) fun t => ?_
  have hprimitive : t.withoutTexts.encoding.primitive = t.encoding.primitive := rfl
  rw [hprimitive, numbered_map]
  cases t.encoding.primitive with
  | none => rfl
  | some encoding =>
    dsimp only
    rw [List.mapM_map]
    exact bind_eq_map_right fun choices => rfl

mutual

theorem kindAt_withoutTexts (s : Span) :
    kindAt (ts.map (·.withoutTexts)) s = (kindAt ts s).map (·.withoutTexts) := by
  rw [kindAt, kindAt]
  refine bind_eq_map (tokenAt_map _ ts s.start) fun t => ?_
  have hsignal : t.withoutTexts.signal = t.signal := rfl
  rw [hsignal]
  split
  · exact bind_eq_map (PrimitiveLayout.ofToken_withoutTexts t s.start) fun p => rfl
  · refine bind_eq_map (compositeAt_withoutTexts s) fun c => ?_
    exact congrArg Except.ok (FieldKind.withoutTexts_composite c).symm
  · exact bind_eq_map (enumAt_withoutTexts ts s) fun e => rfl
  · exact bind_eq_map (setAt_withoutTexts ts s) fun c => rfl
  · rfl
termination_by 2 * s.length + 1

theorem compositeAt_withoutTexts (s : Span) :
    compositeAt (ts.map (·.withoutTexts)) s = (compositeAt ts s).map (·.withoutTexts) := by
  rw [compositeAt_eq, compositeAt_eq, Token.keepsWalks_withoutTexts.members_map]
  refine bind_eq_map (tokenAt_map _ ts s.start) fun t => ?_
  cases hspans : members ts s.inner with
  | error e => rfl
  | ok spans =>
    rw [ok_bind, ok_bind]
    refine bind_eq_map (mapM_eq_map (n := fun m => (m.1.withoutTexts, m.2.withoutTexts))
      fun m hm => ?_) fun kinds => ?_
    · have hlt := length_lt_of_mem_members hspans hm
      exact bind_eq_map (tokenAt_map _ ts m.start) fun u =>
        bind_eq_map (kindAt_withoutTexts m) fun k => rfl
    · exact congrArg Except.ok (CompositeLayout.ofMembers_withoutTexts t kinds)
termination_by 2 * s.length

end

/-! ## Elements of a body -/

theorem fieldAt_withoutTexts (s : Span) (cursor : Nat) :
    fieldAt (ts.map (·.withoutTexts)) s cursor
      = (fieldAt ts s cursor).map (·.withoutTexts) := by
  unfold fieldAt
  rw [← List.map_take, Token.keepsWalks_withoutTexts.spanAt_map]
  refine bind_eq_map (tokenAt_map _ ts s.start) fun t => bind_eq_map_right fun type => ?_
  dsimp only
  split_ifs
  · rfl
  · exact bind_eq_map (kindAt_withoutTexts ts type) fun k => rfl

theorem fieldsAt_withoutTexts : ∀ (cursor : Nat) (ss : List Span),
    fieldsAt (ts.map (·.withoutTexts)) cursor ss
      = (fieldsAt ts cursor ss).map (List.map (·.withoutTexts))
  | _, [] => rfl
  | cursor, s :: ss => by
    rw [fieldsAt, fieldsAt]
    refine bind_eq_map (fieldAt_withoutTexts ts s cursor) fun f => ?_
    rw [f.stop_withoutTexts]
    exact bind_eq_map (fieldsAt_withoutTexts f.stop ss) fun fs => rfl

theorem dimensionAt_withoutTexts (s : Span) :
    dimensionAt (ts.map (·.withoutTexts)) s = dimensionAt ts s := by
  unfold dimensionAt
  rw [compositeAt_withoutTexts, bind_of_map]
  refine bind_congr fun c => ?_
  rw [HeaderSlot.ofMember_withoutTexts, HeaderSlot.ofMember_withoutTexts]
  rfl

theorem encodingNamed_withoutTexts (container : String) (s : Span) (name : String) :
    encodingNamed (ts.map (·.withoutTexts)) container s name
      = (encodingNamed ts container s name).map fun t => (t.1.withoutTexts, t.2) := by
  have hfind : ∀ p : Token × Nat → Bool, p ∘ (fun u => (u.1.withoutTexts, u.2)) = p →
      (numbered ts s).find? (p ∘ fun u => (u.1.withoutTexts, u.2)) = (numbered ts s).find? p :=
    fun p hp => by rw [hp]
  unfold encodingNamed
  rw [numbered_map, List.find?_map, hfind]
  · generalize List.find? _ (numbered ts s) = found
    cases found <;> rfl
  · rfl

theorem varDataAt_withoutTexts (s : Span) :
    varDataAt (ts.map (·.withoutTexts)) s = (varDataAt ts s).map (·.withoutTexts) := by
  unfold varDataAt
  rw [← List.map_take, Token.keepsWalks_withoutTexts.spanAt_map]
  refine bind_eq_map (tokenAt_map _ ts s.start) fun t => bind_eq_map_right fun c => ?_
  refine bind_eq_map (tokenAt_map _ ts c.start) fun composite => ?_
  have hsignal : composite.withoutTexts.signal = composite.signal := rfl
  rw [hsignal]
  dsimp only
  split_ifs
  · rfl
  · refine bind_eq_map (encodingNamed_withoutTexts ts composite.name c.inner "length")
      fun length => ?_
    refine bind_eq_map (encodingNamed_withoutTexts ts composite.name c.inner "varData")
      fun data => ?_
    refine bind_eq_map (PrimitiveLayout.ofToken_withoutTexts length.1 length.2) fun p => ?_
    refine congrArg Except.ok ?_
    unfold VarDataLayout.withoutTexts
    dsimp only
    rw [emptied_or]
    rfl

mutual

theorem bodyAt_withoutTexts (s : Span) (blockLength : Nat) (owner : String) :
    bodyAt (ts.map (·.withoutTexts)) s blockLength owner
      = (bodyAt ts s blockLength owner).map (·.withoutTexts) := by
  rw [bodyAt_eq, bodyAt_eq, Token.keepsWalks_withoutTexts.splitBody_map]
  cases hspans : splitBody ts s with
  | error e => rfl
  | ok spans =>
    rw [ok_bind, ok_bind]
    refine bind_eq_map (fieldsAt_withoutTexts ts 0 spans.fields) fun fields => ?_
    refine bind_eq_map (mapM_eq_map (n := (·.withoutTexts)) fun g hg => ?_) fun groups => ?_
    · have hlt := length_lt_of_mem_groups hspans hg
      exact groupAt_withoutTexts g
    · refine bind_eq_map (mapM_eq_map fun d _ => varDataAt_withoutTexts ts d) fun varData => ?_
      exact BodyLayout.ofRegions_withoutTexts owner blockLength fields groups varData
termination_by 2 * s.length + 1

theorem groupAt_withoutTexts (s : Span) :
    groupAt (ts.map (·.withoutTexts)) s = (groupAt ts s).map (·.withoutTexts) := by
  rw [groupAt_eq, groupAt_eq, ← List.map_take, Token.keepsWalks_withoutTexts.spanAt_map]
  refine bind_eq_map (tokenAt_map _ ts s.start) fun t => ?_
  cases hd : spanAt (ts.take s.stop) (s.start + 1) with
  | error e => rfl
  | ok d =>
    rw [ok_bind, ok_bind]
    refine bind_eq_map (tokenAt_map _ ts d.start) fun first => ?_
    have hsignal : first.withoutTexts.signal = first.signal := rfl
    rw [hsignal]
    dsimp only
    split_ifs
    · rfl
    · rw [dimensionAt_withoutTexts]
      refine bind_eq_map_right fun dimension => ?_
      have hlt := length_body_lt hd
      exact bind_eq_map (bodyAt_withoutTexts ⟨d.stop, s.stop - 1⟩ t.encodedLength t.name)
        fun b => rfl
termination_by 2 * s.length

end

/-! ## Whole streams -/

theorem MessageLayout.ofTokens_withoutTexts :
    ofTokens (ts.map (·.withoutTexts)) = (ofTokens ts).map (·.withoutTexts) := by
  unfold ofTokens
  rw [Token.keepsWalks_withoutTexts.wholeSpan_map]
  refine bind_eq_map_right fun s => bind_eq_map (tokenAt_map _ ts 0) fun t => ?_
  exact bind_eq_map (bodyAt_withoutTexts ts s.inner t.encodedLength t.name) fun b => rfl

theorem CompositeLayout.ofTokens_withoutTexts :
    ofTokens (ts.map (·.withoutTexts)) = (ofTokens ts).map (·.withoutTexts) := by
  unfold ofTokens
  rw [Token.keepsWalks_withoutTexts.wholeSpan_map]
  exact bind_eq_map_right fun s => compositeAt_withoutTexts ts s

theorem HeaderLayout.ofTokens_withoutTexts :
    ofTokens (ts.map (·.withoutTexts)) = (ofTokens ts).map (·.withoutTexts) := by
  unfold ofTokens
  refine bind_eq_map (CompositeLayout.ofTokens_withoutTexts ts) fun c => ?_
  simp only [HeaderSlot.ofMember_withoutTexts]
  exact bind_eq_map_right fun blockLength => bind_eq_map_right fun templateId =>
    bind_eq_map_right fun schemaId => bind_eq_map_right fun version => rfl

theorem TypeLayout.ofTokens_withoutTexts :
    ofTokens (ts.map (·.withoutTexts)) = (ofTokens ts).map (Option.map (·.withoutTexts)) := by
  unfold ofTokens
  rw [Token.keepsWalks_withoutTexts.wholeSpan_map, Token.keepsWalks_withoutTexts.wholeSpan_map]
  cases ts with
  | nil => rfl
  | cons t ts =>
    have hsignal : t.withoutTexts.signal = t.signal := rfl
    rw [List.map_cons]
    dsimp only
    rw [hsignal, ← List.map_cons]
    split
    · exact bind_eq_map (CompositeLayout.ofTokens_withoutTexts (t :: ts)) fun c => rfl
    · exact bind_eq_map_right fun s => bind_eq_map (enumAt_withoutTexts (t :: ts) s) fun e => rfl
    · exact bind_eq_map_right fun s => bind_eq_map (setAt_withoutTexts (t :: ts) s) fun c => rfl
    · rfl
    · rfl

/-! ## Schemas -/

theorem checkReference_withoutTexts (known : List String) (owner : String) (f : FieldLayout) :
    f.withoutTexts.checkReference known owner = f.checkReference known owner := by
  unfold FieldLayout.checkReference
  have htype : f.withoutTexts.kind.typeName? = f.kind.typeName? := f.kind.typeName?_withoutTexts
  rw [htype]
  rfl

mutual

theorem BodyLayout.checkReferences_withoutTexts (known : List String) : ∀ (b : BodyLayout)
    (owner : String), b.withoutTexts.checkReferences known owner = b.checkReferences known owner
  | ⟨_, fields, groups, _⟩, owner => by
    rw [BodyLayout.withoutTexts, BodyLayout.checkReferences, BodyLayout.checkReferences,
      checkGroupReferences_withoutTexts known groups]
    simp only [List.forM_eq_forM, List.forM_map, checkReference_withoutTexts]

theorem checkGroupReferences_withoutTexts (known : List String) : ∀ (groups : List GroupLayout)
    (owner : String), checkGroupReferences known owner (groupsWithoutTexts groups)
      = checkGroupReferences known owner groups
  | [], _ => rfl
  | ⟨name, _, _, _, body, _⟩ :: groups, owner => by
    rw [groupsWithoutTexts, checkGroupReferences, checkGroupReferences,
      body.checkReferences_withoutTexts known, checkGroupReferences_withoutTexts known groups]

end

/-- A schema without texts is laid out as the schema is, for the same reason not at all or with a
layout that differs in texts only. -/
theorem SchemaLayout.resolve_withoutTexts (s : Schema) :
    resolve s.withoutTexts = (resolve s).map (·.withoutTexts) := by
  unfold resolve Schema.withoutTexts
  dsimp only
  rw [List.mapM_map]
  refine bind_eq_map (HeaderLayout.ofTokens_withoutTexts s.header) fun header => ?_
  refine bind_eq_map (mapM_eq_map fun ts _ => TypeLayout.ofTokens_withoutTexts ts) fun types => ?_
  have hlaid : (types.map (Option.map (·.withoutTexts))).filterMap (fun t => t)
      = (types.filterMap fun t => t).map TypeLayout.withoutTexts := by
    rw [List.map_filterMap, List.filterMap_map]
    rfl
  rw [hlaid, List.map_map, List.mapM_map]
  have hknown : TypeLayout.name ∘ TypeLayout.withoutTexts = TypeLayout.name :=
    funext TypeLayout.name_withoutTexts
  rw [hknown]
  generalize (types.filterMap fun t => t).map TypeLayout.name = known
  refine bind_eq_map (mapM_eq_map fun ts _ => ?_) fun messages => rfl
  refine bind_eq_map (MessageLayout.ofTokens_withoutTexts ts) fun m => ?_
  have hcheck : m.withoutTexts.body.checkReferences known m.withoutTexts.name
      = m.body.checkReferences known m.name :=
    m.body.checkReferences_withoutTexts known m.name
  rw [hcheck]
  exact bind_eq_map_right fun _ => rfl

end SimpleBinary
