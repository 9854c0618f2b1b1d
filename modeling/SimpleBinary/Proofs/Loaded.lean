import Mathlib
import SimpleBinary.Layout.Schema
import SimpleBinary.Proofs.Layouts
import SimpleBinary.Proofs.Saved
import SimpleBinary.Proofs.Streams

/-!
# Loaded schemas stand for those that were saved

A schema that is read back from its document may have other forms of its literals than the schema
that was written.  It is accepted or refused all the same, for the same reason, and where it is laid
out the layouts differ in the forms of literals only (`SchemaLayout.resolve_mapLiterals`).  Layouts
are compared by putting all their literals into one form (`SchemaLayout.mapLiterals`), a null value
that the schema left to its type too.
-/

namespace SimpleBinary

/-! ## Layouts with other literals -/

section MapLiterals

variable (f : Literal → Literal)

def PrimitiveLayout.mapLiterals (p : PrimitiveLayout) : PrimitiveLayout :=
  { p with constValue := p.constValue.map f, nullValue := f p.nullValue }

def EnumValue.mapLiterals (v : EnumValue) : EnumValue := { v with value := f v.value }

def EnumLayout.mapLiterals (e : EnumLayout) : EnumLayout :=
  { e with values := e.values.map (·.mapLiterals f), nullValue := f e.nullValue }

mutual

def FieldKind.mapLiterals : FieldKind → FieldKind
  | .primitive p => .primitive (p.mapLiterals f)
  | .composite ⟨typeName, encodedLength, members, description⟩ =>
    .composite ⟨typeName, encodedLength, fieldsMapLiterals members, description⟩
  | .enumeration e => .enumeration (e.mapLiterals f)
  | .set s => .set s

def fieldsMapLiterals : List FieldLayout → List FieldLayout
  | [] => []
  | ⟨name, id, sinceVersion, offset, description, kind⟩ :: fields =>
    ⟨name, id, sinceVersion, offset, description, kind.mapLiterals⟩ :: fieldsMapLiterals fields

end

def FieldLayout.mapLiterals (x : FieldLayout) : FieldLayout :=
  { x with kind := x.kind.mapLiterals f }

def CompositeLayout.mapLiterals (c : CompositeLayout) : CompositeLayout :=
  { c with members := c.members.map (·.mapLiterals f) }

mutual

def BodyLayout.mapLiterals : BodyLayout → BodyLayout
  | ⟨blockLength, fields, groups, varData⟩ =>
    ⟨blockLength, fields.map (·.mapLiterals f), groupsMapLiterals groups, varData⟩

def groupsMapLiterals : List GroupLayout → List GroupLayout
  | [] => []
  | ⟨name, id, sinceVersion, dimension, body, description⟩ :: groups =>
    ⟨name, id, sinceVersion, dimension, body.mapLiterals, description⟩ :: groupsMapLiterals groups

end

def GroupLayout.mapLiterals (g : GroupLayout) : GroupLayout :=
  { g with body := g.body.mapLiterals f }

def MessageLayout.mapLiterals (m : MessageLayout) : MessageLayout :=
  { m with body := m.body.mapLiterals f }

def HeaderLayout.mapLiterals (h : HeaderLayout) : HeaderLayout :=
  { h with composite := h.composite.mapLiterals f }

def TypeLayout.mapLiterals : TypeLayout → TypeLayout
  | .composite c => .composite (c.mapLiterals f)
  | .enumeration e => .enumeration (e.mapLiterals f)
  | .set s => .set s

def SchemaLayout.mapLiterals (l : SchemaLayout) : SchemaLayout :=
  { l with
    header := l.header.mapLiterals f
    types := l.types.map (·.mapLiterals f)
    messages := l.messages.map (·.mapLiterals f) }

theorem fieldsMapLiterals_eq : ∀ fields : List FieldLayout,
    fieldsMapLiterals f fields = fields.map (·.mapLiterals f)
  | [] => rfl
  | ⟨_, _, _, _, _, _⟩ :: fields => by
    rw [fieldsMapLiterals, fieldsMapLiterals_eq fields, List.map_cons]
    rfl

theorem groupsMapLiterals_eq (groups : List GroupLayout) :
    groupsMapLiterals f groups = groups.map (·.mapLiterals f) := by
  induction groups with
  | nil => rfl
  | cons g groups ih =>
    obtain ⟨name, id, sinceVersion, dimension, body, description⟩ := g
    rw [groupsMapLiterals, ih, List.map_cons]
    rfl

theorem FieldKind.mapLiterals_composite (c : CompositeLayout) :
    (FieldKind.composite c).mapLiterals f = .composite (c.mapLiterals f) := by
  obtain ⟨typeName, encodedLength, members, description⟩ := c
  rw [mapLiterals, fieldsMapLiterals_eq]
  rfl

theorem FieldKind.width_mapLiterals (k : FieldKind) : (k.mapLiterals f).width = k.width := by
  cases k with
  | composite c => rw [mapLiterals_composite]; rfl
  | primitive p | enumeration e | set s => rfl

/-! ## Placing elements -/

theorem FieldLayout.stop_mapLiterals (x : FieldLayout) : (x.mapLiterals f).stop = x.stop :=
  congrArg (x.offset + ·) (FieldKind.width_mapLiterals f x.kind)

theorem placeMembers_mapLiterals : ∀ (cursor : Nat) (ms : List (Token × FieldKind)),
    placeMembers cursor (ms.map fun m => (m.1.mapLiterals f, m.2.mapLiterals f))
      = (placeMembers cursor ms).map (·.mapLiterals f)
  | _, [] => rfl
  | cursor, (t, kind) :: ms => by
    have hstop := FieldLayout.stop_mapLiterals f
      ⟨t.name, t.id, t.version, max cursor t.offset, t.description, kind⟩
    rw [List.map_cons, placeMembers, placeMembers, List.map_cons, ← placeMembers_mapLiterals _ ms,
      ← hstop]
    rfl

theorem CompositeLayout.ofMembers_mapLiterals (t : Token) (ms : List (Token × FieldKind)) :
    ofMembers (t.mapLiterals f) (ms.map fun m => (m.1.mapLiterals f, m.2.mapLiterals f))
      = (ofMembers t ms).mapLiterals f := by
  have hlast : ((placeMembers 0 ms).map (·.mapLiterals f)).getLast?.map (·.stop)
      = (placeMembers 0 ms).getLast?.map (·.stop) := by
    rw [List.getLast?_map, Option.map_map]
    exact Option.map_congr fun x _ => FieldLayout.stop_mapLiterals f x
  unfold ofMembers
  rw [placeMembers_mapLiterals]
  dsimp only
  rw [hlast]
  rfl

theorem requiredLength_mapLiterals (fields : List FieldLayout) :
    BodyLayout.requiredLength (fields.map (·.mapLiterals f)) = BodyLayout.requiredLength fields := by
  unfold BodyLayout.requiredLength
  rw [List.foldl_map]
  simp only [FieldLayout.stop_mapLiterals]

theorem BodyLayout.ofRegions_mapLiterals (owner : String) (blockLength : Nat)
    (fields : List FieldLayout) (groups : List GroupLayout) (varData : List VarDataLayout) :
    ofRegions owner blockLength (fields.map (·.mapLiterals f)) (groups.map (·.mapLiterals f)) varData
      = (ofRegions owner blockLength fields groups varData).map (·.mapLiterals f) := by
  unfold ofRegions
  rw [requiredLength_mapLiterals]
  dsimp only
  split_ifs
  · rfl
  · rw [Except.map, mapLiterals, groupsMapLiterals_eq]

theorem HeaderSlot.ofMember_mapLiterals (c : CompositeLayout) (member : String) :
    ofMember (c.mapLiterals f) member = ofMember c member := by
  have hmember : (c.mapLiterals f).member? member = (c.member? member).map (·.mapLiterals f) :=
    List.find?_map
  unfold ofMember
  rw [hmember]
  rcases c.member? member with _ | ⟨_, _, _, _, _, kind⟩
  · rfl
  · cases kind with
    | composite c =>
      rw [Option.map_some, FieldLayout.mapLiterals, FieldKind.mapLiterals_composite]
      rfl
    | primitive p | enumeration e | set s => rfl

end MapLiterals

theorem Token.keepsWalks_mapLiterals {f : Literal → Literal} : KeepsWalks fun t => t.mapLiterals f :=
  ⟨fun _ => rfl, fun _ => rfl, fun _ => rfl⟩

/-! ## Laying out

A form tells the same bit of a choice, and putting a literal into it twice does no more than once. -/

/-- A form that literals are put into, of the same natural. -/
structure Literal.IsForm (f : Literal → Literal) : Prop where
  idempotent : ∀ l, f (f l) = f l
  toNat? : ∀ l, (f l).toNat? = l.toNat?

theorem Literal.isForm_signed : IsForm signed := ⟨signed_signed, toNat?_signed⟩

section Forms

variable {f : Literal → Literal} (hf : Literal.IsForm f)
include hf

theorem Token.mapLiterals_mapLiterals (t : Token) :
    (t.mapLiterals f).mapLiterals f = t.mapLiterals f := by
  have hmap : ∀ o : Option Literal, (o.map f).map f = o.map f := by
    intro o
    rw [Option.map_map]
    exact Option.map_congr fun l _ => hf.idempotent l
  unfold mapLiterals Encoding.mapLiterals
  dsimp only
  rw [hmap, hmap]

theorem getD_map_of_idempotent (o : Option Literal) (l : Literal) :
    f ((o.map f).getD l) = f (o.getD l) := by
  cases o with
  | none => rfl
  | some l' => exact hf.idempotent l'

theorem PrimitiveLayout.ofToken_mapLiterals (t : Token) (i : Nat) :
    (ofToken (t.mapLiterals f) i).map (·.mapLiterals f) = (ofToken t i).map (·.mapLiterals f) := by
  have hconstant : (t.mapLiterals f).isConstant = t.isConstant := rfl
  have hconst : (t.encoding.constValue.map f).map f = t.encoding.constValue.map f :=
    congrArg (·.encoding.constValue) (Token.mapLiterals_mapLiterals hf t)
  unfold ofToken
  rw [Token.primitive_mapLiterals, hconstant, Token.constValue_mapLiterals,
    Token.nullValue_mapLiterals, Option.isNone_map]
  cases t.encoding.primitive with
  | none => rfl
  | some primitive =>
    dsimp only
    split_ifs
    · rfl
    · unfold Except.map mapLiterals
      dsimp only
      rw [hconst, getD_map_of_idempotent hf]
      rfl

theorem enumValueOf_mapLiterals (enumName : String) (t : Token) (i : Nat) :
    (enumValueOf enumName (t.mapLiterals f) i).map (·.mapLiterals f)
      = (enumValueOf enumName t i).map (·.mapLiterals f) := by
  unfold enumValueOf
  rw [Token.signal_mapLiterals, Token.constValue_mapLiterals]
  split_ifs
  · rfl
  · cases t.encoding.constValue with
    | none => rfl
    | some l => exact congrArg (fun l => Except.ok (EnumValue.mk t.name l)) (hf.idempotent l)

theorem enumAt_mapLiterals (ts : List Token) (s : Span) :
    (enumAt (ts.map (·.mapLiterals f)) s).map (·.mapLiterals f)
      = (enumAt ts s).map (·.mapLiterals f) := by
  unfold enumAt
  rw [tokenAt_map, bind_of_map, numbered_map]
  refine map_bind_congr_right fun t => ?_
  rw [Token.primitive_mapLiterals]
  cases t.encoding.primitive with
  | none => rfl
  | some encoding =>
    dsimp only
    rw [List.mapM_map]
    refine map_bind_congr _ (map_mapM_congr fun u _ => enumValueOf_mapLiterals hf t.name u.1 u.2)
      fun vs vs' hvs => ?_
    refine congrArg Except.ok ?_
    unfold EnumLayout.mapLiterals
    dsimp only
    rw [hvs]
    exact congrArg (EnumLayout.mk t.typeName encoding t.encoding.byteOrder _ · t.description)
      (getD_map_of_idempotent hf t.encoding.nullValue _)

theorem choiceOf_mapLiterals (setName : String) (bits : Nat)
    (t : Token) (i : Nat) :
    choiceOf setName bits (t.mapLiterals f) i = choiceOf setName bits t i := by
  have hbit : (t.mapLiterals f).encoding.constValue.bind Literal.toNat?
      = t.encoding.constValue.bind Literal.toNat? := by
    rw [Token.constValue_mapLiterals, Option.bind_map]
    exact Option.bind_congr fun l _ => hf.toNat? l
  unfold choiceOf
  rw [hbit]
  rfl

theorem setAt_mapLiterals (ts : List Token) (s : Span) :
    setAt (ts.map (·.mapLiterals f)) s = setAt ts s := by
  unfold setAt
  rw [tokenAt_map, bind_of_map, numbered_map]
  refine bind_congr fun t => ?_
  rw [Token.primitive_mapLiterals]
  cases t.encoding.primitive with
  | none => rfl
  | some encoding =>
    dsimp only
    have hchoices : ((numbered ts s.inner).mapM fun u =>
        choiceOf t.name (8 * encoding.size) (u.1.mapLiterals f) u.2)
          = (numbered ts s.inner).mapM fun u => choiceOf t.name (8 * encoding.size) u.1 u.2 := by
      simp only [choiceOf_mapLiterals hf]
    rw [List.mapM_map]
    exact congrArg (· >>= fun choices => pure (SetLayout.mk t.typeName encoding t.encoding.byteOrder
      choices t.description)) hchoices

/-! ## Types -/

variable (ts : List Token)

mutual

theorem kindAt_mapLiterals (s : Span) :
    (kindAt (ts.map (·.mapLiterals f)) s).map (·.mapLiterals f)
      = (kindAt ts s).map (·.mapLiterals f) := by
  rw [kindAt, kindAt, tokenAt_map, bind_of_map]
  refine map_bind_congr_right fun t => ?_
  rw [Token.signal_mapLiterals]
  split
  · exact map_bind_congr (·.mapLiterals f) (PrimitiveLayout.ofToken_mapLiterals hf t s.start)
      fun p p' hp => congrArg (fun p => Except.ok (FieldKind.primitive p)) hp
  · refine map_bind_congr (·.mapLiterals f) (compositeAt_mapLiterals s) fun c c' hc => ?_
    refine congrArg Except.ok ?_
    dsimp only
    rw [FieldKind.mapLiterals_composite, FieldKind.mapLiterals_composite, hc]
  · exact map_bind_congr (·.mapLiterals f) (enumAt_mapLiterals hf ts s)
      fun e e' he => congrArg (fun e => Except.ok (FieldKind.enumeration e)) he
  · rw [setAt_mapLiterals hf]
  · rfl
termination_by 2 * s.length + 1

theorem compositeAt_mapLiterals (s : Span) :
    (compositeAt (ts.map (·.mapLiterals f)) s).map (·.mapLiterals f)
      = (compositeAt ts s).map (·.mapLiterals f) := by
  rw [compositeAt_eq, compositeAt_eq, tokenAt_map, bind_of_map,
    Token.keepsWalks_mapLiterals.members_map]
  refine map_bind_congr_right fun t => ?_
  cases hspans : members ts s.inner with
  | error e => rfl
  | ok spans =>
    rw [ok_bind, ok_bind]
    refine map_bind_congr (List.map fun m => (m.1.mapLiterals f, m.2.mapLiterals f))
      (map_mapM_congr fun m hm => ?_) fun ms ms' hms => ?_
    · have hlt := length_lt_of_mem_members hspans hm
      rw [tokenAt_map, bind_of_map]
      refine map_bind_congr_right fun u => ?_
      refine map_bind_congr (·.mapLiterals f) (kindAt_mapLiterals m) fun k k' hk => ?_
      exact congrArg₂ (fun u k => Except.ok (u, k)) (Token.mapLiterals_mapLiterals hf u) hk
    · refine congrArg Except.ok ?_
      dsimp only
      rw [← CompositeLayout.ofMembers_mapLiterals, ← CompositeLayout.ofMembers_mapLiterals,
        Token.mapLiterals_mapLiterals hf, hms]
termination_by 2 * s.length

end

/-! ## Elements of a body -/

theorem fieldAt_mapLiterals (s : Span) (cursor : Nat) :
    (fieldAt (ts.map (·.mapLiterals f)) s cursor).map (·.mapLiterals f)
      = (fieldAt ts s cursor).map (·.mapLiterals f) := by
  unfold fieldAt
  rw [tokenAt_map, bind_of_map, ← List.map_take, Token.keepsWalks_mapLiterals.spanAt_map]
  refine map_bind_congr_right fun t => map_bind_congr_right fun type => ?_
  dsimp only
  split_ifs
  · rfl
  · refine map_bind_congr (·.mapLiterals f) (kindAt_mapLiterals hf ts type) fun k k' hk => ?_
    exact congrArg (fun k => Except.ok (FieldLayout.mk t.name t.id t.version (max cursor t.offset)
      t.description k)) hk

theorem fieldsAt_mapLiterals : ∀ (cursor : Nat) (ss : List Span),
    (fieldsAt (ts.map (·.mapLiterals f)) cursor ss).map (List.map (·.mapLiterals f))
      = (fieldsAt ts cursor ss).map (List.map (·.mapLiterals f))
  | _, [] => rfl
  | cursor, s :: ss => by
    rw [fieldsAt, fieldsAt]
    refine map_bind_congr (·.mapLiterals f) (fieldAt_mapLiterals hf ts s cursor)
      fun x x' hx => ?_
    have hstop : x.stop = x'.stop := by
      rw [← FieldLayout.stop_mapLiterals f x, hx, FieldLayout.stop_mapLiterals]
    rw [hstop]
    refine map_bind_congr (List.map (·.mapLiterals f)) (fieldsAt_mapLiterals x'.stop ss)
      fun xs xs' hxs => ?_
    exact congrArg Except.ok (congrArg₂ List.cons hx hxs)

theorem dimensionAt_mapLiterals (s : Span) :
    dimensionAt (ts.map (·.mapLiterals f)) s = dimensionAt ts s := by
  unfold dimensionAt
  refine bind_congr_of_map (·.mapLiterals f) (compositeAt_mapLiterals hf ts s) fun c c' hc => ?_
  rw [← HeaderSlot.ofMember_mapLiterals f c, ← HeaderSlot.ofMember_mapLiterals f c, hc,
    HeaderSlot.ofMember_mapLiterals, HeaderSlot.ofMember_mapLiterals]
  have htype : c.typeName = c'.typeName := (congrArg CompositeLayout.typeName hc :)
  have hlength : c.encodedLength = c'.encodedLength := (congrArg CompositeLayout.encodedLength hc :)
  rw [htype, hlength]

omit hf in
theorem encodingNamed_mapLiterals (container : String) (s : Span) (name : String) :
    encodingNamed (ts.map (·.mapLiterals f)) container s name
      = (encodingNamed ts container s name).map fun t => (t.1.mapLiterals f, t.2) := by
  have hfind : ∀ p : Token × Nat → Bool, p ∘ (fun u => (u.1.mapLiterals f, u.2)) = p →
      (numbered ts s).find? (p ∘ fun u => (u.1.mapLiterals f, u.2)) = (numbered ts s).find? p :=
    fun p hp => by rw [hp]
  unfold encodingNamed
  rw [numbered_map, List.find?_map, hfind]
  · generalize List.find? _ (numbered ts s) = found
    cases found <;> rfl
  · rfl

theorem varDataAt_mapLiterals (s : Span) :
    varDataAt (ts.map (·.mapLiterals f)) s = varDataAt ts s := by
  unfold varDataAt
  rw [tokenAt_map, bind_of_map, ← List.map_take, Token.keepsWalks_mapLiterals.spanAt_map]
  refine bind_congr fun t => bind_congr fun c => ?_
  rw [tokenAt_map, bind_of_map]
  refine bind_congr fun composite => ?_
  rw [Token.signal_mapLiterals]
  dsimp only
  split_ifs
  · rfl
  · rw [encodingNamed_mapLiterals, bind_of_map]
    refine bind_congr fun length => ?_
    rw [encodingNamed_mapLiterals, bind_of_map]
    refine bind_congr fun data => ?_
    refine bind_congr_of_map (·.mapLiterals f)
      (PrimitiveLayout.ofToken_mapLiterals hf length.1 length.2) fun p p' hp => ?_
    have hprimitive : p.primitive = p'.primitive := (congrArg PrimitiveLayout.primitive hp :)
    have horder : p.byteOrder = p'.byteOrder := (congrArg PrimitiveLayout.byteOrder hp :)
    rw [hprimitive, horder]
    rfl

/-! ## Bodies -/

mutual

theorem bodyAt_mapLiterals (s : Span) (blockLength : Nat) (owner : String) :
    (bodyAt (ts.map (·.mapLiterals f)) s blockLength owner).map (·.mapLiterals f)
      = (bodyAt ts s blockLength owner).map (·.mapLiterals f) := by
  rw [bodyAt_eq, bodyAt_eq, Token.keepsWalks_mapLiterals.splitBody_map]
  cases hspans : splitBody ts s with
  | error e => rfl
  | ok spans =>
    rw [ok_bind, ok_bind]
    refine map_bind_congr (List.map (·.mapLiterals f)) (fieldsAt_mapLiterals hf ts 0 spans.fields)
      fun fields fields' hfields => ?_
    refine map_bind_congr (List.map (·.mapLiterals f)) (map_mapM_congr fun g hg => ?_)
      fun groups groups' hgroups => ?_
    · have hlt := length_lt_of_mem_groups hspans hg
      exact groupAt_mapLiterals g
    · have hdata : varDataAt (ts.map (·.mapLiterals f)) = varDataAt ts :=
        funext (varDataAt_mapLiterals hf ts)
      rw [hdata]
      refine map_bind_congr_right fun varData => ?_
      rw [← BodyLayout.ofRegions_mapLiterals, ← BodyLayout.ofRegions_mapLiterals, hfields, hgroups]
termination_by 2 * s.length + 1

theorem groupAt_mapLiterals (s : Span) :
    (groupAt (ts.map (·.mapLiterals f)) s).map (·.mapLiterals f)
      = (groupAt ts s).map (·.mapLiterals f) := by
  rw [groupAt_eq, groupAt_eq, tokenAt_map, bind_of_map, ← List.map_take,
    Token.keepsWalks_mapLiterals.spanAt_map]
  refine map_bind_congr_right fun t => ?_
  cases hd : spanAt (ts.take s.stop) (s.start + 1) with
  | error e => rfl
  | ok d =>
    rw [ok_bind, ok_bind, tokenAt_map, bind_of_map]
    refine map_bind_congr_right fun first => ?_
    rw [Token.signal_mapLiterals]
    dsimp only
    split_ifs
    · rfl
    · rw [dimensionAt_mapLiterals hf]
      refine map_bind_congr_right fun dimension => ?_
      have hlt := length_body_lt hd
      refine map_bind_congr (·.mapLiterals f)
        (bodyAt_mapLiterals ⟨d.stop, s.stop - 1⟩ t.encodedLength t.name) fun b b' hb => ?_
      exact congrArg (fun b => Except.ok (GroupLayout.mk t.name t.id t.version dimension b
        t.description)) hb
termination_by 2 * s.length

end

/-! ## Whole streams -/

theorem MessageLayout.ofTokens_mapLiterals :
    (ofTokens (ts.map (·.mapLiterals f))).map (·.mapLiterals f)
      = (ofTokens ts).map (·.mapLiterals f) := by
  unfold ofTokens
  rw [Token.keepsWalks_mapLiterals.wholeSpan_map]
  refine map_bind_congr_right fun s => ?_
  rw [tokenAt_map, bind_of_map]
  refine map_bind_congr_right fun t => ?_
  refine map_bind_congr (·.mapLiterals f) (bodyAt_mapLiterals hf ts s.inner t.encodedLength t.name)
    fun b b' hb => ?_
  exact congrArg (fun b => Except.ok (MessageLayout.mk t.name t.id t.version t.referencedName
    t.description b)) hb

theorem CompositeLayout.ofTokens_mapLiterals :
    (ofTokens (ts.map (·.mapLiterals f))).map (·.mapLiterals f)
      = (ofTokens ts).map (·.mapLiterals f) := by
  unfold ofTokens
  rw [Token.keepsWalks_mapLiterals.wholeSpan_map]
  exact map_bind_congr_right fun s => compositeAt_mapLiterals hf ts s

theorem HeaderLayout.ofTokens_mapLiterals :
    (ofTokens (ts.map (·.mapLiterals f))).map (·.mapLiterals f)
      = (ofTokens ts).map (·.mapLiterals f) := by
  unfold ofTokens
  refine map_bind_congr (·.mapLiterals f) (CompositeLayout.ofTokens_mapLiterals hf ts)
    fun c c' hc => ?_
  have hslot : ∀ name, HeaderSlot.ofMember c name = HeaderSlot.ofMember c' name := by
    intro name
    rw [← HeaderSlot.ofMember_mapLiterals f c, hc, HeaderSlot.ofMember_mapLiterals]
  simp only [hslot]
  refine map_bind_congr_right fun blockLength => map_bind_congr_right fun templateId =>
    map_bind_congr_right fun schemaId => map_bind_congr_right fun version => ?_
  exact congrArg (fun c => Except.ok (HeaderLayout.mk c blockLength templateId schemaId version)) hc

theorem TypeLayout.ofTokens_mapLiterals :
    (ofTokens (ts.map (·.mapLiterals f))).map (Option.map (·.mapLiterals f))
      = (ofTokens ts).map (Option.map (·.mapLiterals f)) := by
  unfold ofTokens
  rw [Token.keepsWalks_mapLiterals.wholeSpan_map, Token.keepsWalks_mapLiterals.wholeSpan_map]
  cases ts with
  | nil => rfl
  | cons t ts =>
    rw [List.map_cons]
    dsimp only
    rw [Token.signal_mapLiterals, ← List.map_cons]
    split
    · exact map_bind_congr (·.mapLiterals f) (CompositeLayout.ofTokens_mapLiterals hf (t :: ts))
        fun c c' hc => congrArg (fun c => Except.ok (some (TypeLayout.composite c))) hc
    · refine map_bind_congr_right fun s => ?_
      exact map_bind_congr (·.mapLiterals f) (enumAt_mapLiterals hf (t :: ts) s)
        fun e e' he => congrArg (fun e => Except.ok (some (TypeLayout.enumeration e))) he
    · refine map_bind_congr_right fun s => ?_
      rw [setAt_mapLiterals hf]
    · rfl
    · rfl

omit hf

/-! ## References -/

theorem checkReference_mapLiterals (known : List String) (owner : String) (x : FieldLayout) :
    (x.mapLiterals f).checkReference known owner = x.checkReference known owner := by
  have htype : (x.mapLiterals f).kind.typeName? = x.kind.typeName? := by
    unfold FieldLayout.mapLiterals
    dsimp only
    cases x.kind with
    | composite c => rw [FieldKind.mapLiterals_composite]; rfl
    | primitive p | enumeration e | set s => rfl
  unfold FieldLayout.checkReference
  rw [htype]
  rfl

mutual

theorem BodyLayout.checkReferences_mapLiterals (known : List String) : ∀ (b : BodyLayout)
    (owner : String), (b.mapLiterals f).checkReferences known owner = b.checkReferences known owner
  | ⟨_, fields, groups, _⟩, owner => by
    rw [BodyLayout.mapLiterals, BodyLayout.checkReferences, BodyLayout.checkReferences,
      checkGroupReferences_mapLiterals known groups]
    simp only [List.forM_eq_forM, List.forM_map, checkReference_mapLiterals]

theorem checkGroupReferences_mapLiterals (known : List String) : ∀ (groups : List GroupLayout)
    (owner : String), checkGroupReferences known owner (groupsMapLiterals f groups)
      = checkGroupReferences known owner groups
  | [], _ => rfl
  | ⟨name, _, _, _, body, _⟩ :: groups, owner => by
    rw [groupsMapLiterals, checkGroupReferences, checkGroupReferences,
      body.checkReferences_mapLiterals known, checkGroupReferences_mapLiterals known groups]

end

/-! ## Schemas -/

theorem TypeLayout.name_mapLiterals (t : TypeLayout) : (t.mapLiterals f).name = t.name := by
  cases t <;> rfl

include hf

/-- A schema whose literals are put into a form is laid out as the schema is, for the same reason
not at all or with a layout that differs in the forms of its literals. -/
theorem SchemaLayout.resolve_mapLiterals (s : Schema) :
    (resolve (s.mapLiterals f)).map (·.mapLiterals f) = (resolve s).map (·.mapLiterals f) := by
  have hpresent : ∀ ts : List (Option TypeLayout), (ts.filterMap fun t => t).map (·.mapLiterals f)
      = (ts.map (Option.map (·.mapLiterals f))).filterMap fun t => t := by
    intro ts
    rw [List.map_filterMap, List.filterMap_map]
    rfl
  unfold resolve Schema.mapLiterals
  dsimp only
  rw [List.mapM_map]
  refine map_bind_congr (·.mapLiterals f) (HeaderLayout.ofTokens_mapLiterals hf s.header)
    fun header header' hheader => ?_
  refine map_bind_congr (List.map (Option.map (·.mapLiterals f)))
    (map_mapM_congr fun ts _ => TypeLayout.ofTokens_mapLiterals hf ts) fun types types' htypes => ?_
  have hlaid : (types.filterMap fun t => t).map (·.mapLiterals f)
      = (types'.filterMap fun t => t).map (·.mapLiterals f) := by
    rw [hpresent, htypes, ← hpresent]
  have hknown : (types.filterMap fun t => t).map (·.name)
      = (types'.filterMap fun t => t).map (·.name) := by
    have hnames := congrArg (List.map TypeLayout.name) hlaid
    simpa only [List.map_map, Function.comp_def, TypeLayout.name_mapLiterals] using hnames
  rw [hknown, List.mapM_map]
  generalize (types'.filterMap fun t => t).map (·.name) = known
  refine map_bind_congr (List.map (·.mapLiterals f)) (map_mapM_congr fun ts _ => ?_)
    fun messages messages' hmessages => ?_
  · refine map_bind_congr (·.mapLiterals f) (MessageLayout.ofTokens_mapLiterals hf ts)
      fun m m' hm => ?_
    have hname : m.name = m'.name := (congrArg MessageLayout.name hm :)
    have hbody : m.body.mapLiterals f = m'.body.mapLiterals f := (congrArg MessageLayout.body hm :)
    rw [hname, ← BodyLayout.checkReferences_mapLiterals (f := f) known m.body, hbody,
      BodyLayout.checkReferences_mapLiterals]
    exact map_bind_congr_right fun _ => congrArg Except.ok hm
  · refine congrArg Except.ok ?_
    unfold SchemaLayout.mapLiterals
    dsimp only
    rw [hheader, hlaid, hmessages]

end Forms

/-! ## Saving and loading -/

/-- The doubles among the literals of a schema. -/
def Schema.floats (s : Schema) : List Binary64 := s.tokens.flatMap Token.floats

/-- A schema that is checked, with finite doubles that are read as they are printed, is read back
from either text of its document with every literal in its signed form, which has the same value.
What is read back is checked too, and is laid out with the same result up to the forms of literals. -/
theorem Schema.parse?_text_toJson {s : Schema} (hsized : ∀ t ∈ s.tokens, t.IsSized)
    (hfinite : ∀ x ∈ s.floats, x.isFinite) (hread : ∀ x ∈ s.floats, x.IsReadBack)
    (hverify : s.verify = .ok ()) :
    (∀ text ∈ [s.toJson.compact, s.toJson.pretty], parse? text = some (s.mapLiterals .signed))
      ∧ (∀ l m : Literal, l.signed = m.signed → l.agrees m)
      ∧ (∀ l : Literal, l.signed.signed = l.signed)
      ∧ (s.mapLiterals .signed).verify = .ok ()
      ∧ (SchemaLayout.resolve (s.mapLiterals .signed)).map (·.mapLiterals .signed)
        = (SchemaLayout.resolve s).map (·.mapLiterals .signed) := by
  have hsavable : ∀ t ∈ s.tokens, t.IsSavable := fun t ht =>
    ⟨hsized t ht, fun x hx =>
      have hmem : x ∈ s.floats := List.mem_flatMap_of_mem ht hx
      ⟨hfinite x hmem, hread x hmem⟩⟩
  exact ⟨fun text htext => parse?_text hsavable htext, fun _ _ => Literal.agrees_of_signed_eq,
    Literal.signed_signed, (verify_mapLiterals _ s).trans hverify,
    SchemaLayout.resolve_mapLiterals Literal.isForm_signed s⟩

namespace Rates

def half : Binary64 := ⟨0x3fe0000000000000⟩

/-- A rate that is fixed, and a level that may be absent. -/
def price : List Token := [
  { signal := .opens .composite, name := "Price", componentTokenCount := 4, encodedLength := 1 },
  { signal := .encoding
    name := "rate"
    encoding := { presence := .constant, primitive := some .double, constValue := some (.float half) } },
  { signal := .encoding
    name := "level"
    encoding := { presence := .optional, primitive := some .uint8, nullValue := some (.uint 255) } },
  { signal := .closes .composite, name := "Price" }]

def schema : Schema where
  id := 1
  version := 0
  header := TypeDef.messageHeader.tokens .littleEndian 0
  types := [price]

/-- The null value of the level is read back with a sign. -/
theorem parse?_text_schema : ∃ s ≠ schema, s.verify = .ok ()
    ∧ ∀ text ∈ [schema.toJson.compact, schema.toJson.pretty], Schema.parse? text = some s := by
  have hsized : ∀ t ∈ schema.tokens, t.IsSized := by
    unfold Token.IsSized
    decide
  have hfloats : schema.floats = [half] := rfl
  obtain ⟨hparse, -, -, hverify, -⟩ := Schema.parse?_text_toJson (s := schema) hsized
    (by rw [hfloats]; decide)
    (by rw [hfloats, List.forall_mem_singleton]; unfold Binary64.IsReadBack; rfl) (by rfl)
  exact ⟨_, by decide, hverify, hparse⟩

end Rates

end SimpleBinary
