import Mathlib
import SimpleBinary.Proofs.Layouts
import SimpleBinary.Proofs.RoundTrip
import SimpleBinary.Proofs.Streams

/-!
# Types of definitions and their streams

`TypeDef.layout` and `MessageDef.layout?` say what a definition means, without tokens: each element
lies where those before it end.  Wherever the tokens of a sound type stand in a stream, it is read as
what its definition means (`TypeDef.kindAt_tokens`).
-/

namespace SimpleBinary

/-! ## What definitions mean -/

def PrimitiveDef.layout (order : ByteOrder) (d : PrimitiveDef) : PrimitiveLayout where
  primitive := d.primitive
  byteOrder := order
  arrayLength := d.arrayLength
  presence := d.presence
  constValue := d.constValue
  nullValue := d.nullValue.getD d.primitive.nullLiteral
  characterEncoding := d.characterEncoding

mutual

/-- The layout of a type. -/
def TypeDef.layout (order : ByteOrder) : TypeDef → FieldKind
  | .primitive d => .primitive (d.layout order)
  | .composite name members => .composite {
      typeName := name
      encodedLength := TypeDef.totalWidth members
      members := memberLayouts order 0 members
      description := none }
  | .enumeration name encoding values => .enumeration {
      typeName := name
      encoding
      byteOrder := order
      values := values.map fun (name, v) => ⟨name, v⟩
      nullValue := encoding.nullLiteral
      description := none }
  | .set name encoding choices => .set {
      typeName := name
      encoding
      byteOrder := order
      choices := choices.map fun (name, bit) => ⟨name, bit.toNat⟩
      description := none }

/-- The layouts of members, each where the one before it ends. -/
def memberLayouts (order : ByteOrder) (offset : Nat) : List TypeDef → List FieldLayout
  | [] => []
  | t :: ts =>
    { name := t.name, id := -1, sinceVersion := 0, offset, description := none,
      kind := t.layout order } :: memberLayouts order (offset + t.width) ts

end

/-- The layouts of fields, each where the one before it ends. -/
def fieldLayouts (order : ByteOrder) (offset : Nat) : List FieldDef → List FieldLayout
  | [] => []
  | f :: fs =>
    { name := f.name, id := f.id, sinceVersion := f.sinceVersion, offset, description := none,
      kind := f.type.layout order } :: fieldLayouts order (offset + f.type.width) fs

def VarDataDef.layout (order : ByteOrder) (d : VarDataDef) : VarDataLayout where
  name := d.name
  id := d.id
  sinceVersion := 0
  typeName := "varDataEncoding"
  length := ⟨d.lengthType, order, 0⟩
  characterEncoding := d.characterEncoding
  description := none

/-- The slot of an element that is written. -/
def TypeDef.slot? (order : ByteOrder) (offset : Nat) : TypeDef → Option HeaderSlot
  | .primitive d => if d.presence = .constant then none else some ⟨d.primitive, order, offset⟩
  | _ => none

/-- The slot of the first member of a name. -/
def memberSlot? (order : ByteOrder) (name : String) (offset : Nat) : List TypeDef → Option HeaderSlot
  | [] => none
  | t :: ts =>
    if t.name = name then t.slot? order offset else memberSlot? order name (offset + t.width) ts

/-- The layout of a group's header. -/
def TypeDef.dimension? (order : ByteOrder) : TypeDef → Option DimensionLayout
  | .composite name members => do
    return {
      typeName := name
      blockLength := ← memberSlot? order "blockLength" 0 members
      numInGroup := ← memberSlot? order "numInGroup" 0 members
      encodedLength := TypeDef.totalWidth members }
  | _ => none

/-- The layout of a message's header. -/
def TypeDef.header? (order : ByteOrder) : TypeDef → Option HeaderLayout
  | .composite name members => do
    return {
      composite := {
        typeName := name
        encodedLength := TypeDef.totalWidth members
        members := memberLayouts order 0 members
        description := none }
      blockLength := ← memberSlot? order "blockLength" 0 members
      templateId := ← memberSlot? order "templateId" 0 members
      schemaId := ← memberSlot? order "schemaId" 0 members
      version := ← memberSlot? order "version" 0 members }
  | _ => none

mutual

/-- The layout of a group. -/
def GroupDef.layout? (order : ByteOrder) : GroupDef → Option GroupLayout
  | ⟨name, id, blockLength, dimension, fields, groups, varData⟩ => do
    return {
      name, id
      sinceVersion := 0
      dimension := ← dimension.dimension? order
      body := {
        blockLength := blockLength.getD (fieldsWidth fields)
        fields := fieldLayouts order 0 fields
        groups := ← groupLayouts? order groups
        varData := varData.map (·.layout order) }
      description := none }

def groupLayouts? (order : ByteOrder) : List GroupDef → Option (List GroupLayout)
  | [] => some []
  | g :: gs => do return (← g.layout? order) :: (← groupLayouts? order gs)

end

/-- The layout of a message. -/
def MessageDef.layout? (order : ByteOrder) (m : MessageDef) : Option MessageLayout := do
  return {
    name := m.name
    id := m.id
    sinceVersion := 0
    semanticType := none
    description := m.description
    body := {
      blockLength := m.blockLength.getD (fieldsWidth m.fields)
      fields := fieldLayouts order 0 m.fields
      groups := ← groupLayouts? order m.groups
      varData := m.varData.map (·.layout order) } }

/-! ## Sound definitions -/

/-- There is an element, and a constant has a value. -/
def PrimitiveDef.Sound (d : PrimitiveDef) : Prop :=
  1 ≤ d.arrayLength ∧ (d.presence = .constant → d.constValue.isSome)

mutual

/-- The elements of a type are sound, and the bits of its sets lie within their encodings. -/
def TypeDef.Sound : TypeDef → Prop
  | .primitive d => d.Sound
  | .composite _ members => membersSound members
  | .enumeration .. => True
  | .set _ encoding choices => ∀ c ∈ choices, c.2.toNat < 8 * encoding.size

def membersSound : List TypeDef → Prop
  | [] => True
  | t :: ts => t.Sound ∧ membersSound ts

end

/-- A composite whose first members of the two names are elements that are written. -/
def TypeDef.IsDimension (t : TypeDef) : Prop :=
  ∃ name members, t = .composite name members ∧ ∀ slot ∈ ["blockLength", "numInGroup"],
    ∃ d, members.find? (·.name == slot) = some (.primitive d) ∧ d.presence ≠ .constant

/-- Fields are of sound types, and a block length that is given holds them. -/
def BlockSound (blockLength : Option Nat) (fields : List FieldDef) : Prop :=
  (∀ f ∈ fields, f.type.Sound) ∧ ∀ n ∈ blockLength, fieldsWidth fields ≤ n

mutual

/-- The blocks of a group are sound, and its header. -/
def GroupDef.Sound : GroupDef → Prop
  | ⟨_, _, blockLength, dimension, fields, groups, _⟩ => dimension.Sound ∧ dimension.IsDimension
    ∧ BlockSound blockLength fields ∧ groupsSound groups

def groupsSound : List GroupDef → Prop
  | [] => True
  | g :: gs => g.Sound ∧ groupsSound gs

end

def MessageDef.Sound (m : MessageDef) : Prop :=
  BlockSound m.blockLength m.fields ∧ groupsSound m.groups

/-! ## Types -/

namespace TypeDef

variable {order : ByteOrder}

theorem width_layout (order : ByteOrder) (t : TypeDef) : (t.layout order).width = t.width := by
  cases t with
  | primitive d =>
    simp [layout, PrimitiveDef.layout, FieldKind.width, PrimitiveLayout.width,
      PrimitiveLayout.isConstant, width]
  | composite name members => simp [layout, FieldKind.width, width]
  | enumeration name encoding values => simp [layout, FieldKind.width, EnumLayout.width, width]
  | set name encoding choices => simp [layout, FieldKind.width, SetLayout.width, width]

/-- The first token of a type. -/
theorem exists_tokens_eq (order : ByteOrder) (offset : Nat) (t : TypeDef) : ∃ first rest,
    t.tokens order offset = first :: rest ∧ first.name = t.name ∧ first.id = -1
      ∧ first.version = 0 ∧ first.offset = offset ∧ first.description = none := by
  cases t <;> rw [tokens] <;> exact ⟨_, _, rfl, rfl, rfl, rfl, rfl, rfl⟩

theorem whole_tokens (order : ByteOrder) (offset : Nat) (t : TypeDef) :
    Whole (t.tokens order offset) := by
  cases t <;> rw [tokens]
  · exact whole_leaf rfl rfl
  · exact whole_wrap _ _ _
  · exact whole_wrap _ _ _
  · exact whole_wrap _ _ _

end TypeDef

/-- The tokens of each of several members. -/
def memberRuns (order : ByteOrder) (offset : Nat) : List TypeDef → List (List Token)
  | [] => []
  | t :: ts => t.tokens order offset :: memberRuns order (offset + t.width) ts

theorem flatten_memberRuns (order : ByteOrder) : ∀ (offset : Nat) (ts : List TypeDef),
    (memberRuns order offset ts).flatten = TypeDef.memberTokens order offset ts
  | _, [] => by rw [memberRuns, TypeDef.memberTokens, List.flatten_nil]
  | offset, t :: ts => by
    rw [memberRuns, TypeDef.memberTokens, List.flatten_cons, flatten_memberRuns order _ ts]

theorem starts_memberRuns (order : ByteOrder) : ∀ (offset : Nat) (ts : List TypeDef),
    ∀ u ∈ memberRuns order offset ts, Starts (fun _ => true) u
  | _, [], u, hu => by simp [memberRuns] at hu
  | offset, t :: ts, u, hu => by
    rw [memberRuns] at hu
    rcases List.mem_cons.1 hu with rfl | hu
    · obtain ⟨first, rest, hcons, -⟩ := t.exists_tokens_eq order offset
      exact ⟨t.whole_tokens order offset, first, rest, hcons, rfl⟩
    · exact starts_memberRuns order _ ts u hu

theorem stop_le_of_mem_memberLayouts {order : ByteOrder} : ∀ {offset : Nat} {ts : List TypeDef},
    ∀ f ∈ memberLayouts order offset ts, f.stop ≤ offset + TypeDef.totalWidth ts
  | offset, [], f, hf => by simp [memberLayouts] at hf
  | offset, t :: ts, f, hf => by
    rw [memberLayouts] at hf
    rw [TypeDef.totalWidth]
    rcases List.mem_cons.1 hf with rfl | hf
    · simp only [FieldLayout.stop, FieldLayout.width, TypeDef.width_layout]
      omega
    · have := stop_le_of_mem_memberLayouts f hf
      omega

/-- What is read of numbered tokens, if it does not depend on the number. -/
theorem mapM_zipIdx {ε α β : Type} {f : Token × Nat → Except ε β} {g : α → Token} {h : α → β} :
    ∀ {xs : List α} {k : Nat}, (∀ x ∈ xs, ∀ j, f (g x, j) = .ok (h x)) →
    ((xs.map g).zipIdx k).mapM f = .ok (xs.map h)
  | [], _, _ => rfl
  | x :: xs, k, hf => by
    obtain ⟨hx, hxs⟩ := List.forall_mem_cons.1 hf
    rw [List.map_cons, List.zipIdx_cons, List.mapM_cons, hx, ok_bind, mapM_zipIdx hxs]
    rfl

theorem numbered_of_hasAt {tokens inside : List Token} {t : Token} {c : Container} {i : Nat}
    (h : HasAt tokens i (t.wrap c inside)) :
    numbered tokens (Span.inner ⟨i, i + (t.wrap c inside).length⟩) = inside.zipIdx (i + 1) := by
  have hslice := (hasAt_wrap h).2.1.slice
  unfold numbered Span.inner
  rw [length_wrap]
  dsimp only
  rw [show max (i + (inside.length + 2) - 1) (i + 1) = i + 1 + inside.length by omega, hslice]

theorem tokenAt_of_getElem? {tokens : List Token} {i : Nat} {t : Token}
    (h : tokens[i]? = some t) : tokenAt tokens i = .ok t := by
  unfold tokenAt
  rw [h]

section Types

variable {order : ByteOrder} {tokens : List Token} {i offset : Nat}

theorem PrimitiveDef.ofToken_eq {d : PrimitiveDef} (hd : d.Sound) {t : Token} {index : Nat}
    (hencoding : t.encoding = {
      presence := d.presence, primitive := some d.primitive, byteOrder := order,
      constValue := d.constValue, nullValue := d.nullValue,
      characterEncoding := d.characterEncoding }) (hlength : t.arrayLength = d.arrayLength) :
    PrimitiveLayout.ofToken t index = .ok (d.layout order) := by
  unfold PrimitiveLayout.ofToken
  simp only [hencoding, hlength, Token.isConstant]
  rw [if_neg]
  · rw [max_eq_left hd.1]
    rfl
  · intro h
    rw [Bool.and_eq_true, beq_iff_eq] at h
    have := hd.2 h.1
    rw [Option.isNone_iff_eq_none] at h
    rw [h.2] at this
    cases this

theorem enumAt_tokens {name : String} {encoding : Primitive} {values : List (String × Literal)}
    (h : HasAt tokens i ((TypeDef.enumeration name encoding values).tokens order offset)) :
    enumAt tokens ⟨i, i + ((TypeDef.enumeration name encoding values).tokens order offset).length⟩
      = .ok {
        typeName := name, encoding, byteOrder := order,
        values := values.map fun (name, v) => ⟨name, v⟩
        nullValue := encoding.nullLiteral, description := none } := by
  rw [TypeDef.tokens] at h ⊢
  unfold enumAt
  rw [numbered_of_hasAt h]
  simp only [tokenAt_of_getElem? (hasAt_wrap h).1, ok_bind, Token.ofEncoding]
  rw [mapM_zipIdx (h := fun (x : String × Literal) => EnumValue.mk x.1 x.2) fun x _ j => rfl]
  rfl

theorem setAt_tokens {name : String} {encoding : Primitive} {choices : List (String × UInt32)}
    (hs : ∀ c ∈ choices, c.2.toNat < 8 * encoding.size)
    (h : HasAt tokens i ((TypeDef.set name encoding choices).tokens order offset)) :
    setAt tokens ⟨i, i + ((TypeDef.set name encoding choices).tokens order offset).length⟩
      = .ok {
        typeName := name, encoding, byteOrder := order,
        choices := choices.map fun (name, bit) => ⟨name, bit.toNat⟩, description := none } := by
  rw [TypeDef.tokens] at h ⊢
  unfold setAt
  rw [numbered_of_hasAt h]
  simp only [tokenAt_of_getElem? (hasAt_wrap h).1, ok_bind, Token.ofEncoding]
  rw [mapM_zipIdx (h := fun (x : String × UInt32) => Choice.mk x.1 x.2.toNat) fun x hx j => ?_]
  · rfl
  · have hbit := hs x hx
    simp [choiceOf, Token.member, Literal.toNat?, hbit]

theorem hasAt_memberRuns {name : String} {members : List TypeDef}
    (h : HasAt tokens i ((TypeDef.composite name members).tokens order offset)) :
    HasAt tokens (i + 1) (memberRuns order 0 members).flatten := by
  rw [TypeDef.tokens, ← flatten_memberRuns] at h
  exact (hasAt_wrap h).2.1

/-- A composite is read as its members are, one behind the other. -/
theorem TypeDef.compositeAt_eq {name : String} {members : List TypeDef}
    (h : HasAt tokens i ((TypeDef.composite name members).tokens order offset)) :
    compositeAt tokens ⟨i, i + ((TypeDef.composite name members).tokens order offset).length⟩
      = (do
        let kinds ← (spansFrom (i + 1) (memberRuns order 0 members)).mapM fun m => do
          return (← tokenAt tokens m.start, ← kindAt tokens m)
        return {
          typeName := name
          encodedLength := max (((placeMembers 0 kinds).getLast?.map (·.stop)).getD 0)
            (totalWidth members)
          members := placeMembers 0 kinds
          description := none }) := by
  rw [TypeDef.tokens, ← flatten_memberRuns] at h ⊢
  obtain ⟨hfirst, hinside, -⟩ := hasAt_wrap h
  have hmembers := members_of_hasAt (starts_memberRuns order 0 members) hinside rfl
  have hinner : Span.inner ⟨i, i + ((memberRuns order 0 members).flatten.length + 2)⟩
      = ⟨i + 1, i + 1 + (memberRuns order 0 members).flatten.length⟩ := by
    unfold Span.inner
    dsimp only
    congr 1
    omega
  rw [length_wrap, SimpleBinary.compositeAt_eq, tokenAt_of_getElem? hfirst, ok_bind, hinner,
    hmembers, ok_bind]
  rfl

/-- A composite is read if its members are, and placed where they were. -/
theorem compositeAt_of_kinds {name : String} {members : List TypeDef}
    (h : HasAt tokens i ((TypeDef.composite name members).tokens order offset))
    (hkinds : HasAt tokens (i + 1) (memberRuns order 0 members).flatten →
      ∃ kinds, (spansFrom (i + 1) (memberRuns order 0 members)).mapM
          (fun m => do return (← tokenAt tokens m.start, ← kindAt tokens m)) = .ok kinds
        ∧ placeMembers 0 kinds = memberLayouts order 0 members) :
    compositeAt tokens ⟨i, i + ((TypeDef.composite name members).tokens order offset).length⟩
      = .ok {
        typeName := name, encodedLength := TypeDef.totalWidth members,
        members := memberLayouts order 0 members, description := none } := by
  obtain ⟨kinds, hkinds, hplaced⟩ := hkinds (hasAt_memberRuns h)
  have hstop : ((memberLayouts order 0 members).getLast?.map (·.stop)).getD 0
      ≤ TypeDef.totalWidth members := by
    cases hlast : (memberLayouts order 0 members).getLast? with
    | none => exact Nat.zero_le _
    | some f =>
      have := stop_le_of_mem_memberLayouts f (List.mem_of_getLast? hlast)
      rw [Nat.zero_add] at this
      exact this
  rw [TypeDef.compositeAt_eq h, hkinds, ok_bind, hplaced, max_eq_right hstop]
  rfl

mutual

/-- A type's tokens are read as the type, wherever they stand. -/
theorem TypeDef.kindAt_tokens {tokens : List Token} : ∀ {t : TypeDef} {i offset : Nat}, t.Sound →
    HasAt tokens i (t.tokens order offset) →
    kindAt tokens ⟨i, i + (t.tokens order offset).length⟩ = .ok (t.layout order)
  | .primitive d, i, offset, hs, h => by
    rw [TypeDef.Sound] at hs
    rw [TypeDef.tokens] at h ⊢
    rw [kindAt, h.tokenAt, ok_bind]
    dsimp only
    rw [PrimitiveDef.ofToken_eq hs rfl rfl, TypeDef.layout]
    rfl
  | .composite name members, i, offset, hs, h => by
    rw [TypeDef.Sound] at hs
    have hc := compositeAt_of_kinds h fun hinside => exists_kinds hs hinside
    rw [TypeDef.tokens] at h hc ⊢
    rw [kindAt, tokenAt_of_getElem? (hasAt_wrap h).1, ok_bind]
    dsimp only
    rw [hc, TypeDef.layout]
    rfl
  | .enumeration name encoding values, i, offset, _, h => by
    have he := enumAt_tokens h
    rw [TypeDef.tokens] at h he ⊢
    rw [kindAt, tokenAt_of_getElem? (hasAt_wrap h).1, ok_bind]
    dsimp only
    rw [he, TypeDef.layout]
    rfl
  | .set name encoding choices, i, offset, hs, h => by
    rw [TypeDef.Sound] at hs
    have hset := setAt_tokens hs h
    rw [TypeDef.tokens] at h hset ⊢
    rw [kindAt, tokenAt_of_getElem? (hasAt_wrap h).1, ok_bind]
    dsimp only
    rw [hset, TypeDef.layout]
    rfl

/-- The types of members are read one behind the other, and placed where they were. -/
theorem exists_kinds {tokens : List Token} : ∀ {ts : List TypeDef} {i offset : Nat},
    membersSound ts → HasAt tokens i (memberRuns order offset ts).flatten →
    ∃ kinds, (spansFrom i (memberRuns order offset ts)).mapM
        (fun m => do return (← tokenAt tokens m.start, ← kindAt tokens m)) = .ok kinds
      ∧ placeMembers offset kinds = memberLayouts order offset ts
  | [], i, offset, _, _ => by
    rw [memberRuns, memberLayouts]
    exact ⟨[], rfl, rfl⟩
  | t :: ts, i, offset, hs, h => by
    rw [membersSound] at hs
    rw [memberRuns, List.flatten_cons] at h
    obtain ⟨kinds, hkinds, hplaced⟩ := exists_kinds hs.2 h.right
    have hkind := TypeDef.kindAt_tokens hs.1 h.left
    obtain ⟨first, rest, hcons, hname, hid, hversion, hoffset, hdescription⟩ :=
      t.exists_tokens_eq order offset
    have htoken : tokenAt tokens i = .ok first := by
      have := h.left
      rw [hcons] at this
      exact this.tokenAt
    refine ⟨(first, t.layout order) :: kinds, ?_, ?_⟩
    · rw [memberRuns, spansFrom, List.mapM_cons, hkinds]
      dsimp only
      rw [htoken, hkind]
      rfl
    · rw [memberLayouts, placeMembers]
      simp only [hname, hid, hversion, hoffset, hdescription, max_self, FieldLayout.stop,
        FieldLayout.width, TypeDef.width_layout, hplaced]

end

theorem compositeAt_tokens {tokens : List Token} {name : String} {members : List TypeDef}
    {i offset : Nat} (hs : (TypeDef.composite name members).Sound)
    (h : HasAt tokens i ((TypeDef.composite name members).tokens order offset)) :
    compositeAt tokens ⟨i, i + ((TypeDef.composite name members).tokens order offset).length⟩
      = .ok {
        typeName := name, encodedLength := TypeDef.totalWidth members,
        members := memberLayouts order 0 members, description := none } := by
  rw [TypeDef.Sound] at hs
  exact compositeAt_of_kinds h fun hinside => exists_kinds hs hinside

end Types

end SimpleBinary
