import Mathlib
import SimpleBinary.Proofs.Copies
import SimpleBinary.Proofs.Flattening
import SimpleBinary.Proofs.References

/-!
# Types on their own and in messages

A definition's type is written once for itself and once more at each place that refers to it, at
other offsets and with other tokens around.  What is read there is what is read of its own stream:
`TypeDef.LaidAlone` says so of a type and of the types in it, and
`MessageDef.laidAlone_of_ofTokens` of every field of a message that is accepted, of the fields of
its groups and of their headers.
-/

namespace SimpleBinary

/-! ## Parts of what was read -/

section Parts

variable {order : ByteOrder} {tokens : List Token}

/-- The kinds of members, the first of them apart. -/
theorem exists_of_kinds_cons {t : TypeDef} {ts : List TypeDef} {i offset : Nat}
    {kinds : List (Token × FieldKind)}
    (h : (spansFrom i (memberRuns order offset (t :: ts))).mapM
      (fun m => do return (← tokenAt tokens m.start, ← kindAt tokens m)) = .ok kinds) :
    ∃ first kind rest, kinds = (first, kind) :: rest ∧ tokens[i]? = some first
      ∧ kindAt tokens ⟨i, i + (t.tokens order offset).length⟩ = .ok kind
      ∧ (spansFrom (i + (t.tokens order offset).length)
          (memberRuns order (offset + t.width) ts)).mapM
        (fun m => do return (← tokenAt tokens m.start, ← kindAt tokens m)) = .ok rest := by
  rw [memberRuns, spansFrom, List.mapM_cons] at h
  obtain ⟨⟨first, kind⟩, hhead, h⟩ := bind_eq_ok_iff.1 h
  obtain ⟨rest, hrest, h⟩ := bind_eq_ok_iff.1 h
  obtain ⟨first', hfirst, hhead⟩ := bind_eq_ok_iff.1 hhead
  obtain ⟨kind', hkind, hhead⟩ := bind_eq_ok_iff.1 hhead
  cases h
  cases hhead
  exact ⟨first, kind, rest, rfl, getElem?_of_tokenAt hfirst, hkind, hrest⟩

/-- A kind is that of a primitive, a composite, an enumeration or a set, as the type is. -/
def TypeDef.Alike : TypeDef → FieldKind → Prop
  | .primitive _, .primitive _ | .composite .., .composite _ => True
  | .enumeration .., .enumeration _ | .set .., .set _ => True
  | _, _ => False

theorem TypeDef.alike_of_kindAt {t : TypeDef} {i offset : Nat} {k : FieldKind}
    (h : HasAt tokens i (t.tokens order offset))
    (hk : kindAt tokens ⟨i, i + (t.tokens order offset).length⟩ = .ok k) : t.Alike k := by
  cases t with
  | primitive d =>
    rw [TypeDef.tokens] at h
    rw [kindAt, h.tokenAt, ok_bind] at hk
    obtain ⟨p, -, hk⟩ := bind_eq_ok_iff.1 hk
    cases hk
    trivial
  | _ =>
    rw [TypeDef.tokens] at h
    rw [kindAt, tokenAt_of_getElem? (hasAt_wrap h).1, ok_bind] at hk
    obtain ⟨k', -, hk⟩ := bind_eq_ok_iff.1 hk
    cases hk
    trivial

/-- The members of a composite that was read. -/
theorem TypeDef.exists_of_kindAt_composite {name : String} {members : List TypeDef} {i offset : Nat}
    {k : FieldKind} (h : HasAt tokens i ((TypeDef.composite name members).tokens order offset))
    (hk : kindAt tokens
      ⟨i, i + ((TypeDef.composite name members).tokens order offset).length⟩ = .ok k) :
    ∃ c kinds, k = .composite c ∧ c.members = placeMembers 0 kinds
      ∧ c.encodedLength = max ((c.members.getLast?.map (·.stop)).getD 0) (totalWidth members)
      ∧ (spansFrom (i + 1) (memberRuns order 0 members)).mapM
        (fun m => do return (← tokenAt tokens m.start, ← kindAt tokens m)) = .ok kinds := by
  have hc := TypeDef.compositeAt_eq h
  obtain ⟨first, hfirst, hsignal⟩ : ∃ first, tokenAt tokens i = .ok first
      ∧ first.signal = .opens .composite := by
    rw [TypeDef.tokens] at h
    exact ⟨_, tokenAt_of_getElem? (hasAt_wrap h).1, rfl⟩
  rw [kindAt, hfirst, ok_bind, hsignal] at hk
  dsimp only at hk
  rw [hc] at hk
  obtain ⟨c, hc, hk⟩ := bind_eq_ok_iff.1 hk
  obtain ⟨kinds, hkinds, hc⟩ := bind_eq_ok_iff.1 hc
  cases hc
  cases hk
  exact ⟨_, kinds, rfl, rfl, rfl, hkinds⟩

/-- The fields that were read, the first of them apart. -/
theorem exists_of_fieldsAt_cons {f : FieldDef} {fs : List FieldDef} {i offset cursor : Nat}
    {fields : List FieldLayout} (h : HasAt tokens i (fieldRuns order offset (f :: fs)).flatten)
    (hf : fieldsAt tokens cursor (spansFrom i (fieldRuns order offset (f :: fs))) = .ok fields) :
    ∃ kind rest, fields = ⟨f.name, f.id, f.sinceVersion, max cursor offset, none, kind⟩ :: rest
      ∧ kindAt tokens ⟨i + 1, i + 1 + (f.type.tokens order offset).length⟩ = .ok kind
      ∧ fieldsAt tokens (max cursor offset + kind.width)
        (spansFrom (i + (f.tokens order offset).length)
          (fieldRuns order (offset + f.type.width) fs)) = .ok rest := by
  rw [fieldRuns, List.flatten_cons] at h
  rw [fieldRuns, spansFrom, fieldsAt, f.fieldAt_eq h.left] at hf
  obtain ⟨first, hfirst, hf⟩ := bind_eq_ok_iff.1 hf
  obtain ⟨rest, hrest, hf⟩ := bind_eq_ok_iff.1 hf
  obtain ⟨kind, hkind, rfl⟩ := map_eq_ok_iff.1 hfirst
  cases hf
  exact ⟨kind, rest, rfl, hkind, hrest⟩

/-- The groups that were read, the first of them apart. -/
theorem exists_of_groups_cons {g : GroupDef} {gs : List GroupDef} {i : Nat} {ls : List GroupLayout}
    (h : HasAt tokens i ((g :: gs).map (·.tokens order)).flatten)
    (hl : (spansFrom i ((g :: gs).map (·.tokens order))).mapM (groupAt tokens) = .ok ls) :
    ∃ l rest, ls = l :: rest ∧ HasAt tokens i (g.tokens order)
      ∧ groupAt tokens ⟨i, i + (g.tokens order).length⟩ = .ok l
      ∧ HasAt tokens (i + (g.tokens order).length) (gs.map (·.tokens order)).flatten
      ∧ (spansFrom (i + (g.tokens order).length) (gs.map (·.tokens order))).mapM (groupAt tokens)
        = .ok rest := by
  rw [List.map_cons, List.flatten_cons] at h
  rw [List.map_cons, spansFrom, List.mapM_cons] at hl
  obtain ⟨l, hhead, hl⟩ := bind_eq_ok_iff.1 hl
  obtain ⟨rest, hrest, hl⟩ := bind_eq_ok_iff.1 hl
  cases hl
  exact ⟨l, rest, rfl, h.left, hhead, h.right, hrest⟩

/-- The regions of a body that was read. -/
theorem exists_of_bodyAt {fields : List FieldDef} {groups : List GroupDef}
    {varData : List VarDataDef} {i blockLength : Nat} {owner : String} {b : BodyLayout}
    (h : HasAt tokens i (bodyTokens order fields groups varData))
    (hb : bodyAt tokens ⟨i, i + (bodyTokens order fields groups varData).length⟩ blockLength owner
      = .ok b) :
    fieldsAt tokens 0 (spansFrom i (fieldRuns order 0 fields)) = .ok b.fields
      ∧ (spansFrom (i + (fieldTokens order 0 fields).length)
        (groups.map (·.tokens order))).mapM (groupAt tokens) = .ok b.groups
      ∧ b.varData = varData.map (·.layout order) := by
  rw [bodyAt_tokens_eq h rfl] at hb
  obtain ⟨fields', hf, hb⟩ := bind_eq_ok_iff.1 hb
  obtain ⟨groups', hg, hb⟩ := bind_eq_ok_iff.1 hb
  obtain ⟨rfl, -⟩ := BodyLayout.ofRegions_eq_ok hb
  exact ⟨hf, hg, rfl⟩

/-- The header of a group is read of the members of a composite. -/
structure DimensionLayout.HeaderOf (c : CompositeLayout) (d : DimensionLayout) : Prop where
  typeName : d.typeName = c.typeName
  blockLength : HeaderSlot.ofMember c "blockLength" = .ok d.blockLength
  numInGroup : HeaderSlot.ofMember c "numInGroup" = .ok d.numInGroup
  encodedLength : d.encodedLength = c.encodedLength

theorem exists_of_dimensionAt {s : Span} {d : DimensionLayout} (h : dimensionAt tokens s = .ok d) :
    ∃ c, compositeAt tokens s = .ok c ∧ d.HeaderOf c := by
  obtain ⟨c, hc, h⟩ := bind_eq_ok_iff.1 h
  obtain ⟨blockLength, hb, h⟩ := bind_eq_ok_iff.1 h
  obtain ⟨numInGroup, hn, h⟩ := bind_eq_ok_iff.1 h
  cases h
  exact ⟨c, hc, rfl, hb, hn, rfl⟩

/-- The header and the body of a group that was read. -/
theorem GroupDef.exists_of_groupAt {name : String} {id : Int32} {blockLength : Option Nat}
    {dimension : TypeDef} {fields : List FieldDef} {groups : List GroupDef}
    {varData : List VarDataDef} {i : Nat} {g : GroupLayout}
    (h : HasAt tokens i (GroupDef.tokens order
      ⟨name, id, blockLength, dimension, fields, groups, varData⟩))
    (hg : groupAt tokens ⟨i, i + (GroupDef.tokens order
      ⟨name, id, blockLength, dimension, fields, groups, varData⟩).length⟩ = .ok g) :
    (∃ c, kindAt tokens ⟨i + 1, i + 1 + (dimension.tokens order 0).length⟩ = .ok (.composite c)
        ∧ g.dimension.HeaderOf c)
      ∧ bodyAt tokens ⟨i + 1 + (dimension.tokens order 0).length,
        i + 1 + (dimension.tokens order 0).length + (bodyTokens order fields groups varData).length⟩
        (blockLength.getD (fieldsWidth fields)) name = .ok g.body := by
  rw [GroupDef.groupAt_eq h] at hg
  obtain ⟨first, hfirst, hg⟩ := bind_eq_ok_iff.1 hg
  split at hg
  · exact absurd hg throw_ne_ok
  · rename_i hsignal
    obtain ⟨dimension', hdimension, hg⟩ := bind_eq_ok_iff.1 hg
    obtain ⟨body, hbody, hg⟩ := bind_eq_ok_iff.1 hg
    cases hg
    obtain ⟨c, hc, hheader⟩ := exists_of_dimensionAt hdimension
    refine ⟨⟨c, ?_, hheader⟩, hbody⟩
    rw [kindAt, hfirst, ok_bind, not_not.1 hsignal]
    dsimp only
    rw [hc]
    rfl

end Parts

/-! ## Types read alone -/

/-- The stream of a type is read as a kind. -/
def TypeDef.ReadAlone (order : ByteOrder) (t : TypeDef) (k : FieldKind) : Prop :=
  ∃ u : TypeLayout, TypeLayout.ofTokens (t.tokens order 0) = .ok (some u) ∧ k = u.kind

mutual

/-- The stream of a type is read as a kind, and those of the types in it as the kinds in it. -/
def TypeDef.LaidAlone (order : ByteOrder) : TypeDef → FieldKind → Prop
  | .primitive _, k => ∃ p, k = .primitive p
  | .composite name members, k => (TypeDef.composite name members).ReadAlone order k
    ∧ ∃ c, k = .composite c ∧ membersLaidAlone order members c.members
  | .enumeration name encoding values, k =>
    (TypeDef.enumeration name encoding values).ReadAlone order k
  | .set name encoding choices, k => (TypeDef.set name encoding choices).ReadAlone order k

def membersLaidAlone (order : ByteOrder) : List TypeDef → List FieldLayout → Prop
  | [], fs => fs = []
  | t :: ts, fs => ∃ f rest, fs = f :: rest ∧ t.LaidAlone order f.kind
    ∧ membersLaidAlone order ts rest

end

/-- Fields of types that are read alike on their own. -/
def fieldsLaidAlone (order : ByteOrder) : List FieldDef → List FieldLayout → Prop :=
  List.Forall₂ fun f l => f.type.LaidAlone order l.kind

mutual

/-- The types of a group's header, of its fields and of the groups in it are read alike on their
own. -/
def GroupDef.LaidAlone (order : ByteOrder) : GroupDef → GroupLayout → Prop
  | ⟨_, _, _, dimension, fields, groups, _⟩, g =>
    (∃ c, dimension.LaidAlone order (.composite c) ∧ g.dimension.HeaderOf c)
      ∧ fieldsLaidAlone order fields g.body.fields ∧ groupsLaidAlone order groups g.body.groups

def groupsLaidAlone (order : ByteOrder) : List GroupDef → List GroupLayout → Prop
  | [], ls => ls = []
  | g :: gs, ls => ∃ l rest, ls = l :: rest ∧ g.LaidAlone order l ∧ groupsLaidAlone order gs rest

end

section Alone

variable {order : ByteOrder} {tokens : List Token}

theorem copyOf_wrap {t u : Token} (c : Container) (inside : List Token)
    (h : Token.SameType { t with signal := .opens c } { u with signal := .opens c }) :
    CopyOf (t.wrap c inside) (u.wrap c inside) :=
  ⟨_, _, inside, _, _, rfl, rfl, rfl, h.typeName, h.encodedLength, h.arrayLength, h.encoding,
    h.description⟩

/-- The tokens of a type are the same at every offset, but for the offset. -/
theorem TypeDef.copyOf_tokens {t : TypeDef} (ht : ∀ d, t ≠ .primitive d) (order : ByteOrder)
    (offset offset' : Nat) : CopyOf (t.tokens order offset) (t.tokens order offset') := by
  cases t with
  | primitive d => exact absurd rfl (ht d)
  | _ => rw [tokens, tokens]; exact copyOf_wrap _ _ ⟨rfl, rfl, rfl, rfl, rfl, rfl⟩

theorem TypeDef.exists_kind_of_kindAt {t : TypeDef} (ht : ∀ d, t ≠ .primitive d) {i offset : Nat}
    {k : FieldKind} (h : HasAt tokens i (t.tokens order offset))
    (hk : kindAt tokens ⟨i, i + (t.tokens order offset).length⟩ = .ok k) :
    ∃ u : TypeLayout, k = u.kind := by
  have halike := alike_of_kindAt h hk
  rcases k with p | c | e | s
  · cases t with
    | primitive d => exact absurd rfl (ht d)
    | _ => exact halike.elim
  · exact ⟨.composite c, rfl⟩
  · exact ⟨.enumeration e, rfl⟩
  · exact ⟨.set s, rfl⟩

/-- What a type is read as at any place, its own stream is read as. -/
theorem TypeDef.readAlone_of_kindAt {t : TypeDef} (ht : ∀ d, t ≠ .primitive d) {i offset : Nat}
    {k : FieldKind} (h : HasAt tokens i (t.tokens order offset))
    (hk : kindAt tokens ⟨i, i + (t.tokens order offset).length⟩ = .ok k) :
    t.ReadAlone order k := by
  obtain ⟨u, rfl⟩ := exists_kind_of_kindAt ht h hk
  have hself := hasAt_self (t.tokens order 0)
  have hspan := t.whole_tokens order 0 _ _ hself
  have hcopy := kindAt_of_copy (t.copyOf_tokens ht order offset 0) h hself
  rw [hk, toOption_ok, eq_comm, toOption_eq_some_iff] at hcopy
  rw [Nat.zero_add] at hspan hcopy
  exact ⟨u, TypeLayout.ofTokens_eq_some_iff.2 ⟨hspan, hcopy⟩, rfl⟩

mutual

theorem TypeDef.laidAlone_of_kindAt : ∀ {t : TypeDef} {i offset : Nat} {k : FieldKind},
    HasAt tokens i (t.tokens order offset) →
    kindAt tokens ⟨i, i + (t.tokens order offset).length⟩ = .ok k → t.LaidAlone order k
  | .primitive d, i, offset, k, h, hk => by
    rw [TypeDef.LaidAlone]
    rw [TypeDef.tokens] at h
    rw [kindAt, h.tokenAt, ok_bind] at hk
    obtain ⟨p, -, hk⟩ := bind_eq_ok_iff.1 hk
    cases hk
    exact ⟨p, rfl⟩
  | .composite name members, i, offset, k, h, hk => by
    rw [TypeDef.LaidAlone]
    refine ⟨TypeDef.readAlone_of_kindAt (by simp) h hk, ?_⟩
    obtain ⟨c, kinds, rfl, hmembers, -, hkinds⟩ := TypeDef.exists_of_kindAt_composite h hk
    refine ⟨c, rfl, ?_⟩
    rw [hmembers]
    exact membersLaidAlone_of_kinds (hasAt_memberRuns h) hkinds
  | .enumeration name encoding values, i, offset, k, h, hk => by
    rw [TypeDef.LaidAlone]
    exact TypeDef.readAlone_of_kindAt (by simp) h hk
  | .set name encoding choices, i, offset, k, h, hk => by
    rw [TypeDef.LaidAlone]
    exact TypeDef.readAlone_of_kindAt (by simp) h hk

theorem membersLaidAlone_of_kinds : ∀ {ts : List TypeDef} {i offset cursor : Nat}
    {kinds : List (Token × FieldKind)}, HasAt tokens i (memberRuns order offset ts).flatten →
    (spansFrom i (memberRuns order offset ts)).mapM
      (fun m => do return (← tokenAt tokens m.start, ← kindAt tokens m)) = .ok kinds →
    membersLaidAlone order ts (placeMembers cursor kinds)
  | [], i, offset, cursor, kinds, _, hk => by
    rw [memberRuns] at hk
    obtain rfl : [] = kinds := Except.ok.inj hk
    rw [membersLaidAlone, placeMembers]
  | t :: ts, i, offset, cursor, kinds, h, hk => by
    obtain ⟨first, kind, rest, rfl, -, hkind, hrest⟩ := exists_of_kinds_cons hk
    rw [memberRuns, List.flatten_cons] at h
    rw [membersLaidAlone, placeMembers]
    exact ⟨_, _, rfl, TypeDef.laidAlone_of_kindAt h.left hkind,
      membersLaidAlone_of_kinds h.right hrest⟩

end

theorem fieldsLaidAlone_of_fieldsAt : ∀ {fs : List FieldDef} {i offset cursor : Nat}
    {fields : List FieldLayout}, HasAt tokens i (fieldRuns order offset fs).flatten →
    fieldsAt tokens cursor (spansFrom i (fieldRuns order offset fs)) = .ok fields →
    fieldsLaidAlone order fs fields
  | [], i, offset, cursor, fields, _, hf => by
    cases hf
    exact .nil
  | f :: fs, i, offset, cursor, fields, h, hf => by
    obtain ⟨kind, rest, rfl, hkind, hrest⟩ := exists_of_fieldsAt_cons h hf
    rw [fieldRuns, List.flatten_cons] at h
    exact .cons (TypeDef.laidAlone_of_kindAt (f.hasAt_type h.left) hkind)
      (fieldsLaidAlone_of_fieldsAt h.right hrest)

mutual

theorem GroupDef.laidAlone_of_groupAt : ∀ {g : GroupDef} {i : Nat} {l : GroupLayout},
    HasAt tokens i (g.tokens order) →
    groupAt tokens ⟨i, i + (g.tokens order).length⟩ = .ok l → g.LaidAlone order l
  | ⟨name, id, blockLength, dimension, fields, groups, varData⟩, i, l, h, hl => by
    obtain ⟨⟨c, hc, hheader⟩, hbody⟩ := GroupDef.exists_of_groupAt h hl
    have hat := hasAt_bodyTokens h
    obtain ⟨hfields, hgroups, -⟩ := exists_of_bodyAt hat hbody
    rw [GroupDef.LaidAlone]
    exact ⟨⟨c, TypeDef.laidAlone_of_kindAt (hasAt_dimension h) hc, hheader⟩,
      fieldsLaidAlone_of_fieldsAt (hasAt_fieldRuns hat) hfields,
      groupsLaidAlone_of_mapM (hasAt_groupRuns hat) hgroups⟩

theorem groupsLaidAlone_of_mapM : ∀ {gs : List GroupDef} {i : Nat} {ls : List GroupLayout},
    HasAt tokens i (gs.map (·.tokens order)).flatten →
    (spansFrom i (gs.map (·.tokens order))).mapM (groupAt tokens) = .ok ls →
    groupsLaidAlone order gs ls
  | [], i, ls, _, hl => by
    obtain rfl : [] = ls := Except.ok.inj hl
    rw [groupsLaidAlone]
  | g :: gs, i, ls, h, hl => by
    obtain ⟨l, rest, rfl, hat, hhead, hats, hrest⟩ := exists_of_groups_cons h hl
    rw [groupsLaidAlone]
    exact ⟨l, rest, rfl, GroupDef.laidAlone_of_groupAt hat hhead,
      groupsLaidAlone_of_mapM hats hrest⟩

end

end Alone

/-- Each type that a message refers to, in a field, in the header of a group or in another type, is
laid out there as it is on its own. -/
theorem MessageDef.laidAlone_of_ofTokens {m : MessageDef} {order : ByteOrder} {l : MessageLayout}
    (h : MessageLayout.ofTokens (m.tokens order) = .ok l) :
    fieldsLaidAlone order m.fields l.body.fields
      ∧ groupsLaidAlone order m.groups l.body.groups := by
  rw [m.ofTokens_eq] at h
  obtain ⟨body, hbody, h⟩ := bind_eq_ok_iff.1 h
  cases h
  have hat := m.hasAt_body order
  obtain ⟨hfields, hgroups, -⟩ := exists_of_bodyAt hat hbody
  exact ⟨fieldsLaidAlone_of_fieldsAt (hasAt_fieldRuns hat) hfields,
    groupsLaidAlone_of_mapM (hasAt_groupRuns hat) hgroups⟩

namespace Shipments

def flags : TypeDef := .set "Flags" .uint8 [("open", 0), ("guarded", 3)]

/-- A venue at a place with flags. -/
def venue : TypeDef :=
  .composite "Venue" [.primitive { name := "number", primitive := .uint16 },
    .composite "Place" [.primitive { name := "floor", primitive := .int8 }, flags]]

/-- A shipment from a venue, with the venues of its stops. -/
def definition : MessageDef where
  name := "Shipment"
  id := 9
  fields := [
    { name := "weight", id := 1, type := .primitive { name := "uint32", primitive := .uint32 } },
    { name := "origin", id := 2, type := venue }]
  groups := [{
    name := "stops", id := 3
    fields := [
      { name := "seen", id := 4, type := flags }, { name := "at", id := 5, type := venue }] }]

theorem definition_sound : definition.Sound := by
  simp [definition, venue, flags, TypeDef.groupSize, TypeDef.ofPrimitives, MessageDef.Sound,
    groupsSound, GroupDef.Sound, BlockSound, TypeDef.Sound, membersSound, PrimitiveDef.Sound,
    TypeDef.IsDimension, TypeDef.name, Primitive.size]

/-- The venues of a shipment and the flags in them are laid out as on their own. -/
theorem laidAlone_definition : ∃ l,
    MessageLayout.ofTokens (definition.tokens .bigEndian) = .ok l
      ∧ fieldsLaidAlone .bigEndian definition.fields l.body.fields
      ∧ groupsLaidAlone .bigEndian definition.groups l.body.groups := by
  obtain ⟨l, hl⟩ := definition_sound.exists_layout? .bigEndian
  have h := MessageDef.ofTokens_tokens_of_layout? definition_sound hl
  exact ⟨l, h, MessageDef.laidAlone_of_ofTokens h⟩

end Shipments

end SimpleBinary
