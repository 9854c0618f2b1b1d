import Mathlib
import SimpleBinary.Proofs.Flattening
import SimpleBinary.Proofs.Placement

/-!
# Where the length of var-data lies

The slots of the other headers are those of members: of the first member of a name, placed behind
the members before it, and not of a constant.  The length of var-data is read of the first encoding
token of its name, at any depth in the composite, constant or not, and lies where the token says.
`VarDataLayout.length_eq_slot_iff` compares the two.
-/

namespace SimpleBinary

/-! ## Slots of members -/

/-- Where the fields in front of the first one of a name end. -/
def stopBefore (name : String) (cursor : Nat) (fields : List FieldLayout) : Nat :=
  ((fields.takeWhile fun f => f.name != name).getLast?.map (·.stop)).getD cursor

theorem stopBefore_cons_of_eq {name : String} {f : FieldLayout} (h : f.name = name) (cursor : Nat)
    (fields : List FieldLayout) : stopBefore name cursor (f :: fields) = cursor := by
  unfold stopBefore
  rw [List.takeWhile_cons_of_neg (by simp [h])]
  rfl

theorem stopBefore_cons_of_ne {name : String} {f : FieldLayout} (h : f.name ≠ name) (cursor : Nat)
    (fields : List FieldLayout) :
    stopBefore name cursor (f :: fields) = stopBefore name f.stop fields := by
  unfold stopBefore
  rw [List.takeWhile_cons_of_pos (by simp [h]), List.getLast?_cons, Option.map_some,
    Option.getD_some]
  cases (fields.takeWhile fun f => f.name != name).getLast? <;> rfl

/-- The first member of a name lies behind those in front of it, and not before its own offset. -/
theorem find?_placeMembers (name : String) : ∀ (cursor : Nat) (kinds : List (Token × FieldKind)),
    (placeMembers cursor kinds).find? (·.name == name)
      = (kinds.find? (·.1.name == name)).map fun k => {
        name := k.1.name, id := k.1.id, sinceVersion := k.1.version
        offset := max (stopBefore name cursor (placeMembers cursor kinds)) k.1.offset
        description := k.1.description, kind := k.2 }
  | _, [] => rfl
  | cursor, (u, k) :: kinds => by
    rw [placeMembers, List.find?_cons, List.find?_cons]
    by_cases hname : u.name = name
    · rw [stopBefore_cons_of_eq hname]
      simp [hname]
    · rw [stopBefore_cons_of_ne hname]
      simp only [beq_eq_false_iff_ne.2 hname]
      exact find?_placeMembers name _ kinds

/-- The span of the first member of a name. -/
def firstNamed? (tokens : List Token) (spans : List Span) (name : String) : Option Span :=
  spans.find? fun m => tokens[m.start]?.any (·.name == name)

/-- The first member of a name among spans, and among what they are read as. -/
theorem find?_kinds {tokens : List Token} (name : String) {spans : List Span}
    {kinds : List (Token × FieldKind)}
    (h : List.Forall₂ (fun m k => tokens[m.start]? = some k.1 ∧ kindAt tokens m = .ok k.2)
      spans kinds) :
    (firstNamed? tokens spans name = none ∧ kinds.find? (·.1.name == name) = none)
      ∨ ∃ m u k, firstNamed? tokens spans name = some m
        ∧ kinds.find? (·.1.name == name) = some (u, k) ∧ tokens[m.start]? = some u
        ∧ kindAt tokens m = .ok k := by
  unfold firstNamed?
  induction h with
  | nil => exact .inl ⟨rfl, rfl⟩
  | @cons m k ms ks hmk _ ih =>
    obtain ⟨u, kind⟩ := k
    obtain ⟨hu, hkind⟩ := hmk
    rw [List.find?_cons, List.find?_cons, hu]
    by_cases hname : u.name = name
    · exact .inr ⟨m, u, kind, by simp [hname], by simp [hname], hu, hkind⟩
    · simpa [beq_eq_false_iff_ne.2 hname] using ih

/-- A type that is read as an element is one encoding token. -/
theorem kindAt_eq_primitive_iff {tokens : List Token} {m : Span} {u : Token} {k : FieldKind}
    (hu : tokens[m.start]? = some u) (hk : kindAt tokens m = .ok k) {p : PrimitiveLayout} :
    k = .primitive p ↔ u.signal = .encoding ∧ PrimitiveLayout.ofToken u m.start = .ok p := by
  rw [kindAt, tokenAt_of_getElem? hu, ok_bind] at hk
  constructor
  · rintro rfl
    split at hk
    · obtain ⟨p', hp', hk⟩ := bind_eq_ok_iff.1 hk
      cases hk
      exact ⟨by assumption, hp'⟩
    · obtain ⟨c, -, hk⟩ := bind_eq_ok_iff.1 hk
      cases hk
    · obtain ⟨e, -, hk⟩ := bind_eq_ok_iff.1 hk
      cases hk
    · obtain ⟨l, -, hk⟩ := bind_eq_ok_iff.1 hk
      cases hk
    · exact absurd hk throw_ne_ok
  · rintro ⟨hsignal, hp⟩
    rw [hsignal] at hk
    dsimp only at hk
    rw [hp] at hk
    cases hk
    rfl

theorem PrimitiveLayout.eq_of_ofToken {u : Token} {i : Nat} {p : PrimitiveLayout}
    (h : PrimitiveLayout.ofToken u i = .ok p) : u.encoding.primitive = some p.primitive
      ∧ u.encoding.byteOrder = p.byteOrder ∧ u.isConstant = p.isConstant := by
  unfold PrimitiveLayout.ofToken at h
  split at h
  · cases h
  · split_ifs at h
    cases h
    exact ⟨by assumption, rfl, rfl⟩

/-- The slot of a member is that of the first one of the name, if it is an element and not a
constant. -/
theorem HeaderSlot.ofMember_eq_ok_iff {c : CompositeLayout} {name : String} {slot : HeaderSlot} :
    HeaderSlot.ofMember c name = .ok slot ↔ ∃ f p, c.member? name = some f
      ∧ f.kind = .primitive p ∧ p.isConstant = false
      ∧ slot = ⟨p.primitive, p.byteOrder, f.offset⟩ := by
  unfold ofMember
  constructor
  · intro h
    split at h
    · rename_i p hf
      split_ifs at h with hconstant
      cases h
      exact ⟨_, p, hf, rfl, by simpa using hconstant, rfl⟩
    · cases h
  · rintro ⟨⟨fname, id, sinceVersion, offset, description, kind⟩, p, hf, rfl, hconstant, rfl⟩
    rw [hf]
    simp [hconstant]

/-- The slot of a member by the tokens of its composite. -/
theorem exists_members_of_compositeAt {tokens : List Token} {c : Span} {composite : CompositeLayout}
    (h : compositeAt tokens c = .ok composite) (name : String) (slot : HeaderSlot) :
    ∃ spans, members tokens c.inner = .ok spans
      ∧ (HeaderSlot.ofMember composite name = .ok slot ↔ ∃ m u,
        firstNamed? tokens spans name = some m ∧ tokens[m.start]? = some u
          ∧ u.signal = .encoding ∧ u.isConstant = false
          ∧ u.encoding.primitive = some slot.primitive ∧ u.encoding.byteOrder = slot.byteOrder
          ∧ max (stopBefore name 0 composite.members) u.offset = slot.offset) := by
  rw [compositeAt_eq] at h
  obtain ⟨t, -, h⟩ := bind_eq_ok_iff.1 h
  obtain ⟨spans, hspans, h⟩ := bind_eq_ok_iff.1 h
  obtain ⟨kinds, hkinds, h⟩ := bind_eq_ok_iff.1 h
  cases h
  have hread : List.Forall₂ (fun m (k : Token × FieldKind) => tokens[m.start]? = some k.1
      ∧ kindAt tokens m = .ok k.2) spans kinds := by
    refine forall₂_of_mapM hkinds fun m _ k hk => ?_
    obtain ⟨u, hu, hk⟩ := bind_eq_ok_iff.1 hk
    obtain ⟨kind, hkind, hk⟩ := bind_eq_ok_iff.1 hk
    cases hk
    exact ⟨getElem?_of_tokenAt hu, hkind⟩
  refine ⟨spans, hspans, ?_⟩
  rw [HeaderSlot.ofMember_eq_ok_iff]
  unfold CompositeLayout.member? CompositeLayout.ofMembers
  dsimp only
  rw [find?_placeMembers]
  rcases find?_kinds name hread with ⟨hnone, hnone'⟩ | ⟨m, u, k, hm, hk, hu, hkind⟩
  · simp [hnone, hnone']
  rw [hm, hk]
  constructor
  · rintro ⟨f, p, hf, hkp, hconstant, rfl⟩
    cases hf
    obtain ⟨hsignal, hp⟩ := (kindAt_eq_primitive_iff hu hkind).1 hkp
    obtain ⟨hprimitive, horder, hconstant'⟩ := PrimitiveLayout.eq_of_ofToken hp
    exact ⟨m, u, rfl, hu, hsignal, hconstant'.trans hconstant, hprimitive, horder, rfl⟩
  · rintro ⟨m', u', hm', hu', hsignal, hconstant, hprimitive, horder, hoffset⟩
    cases hm'
    rw [hu] at hu'
    cases hu'
    obtain ⟨p, hp⟩ : ∃ p, PrimitiveLayout.ofToken u m.start = .ok p := by
      rw [kindAt, tokenAt_of_getElem? hu, ok_bind, hsignal] at hkind
      obtain ⟨p, hp, -⟩ := bind_eq_ok_iff.1 hkind
      exact ⟨p, hp⟩
    obtain ⟨hprimitive', horder', hconstant'⟩ := PrimitiveLayout.eq_of_ofToken hp
    rw [hprimitive'] at hprimitive
    rw [horder'] at horder
    rw [hconstant'] at hconstant
    obtain ⟨primitive, order, offset⟩ := slot
    cases hprimitive
    cases horder
    cases hoffset
    exact ⟨_, p, rfl, (kindAt_eq_primitive_iff hu hkind).2 ⟨hsignal, hp⟩, hconstant, rfl⟩

/-! ## Lengths of var-data -/

/-- The first encoding token of a name in a span, at any depth, and its number. -/
def firstEncoding? (tokens : List Token) (s : Span) (name : String) : Option (Token × Nat) :=
  (numbered tokens s).find? fun (t, _) => t.signal == .encoding && t.name == name

theorem getElem?_of_mem_numbered {tokens : List Token} {s : Span} {t : Token} {i : Nat}
    (h : (t, i) ∈ numbered tokens s) : tokens[i]? = some t := by
  rw [numbered, List.mem_zipIdx_iff_le_and_getElem?_sub] at h
  obtain ⟨hle, hget⟩ := h
  rw [List.getElem?_drop, Nat.add_sub_cancel' hle, List.getElem?_take] at hget
  split_ifs at hget
  exact hget

/-- The length of var-data is what its first encoding token says. -/
theorem VarDataLayout.exists_of_varDataAt {tokens : List Token} {s c : Span} {d : VarDataLayout}
    (h : varDataAt tokens s = .ok d) (hc : spanAt (tokens.take s.stop) (s.start + 1) = .ok c) :
    ∃ t i, firstEncoding? tokens c.inner "length" = some (t, i) ∧ t.signal = .encoding
      ∧ t.encoding.primitive = some d.length.primitive
      ∧ t.encoding.byteOrder = d.length.byteOrder ∧ t.offset = d.length.offset := by
  obtain ⟨first, -, h⟩ := bind_eq_ok_iff.1 h
  rw [hc, ok_bind] at h
  obtain ⟨composite, -, h⟩ := bind_eq_ok_iff.1 h
  split at h
  · exact absurd h throw_ne_ok
  obtain ⟨⟨t, i⟩, ht, h⟩ := bind_eq_ok_iff.1 h
  obtain ⟨⟨data, j⟩, -, h⟩ := bind_eq_ok_iff.1 h
  obtain ⟨p, hp, h⟩ := bind_eq_ok_iff.1 h
  cases h
  unfold encodingNamed at ht
  split at ht
  · rename_i r hr
    cases ht
    have hfound := List.find?_some hr
    rw [Bool.and_eq_true, beq_iff_eq] at hfound
    obtain ⟨hprimitive, horder, -⟩ := PrimitiveLayout.eq_of_ofToken hp
    exact ⟨t, i, hr, hfound.1, hprimitive, horder, rfl⟩
  · cases ht

/-- The length of var-data lies in the slot of the member `length` just if the first member of that
name is an encoding, no constant, of the type and the byte order of the first encoding token of that
name at any depth, and if it is placed, behind the members in front of it, where that token says.
If the two are one token it must be no constant and say no place before the end of those members. -/
theorem VarDataLayout.length_eq_slot_iff {tokens : List Token} {s c : Span} {d : VarDataLayout}
    {composite : CompositeLayout} (hd : varDataAt tokens s = .ok d)
    (hc : spanAt (tokens.take s.stop) (s.start + 1) = .ok c)
    (hcomposite : compositeAt tokens c = .ok composite) :
    ∃ t i spans, firstEncoding? tokens c.inner "length" = some (t, i)
      ∧ SimpleBinary.members tokens c.inner = .ok spans
      ∧ (HeaderSlot.ofMember composite "length" = .ok d.length ↔ ∃ m u,
        firstNamed? tokens spans "length" = some m ∧ tokens[m.start]? = some u
          ∧ u.signal = .encoding ∧ u.isConstant = false
          ∧ u.encoding.primitive = t.encoding.primitive
          ∧ u.encoding.byteOrder = t.encoding.byteOrder
          ∧ max (stopBefore "length" 0 composite.members) u.offset = t.offset)
      ∧ ((firstNamed? tokens spans "length").map (·.start) = some i →
        (HeaderSlot.ofMember composite "length" = .ok d.length ↔ t.isConstant = false
          ∧ stopBefore "length" 0 composite.members ≤ t.offset)) := by
  obtain ⟨t, i, hfirst, hsignal, hprimitive, horder, hoffset⟩ := exists_of_varDataAt hd hc
  obtain ⟨spans, hspans, hiff⟩ := exists_members_of_compositeAt hcomposite "length" d.length
  rw [← hprimitive, ← horder, ← hoffset] at hiff
  refine ⟨t, i, spans, hfirst, hspans, hiff, fun hsame => hiff.trans ?_⟩
  -- The member and the token are one, so nothing is left to compare but its place.
  obtain ⟨m, hm, rfl⟩ := Option.map_eq_some_iff.1 hsame
  have ht := getElem?_of_mem_numbered (List.mem_of_find?_eq_some hfirst)
  constructor
  · rintro ⟨m', u, hm', hu, -, hconstant, -, -, hplace⟩
    rw [hm] at hm'
    cases hm'
    rw [ht] at hu
    cases hu
    exact ⟨hconstant, max_eq_right_iff.1 hplace⟩
  · rintro ⟨hconstant, hle⟩
    exact ⟨m, t, hm, ht, hsignal, hconstant, rfl, rfl, max_eq_right hle⟩

namespace Prefixes

def byte (name : String) : Token :=
  { signal := .encoding, name, encoding := Orders.encoding .uint8 }

/-- A var-data whose composite has two bytes, neither of which says where it lies. -/
def tokens (first second : String) : List Token :=
  Orders.around .varData "text" 0 {}
    (Orders.around .composite "varDataEncoding" 0 {} [byte first, byte second])

def text : VarDataLayout where
  name := "text"
  id := -1
  sinceVersion := 0
  typeName := "varDataEncoding"
  length := ⟨.uint8, .littleEndian, 0⟩
  characterEncoding := none
  description := none

def element : PrimitiveLayout where
  primitive := .uint8
  byteOrder := .littleEndian
  arrayLength := 1
  presence := .required
  constValue := none
  nullValue := .uint 255
  characterEncoding := none

theorem members_tokens (first second : String) :
    members (tokens first second) ⟨2, 4⟩ = .ok [⟨2, 3⟩, ⟨3, 4⟩] := by cbv

theorem compositeAt_tokens (first second : String) :
    compositeAt (tokens first second) ⟨1, 5⟩ = .ok (.ofMembers
      { signal := .opens .composite, name := "varDataEncoding", componentTokenCount := 4 }
      [(byte first, .primitive element), (byte second, .primitive element)]) :=
  compositeAt_of_members rfl (members_tokens first second) (by cbv)

/-- The length lies at the start of the composite either way, and that is the slot of its first
member and not of its second. -/
theorem length_eq_slot_tokens : ∃ composite composite',
    varDataAt (tokens "length" "varData") ⟨0, 6⟩ = .ok text
      ∧ varDataAt (tokens "varData" "length") ⟨0, 6⟩ = .ok text
      ∧ compositeAt (tokens "length" "varData") ⟨1, 5⟩ = .ok composite
      ∧ compositeAt (tokens "varData" "length") ⟨1, 5⟩ = .ok composite'
      ∧ HeaderSlot.ofMember composite "length" = .ok text.length
      ∧ HeaderSlot.ofMember composite' "length" ≠ .ok text.length := by
  have hd : varDataAt (tokens "length" "varData") ⟨0, 6⟩ = .ok text := by cbv
  have hd' : varDataAt (tokens "varData" "length") ⟨0, 6⟩ = .ok text := by cbv
  have hc := compositeAt_tokens "length" "varData"
  have hc' := compositeAt_tokens "varData" "length"
  obtain ⟨t, i, spans, hfirst, hspans, -, hiff⟩ :=
    VarDataLayout.length_eq_slot_iff hd (by cbv) hc
  obtain ⟨t', i', spans', hfirst', hspans', -, hiff'⟩ :=
    VarDataLayout.length_eq_slot_iff hd' (by cbv) hc'
  cases (members_tokens _ _).symm.trans hspans
  cases (members_tokens _ _).symm.trans hspans'
  have hbyte : firstEncoding? (tokens "length" "varData") ⟨2, 4⟩ "length"
      = some (byte "length", 2) := by cbv
  have hbyte' : firstEncoding? (tokens "varData" "length") ⟨2, 4⟩ "length"
      = some (byte "length", 3) := by cbv
  cases hbyte.symm.trans hfirst
  cases hbyte'.symm.trans hfirst'
  refine ⟨_, _, hd, hd', hc, hc', (hiff (by cbv)).2 (by decide), fun h => ?_⟩
  exact absurd ((hiff' (by cbv)).1 h).2 (by decide)

end Prefixes

end SimpleBinary
