import Mathlib
import SimpleBinary.Proofs.Walks

/-!
# What an accepted layout looks like

In a layout that was read off a token stream the elements of a block lie one behind the other and
within the block, those of a composite within the composite, and the two slots of a group's header
apart from each other and within the header (`BodyLayout.Laid`).  `MessageLayout.laid_of_ofTokens`
says so of every accepted message; the layout of a type, a field or a group passes on from its parts
along the spans of the stream (`kindSteps_laid`, `bodySteps_laid`).

A body lists what it consists of: `BodyLayout.bodies` are the body and those of its groups at any
depth, `BodyLayout.kinds` the kinds of fields in its block and in the composites there.
-/

namespace SimpleBinary

/-! ## Layouts whose elements lie apart -/

/-- There is an element, and a constant has a value. -/
def PrimitiveLayout.Laid (p : PrimitiveLayout) : Prop :=
  1 ≤ p.arrayLength ∧ (p.isConstant → p.constValue.isSome)

/-- The bits of choices lie within the encoding. -/
def SetLayout.Laid (s : SetLayout) : Prop := ∀ c ∈ s.choices, c.bit < 8 * s.encoding.size

mutual

/-- The elements of a kind lie within its width, one behind the other. -/
def FieldKind.Laid : FieldKind → Prop
  | .primitive p => p.Laid
  | .composite ⟨_, encodedLength, members, _⟩ => fieldsLaid 0 encodedLength members
  | .enumeration _ => True
  | .set s => s.Laid

/-- Fields lie one behind the other from `cursor` on and end by `limit`. -/
def fieldsLaid (cursor limit : Nat) : List FieldLayout → Prop
  | [] => cursor ≤ limit
  | ⟨_, _, _, offset, _, kind⟩ :: fields =>
    cursor ≤ offset ∧ kind.Laid ∧ fieldsLaid (offset + kind.width) limit fields

end

/-- Both slots of a group's header lie within it, apart from each other. -/
structure DimensionLayout.Laid (d : DimensionLayout) : Prop where
  blockLength : d.blockLength.offset + d.blockLength.width ≤ d.encodedLength
  numInGroup : d.numInGroup.offset + d.numInGroup.width ≤ d.encodedLength
  apart : d.blockLength.offset + d.blockLength.width ≤ d.numInGroup.offset
    ∨ d.numInGroup.offset + d.numInGroup.width ≤ d.blockLength.offset

mutual

/-- The blocks of a body and of its groups hold their fields, and the headers their slots. -/
def BodyLayout.Laid : BodyLayout → Prop
  | ⟨blockLength, fields, groups, _⟩ => fieldsLaid 0 blockLength fields ∧ groupsLaid groups

def groupsLaid : List GroupLayout → Prop
  | [] => True
  | ⟨_, _, _, dimension, body, _⟩ :: groups => dimension.Laid ∧ body.Laid ∧ groupsLaid groups

end

theorem fieldsLaid_le {limit : Nat} : ∀ {cursor : Nat} {fields : List FieldLayout},
    fieldsLaid cursor limit fields → cursor ≤ limit
  | _, [], h => by
    rw [fieldsLaid] at h
    exact h
  | cursor, ⟨_, _, _, offset, _, kind⟩ :: fields, h => by
    rw [fieldsLaid] at h
    have := fieldsLaid_le h.2.2
    omega

/-- Each of the fields lies between `cursor` and `limit`. -/
theorem within_of_fieldsLaid {limit : Nat} : ∀ {cursor : Nat} {fields : List FieldLayout},
    fieldsLaid cursor limit fields →
      ∀ f ∈ fields, cursor ≤ f.offset ∧ f.kind.Laid ∧ f.stop ≤ limit
  | _, [], _ => List.forall_mem_nil _
  | cursor, ⟨name, id, since, offset, description, kind⟩ :: fields, h => by
    rw [fieldsLaid] at h
    obtain ⟨hcursor, hkind, hrest⟩ := h
    refine List.forall_mem_cons.2 ⟨⟨hcursor, hkind, fieldsLaid_le hrest⟩, fun f hf => ?_⟩
    obtain ⟨hbehind, hwithin⟩ := within_of_fieldsLaid hrest f hf
    exact ⟨by omega, hwithin⟩

theorem cursor_le_offset {cursor limit : Nat} {fields : List FieldLayout}
    (h : fieldsLaid cursor limit fields) : ∀ f ∈ fields, cursor ≤ f.offset :=
  fun f hf => (within_of_fieldsLaid h f hf).1

theorem laid_of_mem {cursor limit : Nat} {fields : List FieldLayout}
    (h : fieldsLaid cursor limit fields) : ∀ f ∈ fields, f.kind.Laid :=
  fun f hf => (within_of_fieldsLaid h f hf).2.1

theorem stop_le_limit {cursor limit : Nat} {fields : List FieldLayout}
    (h : fieldsLaid cursor limit fields) : ∀ f ∈ fields, f.stop ≤ limit :=
  fun f hf => (within_of_fieldsLaid h f hf).2.2

/-- Of two fields the first ends before the second. -/
theorem pairwise_of_fieldsLaid {limit : Nat} : ∀ {cursor : Nat} {fields : List FieldLayout},
    fieldsLaid cursor limit fields → fields.Pairwise fun f g => f.stop ≤ g.offset
  | _, [], _ => .nil
  | cursor, ⟨name, id, since, offset, description, kind⟩ :: fields, h => by
    rw [fieldsLaid] at h
    exact List.pairwise_cons.2 ⟨cursor_le_offset h.2.2, pairwise_of_fieldsLaid h.2.2⟩

/-! ## Layouts of token streams -/

theorem PrimitiveLayout.laid_of_ofToken {t : Token} {index : Nat} {p : PrimitiveLayout}
    (h : PrimitiveLayout.ofToken t index = .ok p) : p.Laid := by
  rw [PrimitiveLayout.ofToken] at h
  split at h
  · simp at h
  · split at h
    · simp at h
    · rename_i hc
      cases h
      refine ⟨le_max_right _ _, fun hp => ?_⟩
      rw [Bool.and_eq_true, not_and, Bool.not_eq_true, Option.isNone_eq_false_iff] at hc
      exact hc hp

theorem bit_lt_of_choiceOf {setName : String} {bits : Nat} {t : Token} {index : Nat} {c : Choice}
    (h : choiceOf setName bits t index = .ok c) : c.bit < bits := by
  rw [choiceOf] at h
  split at h
  · simp at h
  · split at h
    · split at h
      · cases h
        assumption
      · simp at h
    · simp at h

theorem SetLayout.laid_of_setAt {tokens : List Token} {s : Span} {l : SetLayout}
    (h : setAt tokens s = .ok l) : l.Laid := by
  obtain ⟨t, -, h⟩ := bind_eq_ok_iff.1 h
  split at h
  · exact absurd h throw_ne_ok
  · obtain ⟨choices, hc, h⟩ := bind_eq_ok_iff.1 h
    cases h
    intro c hmem
    obtain ⟨⟨t, i⟩, -, hti⟩ := exists_of_mem_mapM hc hmem
    exact bit_lt_of_choiceOf hti

/-- Members are placed one behind the other. -/
theorem fieldsLaid_placeMembers {limit : Nat} : ∀ {cursor : Nat}
    {ms : List (Token × FieldKind)}, (∀ m ∈ ms, m.2.Laid) →
    ((placeMembers cursor ms).getLast?.map (·.stop)).getD cursor ≤ limit →
    fieldsLaid cursor limit (placeMembers cursor ms)
  | cursor, [], _, hl => by simpa [placeMembers, fieldsLaid] using hl
  | cursor, (t, kind) :: ms, hk, hl => by
    rw [placeMembers, fieldsLaid]
    refine ⟨le_max_left _ _, hk _ List.mem_cons_self, ?_⟩
    refine fieldsLaid_placeMembers (fun m hm => hk m (List.mem_cons_of_mem _ hm)) ?_
    rw [placeMembers, List.getLast?_cons] at hl
    cases hg : (placeMembers (FieldLayout.stop ⟨t.name, t.id, t.version, max cursor t.offset,
      t.description, kind⟩) ms).getLast? <;> simp_all [FieldLayout.stop, FieldLayout.width]

/-- Composites hold their members apart if these hold theirs. -/
theorem kindSteps_laid (tokens : List Token) : KindSteps tokens (fun _ k => k.Laid)
    fun _ c => (FieldKind.composite c).Laid where
  encoding _ _ hp := PrimitiveLayout.laid_of_ofToken hp
  enumeration _ _ _ := trivial
  set _ _ hl := SetLayout.laid_of_setAt hl
  composite _ _ hc := hc
  members := by
    intro s t spans kinds _ _ hkinds
    rw [CompositeLayout.ofMembers, FieldKind.Laid]
    refine fieldsLaid_placeMembers (fun m hm => ?_) (le_max_left _ _)
    obtain ⟨r, -, -, hlaid⟩ := exists_of_mem_forall₂ hkinds.flip m hm
    exact hlaid

theorem FieldKind.laid_of_kindAt {tokens : List Token} (s : Span) {k : FieldKind}
    (h : kindAt tokens s = .ok k) : k.Laid :=
  (kindSteps_laid tokens).of_kindAt s h

theorem CompositeLayout.laid_of_compositeAt {tokens : List Token} (s : Span) {c : CompositeLayout}
    (h : compositeAt tokens s = .ok c) : (FieldKind.composite c).Laid :=
  (kindSteps_laid tokens).of_compositeAt s h

theorem fieldAt_eq_ok {tokens : List Token} {s : Span} {cursor : Nat} {f : FieldLayout}
    (h : fieldAt tokens s cursor = .ok f) : cursor ≤ f.offset ∧ f.kind.Laid := by
  obtain ⟨t, -, h⟩ := bind_eq_ok_iff.1 h
  obtain ⟨type, -, h⟩ := bind_eq_ok_iff.1 h
  split at h
  · exact absurd h throw_ne_ok
  · obtain ⟨kind, hk, h⟩ := bind_eq_ok_iff.1 h
    cases h
    exact ⟨le_max_left _ _, FieldKind.laid_of_kindAt type hk⟩

theorem fieldsLaid_of_fieldsAt {tokens : List Token} {limit : Nat} : ∀ {ss : List Span}
    {cursor : Nat} {fields : List FieldLayout}, fieldsAt tokens cursor ss = .ok fields →
    cursor ≤ limit → (∀ f ∈ fields, f.stop ≤ limit) → fieldsLaid cursor limit fields
  | [], cursor, fields, h, hc, _ => by
    cases h
    rwa [fieldsLaid]
  | s :: ss, cursor, fields, h, hc, hl => by
    obtain ⟨f, hf, h⟩ := bind_eq_ok_iff.1 h
    obtain ⟨fs, hfs, h⟩ := bind_eq_ok_iff.1 h
    cases h
    obtain ⟨hcur, hk⟩ := fieldAt_eq_ok hf
    obtain ⟨hstop, hrest⟩ := List.forall_mem_cons.1 hl
    obtain ⟨name, id, since, offset, description, kind⟩ := f
    rw [fieldsLaid]
    exact ⟨hcur, hk, fieldsLaid_of_fieldsAt hfs hstop hrest⟩

/-! ## Headers of groups -/

theorem HeaderSlot.exists_member {c : CompositeLayout} {member : String} {s : HeaderSlot}
    (hc : (FieldKind.composite c).Laid) (h : HeaderSlot.ofMember c member = .ok s) :
    ∃ f ∈ c.members, f.name = member ∧ s.offset = f.offset
      ∧ s.offset + s.width ≤ f.stop := by
  rw [HeaderSlot.ofMember] at h
  split at h
  · rename_i name id since offset description p hm
    have hmem := List.mem_of_find?_eq_some hm
    refine ⟨_, hmem, by simpa using List.find?_some hm, ?_⟩
    split at h
    · simp at h
    · rename_i hconst
      cases h
      obtain ⟨typeName, encodedLength, members, description⟩ := c
      rw [FieldKind.Laid] at hc
      have hp := laid_of_mem hc _ hmem
      rw [FieldKind.Laid] at hp
      have := Nat.le_mul_of_pos_right p.primitive.size hp.1
      refine ⟨rfl, ?_⟩
      simpa [HeaderSlot.width, FieldLayout.stop, FieldLayout.width, FieldKind.width,
        PrimitiveLayout.width, hconst] using this
  · simp at h

/-- Two slots take no byte in common. -/
def HeaderSlot.Apart (s s' : HeaderSlot) : Prop :=
  s.offset + s.width ≤ s'.offset ∨ s'.offset + s'.width ≤ s.offset

theorem HeaderSlot.stop_le_of_ofMember {c : CompositeLayout} {member : String} {s : HeaderSlot}
    (hc : (FieldKind.composite c).Laid) (h : HeaderSlot.ofMember c member = .ok s) :
    s.offset + s.width ≤ c.encodedLength := by
  obtain ⟨f, hf, -, -, hstop⟩ := HeaderSlot.exists_member hc h
  obtain ⟨typeName, encodedLength, members, description⟩ := c
  rw [FieldKind.Laid] at hc
  exact le_trans hstop (stop_le_limit hc f hf)

/-- Members of different names are different members. -/
theorem HeaderSlot.apart_of_ofMember {c : CompositeLayout} {member member' : String}
    {s s' : HeaderSlot} (hc : (FieldKind.composite c).Laid) (hne : member ≠ member')
    (h : HeaderSlot.ofMember c member = .ok s) (h' : HeaderSlot.ofMember c member' = .ok s') :
    s.Apart s' := by
  obtain ⟨f, hf, hfname, hfoff, hfstop⟩ := HeaderSlot.exists_member hc h
  obtain ⟨g, hg, hgname, hgoff, hgstop⟩ := HeaderSlot.exists_member hc h'
  obtain ⟨typeName, encodedLength, members, description⟩ := c
  rw [FieldKind.Laid] at hc
  have hfg : f ≠ g := by
    rintro rfl
    exact hne (hfname.symm.trans hgname)
  have hapart : f.stop ≤ g.offset ∨ g.stop ≤ f.offset := by
    have hpair : members.Pairwise fun (f g : FieldLayout) =>
        f.stop ≤ g.offset ∨ g.stop ≤ f.offset :=
      (pairwise_of_fieldsLaid hc).imp .inl
    have : Std.Symm fun (f g : FieldLayout) => f.stop ≤ g.offset ∨ g.stop ≤ f.offset :=
      ⟨fun _ _ h => h.symm⟩
    exact hpair.forall hf hg hfg
  unfold Apart
  omega

theorem DimensionLayout.laid_of_dimensionAt {tokens : List Token} {s : Span} {d : DimensionLayout}
    (h : dimensionAt tokens s = .ok d) : d.Laid := by
  obtain ⟨c, hc, h⟩ := bind_eq_ok_iff.1 h
  obtain ⟨bl, hbl, h⟩ := bind_eq_ok_iff.1 h
  obtain ⟨n, hn, h⟩ := bind_eq_ok_iff.1 h
  cases h
  have hlaid := CompositeLayout.laid_of_compositeAt s hc
  exact ⟨HeaderSlot.stop_le_of_ofMember hlaid hbl, HeaderSlot.stop_le_of_ofMember hlaid hn,
    HeaderSlot.apart_of_ofMember hlaid (by decide) hbl hn⟩

/-! ## Bodies -/

theorem groupsLaid_iff : ∀ {groups : List GroupLayout},
    groupsLaid groups ↔ ∀ g ∈ groups, g.dimension.Laid ∧ g.body.Laid
  | [] => by simp [groupsLaid]
  | ⟨name, id, since, dimension, body, description⟩ :: groups => by
    rw [groupsLaid, groupsLaid_iff, List.forall_mem_cons, and_assoc]

theorem BodyLayout.laid_iff {b : BodyLayout} :
    b.Laid ↔ fieldsLaid 0 b.blockLength b.fields ∧ groupsLaid b.groups := by
  obtain ⟨blockLength, fields, groups, varData⟩ := b
  rw [BodyLayout.Laid]

/-- Blocks hold their fields, and headers their slots, if those of the groups do. -/
theorem bodySteps_laid (tokens : List Token) :
    BodySteps tokens (fun _ b => b.Laid) fun _ g => g.dimension.Laid ∧ g.body.Laid where
  body := by
    intro s blockLength spans fields groups varData _ hf hgroups _ hstop
    rw [BodyLayout.Laid, groupsLaid_iff]
    refine ⟨fieldsLaid_of_fieldsAt hf (Nat.zero_le _) hstop, fun g hg => ?_⟩
    obtain ⟨r, -, hlaid⟩ := exists_of_mem_forall₂ hgroups.flip g hg
    exact hlaid
  group _ _ _ _ hdim _ hbody := ⟨DimensionLayout.laid_of_dimensionAt hdim, hbody⟩

/-- Every accepted message is laid out with its elements apart. -/
theorem MessageLayout.laid_of_ofTokens {tokens : List Token} {m : MessageLayout}
    (h : MessageLayout.ofTokens tokens = .ok m) : m.body.Laid := by
  obtain ⟨s, t, -, -, hbody, -⟩ := MessageLayout.exists_bodyAt h
  exact (bodySteps_laid tokens).of_bodyAt _ hbody

/-! ## What a layout consists of -/

mutual

/-- A kind and, of a composite, the kinds of its members. -/
def FieldKind.parts : FieldKind → List FieldKind
  | .primitive p => [.primitive p]
  | .composite ⟨typeName, encodedLength, members, description⟩ =>
    .composite ⟨typeName, encodedLength, members, description⟩ :: fieldsParts members
  | .enumeration e => [.enumeration e]
  | .set s => [.set s]

def fieldsParts : List FieldLayout → List FieldKind
  | [] => []
  | ⟨_, _, _, _, _, kind⟩ :: fields => kind.parts ++ fieldsParts fields

end

mutual

/-- A body and the bodies of its groups. -/
def BodyLayout.bodies : BodyLayout → List BodyLayout
  | ⟨blockLength, fields, groups, varData⟩ =>
    ⟨blockLength, fields, groups, varData⟩ :: groupsBodies groups

def groupsBodies : List GroupLayout → List BodyLayout
  | [] => []
  | ⟨_, _, _, _, body, _⟩ :: groups => body.bodies ++ groupsBodies groups

end

/-- The kinds of fields in a body's own block. -/
def BodyLayout.kinds (b : BodyLayout) : List FieldKind := fieldsParts b.fields

theorem BodyLayout.self_mem_bodies (b : BodyLayout) : b ∈ b.bodies := by
  obtain ⟨blockLength, fields, groups, varData⟩ := b
  rw [BodyLayout.bodies]
  exact List.mem_cons_self

mutual

theorem BodyLayout.laid_of_mem_bodies : ∀ {b : BodyLayout}, b.Laid → ∀ c ∈ b.bodies, c.Laid
  | ⟨blockLength, fields, groups, varData⟩, h, c, hc => by
    rw [BodyLayout.bodies, List.mem_cons] at hc
    rcases hc with rfl | hc
    · exact h
    · rw [BodyLayout.Laid] at h
      exact laid_of_mem_groupsBodies h.2 c hc

theorem laid_of_mem_groupsBodies : ∀ {groups : List GroupLayout}, groupsLaid groups →
    ∀ c ∈ groupsBodies groups, c.Laid
  | [], _, c, hc => by simp [groupsBodies] at hc
  | ⟨_, _, _, _, body, _⟩ :: groups, h, c, hc => by
    rw [groupsLaid] at h
    rw [groupsBodies, List.mem_append] at hc
    rcases hc with hc | hc
    · exact BodyLayout.laid_of_mem_bodies h.2.1 c hc
    · exact laid_of_mem_groupsBodies h.2.2 c hc

end

theorem BodyLayout.kind_laid {b : BodyLayout} (h : b.Laid) : ∀ f ∈ b.fields, f.kind.Laid := by
  obtain ⟨blockLength, fields, groups, varData⟩ := b
  rw [BodyLayout.Laid] at h
  exact laid_of_mem h.1

mutual

theorem FieldKind.laid_of_mem_parts : ∀ {k : FieldKind}, k.Laid → ∀ k' ∈ k.parts, k'.Laid
  | .primitive p, h, k', hk' => by
    rw [FieldKind.parts, List.mem_singleton] at hk'
    rwa [hk']
  | .composite ⟨typeName, encodedLength, members, description⟩, h, k', hk' => by
    rw [FieldKind.parts] at hk'
    rcases List.mem_cons.1 hk' with rfl | hk'
    · exact h
    · rw [FieldKind.Laid] at h
      exact laid_of_mem_fieldsParts h k' hk'
  | .enumeration e, h, k', hk' => by
    rw [FieldKind.parts, List.mem_singleton] at hk'
    rwa [hk']
  | .set s, h, k', hk' => by
    rw [FieldKind.parts, List.mem_singleton] at hk'
    rwa [hk']

theorem laid_of_mem_fieldsParts : ∀ {fields : List FieldLayout} {cursor limit : Nat},
    fieldsLaid cursor limit fields → ∀ k ∈ fieldsParts fields, k.Laid
  | [], _, _, _, k, hk => by simp [fieldsParts] at hk
  | ⟨_, _, _, offset, _, kind⟩ :: fields, cursor, limit, h, k, hk => by
    rw [fieldsLaid] at h
    rw [fieldsParts] at hk
    rcases List.mem_append.1 hk with hk | hk
    · exact FieldKind.laid_of_mem_parts h.2.1 k hk
    · exact laid_of_mem_fieldsParts h.2.2 k hk

end

end SimpleBinary
