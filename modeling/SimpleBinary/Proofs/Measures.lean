import Mathlib
import SimpleBinary.Proofs.Measures.Bodies

/-!
# Widths and offsets of definitions

The tokens of a definition say at which offset each element lies and how wide it is, and a reader
computes the same just if no array is empty (`measuredAt_iff_filled`).  A block whose length is not
given is as long as its tokens say, so one with an empty array is too short for its fields.
-/

namespace SimpleBinary

/-! ## What is never refused for its block -/

/-- A step does not fail for the length of a block. -/
def Unblocked {α : Type} (r : Except SchemaError α) : Prop :=
  ∀ name declared required, r ≠ .error (.blockLengthTooSmall name declared required)

section Unblocked

variable {α β : Type} {tokens : List Token}

theorem unblocked_ok (a : α) : Unblocked (.ok a : Except SchemaError α) := by
  simp [Unblocked]

theorem unblocked_malformed (i : Nat) (fault : StreamFault) :
    Unblocked (.error (.malformed i fault) : Except SchemaError α) := by
  simp [Unblocked]

theorem Unblocked.bind {r : Except SchemaError α} {f : α → Except SchemaError β}
    (h : Unblocked r) (hf : ∀ a, r = .ok a → Unblocked (f a)) : Unblocked (r >>= f) := by
  intro name declared required heq
  rcases bind_eq_error_iff.1 heq with heq | ⟨a, ha, heq⟩
  · exact h _ _ _ heq
  · exact hf a ha _ _ _ heq

theorem unblocked_mapM {f : α → Except SchemaError β} {xs : List α}
    (h : ∀ x ∈ xs, Unblocked (f x)) : Unblocked (xs.mapM f) := by
  intro name declared required heq
  obtain ⟨x, hx, heq⟩ := exists_of_mapM_error heq
  exact h x hx _ _ _ heq

theorem unblocked_tokenAt (i : Nat) : Unblocked (tokenAt tokens i) := by
  unfold tokenAt
  split
  · exact unblocked_ok _
  · exact unblocked_malformed _ _

theorem unblocked_spanAt (i : Nat) : Unblocked (spanAt tokens i) := by
  unfold spanAt
  split
  · exact unblocked_malformed _ _
  dsimp only
  split_ifs
  · exact unblocked_malformed _ _
  · exact unblocked_malformed _ _
  · split
    · split_ifs
      · exact unblocked_malformed _ _
      · exact unblocked_ok _
    · exact unblocked_ok _

theorem unblocked_spansWhile (p : Token → Bool) (i : Nat) :
    Unblocked (spansWhile p tokens i).2 := by
  fun_induction spansWhile p tokens i with
  | case1 => exact unblocked_ok _
  | case2 i t ht hp e he =>
    intro name declared required heq
    cases heq
    exact unblocked_spanAt i _ _ _ he
  | case3 i t ht hp s hs rest ih => exact ih
  | case4 => exact unblocked_ok _

theorem unblocked_members (body : Span) : Unblocked (members tokens body) := by
  have hspans : Unblocked (spansWhile (fun _ => true) (tokens.take body.stop) body.start).2 :=
    unblocked_spansWhile _ _
  unfold members
  dsimp only
  cases h : (spansWhile (fun _ => true) (tokens.take body.stop) body.start).2 with
  | error e =>
    rw [h] at hspans
    intro name declared required heq
    cases heq
    exact hspans _ _ _ rfl
  | ok stop => exact unblocked_ok _

theorem unblocked_ofToken (t : Token) (i : Nat) : Unblocked (PrimitiveLayout.ofToken t i) := by
  unfold PrimitiveLayout.ofToken
  split
  · exact unblocked_malformed _ _
  · split_ifs
    · exact unblocked_malformed _ _
    · exact unblocked_ok _

theorem unblocked_enumAt (s : Span) : Unblocked (enumAt tokens s) := by
  refine (unblocked_tokenAt _).bind fun t _ => ?_
  split
  · exact unblocked_malformed _ _
  refine (unblocked_mapM fun ⟨u, i⟩ _ => ?_).bind fun values _ => unblocked_ok _
  dsimp only
  unfold enumValueOf
  split_ifs
  · exact unblocked_malformed _ _
  · split
    · exact unblocked_malformed _ _
    · exact unblocked_ok _

theorem unblocked_setAt (s : Span) : Unblocked (setAt tokens s) := by
  refine (unblocked_tokenAt _).bind fun t _ => ?_
  split
  · exact unblocked_malformed _ _
  refine (unblocked_mapM fun ⟨u, i⟩ _ => ?_).bind fun choices _ => unblocked_ok _
  dsimp only
  unfold choiceOf
  split_ifs
  · exact unblocked_malformed _ _
  · split
    · split_ifs
      · exact unblocked_ok _
      · exact unblocked_malformed _ _
    · exact unblocked_malformed _ _

mutual

theorem unblocked_kindAt (s : Span) : Unblocked (kindAt tokens s) := by
  rw [kindAt]
  refine (unblocked_tokenAt _).bind fun t _ => ?_
  split
  · exact (unblocked_ofToken _ _).bind fun _ _ => unblocked_ok _
  · exact (unblocked_compositeAt s).bind fun _ _ => unblocked_ok _
  · exact (unblocked_enumAt s).bind fun _ _ => unblocked_ok _
  · exact (unblocked_setAt s).bind fun _ _ => unblocked_ok _
  · exact unblocked_malformed _ _
termination_by 2 * s.length + 1

theorem unblocked_compositeAt (s : Span) : Unblocked (compositeAt tokens s) := by
  rw [compositeAt_eq]
  refine (unblocked_tokenAt _).bind fun t _ => ?_
  refine (unblocked_members _).bind fun spans hs => ?_
  refine (unblocked_mapM fun m hm => ?_).bind fun kinds _ => unblocked_ok _
  have hlt := length_lt_of_mem_members hs hm
  refine (unblocked_tokenAt _).bind fun u _ => ?_
  exact (unblocked_kindAt m).bind fun _ _ => unblocked_ok _
termination_by 2 * s.length

end

theorem unblocked_dimensionAt (s : Span) : Unblocked (dimensionAt tokens s) := by
  have hslot : ∀ (c : CompositeLayout) (name : String), Unblocked (HeaderSlot.ofMember c name) := by
    intro c name
    unfold HeaderSlot.ofMember
    split
    · split_ifs <;> simp [Unblocked]
    · simp [Unblocked]
  refine (unblocked_compositeAt s).bind fun c _ => (hslot c _).bind fun _ _ => ?_
  exact (hslot c _).bind fun _ _ => unblocked_ok _

theorem unblocked_fieldsAt : ∀ (spans : List Span) (cursor : Nat),
    Unblocked (fieldsAt tokens cursor spans)
  | [], _ => unblocked_ok _
  | s :: ss, cursor => by
    have hfield : Unblocked (fieldAt tokens s cursor) := by
      refine (unblocked_tokenAt _).bind fun t _ => (unblocked_spanAt _).bind fun type _ => ?_
      split_ifs
      · exact unblocked_malformed _ _
      · exact (unblocked_kindAt type).bind fun _ _ => unblocked_ok _
    refine hfield.bind fun f _ => ?_
    exact (unblocked_fieldsAt ss f.stop).bind fun _ _ => unblocked_ok _

end Unblocked

/-! ## Blocks -/

mutual

/-- The names, the given lengths and the fields of the blocks of a group. -/
def GroupDef.blocks : GroupDef → List (String × Option Nat × List FieldDef)
  | ⟨name, _, blockLength, _, fields, groups, _⟩ =>
    (name, blockLength, fields) :: groupsBlocks groups

def groupsBlocks : List GroupDef → List (String × Option Nat × List FieldDef)
  | [] => []
  | g :: gs => g.blocks ++ groupsBlocks gs

end

def MessageDef.blocks (m : MessageDef) : List (String × Option Nat × List FieldDef) :=
  (m.name, m.blockLength, m.fields) :: groupsBlocks m.groups

/-- A block is given a length that its fields do not fit in. -/
def ShortBlock (blocks : List (String × Option Nat × List FieldDef)) (name : String)
    (declared required : Nat) : Prop :=
  ∃ fields, (name, some declared, fields) ∈ blocks ∧ required = fieldsWidth fields
    ∧ declared < required

/-- The blocks whose length is not given have no empty array in their fields. -/
def OpenBlocksFilled (blocks : List (String × Option Nat × List FieldDef)) : Prop :=
  ∀ name fields, (name, none, fields) ∈ blocks → fieldsFilled fields

section Blocks

variable {order : ByteOrder} {tokens : List Token} {name : String} {blockLength : Option Nat}
  {fields : List FieldDef} {groups : List GroupDef} {varData : List VarDataDef} {i : Nat}

/-- A body is refused for the length of a block only if that is given and too short. -/
theorem shortBlock_of_bodyAt {owner : String} {declared required : Nat}
    (h : HasAt tokens i (bodyTokens order fields groups varData)) (hf : fieldsFilled fields)
    (hg : (spansFrom (i + (fieldTokens order 0 fields).length)
      (groups.map (·.tokens order))).mapM (groupAt tokens)
        = .error (.blockLengthTooSmall name declared required) →
      ShortBlock (groupsBlocks groups) name declared required)
    (hb : bodyAt tokens ⟨i, i + (bodyTokens order fields groups varData).length⟩
      (blockLength.getD (fieldsWidth fields)) owner
        = .error (.blockLengthTooSmall name declared required)) :
    ShortBlock ((owner, blockLength, fields) :: groupsBlocks groups) name declared required := by
  rw [bodyAt_tokens_eq h rfl] at hb
  rcases bind_eq_error_iff.1 hb with hb | ⟨fields', hfields, hb⟩
  · exact absurd hb (unblocked_fieldsAt _ _ _ _ _)
  rcases bind_eq_error_iff.1 hb with hb | ⟨groups', -, hb⟩
  · obtain ⟨fields', hmem, hshort⟩ := hg hb
    exact ⟨fields', List.mem_cons_of_mem _ hmem, hshort⟩
  unfold BodyLayout.ofRegions at hb
  rw [requiredLength_of_filled (hasAt_fieldRuns h) hfields hf] at hb
  dsimp only at hb
  split_ifs at hb with hlt
  cases hb
  -- A length that is not given is the width of the fields, and they need no more.
  rcases blockLength with _ | n
  · exact absurd hlt (lt_irrefl _)
  · exact ⟨fields, List.mem_cons_self, rfl, hlt⟩

/-- A body is accepted only if its fields have no empty array, or its length is given. -/
theorem openBlocksFilled_of_bodyAt {owner : String} {b : BodyLayout}
    (h : HasAt tokens i (bodyTokens order fields groups varData))
    (hb : bodyAt tokens ⟨i, i + (bodyTokens order fields groups varData).length⟩
      (blockLength.getD (fieldsWidth fields)) owner = .ok b)
    (hg : OpenBlocksFilled (groupsBlocks groups)) :
    OpenBlocksFilled ((owner, blockLength, fields) :: groupsBlocks groups) := by
  rw [bodyAt_tokens_eq h rfl] at hb
  obtain ⟨fields', hfields, hb⟩ := bind_eq_ok_iff.1 hb
  obtain ⟨groups', -, hb⟩ := bind_eq_ok_iff.1 hb
  obtain ⟨-, hstops⟩ := BodyLayout.ofRegions_eq_ok hb
  intro name fs hmem
  rcases List.mem_cons.1 hmem with heq | hmem
  · cases heq
    exact (fieldsWidth_le_of_fieldsAt (hasAt_fieldRuns h) hfields hstops).2 rfl
  · exact hg name fs hmem

end Blocks

section Groups

variable {order : ByteOrder} {tokens : List Token}

mutual

theorem GroupDef.shortBlock_of_groupAt : ∀ {g : GroupDef} {i : Nat} {name : String}
    {declared required : Nat}, HasAt tokens i (g.tokens order) → g.Filled →
    groupAt tokens ⟨i, i + (g.tokens order).length⟩
      = .error (.blockLengthTooSmall name declared required) →
    ShortBlock g.blocks name declared required
  | ⟨owner, id, blockLength, dimension, fields, groups, varData⟩, i, name, declared, required,
      h, hf, hg => by
    have hat := hasAt_bodyTokens h
    rw [GroupDef.Filled] at hf
    rw [GroupDef.groupAt_eq h] at hg
    rw [GroupDef.blocks]
    rcases bind_eq_error_iff.1 hg with hg | ⟨first, -, hg⟩
    · exact absurd hg (unblocked_tokenAt _ _ _ _)
    split at hg
    · cases hg
    rcases bind_eq_error_iff.1 hg with hg | ⟨dimension', -, hg⟩
    · exact absurd hg (unblocked_dimensionAt _ _ _ _)
    rcases bind_eq_error_iff.1 hg with hg | ⟨body, -, hg⟩
    · exact shortBlock_of_bodyAt hat hf.2.1
        (shortBlock_of_groups (hasAt_groupRuns hat) hf.2.2) hg
    · cases hg

theorem shortBlock_of_groups : ∀ {gs : List GroupDef} {i : Nat} {name : String}
    {declared required : Nat}, HasAt tokens i (gs.map (·.tokens order)).flatten →
    groupsFilled gs → (spansFrom i (gs.map (·.tokens order))).mapM (groupAt tokens)
      = .error (.blockLengthTooSmall name declared required) →
    ShortBlock (groupsBlocks gs) name declared required
  | [], i, name, declared, required, _, _, hg => by cases hg
  | g :: gs, i, name, declared, required, h, hf, hg => by
    rw [List.map_cons, List.flatten_cons] at h
    rw [groupsFilled] at hf
    rw [List.map_cons, spansFrom, List.mapM_cons] at hg
    rw [groupsBlocks]
    rcases bind_eq_error_iff.1 hg with hg | ⟨l, -, hg⟩
    · obtain ⟨fields, hmem, hshort⟩ := GroupDef.shortBlock_of_groupAt h.left hf.1 hg
      exact ⟨fields, List.mem_append_left _ hmem, hshort⟩
    rcases bind_eq_error_iff.1 hg with hg | ⟨ls, -, hg⟩
    · obtain ⟨fields, hmem, hshort⟩ := shortBlock_of_groups h.right hf.2 hg
      exact ⟨fields, List.mem_append_right _ hmem, hshort⟩
    · cases hg

end

mutual

theorem GroupDef.openBlocksFilled_of_groupAt : ∀ {g : GroupDef} {i : Nat} {l : GroupLayout},
    HasAt tokens i (g.tokens order) →
    groupAt tokens ⟨i, i + (g.tokens order).length⟩ = .ok l → OpenBlocksFilled g.blocks
  | ⟨name, id, blockLength, dimension, fields, groups, varData⟩, i, l, h, hl => by
    obtain ⟨-, hbody⟩ := GroupDef.exists_of_groupAt h hl
    have hat := hasAt_bodyTokens h
    obtain ⟨-, hgroups, -⟩ := exists_of_bodyAt hat hbody
    rw [GroupDef.blocks]
    exact openBlocksFilled_of_bodyAt hat hbody
      (openBlocksFilled_of_groups (hasAt_groupRuns hat) hgroups)

theorem openBlocksFilled_of_groups : ∀ {gs : List GroupDef} {i : Nat} {ls : List GroupLayout},
    HasAt tokens i (gs.map (·.tokens order)).flatten →
    (spansFrom i (gs.map (·.tokens order))).mapM (groupAt tokens) = .ok ls →
    OpenBlocksFilled (groupsBlocks gs)
  | [], i, ls, _, _ => by
    intro name fields hmem
    simp [groupsBlocks] at hmem
  | g :: gs, i, ls, h, hl => by
    obtain ⟨l, rest, -, hat, hhead, hats, hrest⟩ := exists_of_groups_cons h hl
    intro name fields hmem
    rw [groupsBlocks] at hmem
    rcases List.mem_append.1 hmem with hmem | hmem
    · exact GroupDef.openBlocksFilled_of_groupAt hat hhead name fields hmem
    · exact openBlocksFilled_of_groups hats hrest name fields hmem

end

end Groups

/-- The tokens of a type, and those of a message, say what a reader takes its elements to measure
just if no array is empty.  A message without empty arrays is refused for the length of a block only
if that is given and too short for its fields; one that is accepted has no empty array in a block
whose length is not given. -/
theorem measuredAt_iff_filled (order : ByteOrder) :
    (∀ (t : TypeDef) (u : TypeLayout), TypeLayout.ofTokens (t.tokens order 0) = .ok (some u) →
      (u.kind.MeasuredAt (t.tokens order 0) 0 0 ↔ t.Filled))
    ∧ ∀ m : MessageDef,
      (∀ l, MessageLayout.ofTokens (m.tokens order) = .ok l →
        (l.body.MeasuredAt (m.tokens order) 1 ↔ m.Filled) ∧ OpenBlocksFilled m.blocks)
      ∧ (m.Filled → ∀ name declared required, MessageLayout.ofTokens (m.tokens order)
          = .error (.blockLengthTooSmall name declared required) →
        ShortBlock m.blocks name declared required) := by
  refine ⟨fun t u hu => ?_, fun m => ⟨fun l hl => ?_, fun hf name declared required hl => ?_⟩⟩
  · have hkind := (TypeLayout.ofTokens_eq_some_iff.1 hu).2
    rw [← Nat.zero_add (t.tokens order 0).length] at hkind
    exact TypeDef.measuredAt_iff (hasAt_self _) hkind
  · rw [m.ofTokens_eq] at hl
    obtain ⟨body, hbody, hl⟩ := bind_eq_ok_iff.1 hl
    cases hl
    have hat := m.hasAt_body order
    obtain ⟨-, hgroups, -⟩ := exists_of_bodyAt hat hbody
    have hruns := hasAt_groupRuns hat
    exact ⟨BodyLayout.measuredAt_iff hat hbody (groupsMeasuredAt_iff hruns hgroups),
      openBlocksFilled_of_bodyAt hat hbody (openBlocksFilled_of_groups hruns hgroups)⟩
  · rw [m.ofTokens_eq] at hl
    have hat := m.hasAt_body order
    rcases bind_eq_error_iff.1 hl with hl | ⟨body, -, hl⟩
    · exact shortBlock_of_bodyAt hat hf.1 (shortBlock_of_groups (hasAt_groupRuns hat) hf.2) hl
    · cases hl

namespace Legs

/-- The legs of an order, as an array of so many numbers. -/
def definition (count : Nat) : TypeDef :=
  .primitive { name := "legs", primitive := .uint8, arrayLength := count }

/-- An order of legs, in a block whose length may be given. -/
def order (count : Nat) (blockLength : Option Nat) : MessageDef where
  name := "Order"
  id := 1
  blockLength
  fields := [{ name := "legs", id := 1, type := definition count }]

/-- The legs as they are read. -/
def layout (count : Nat) : PrimitiveLayout :=
  ⟨.uint8, .littleEndian, max count 1, .required, none, .uint 255, none⟩

theorem kindAt_definition {tokens : List Token} {i count offset : Nat}
    (h : HasAt tokens i ((definition count).tokens .littleEndian offset)) :
    kindAt tokens ⟨i, i + ((definition count).tokens .littleEndian offset).length⟩
      = .ok (.primitive (layout count)) := by
  unfold definition at h ⊢
  rw [TypeDef.tokens] at h ⊢
  rw [kindAt, h.tokenAt]
  rfl

theorem ofTokens_order (count : Nat) (blockLength : Option Nat) :
    MessageLayout.ofTokens ((order count blockLength).tokens .littleEndian)
      = (do
        let body ← BodyLayout.ofRegions "Order"
          (blockLength.getD (fieldsWidth (order count blockLength).fields))
          [⟨"legs", 1, 0, 0, none, .primitive (layout count)⟩] [] []
        return ⟨"Order", 1, 0, none, none, body⟩) := by
  have h := (order count blockLength).hasAt_body .littleEndian
  have hfield := (hasAt_fieldRuns h).left
  have hfields : fieldsAt ((order count blockLength).tokens .littleEndian) 0
      (spansFrom 1 (fieldRuns .littleEndian 0 (order count blockLength).fields))
      = .ok [⟨"legs", 1, 0, 0, none, .primitive (layout count)⟩] := by
    have hone : (order count blockLength).fields
        = [{ name := "legs", id := 1, type := definition count }] := rfl
    rw [hone, fieldRuns, spansFrom, fieldsAt, FieldDef.fieldAt_eq hfield,
      kindAt_definition (FieldDef.hasAt_type hfield)]
    rfl
  rw [MessageDef.ofTokens_eq, bodyAt_tokens_eq h rfl, hfields, ok_bind]
  have hgroups : (order count blockLength).groups = [] := rfl
  rw [hgroups, List.map_nil, spansFrom, List.mapM_nil, pure_bind]
  rfl

theorem ofTokens_legs : TypeLayout.ofTokens
    ((TypeDef.composite "Legs" [definition 0]).tokens .littleEndian 0) = .ok (some (.composite
      ⟨"Legs", 1, [⟨"legs", -1, 0, 0, none, .primitive (layout 0)⟩], none⟩)) := by
  have h := hasAt_self ((TypeDef.composite "Legs" [definition 0]).tokens .littleEndian 0)
  have hspan := TypeDef.whole_tokens _ _ _ _ _ h
  have hcomposite := TypeDef.compositeAt_eq h
  rw [memberRuns, spansFrom, List.mapM_cons, kindAt_definition (hasAt_memberRuns h).left]
    at hcomposite
  rw [Nat.zero_add] at hspan hcomposite
  refine TypeLayout.ofTokens_eq_some_iff.2 ⟨hspan, ?_⟩
  rw [kindAt, hcomposite]
  rfl

/-- Without an element the legs are read as one, and the order is too short for them unless its
length is given; with four elements an order is as its tokens say, and a given length of two is
refused. -/
theorem measuredAt_order :
    (∃ u, TypeLayout.ofTokens ((TypeDef.composite "Legs" [definition 0]).tokens .littleEndian 0)
        = .ok (some u)
      ∧ ¬ u.kind.MeasuredAt ((TypeDef.composite "Legs" [definition 0]).tokens .littleEndian 0) 0 0)
    ∧ MessageLayout.ofTokens ((order 0 none).tokens .littleEndian)
      = .error (.blockLengthTooSmall "Order" 0 1)
    ∧ (∃ l, MessageLayout.ofTokens ((order 4 none).tokens .littleEndian) = .ok l
      ∧ l.body.MeasuredAt ((order 4 none).tokens .littleEndian) 1)
    ∧ MessageLayout.ofTokens ((order 4 (some 2)).tokens .littleEndian)
        = .error (.blockLengthTooSmall "Order" 2 4)
      ∧ ShortBlock (order 4 (some 2)).blocks "Order" 2 4 := by
  have hfilled : ∀ blockLength, (order 4 blockLength).Filled := by
    intro blockLength
    simp [MessageDef.Filled, order, fieldsFilled, membersFilled, TypeDef.Filled, definition,
      groupsFilled]
  obtain ⟨htypes, hmessages⟩ := measuredAt_iff_filled .littleEndian
  have hshort : MessageLayout.ofTokens ((order 4 (some 2)).tokens .littleEndian)
      = .error (.blockLengthTooSmall "Order" 2 4) := by
    rw [ofTokens_order]
    rfl
  obtain ⟨l, hl⟩ : ∃ l, MessageLayout.ofTokens ((order 4 none).tokens .littleEndian) = .ok l := by
    rw [ofTokens_order]
    exact ⟨_, rfl⟩
  refine ⟨⟨_, ofTokens_legs, ?_⟩, ?_, ⟨l, hl, ?_⟩, hshort, ?_⟩
  · rw [htypes _ _ ofTokens_legs]
    simp [TypeDef.Filled, membersFilled, definition]
  · rw [ofTokens_order]
    rfl
  · exact ((hmessages _).1 l hl).1.2 (hfilled none)
  · exact (hmessages _).2 (hfilled (some 2)) _ _ _ hshort

end Legs

end SimpleBinary
