import Mathlib
import SimpleBinary.Proofs.Flattening.Types

/-!
# Bodies of definitions and their streams

The fields, the groups and the var-data of a sound definition are read from its tokens as what they
mean, and so is the message (`MessageDef.ofTokens_tokens_of_layout?`).  A sound definition has a
meaning (`MessageDef.Sound.exists_layout?`).
-/

namespace SimpleBinary

/-! ## Fields -/

/-- A field is read as its type is. -/
theorem FieldDef.fieldAt_eq {f : FieldDef} {order : ByteOrder} {tokens : List Token}
    {i offset : Nat} (h : HasAt tokens i (f.tokens order offset)) (cursor : Nat) :
    fieldAt tokens ⟨i, i + (f.tokens order offset).length⟩ cursor
      = (kindAt tokens ⟨i + 1, i + 1 + (f.type.tokens order offset).length⟩).map fun kind => {
        name := f.name, id := f.id, sinceVersion := f.sinceVersion, offset := max cursor offset,
        description := none, kind } := by
  unfold FieldDef.tokens at h ⊢
  obtain ⟨hfirst, hinside, -⟩ := hasAt_wrap h
  have hspan := f.type.whole_tokens order offset _ _
    (hinside.take (n := i + ((f.type.tokens order offset).length + 2)) (by omega))
  unfold fieldAt
  rw [length_wrap, tokenAt_of_getElem? hfirst, ok_bind]
  dsimp only
  rw [hspan, ok_bind, if_neg (by dsimp only; omega)]
  cases kindAt tokens ⟨i + 1, i + 1 + (f.type.tokens order offset).length⟩ <;> rfl

theorem FieldDef.hasAt_type {f : FieldDef} {order : ByteOrder} {tokens : List Token}
    {i offset : Nat} (h : HasAt tokens i (f.tokens order offset)) :
    HasAt tokens (i + 1) (f.type.tokens order offset) :=
  (hasAt_wrap h).2.1

theorem FieldDef.fieldAt_tokens {f : FieldDef} {order : ByteOrder} {tokens : List Token}
    {i offset : Nat} (hs : f.type.Sound) (h : HasAt tokens i (f.tokens order offset)) :
    fieldAt tokens ⟨i, i + (f.tokens order offset).length⟩ offset = .ok {
      name := f.name, id := f.id, sinceVersion := f.sinceVersion, offset, description := none,
      kind := f.type.layout order } := by
  rw [f.fieldAt_eq h, TypeDef.kindAt_tokens hs (f.hasAt_type h), max_self]
  rfl

/-- The tokens of each of several fields. -/
def fieldRuns (order : ByteOrder) (offset : Nat) : List FieldDef → List (List Token)
  | [] => []
  | f :: fs => f.tokens order offset :: fieldRuns order (offset + f.type.width) fs

theorem flatten_fieldRuns (order : ByteOrder) : ∀ (offset : Nat) (fs : List FieldDef),
    (fieldRuns order offset fs).flatten = fieldTokens order offset fs
  | _, [] => rfl
  | offset, f :: fs => by
    rw [fieldRuns, fieldTokens, List.flatten_cons, flatten_fieldRuns order _ fs]

theorem startsWith_wrap (t : Token) (c : Container) (inside : List Token) :
    StartsWith c (t.wrap c inside) :=
  ⟨whole_wrap t c inside, _, _, rfl, by simp⟩

theorem startsWith_fieldRuns (order : ByteOrder) : ∀ (offset : Nat) (fs : List FieldDef),
    ∀ u ∈ fieldRuns order offset fs, StartsWith .field u
  | _, [], u, hu => by simp [fieldRuns] at hu
  | offset, f :: fs, u, hu => by
    rcases List.mem_cons.1 hu with rfl | hu
    · exact startsWith_wrap _ _ _
    · exact startsWith_fieldRuns order _ fs u hu

theorem fieldsAt_tokens {order : ByteOrder} {tokens : List Token} : ∀ {fs : List FieldDef}
    {i offset : Nat}, (∀ f ∈ fs, f.type.Sound) → HasAt tokens i (fieldRuns order offset fs).flatten →
    fieldsAt tokens offset (spansFrom i (fieldRuns order offset fs))
      = .ok (fieldLayouts order offset fs)
  | [], _, _, _, _ => rfl
  | f :: fs, i, offset, hs, h => by
    obtain ⟨hf, hs⟩ := List.forall_mem_cons.1 hs
    rw [fieldRuns, List.flatten_cons] at h
    have ih := fieldsAt_tokens hs h.right
    rw [fieldRuns, spansFrom, fieldsAt, FieldDef.fieldAt_tokens hf h.left, ok_bind]
    simp only [FieldLayout.stop, FieldLayout.width, TypeDef.width_layout, ih]
    rfl

theorem stop_le_of_mem_fieldLayouts {order : ByteOrder} : ∀ {offset : Nat} {fs : List FieldDef},
    ∀ f ∈ fieldLayouts order offset fs, f.stop ≤ offset + fieldsWidth fs
  | offset, [], f, hf => by simp [fieldLayouts] at hf
  | offset, g :: fs, f, hf => by
    have hwidth : fieldsWidth (g :: fs) = g.type.width + fieldsWidth fs := by
      unfold fieldsWidth
      rw [List.map_cons, TypeDef.totalWidth]
    rcases List.mem_cons.1 hf with rfl | hf
    · simp only [FieldLayout.stop, FieldLayout.width, TypeDef.width_layout, hwidth]
      omega
    · have := stop_le_of_mem_fieldLayouts f hf
      omega

/-! ## Var-data -/

theorem VarDataDef.varDataAt_tokens {d : VarDataDef} {order : ByteOrder} {tokens : List Token}
    {i : Nat} (h : HasAt tokens i (d.tokens order)) :
    varDataAt tokens ⟨i, i + (d.tokens order).length⟩ = .ok (d.layout order) := by
  unfold VarDataDef.tokens at h ⊢
  obtain ⟨hfirst, hinside, -⟩ := hasAt_wrap h
  obtain ⟨hcomposite, -, -⟩ := hasAt_wrap hinside
  have hspan := whole_wrap _ _ _ _ _ (hinside.take (n := i + (d.tokens order).length) (by
    simp only [VarDataDef.tokens, length_wrap]
    omega))
  have hnumbered := numbered_of_hasAt hinside
  unfold VarDataDef.tokens at hspan
  unfold varDataAt
  rw [tokenAt_of_getElem? hfirst, ok_bind]
  dsimp only at hspan ⊢
  rw [hspan, ok_bind]
  dsimp only
  rw [tokenAt_of_getElem? hcomposite, ok_bind]
  unfold encodingNamed
  rw [hnumbered]
  have hother : ("length" == "varData") = false := by decide
  simp only [List.zipIdx_cons, List.find?_cons, beq_self_eq_true, hother, Bool.and_self,
    Bool.and_false, ne_eq, not_true_eq_false, if_false, ok_bind, Option.or_none]
  rfl

/-! ## Groups -/

theorem ofMember_memberLayouts {order : ByteOrder} {name typeName : String} {encodedLength : Nat}
    {description : Option String} : ∀ {ts : List TypeDef} {offset : Nat} {s : HeaderSlot},
    memberSlot? order name offset ts = some s →
    HeaderSlot.ofMember ⟨typeName, encodedLength, memberLayouts order offset ts, description⟩ name
      = .ok s
  | [], _, _, h => by simp [memberSlot?] at h
  | t :: ts, offset, s, h => by
    rw [memberSlot?] at h
    unfold HeaderSlot.ofMember CompositeLayout.member?
    rw [memberLayouts, List.find?_cons]
    split at h
    · rename_i hname
      simp only [hname, beq_self_eq_true]
      cases t with
      | primitive d =>
        rw [TypeDef.slot?, Option.ite_none_left_eq_some] at h
        simp only [TypeDef.layout]
        rw [if_neg (by simpa [PrimitiveDef.layout, PrimitiveLayout.isConstant] using h.1)]
        exact congrArg _ (Option.some.inj h.2)
      | composite => simp [TypeDef.slot?] at h
      | enumeration => simp [TypeDef.slot?] at h
      | set => simp [TypeDef.slot?] at h
    · rename_i hname
      simp only [beq_eq_false_iff_ne.2 hname]
      have ih : HeaderSlot.ofMember
          ⟨typeName, encodedLength, memberLayouts order (offset + t.width) ts, description⟩ name
          = .ok s := ofMember_memberLayouts h
      exact ih

theorem TypeDef.dimensionAt_tokens {t : TypeDef} {order : ByteOrder} {tokens : List Token}
    {i offset : Nat} {d : DimensionLayout} (hs : t.Sound) (hd : t.dimension? order = some d)
    (h : HasAt tokens i (t.tokens order offset)) :
    dimensionAt tokens ⟨i, i + (t.tokens order offset).length⟩ = .ok d := by
  cases t with
  | composite name members =>
    unfold dimension? at hd
    obtain ⟨blockLength, hb, hd⟩ := Option.bind_eq_some_iff.1 hd
    obtain ⟨numInGroup, hn, hd⟩ := Option.bind_eq_some_iff.1 hd
    cases hd
    unfold dimensionAt
    rw [compositeAt_tokens hs h, ok_bind, ofMember_memberLayouts hb, ok_bind,
      ofMember_memberLayouts hn]
    rfl
  | primitive => simp [dimension?] at hd
  | enumeration => simp [dimension?] at hd
  | set => simp [dimension?] at hd

theorem groupTokens_eq (order : ByteOrder) : ∀ gs : List GroupDef,
    groupTokens order gs = (gs.map (·.tokens order)).flatten
  | [] => by rw [groupTokens, List.map_nil, List.flatten_nil]
  | g :: gs => by rw [groupTokens, List.map_cons, List.flatten_cons, groupTokens_eq order gs]

theorem startsWith_groupRuns (order : ByteOrder) (gs : List GroupDef) :
    ∀ u ∈ gs.map (·.tokens order), StartsWith .group u := by
  intro u hu
  obtain ⟨⟨name, id, blockLength, dimension, fields, groups, varData⟩, -, rfl⟩ := List.mem_map.1 hu
  rw [GroupDef.tokens]
  exact startsWith_wrap _ _ _

theorem startsWith_varDataRuns (order : ByteOrder) (ds : List VarDataDef) :
    ∀ u ∈ ds.map (·.tokens order), StartsWith .varData u := by
  intro u hu
  obtain ⟨d, -, rfl⟩ := List.mem_map.1 hu
  exact startsWith_wrap _ _ _

/-- The tokens of a body's fields, groups and var-data. -/
def bodyTokens (order : ByteOrder) (fields : List FieldDef) (groups : List GroupDef)
    (varData : List VarDataDef) : List Token :=
  fieldTokens order 0 fields ++ (groupTokens order groups ++ varData.flatMap (·.tokens order))

section Bodies

variable {order : ByteOrder} {tokens : List Token} {fields : List FieldDef}
  {groups : List GroupDef} {varData : List VarDataDef} {i stop blockLength : Nat} {owner : String}

theorem hasAt_fieldRuns (h : HasAt tokens i (bodyTokens order fields groups varData)) :
    HasAt tokens i (fieldRuns order 0 fields).flatten := by
  rw [flatten_fieldRuns]
  exact h.left

theorem hasAt_groupRuns (h : HasAt tokens i (bodyTokens order fields groups varData)) :
    HasAt tokens (i + (fieldTokens order 0 fields).length)
      (groups.map (·.tokens order)).flatten := by
  rw [← groupTokens_eq]
  exact h.right.left

theorem hasAt_varDataRuns (h : HasAt tokens i (bodyTokens order fields groups varData)) :
    HasAt tokens (i + (fieldTokens order 0 fields).length
      + (groups.map (·.tokens order)).flatten.length) (varData.map (·.tokens order)).flatten := by
  rw [← groupTokens_eq, ← List.flatMap_def]
  exact h.right.right

/-- A body is read as its fields and groups are; its var-data is always read. -/
theorem bodyAt_tokens_eq (h : HasAt tokens i (bodyTokens order fields groups varData))
    (hstop : i + (bodyTokens order fields groups varData).length = stop) :
    bodyAt tokens ⟨i, stop⟩ blockLength owner = (do
      let fields' ← fieldsAt tokens 0 (spansFrom i (fieldRuns order 0 fields))
      let groups' ← (spansFrom (i + (fieldTokens order 0 fields).length)
        (groups.map (·.tokens order))).mapM (groupAt tokens)
      BodyLayout.ofRegions owner blockLength fields' groups' (varData.map (·.layout order))) := by
  unfold bodyTokens at h hstop
  rw [← flatten_fieldRuns, groupTokens_eq, List.flatMap_def] at h hstop
  have hspans := splitBody_of_hasAt (startsWith_fieldRuns order 0 fields)
    (startsWith_groupRuns order groups) (startsWith_varDataRuns order varData) h hstop
  have hdata : (spansFrom (i + (fieldRuns order 0 fields).flatten.length
      + (groups.map (·.tokens order)).flatten.length) (varData.map (·.tokens order))).mapM
      (varDataAt tokens) = .ok (varData.map (·.layout order)) := by
    refine mapM_spansFrom h.right.right ?_
    rw [List.forall₂_map_left_iff, List.forall₂_map_right_iff]
    exact List.forall₂_same.2 fun d _ j hj => d.varDataAt_tokens hj
  rw [bodyAt_eq, hspans, ok_bind, hdata, ← flatten_fieldRuns]
  rfl

end Bodies

/-- A body is read as its fields, groups and var-data, if the groups are read as they were. -/
theorem bodyAt_tokens {order : ByteOrder} {tokens : List Token} {fields : List FieldDef}
    {groups : List GroupDef} {varData : List VarDataDef} {layouts : List GroupLayout}
    {i stop : Nat} {blockLength : Option Nat} (owner : String) (hs : BlockSound blockLength fields)
    (hg : List.Forall₂ (fun u l => ∀ j, HasAt tokens j u → groupAt tokens ⟨j, j + u.length⟩ = .ok l)
      (groups.map (·.tokens order)) layouts)
    (h : HasAt tokens i (bodyTokens order fields groups varData))
    (hstop : i + (bodyTokens order fields groups varData).length = stop) :
    bodyAt tokens ⟨i, stop⟩ (blockLength.getD (fieldsWidth fields)) owner = .ok {
      blockLength := blockLength.getD (fieldsWidth fields)
      fields := fieldLayouts order 0 fields
      groups := layouts
      varData := varData.map (·.layout order) } := by
  rw [bodyAt_tokens_eq h hstop, fieldsAt_tokens hs.1 (hasAt_fieldRuns h), ok_bind,
    mapM_spansFrom (hasAt_groupRuns h) hg, ok_bind]
  have hfits : BodyLayout.requiredLength (fieldLayouts order 0 fields)
      ≤ blockLength.getD (fieldsWidth fields) := by
    refine BodyLayout.requiredLength_le_iff.2 fun f hf => ?_
    have hle := stop_le_of_mem_fieldLayouts f hf
    rw [Nat.zero_add] at hle
    cases hb : blockLength with
    | none => exact hle
    | some n => exact le_trans hle (hs.2 n hb)
  unfold BodyLayout.ofRegions
  exact if_neg (not_lt.2 hfits)

section Groups

variable {order : ByteOrder} {tokens : List Token} {name : String} {id : Int32}
  {blockLength : Option Nat} {dimension : TypeDef} {fields : List FieldDef}
  {groups : List GroupDef} {varData : List VarDataDef} {i : Nat}

theorem hasAt_dimension (h : HasAt tokens i
    (GroupDef.tokens order ⟨name, id, blockLength, dimension, fields, groups, varData⟩)) :
    HasAt tokens (i + 1) (dimension.tokens order 0) := by
  rw [GroupDef.tokens, List.append_assoc, List.append_assoc] at h
  exact (hasAt_wrap h).2.1.left

theorem hasAt_bodyTokens (h : HasAt tokens i
    (GroupDef.tokens order ⟨name, id, blockLength, dimension, fields, groups, varData⟩)) :
    HasAt tokens (i + 1 + (dimension.tokens order 0).length)
      (bodyTokens order fields groups varData) := by
  rw [GroupDef.tokens, List.append_assoc, List.append_assoc] at h
  exact (hasAt_wrap h).2.1.right

/-- A group is read as its header and its body are. -/
theorem GroupDef.groupAt_eq (h : HasAt tokens i
    (GroupDef.tokens order ⟨name, id, blockLength, dimension, fields, groups, varData⟩)) :
    groupAt tokens ⟨i, i + (GroupDef.tokens order
        ⟨name, id, blockLength, dimension, fields, groups, varData⟩).length⟩ = (do
      let first ← tokenAt tokens (i + 1)
      if first.signal ≠ .opens .composite then throw (.malformed (i + 1) (.noDimension name))
      let dimension' ← dimensionAt tokens ⟨i + 1, i + 1 + (dimension.tokens order 0).length⟩
      let body ← bodyAt tokens ⟨i + 1 + (dimension.tokens order 0).length,
        i + 1 + (dimension.tokens order 0).length
          + (bodyTokens order fields groups varData).length⟩
        (blockLength.getD (fieldsWidth fields)) name
      return ⟨name, id, 0, dimension', body, none⟩) := by
  have hdimension := hasAt_dimension h
  unfold bodyTokens
  rw [GroupDef.tokens, List.append_assoc, List.append_assoc] at h ⊢
  obtain ⟨hfirst, -, -⟩ := hasAt_wrap h
  have hspan := dimension.whole_tokens order 0 _ _ (hdimension.take (n := i
    + ((dimension.tokens order 0).length + (fieldTokens order 0 fields ++ (groupTokens order groups
    ++ varData.flatMap (·.tokens order))).length + 2)) (by omega))
  rw [length_wrap, List.length_append, SimpleBinary.groupAt_eq, tokenAt_of_getElem? hfirst, ok_bind,
    hspan, ok_bind]
  have hstop : i + ((dimension.tokens order 0).length + (fieldTokens order 0 fields
      ++ (groupTokens order groups ++ varData.flatMap (·.tokens order))).length + 2) - 1
      = i + 1 + (dimension.tokens order 0).length + (fieldTokens order 0 fields
      ++ (groupTokens order groups ++ varData.flatMap (·.tokens order))).length := by
    omega
  simp only [hstop]

end Groups

mutual

theorem GroupDef.groupAt_tokens {order : ByteOrder} {tokens : List Token} : ∀ {g : GroupDef}
    {l : GroupLayout}, g.Sound → g.layout? order = some l → ∀ i, HasAt tokens i (g.tokens order) →
    groupAt tokens ⟨i, i + (g.tokens order).length⟩ = .ok l
  | ⟨name, id, blockLength, dimension, fields, groups, varData⟩, l, hs, hl, i, h => by
    rw [GroupDef.Sound] at hs
    obtain ⟨hdim, -, hblock, hgroups⟩ := hs
    rw [GroupDef.layout?] at hl
    obtain ⟨d, hd, hl⟩ := Option.bind_eq_some_iff.1 hl
    obtain ⟨layouts, hlayouts, hl⟩ := Option.bind_eq_some_iff.1 hl
    cases hl
    have hbody :=
      bodyAt_tokens name hblock (groupsAt_tokens tokens hgroups hlayouts)
        (hasAt_bodyTokens h) rfl
    obtain ⟨first, rest, hcons, hsignal⟩ : ∃ first rest, dimension.tokens order 0 = first :: rest
        ∧ first.signal = .opens .composite := by
      cases dimension with
      | composite => rw [TypeDef.tokens]; exact ⟨_, _, rfl, rfl⟩
      | _ => simp [TypeDef.dimension?] at hd
    have hfirst : tokenAt tokens (i + 1) = .ok first := by
      have := hasAt_dimension h
      rw [hcons] at this
      exact this.tokenAt
    rw [GroupDef.groupAt_eq h, hfirst, ok_bind, if_neg (not_not.2 hsignal),
      TypeDef.dimensionAt_tokens hdim hd (hasAt_dimension h)]
    simp only [ok_bind, hbody]
    rfl

theorem groupsAt_tokens {order : ByteOrder} (tokens : List Token) : ∀ {gs : List GroupDef}
    {ls : List GroupLayout}, groupsSound gs → groupLayouts? order gs = some ls →
    List.Forall₂ (fun u l => ∀ i, HasAt tokens i u → groupAt tokens ⟨i, i + u.length⟩ = .ok l)
      (gs.map (·.tokens order)) ls
  | [], ls, _, hl => by
    rw [groupLayouts?] at hl
    cases hl
    exact .nil
  | g :: gs, ls, hs, hl => by
    rw [groupsSound] at hs
    rw [groupLayouts?] at hl
    obtain ⟨l, hlg, hl⟩ := Option.bind_eq_some_iff.1 hl
    obtain ⟨ls, hls, hl⟩ := Option.bind_eq_some_iff.1 hl
    cases hl
    exact .cons (fun i h => GroupDef.groupAt_tokens hs.1 hlg i h) (groupsAt_tokens tokens hs.2 hls)

end

theorem exists_memberSlot? (order : ByteOrder) {name : String} {d : PrimitiveDef}
    (hd : d.presence ≠ .constant) : ∀ {ts : List TypeDef} (offset : Nat),
    ts.find? (·.name == name) = some (.primitive d) →
    ∃ s, memberSlot? order name offset ts = some s
  | [], _, h => by simp at h
  | t :: ts, offset, h => by
    rw [List.find?_cons] at h
    rw [memberSlot?]
    split at h
    · rename_i hname
      cases h
      rw [if_pos (beq_iff_eq.1 hname), TypeDef.slot?, if_neg hd]
      exact ⟨_, rfl⟩
    · rename_i hname
      rw [if_neg (beq_eq_false_iff_ne.1 hname)]
      exact exists_memberSlot? order hd _ h

theorem TypeDef.IsDimension.exists_dimension? {t : TypeDef} (h : t.IsDimension)
    (order : ByteOrder) : ∃ d, t.dimension? order = some d := by
  obtain ⟨name, members, rfl, hslots⟩ := h
  obtain ⟨b, hb, hbc⟩ := hslots "blockLength" (by simp)
  obtain ⟨n, hn, hnc⟩ := hslots "numInGroup" (by simp)
  obtain ⟨blockLength, hb⟩ := exists_memberSlot? order hbc 0 hb
  obtain ⟨numInGroup, hn⟩ := exists_memberSlot? order hnc 0 hn
  rw [dimension?, hb, hn]
  exact ⟨_, rfl⟩

mutual

theorem GroupDef.exists_layout? (order : ByteOrder) : ∀ {g : GroupDef}, g.Sound →
    ∃ l, g.layout? order = some l
  | ⟨name, id, blockLength, dimension, fields, groups, varData⟩, h => by
    rw [GroupDef.Sound] at h
    obtain ⟨d, hd⟩ := h.2.1.exists_dimension? order
    obtain ⟨ls, hls⟩ := exists_groupLayouts? order h.2.2.2
    rw [GroupDef.layout?, hd, hls]
    exact ⟨_, rfl⟩

theorem exists_groupLayouts? (order : ByteOrder) : ∀ {gs : List GroupDef}, groupsSound gs →
    ∃ ls, groupLayouts? order gs = some ls
  | [], _ => ⟨[], by rw [groupLayouts?]⟩
  | g :: gs, h => by
    rw [groupsSound] at h
    obtain ⟨l, hl⟩ := GroupDef.exists_layout? order h.1
    obtain ⟨ls, hls⟩ := exists_groupLayouts? order h.2
    rw [groupLayouts?, hl, hls]
    exact ⟨_, rfl⟩

end

/-! ## Messages -/

theorem wholeSpan_wrap (t : Token) (c : Container) (inside : List Token) :
    wholeSpan (t.wrap c inside) c = .ok ⟨0, inside.length + 2⟩ := by
  have hspan := whole_wrap t c inside _ _ (hasAt_self _)
  obtain ⟨first, rest, hwrap, hfirst⟩ : ∃ first rest, t.wrap c inside = first :: rest
      ∧ first.signal = .opens c := ⟨_, _, rfl, rfl⟩
  have hlength := length_wrap t c inside
  rw [hwrap] at hspan hlength ⊢
  unfold wholeSpan
  dsimp only
  rw [if_neg (not_not.2 hfirst), hspan]
  simp only [Nat.zero_add, hlength, ok_bind, ne_eq, not_true_eq_false, if_false]
  rfl

theorem HeaderLayout.ofTokens_tokens_of_header? {t : TypeDef} {order : ByteOrder}
    {h : HeaderLayout} (hs : t.Sound) (hh : t.header? order = some h) :
    HeaderLayout.ofTokens (t.tokens order 0) = .ok h := by
  cases t with
  | composite name members =>
    unfold TypeDef.header? at hh
    obtain ⟨blockLength, hb, hh⟩ := Option.bind_eq_some_iff.1 hh
    obtain ⟨templateId, ht, hh⟩ := Option.bind_eq_some_iff.1 hh
    obtain ⟨schemaId, hsc, hh⟩ := Option.bind_eq_some_iff.1 hh
    obtain ⟨version, hv, hh⟩ := Option.bind_eq_some_iff.1 hh
    cases hh
    have hc := compositeAt_tokens hs (hasAt_self ((TypeDef.composite name members).tokens order 0))
    unfold HeaderLayout.ofTokens CompositeLayout.ofTokens
    rw [TypeDef.tokens] at hc ⊢
    rw [length_wrap, Nat.zero_add] at hc
    rw [wholeSpan_wrap, ok_bind, hc, ok_bind, ofMember_memberLayouts hb, ok_bind,
      ofMember_memberLayouts ht, ok_bind, ofMember_memberLayouts hsc, ok_bind,
      ofMember_memberLayouts hv]
    rfl
  | primitive => simp [TypeDef.header?] at hh
  | enumeration => simp [TypeDef.header?] at hh
  | set => simp [TypeDef.header?] at hh

theorem MessageDef.hasAt_body (m : MessageDef) (order : ByteOrder) :
    HasAt (m.tokens order) 1 (bodyTokens order m.fields m.groups m.varData) := by
  have h := hasAt_self (m.tokens order)
  unfold MessageDef.tokens at h ⊢
  rw [List.append_assoc] at h ⊢
  exact (hasAt_wrap h).2.1

/-- A message is read as its body is. -/
theorem MessageDef.ofTokens_eq (m : MessageDef) (order : ByteOrder) :
    MessageLayout.ofTokens (m.tokens order) = (do
      let body ← bodyAt (m.tokens order)
        ⟨1, 1 + (bodyTokens order m.fields m.groups m.varData).length⟩
        (m.blockLength.getD (fieldsWidth m.fields)) m.name
      return ⟨m.name, m.id, 0, none, m.description, body⟩) := by
  have h := hasAt_self (m.tokens order)
  unfold MessageDef.tokens at h ⊢
  rw [List.append_assoc] at h ⊢
  obtain ⟨hfirst, -, -⟩ := hasAt_wrap h
  unfold MessageLayout.ofTokens
  rw [wholeSpan_wrap, ok_bind, tokenAt_of_getElem? hfirst, ok_bind]
  unfold Span.inner bodyTokens
  dsimp only
  congr 3
  omega

theorem MessageDef.ofTokens_tokens_of_layout? {m : MessageDef} {order : ByteOrder}
    {l : MessageLayout} (hs : m.Sound) (hl : m.layout? order = some l) :
    MessageLayout.ofTokens (m.tokens order) = .ok l := by
  unfold layout? at hl
  obtain ⟨layouts, hlayouts, hl⟩ := Option.bind_eq_some_iff.1 hl
  cases hl
  rw [m.ofTokens_eq,
    bodyAt_tokens m.name hs.1 (groupsAt_tokens _ hs.2 hlayouts) (m.hasAt_body order) rfl]
  rfl

theorem MessageDef.Sound.exists_layout? {m : MessageDef} (h : m.Sound) (order : ByteOrder) :
    ∃ l, m.layout? order = some l := by
  obtain ⟨ls, hls⟩ := exists_groupLayouts? order h.2
  rw [layout?, hls]
  exact ⟨_, rfl⟩

end SimpleBinary
