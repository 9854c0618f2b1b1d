import Mathlib
import SimpleBinary.Proofs.Measures.Types

/-!
# Widths of bodies and their tokens

What holds of types holds of the fields of a body, and of its groups at any depth: a reader computes
what the tokens say just if no array is empty (`BodyLayout.measuredAt_iff`).
-/

namespace SimpleBinary

section Read

variable {order : ByteOrder} {tokens : List Token}

/-! ## Fields and var-data -/

theorem exists_widthsFrom_of_fieldsAt : ∀ {fs : List FieldDef} {i offset cursor : Nat}
    {fields : List FieldLayout}, HasAt tokens i (fieldRuns order offset fs).flatten →
    fieldsAt tokens cursor (spansFrom i (fieldRuns order offset fs)) = .ok fields →
    ∃ kinds, fields = placeMembers cursor kinds
      ∧ WidthsFrom offset (fs.map (·.type)) kinds
  | [], i, offset, cursor, fields, _, hf => by
    cases hf
    exact ⟨[], rfl, .nil⟩
  | f :: fs, i, offset, cursor, fields, h, hf => by
    obtain ⟨kind, rest, rfl, hkind, hrest⟩ := exists_of_fieldsAt_cons h hf
    rw [fieldRuns, List.flatten_cons] at h
    obtain ⟨kinds, rfl, hwidths⟩ := exists_widthsFrom_of_fieldsAt h.right hrest
    obtain ⟨hle, heq⟩ := TypeDef.width_of_kindAt (f.hasAt_type h.left) hkind
    exact ⟨({ signal := .encoding, name := f.name, id := f.id, version := f.sinceVersion, offset },
      kind) :: kinds, rfl, .cons rfl hle heq hwidths⟩

/-- Fields that end by some place have room there for what is defined, and no empty array if there
is no more room. -/
theorem fieldsWidth_le_of_fieldsAt {fs : List FieldDef} {i n : Nat} {fields : List FieldLayout}
    (h : HasAt tokens i (fieldRuns order 0 fs).flatten)
    (hf : fieldsAt tokens 0 (spansFrom i (fieldRuns order 0 fs)) = .ok fields)
    (hstops : ∀ f ∈ fields, f.stop ≤ n) :
    fieldsWidth fs ≤ n ∧ (n = fieldsWidth fs → fieldsFilled fs) := by
  obtain ⟨kinds, rfl, hwidths⟩ := exists_widthsFrom_of_fieldsAt h hf
  have hle := hwidths.le_of_stops le_rfl (Nat.zero_le n) hstops
  rw [Nat.zero_add] at hle
  exact hle

/-- Fields without empty arrays need as many bytes as they are defined to take. -/
theorem requiredLength_of_filled {fs : List FieldDef} {i : Nat} {fields : List FieldLayout}
    (h : HasAt tokens i (fieldRuns order 0 fs).flatten)
    (hf : fieldsAt tokens 0 (spansFrom i (fieldRuns order 0 fs)) = .ok fields)
    (hfilled : fieldsFilled fs) : BodyLayout.requiredLength fields = fieldsWidth fs := by
  refine le_antisymm (BodyLayout.requiredLength_le_iff.2 ?_)
    (fieldsWidth_le_of_fieldsAt h hf (BodyLayout.requiredLength_le_iff.1 le_rfl)).1
  obtain ⟨kinds, rfl, hwidths⟩ := exists_widthsFrom_of_fieldsAt h hf
  have hstops := hwidths.stops_le hfilled
  rw [Nat.zero_add] at hstops
  exact hstops

theorem FieldDef.measured_tokens {f : FieldDef} {i offset : Nat}
    (h : HasAt tokens i (f.tokens order offset)) : Measured tokens i offset f.type.width :=
  ⟨_, (hasAt_wrap h).1, rfl, rfl⟩

theorem fieldsFilled_of_measuredAt : ∀ {fs : List FieldDef} {i offset cursor : Nat}
    {fields : List FieldLayout}, HasAt tokens i (fieldRuns order offset fs).flatten →
    fieldsAt tokens cursor (spansFrom i (fieldRuns order offset fs)) = .ok fields →
    fieldsMeasuredAt tokens i fields → fieldsFilled fs
  | [], _, _, _, _, _, _, _ => by
    rw [fieldsFilled, List.map_nil, membersFilled]
    trivial
  | f :: fs, i, offset, cursor, fields, h, hf, hm => by
    obtain ⟨kind, rest, rfl, hkind, hrest⟩ := exists_of_fieldsAt_cons h hf
    rw [fieldRuns, List.flatten_cons] at h
    obtain ⟨hmeasured, -, hm⟩ := hm
    have hbehind : behind tokens 1 i = i + (f.tokens order offset).length :=
      (whole_wrap _ _ _).behind_eq h.left
    rw [hbehind] at hm
    have hwidth := hmeasured.width_eq (f.measured_tokens h.left)
    rw [fieldsFilled, List.map_cons, membersFilled]
    exact ⟨(TypeDef.width_of_kindAt (f.hasAt_type h.left) hkind).2.1 hwidth,
      fieldsFilled_of_measuredAt h.right hrest hm⟩

theorem fieldsMeasuredAt_of_filled : ∀ {fs : List FieldDef} {i offset : Nat}
    {fields : List FieldLayout}, HasAt tokens i (fieldRuns order offset fs).flatten →
    fieldsAt tokens offset (spansFrom i (fieldRuns order offset fs)) = .ok fields →
    fieldsFilled fs → fieldsMeasuredAt tokens i fields
  | [], _, _, _, _, hf, _ => by
    cases hf
    trivial
  | f :: fs, i, offset, fields, h, hf, hfilled => by
    obtain ⟨kind, rest, rfl, hkind, hrest⟩ := exists_of_fieldsAt_cons h hf
    rw [fieldRuns, List.flatten_cons] at h
    rw [fieldsFilled, List.map_cons, membersFilled] at hfilled
    have hwidth := (TypeDef.width_of_kindAt (f.hasAt_type h.left) hkind).2.2 hfilled.1
    have hmeasured := f.measured_tokens h.left
    have htype := TypeDef.measuredAt_of_filled (f.hasAt_type h.left) hkind hfilled.1
    have hbehind : behind tokens 1 i = i + (f.tokens order offset).length :=
      (whole_wrap _ _ _).behind_eq h.left
    rw [max_self, hwidth] at hrest
    rw [← hwidth] at hmeasured
    rw [max_self, fieldsMeasuredAt, hbehind]
    exact ⟨hmeasured, htype, fieldsMeasuredAt_of_filled h.right hrest hfilled.2⟩

theorem varDataMeasuredAt_layout : ∀ {ds : List VarDataDef} {i : Nat},
    HasAt tokens i (ds.map (·.tokens order)).flatten →
    varDataMeasuredAt tokens i (ds.map (·.layout order))
  | [], _, _ => trivial
  | d :: ds, i, h => by
    rw [List.map_cons, List.flatten_cons] at h
    have hbehind : behind tokens 1 i = i + (d.tokens order).length :=
      (whole_wrap _ _ _).behind_eq h.left
    rw [List.map_cons, varDataMeasuredAt, hbehind]
    exact ⟨⟨_, HasAt.getElem? (hasAt_wrap (hasAt_wrap h.left).2.1).2.1, rfl, rfl⟩,
      varDataMeasuredAt_layout h.right⟩

/-! ## Bodies -/

theorem length_spansFrom : ∀ (i : Nat) (us : List (List Token)), (spansFrom i us).length = us.length
  | _, [] => rfl
  | i, u :: us => by rw [spansFrom, List.length_cons, List.length_cons, length_spansFrom]

theorem length_of_fieldsAt : ∀ {spans : List Span} {cursor : Nat} {fields : List FieldLayout},
    fieldsAt tokens cursor spans = .ok fields → fields.length = spans.length
  | [], _, _, h => by
    cases h
    rfl
  | s :: ss, cursor, fields, h => by
    obtain ⟨f, -, h⟩ := bind_eq_ok_iff.1 h
    obtain ⟨rest, hrest, h⟩ := bind_eq_ok_iff.1 h
    cases h
    rw [List.length_cons, List.length_cons, length_of_fieldsAt hrest]

theorem whole_of_startsWith {c : Container} {us : List (List Token)}
    (h : ∀ u ∈ us, StartsWith c u) : ∀ u ∈ us, Whole u :=
  fun u hu => (h u hu).1

/-- The tokens of a body say what its elements measure if no field has an empty array and those of
its groups do. -/
theorem BodyLayout.measuredAt_iff {fields : List FieldDef} {groups : List GroupDef}
    {varData : List VarDataDef} {i blockLength : Nat} {owner : String} {b : BodyLayout}
    (h : HasAt tokens i (bodyTokens order fields groups varData))
    (hb : bodyAt tokens ⟨i, i + (bodyTokens order fields groups varData).length⟩ blockLength owner
      = .ok b)
    (hg : groupsMeasuredAt tokens (i + (fieldTokens order 0 fields).length) b.groups
      ↔ groupsFilled groups) :
    b.MeasuredAt tokens i ↔ fieldsFilled fields ∧ groupsFilled groups := by
  obtain ⟨hfields, hgroups, hdata⟩ := exists_of_bodyAt h hb
  have hf := hasAt_fieldRuns h
  have hfieldsLength := length_of_fieldsAt hfields
  have hgroupsLength := (mapM_eq_ok_iff.1 hgroups).length_eq.symm
  rw [length_spansFrom] at hfieldsLength hgroupsLength
  have hi := behind_of_runs (whole_of_startsWith (startsWith_fieldRuns order 0 fields)) hf
  have hj := behind_of_runs (whole_of_startsWith (startsWith_groupRuns order groups))
    (hasAt_groupRuns h)
  rw [flatten_fieldRuns] at hi
  have hvarData := varDataMeasuredAt_layout (hasAt_varDataRuns h)
  obtain ⟨length, fields', groups', varData'⟩ := b
  dsimp only at *
  rw [MeasuredAt, behind_add, hfieldsLength, hi, hgroupsLength, hj, hg, hdata]
  constructor
  · rintro ⟨hm, hg, -⟩
    exact ⟨fieldsFilled_of_measuredAt hf hfields hm, hg⟩
  · rintro ⟨hfilled, hg⟩
    exact ⟨fieldsMeasuredAt_of_filled hf hfields hfilled, hg, hvarData⟩

mutual

theorem GroupDef.measuredAt_iff : ∀ {g : GroupDef} {i : Nat} {l : GroupLayout},
    HasAt tokens i (g.tokens order) →
    groupAt tokens ⟨i, i + (g.tokens order).length⟩ = .ok l →
    ((∃ c, kindAt tokens ⟨i + 1, behind tokens 1 (i + 1)⟩ = .ok (.composite c)
        ∧ l.dimension.HeaderOf c ∧ (FieldKind.composite c).MeasuredAt tokens (i + 1) 0)
      ∧ l.body.MeasuredAt tokens (behind tokens 1 (i + 1)) ↔ g.Filled)
  | ⟨name, id, blockLength, dimension, fields, groups, varData⟩, i, l, h, hl => by
    obtain ⟨⟨c, hc, hheader⟩, hbody⟩ := GroupDef.exists_of_groupAt h hl
    have hdimension := hasAt_dimension h
    have hat := hasAt_bodyTokens h
    obtain ⟨-, hgroups, -⟩ := exists_of_bodyAt hat hbody
    have hiff := BodyLayout.measuredAt_iff hat hbody
      (groupsMeasuredAt_iff (hasAt_groupRuns hat) hgroups)
    have hmeasured := TypeDef.measuredAt_iff hdimension hc
    rw [(dimension.whole_tokens order 0).behind_eq hdimension, hiff, GroupDef.Filled, hc,
      ← hmeasured]
    refine and_congr_left fun _ => ⟨?_, fun hm => ⟨c, rfl, hheader, hm⟩⟩
    rintro ⟨c', hc', -, hm⟩
    cases hc'
    exact hm

theorem groupsMeasuredAt_iff : ∀ {gs : List GroupDef} {i : Nat} {ls : List GroupLayout},
    HasAt tokens i (gs.map (·.tokens order)).flatten →
    (spansFrom i (gs.map (·.tokens order))).mapM (groupAt tokens) = .ok ls →
    (groupsMeasuredAt tokens i ls ↔ groupsFilled gs)
  | [], i, ls, _, hl => by
    obtain rfl : [] = ls := Except.ok.inj hl
    rw [groupsMeasuredAt, groupsFilled]
  | g :: gs, i, ls, h, hl => by
    obtain ⟨⟨name, id, sinceVersion, dimension, body, description⟩, rest, rfl, hat, hhead, hats,
      hrest⟩ := exists_of_groups_cons h hl
    have hwhole := (startsWith_groupRuns order [g] _ (List.mem_singleton_self _)).1
    rw [groupsMeasuredAt, groupsFilled, ← GroupDef.measuredAt_iff hat hhead,
      hwhole.behind_eq hat, groupsMeasuredAt_iff hats hrest, and_assoc]

end

end Read

end SimpleBinary
