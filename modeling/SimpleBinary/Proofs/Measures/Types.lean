import Mathlib
import SimpleBinary.Proofs.Occurrences

/-!
# Widths of types and their tokens

The tokens of a type say at which offset each element lies and how wide it is, and a reader of the
tokens computes both once more.  The two agree just if no array is empty (`TypeDef.measuredAt_iff`): an
array of no elements is written as one that takes no bytes and read as one of a single element, and
every element behind it lies further on than its token says.
-/

namespace SimpleBinary

/-! ## What tokens measure -/

/-- The token at `i` says at which offset an element lies and how wide it is. -/
def Measured (tokens : List Token) (i offset width : Nat) : Prop :=
  ∃ t, tokens[i]? = some t ∧ t.offset = offset ∧ t.encodedLength = width

mutual

/-- The tokens of a type from `i` on say what its elements measure. -/
def FieldKind.MeasuredAt (tokens : List Token) (i offset : Nat) : FieldKind → Prop
  | .primitive p => Measured tokens i offset p.width
  | .composite ⟨_, encodedLength, members, _⟩ =>
    Measured tokens i offset encodedLength ∧ membersMeasuredAt tokens (i + 1) members
  | .enumeration e => Measured tokens i offset e.width
  | .set s => Measured tokens i offset s.width

def membersMeasuredAt (tokens : List Token) (i : Nat) : List FieldLayout → Prop
  | [] => True
  | ⟨_, _, _, offset, _, kind⟩ :: fields =>
    kind.MeasuredAt tokens i offset ∧ membersMeasuredAt tokens (behind tokens 1 i) fields

end

/-- The tokens of fields from `i` on, and those of their types, say what they measure. -/
def fieldsMeasuredAt (tokens : List Token) (i : Nat) : List FieldLayout → Prop
  | [] => True
  | f :: fields => Measured tokens i f.offset f.width ∧ f.kind.MeasuredAt tokens (i + 1) f.offset
    ∧ fieldsMeasuredAt tokens (behind tokens 1 i) fields

/-- The tokens of lengths of var-data say what they measure. -/
def varDataMeasuredAt (tokens : List Token) (i : Nat) : List VarDataLayout → Prop
  | [] => True
  | d :: ds => Measured tokens (i + 2) d.length.offset d.length.width
    ∧ varDataMeasuredAt tokens (behind tokens 1 i) ds

mutual

/-- The tokens of a body from `i` on say what its elements measure. -/
def BodyLayout.MeasuredAt (tokens : List Token) (i : Nat) : BodyLayout → Prop
  | ⟨_, fields, groups, varData⟩ => fieldsMeasuredAt tokens i fields
    ∧ groupsMeasuredAt tokens (behind tokens fields.length i) groups
    ∧ varDataMeasuredAt tokens (behind tokens (fields.length + groups.length) i) varData

/-- The tokens of groups from `i` on say what the elements of their headers and bodies measure. -/
def groupsMeasuredAt (tokens : List Token) (i : Nat) : List GroupLayout → Prop
  | [] => True
  | ⟨_, _, _, dimension, body, _⟩ :: groups =>
    (∃ c, kindAt tokens ⟨i + 1, behind tokens 1 (i + 1)⟩ = .ok (.composite c)
        ∧ dimension.HeaderOf c ∧ (FieldKind.composite c).MeasuredAt tokens (i + 1) 0)
      ∧ body.MeasuredAt tokens (behind tokens 1 (i + 1))
      ∧ groupsMeasuredAt tokens (behind tokens 1 i) groups

end

/-! ## Definitions without empty arrays -/

mutual

/-- Every array in a block has an element. -/
def TypeDef.Filled : TypeDef → Prop
  | .primitive d => d.presence ≠ .constant → 1 ≤ d.arrayLength
  | .composite _ members => membersFilled members
  | .enumeration .. | .set .. => True

def membersFilled : List TypeDef → Prop
  | [] => True
  | t :: ts => t.Filled ∧ membersFilled ts

end

def fieldsFilled (fields : List FieldDef) : Prop := membersFilled (fields.map (·.type))

mutual

def GroupDef.Filled : GroupDef → Prop
  | ⟨_, _, _, dimension, fields, groups, _⟩ =>
    dimension.Filled ∧ fieldsFilled fields ∧ groupsFilled groups

def groupsFilled : List GroupDef → Prop
  | [] => True
  | g :: gs => g.Filled ∧ groupsFilled gs

end

def MessageDef.Filled (m : MessageDef) : Prop := fieldsFilled m.fields ∧ groupsFilled m.groups

/-! ## Widths -/

/-- The tokens and the kinds of members from an offset on, each at least as wide as defined, and as
wide just if it has no empty array. -/
inductive WidthsFrom : (offset : Nat) → List TypeDef → List (Token × FieldKind) → Prop
  | nil {offset : Nat} : WidthsFrom offset [] []
  | cons {offset : Nat} {t : TypeDef} {ts : List TypeDef} {u : Token} {k : FieldKind}
      {kinds : List (Token × FieldKind)} (hoffset : u.offset = offset) (hle : t.width ≤ k.width)
      (heq : k.width = t.width ↔ t.Filled) (h : WidthsFrom (offset + t.width) ts kinds) :
      WidthsFrom offset (t :: ts) ((u, k) :: kinds)

/-- Members end no earlier than defined, and later if one of them has an empty array. -/
theorem WidthsFrom.le_of_stops {offset : Nat} {ts : List TypeDef}
    {kinds : List (Token × FieldKind)} (h : WidthsFrom offset ts kinds) :
    ∀ {cursor n : Nat}, offset ≤ cursor → cursor ≤ n →
      (∀ f ∈ placeMembers cursor kinds, f.stop ≤ n) →
      cursor + TypeDef.totalWidth ts ≤ n
        ∧ (n = cursor + TypeDef.totalWidth ts → membersFilled ts) := by
  induction h with
  | nil =>
    intro cursor n _ hn _
    rw [TypeDef.totalWidth, membersFilled]
    exact ⟨hn, fun _ => trivial⟩
  | @cons offset t ts u k kinds hoffset hle heq _ ih =>
    intro cursor n hc _ hstops
    rw [placeMembers, List.forall_mem_cons] at hstops
    obtain ⟨hstop, hstops⟩ := hstops
    simp only [FieldLayout.stop, FieldLayout.width, hoffset, max_eq_left hc] at hstop hstops
    obtain ⟨hrest, hfilled⟩ := ih (by omega) hstop hstops
    rw [TypeDef.totalWidth, membersFilled]
    exact ⟨by omega, fun hn => ⟨heq.1 (by omega), hfilled (by omega)⟩⟩

/-- Members without empty arrays end where they are defined to. -/
theorem WidthsFrom.stops_le {offset : Nat} {ts : List TypeDef} {kinds : List (Token × FieldKind)}
    (h : WidthsFrom offset ts kinds) (hf : membersFilled ts) :
    ∀ f ∈ placeMembers offset kinds, f.stop ≤ offset + TypeDef.totalWidth ts := by
  induction h with
  | nil =>
    intro f hf
    simp [placeMembers] at hf
  | @cons offset t ts u k kinds hoffset _ heq _ ih =>
    rw [membersFilled] at hf
    rw [placeMembers, TypeDef.totalWidth, List.forall_mem_cons]
    simp only [FieldLayout.stop, FieldLayout.width, hoffset, max_self, heq.2 hf.1]
    refine ⟨by omega, fun f hmem => ?_⟩
    have := ih hf.2 f hmem
    simp only [FieldLayout.stop, FieldLayout.width] at this
    omega

theorem Primitive.size_pos (p : Primitive) : 0 < p.size := by
  cases p <;> decide

section Read

variable {order : ByteOrder} {tokens : List Token}

theorem PrimitiveDef.width_of_ofToken {d : PrimitiveDef} {t : Token} {index : Nat}
    {p : PrimitiveLayout} (hprimitive : t.encoding.primitive = some d.primitive)
    (hpresence : t.encoding.presence = d.presence) (harray : t.arrayLength = d.arrayLength)
    (h : PrimitiveLayout.ofToken t index = .ok p) :
    (TypeDef.primitive d).width ≤ p.width
      ∧ (p.width = (TypeDef.primitive d).width ↔ (TypeDef.primitive d).Filled) := by
  unfold PrimitiveLayout.ofToken at h
  rw [hprimitive] at h
  dsimp only at h
  split at h
  · cases h
  cases h
  rw [TypeDef.width, TypeDef.Filled, PrimitiveLayout.width]
  simp only [PrimitiveLayout.isConstant, hpresence, harray, beq_iff_eq]
  by_cases hconstant : d.presence = .constant
  · simp [hconstant]
  · have hpos := d.primitive.size_pos
    simp only [hconstant, if_false, ne_eq, not_false_eq_true, forall_true_left]
    refine ⟨Nat.mul_le_mul_left _ (le_max_left _ _), fun h => ?_, fun h => by rw [max_eq_left h]⟩
    have := Nat.eq_of_mul_eq_mul_left hpos h
    omega

theorem EnumLayout.encoding_of_enumAt {s : Span} {t : Token} {e : EnumLayout}
    (ht : tokenAt tokens s.start = .ok t) (h : enumAt tokens s = .ok e) :
    t.encoding.primitive = some e.encoding := by
  unfold enumAt at h
  rw [ht, ok_bind] at h
  split at h
  · exact absurd h throw_ne_ok
  · rename_i hprimitive
    obtain ⟨values, -, h⟩ := bind_eq_ok_iff.1 h
    cases h
    exact hprimitive

theorem SetLayout.encoding_of_setAt {s : Span} {t : Token} {l : SetLayout}
    (ht : tokenAt tokens s.start = .ok t) (h : setAt tokens s = .ok l) :
    t.encoding.primitive = some l.encoding := by
  unfold setAt at h
  rw [ht, ok_bind] at h
  split at h
  · exact absurd h throw_ne_ok
  · rename_i hprimitive
    obtain ⟨choices, -, h⟩ := bind_eq_ok_iff.1 h
    cases h
    exact hprimitive

mutual

/-- A type is read as wide as it is written, or wider if it has an empty array. -/
theorem TypeDef.width_of_kindAt : ∀ {t : TypeDef} {i offset : Nat} {k : FieldKind},
    HasAt tokens i (t.tokens order offset) →
    kindAt tokens ⟨i, i + (t.tokens order offset).length⟩ = .ok k →
    t.width ≤ k.width ∧ (k.width = t.width ↔ t.Filled)
  | .primitive d, i, offset, k, h, hk => by
    rw [TypeDef.tokens] at h
    rw [kindAt, h.tokenAt, ok_bind] at hk
    obtain ⟨p, hp, hk⟩ := bind_eq_ok_iff.1 hk
    cases hk
    exact PrimitiveDef.width_of_ofToken rfl rfl rfl hp
  | .composite name members, i, offset, k, h, hk => by
    have hlaid := FieldKind.laid_of_kindAt _ hk
    obtain ⟨⟨typeName, encodedLength, fields, description⟩, kinds, rfl, hmembers, hlength,
      hkinds⟩ := TypeDef.exists_of_kindAt_composite h hk
    dsimp only at hmembers hlength
    subst hmembers
    have hwidths := widthsFrom_of_kinds (hasAt_memberRuns h) hkinds
    rw [FieldKind.Laid] at hlaid
    -- The composite is read to where its last member ends, and not below what its token says.
    obtain ⟨hle, hfilled⟩ :=
      hwidths.le_of_stops le_rfl (Nat.zero_le _) (stop_le_limit hlaid)
    rw [TypeDef.width, TypeDef.Filled, FieldKind.width]
    rw [Nat.zero_add] at hle hfilled
    refine ⟨hle, hfilled, fun hf => ?_⟩
    have hstops := hwidths.stops_le hf
    rw [Nat.zero_add] at hstops
    dsimp only
    rw [hlength, max_eq_right]
    cases hlast : (placeMembers 0 kinds).getLast? with
    | none => exact Nat.zero_le _
    | some f => exact hstops f (List.mem_of_getLast? hlast)
  | .enumeration name encoding values, i, offset, k, h, hk => by
    rw [TypeDef.tokens] at h hk
    have htoken := tokenAt_of_getElem? (hasAt_wrap h).1
    rw [kindAt, htoken, ok_bind] at hk
    obtain ⟨e, he, hk⟩ := bind_eq_ok_iff.1 hk
    cases hk
    have hencoding : encoding = e.encoding :=
      Option.some.inj (EnumLayout.encoding_of_enumAt htoken he)
    simp [TypeDef.width, TypeDef.Filled, FieldKind.width, EnumLayout.width, hencoding]
  | .set name encoding choices, i, offset, k, h, hk => by
    rw [TypeDef.tokens] at h hk
    have htoken := tokenAt_of_getElem? (hasAt_wrap h).1
    rw [kindAt, htoken, ok_bind] at hk
    obtain ⟨l, hl, hk⟩ := bind_eq_ok_iff.1 hk
    cases hk
    have hencoding : encoding = l.encoding :=
      Option.some.inj (SetLayout.encoding_of_setAt htoken hl)
    simp [TypeDef.width, TypeDef.Filled, FieldKind.width, SetLayout.width, hencoding]

theorem widthsFrom_of_kinds : ∀ {ts : List TypeDef} {i offset : Nat}
    {kinds : List (Token × FieldKind)}, HasAt tokens i (memberRuns order offset ts).flatten →
    (spansFrom i (memberRuns order offset ts)).mapM
      (fun m => do return (← tokenAt tokens m.start, ← kindAt tokens m)) = .ok kinds →
    WidthsFrom offset ts kinds
  | [], i, offset, kinds, _, hk => by
    rw [memberRuns] at hk
    obtain rfl : [] = kinds := Except.ok.inj hk
    exact .nil
  | t :: ts, i, offset, kinds, h, hk => by
    obtain ⟨first, kind, rest, rfl, hfirst, hkind, hrest⟩ := exists_of_kinds_cons hk
    rw [memberRuns, List.flatten_cons] at h
    obtain ⟨hle, heq⟩ := TypeDef.width_of_kindAt h.left hkind
    obtain ⟨first', inside, hcons, -, -, -, hoffset, -⟩ := t.exists_tokens_eq order offset
    have hfirst' := h.left
    rw [hcons] at hfirst'
    rw [hfirst'.getElem?] at hfirst
    cases hfirst
    exact .cons hoffset hle heq (widthsFrom_of_kinds h.right hrest)

end

/-! ## Types -/

theorem Whole.behind_eq {ts : List Token} {i : Nat} (hw : Whole ts) (h : HasAt tokens i ts) :
    behind tokens 1 i = i + ts.length := by
  obtain ⟨t, ht, -, hspan⟩ := exists_of_spanAt (hw _ _ h)
  rw [behind_one ht]
  exact (congrArg Span.stop hspan).symm

theorem behind_of_runs : ∀ {us : List (List Token)} {i : Nat}, (∀ u ∈ us, Whole u) →
    HasAt tokens i us.flatten → behind tokens us.length i = i + us.flatten.length
  | [], i, _, _ => rfl
  | u :: us, i, hu, h => by
    obtain ⟨hwhole, hu⟩ := List.forall_mem_cons.1 hu
    rw [List.flatten_cons] at h ⊢
    have hone := hwhole.behind_eq h.left
    rw [List.length_cons, Nat.add_comm, behind_add, hone, behind_of_runs hu h.right,
      List.length_append, Nat.add_assoc]

theorem Measured.width_eq {i offset offset' width width' : Nat}
    (h : Measured tokens i offset width) (h' : Measured tokens i offset' width') :
    width = width' := by
  obtain ⟨t, ht, -, rfl⟩ := h
  obtain ⟨u, hu, -, rfl⟩ := h'
  rw [ht] at hu
  cases hu
  rfl

theorem TypeDef.measured_tokens {t : TypeDef} {i offset : Nat}
    (h : HasAt tokens i (t.tokens order offset)) : Measured tokens i offset t.width := by
  cases t <;> rw [TypeDef.tokens] at h
  · exact ⟨_, h.getElem?, rfl, rfl⟩
  · exact ⟨_, (hasAt_wrap h).1, rfl, by rw [width]⟩
  · exact ⟨_, (hasAt_wrap h).1, rfl, by rw [width]; rfl⟩
  · exact ⟨_, (hasAt_wrap h).1, rfl, by rw [width]; rfl⟩

theorem FieldKind.measured_of_measuredAt {k : FieldKind} {i offset : Nat}
    (h : k.MeasuredAt tokens i offset) : Measured tokens i offset k.width := by
  rcases k with p | ⟨typeName, encodedLength, members, description⟩ | e | s <;>
    rw [MeasuredAt] at h
  · exact h
  · exact h.1
  · exact h
  · exact h

/-- What is no composite has no other tokens to say what it measures. -/
theorem TypeDef.measuredAt_of_width {t : TypeDef} (ht : ∀ name members, t ≠ .composite name members)
    {i offset : Nat} {k : FieldKind} (h : HasAt tokens i (t.tokens order offset))
    (hk : kindAt tokens ⟨i, i + (t.tokens order offset).length⟩ = .ok k)
    (hwidth : k.width = t.width) : k.MeasuredAt tokens i offset := by
  have hmeasured := measured_tokens h
  rw [← hwidth] at hmeasured
  have halike := alike_of_kindAt h hk
  rcases k with p | ⟨typeName, encodedLength, members, description⟩ | e | l <;>
    rw [FieldKind.MeasuredAt]
  · exact hmeasured
  · cases t with
    | composite name members => exact absurd rfl (ht name members)
    | _ => exact halike.elim
  · exact hmeasured
  · exact hmeasured

mutual

/-- The tokens of a type without empty arrays say what its elements measure. -/
theorem TypeDef.measuredAt_of_filled : ∀ {t : TypeDef} {i offset : Nat} {k : FieldKind},
    HasAt tokens i (t.tokens order offset) →
    kindAt tokens ⟨i, i + (t.tokens order offset).length⟩ = .ok k → t.Filled →
    k.MeasuredAt tokens i offset
  | .composite name members, i, offset, k, h, hk, hf => by
    have hmeasured := TypeDef.measured_tokens h
    rw [← (TypeDef.width_of_kindAt h hk).2.2 hf] at hmeasured
    obtain ⟨⟨typeName, encodedLength, fields, description⟩, kinds, rfl, hmembers, -, hkinds⟩ :=
      TypeDef.exists_of_kindAt_composite h hk
    dsimp only at hmembers
    subst hmembers
    rw [TypeDef.Filled] at hf
    rw [FieldKind.MeasuredAt]
    exact ⟨hmeasured, membersMeasuredAt_of_filled (hasAt_memberRuns h) hkinds hf⟩
  | .primitive d, i, offset, k, h, hk, hf =>
    TypeDef.measuredAt_of_width (by simp) h hk ((TypeDef.width_of_kindAt h hk).2.2 hf)
  | .enumeration name encoding values, i, offset, k, h, hk, hf =>
    TypeDef.measuredAt_of_width (by simp) h hk ((TypeDef.width_of_kindAt h hk).2.2 hf)
  | .set name encoding choices, i, offset, k, h, hk, hf =>
    TypeDef.measuredAt_of_width (by simp) h hk ((TypeDef.width_of_kindAt h hk).2.2 hf)

theorem membersMeasuredAt_of_filled : ∀ {ts : List TypeDef} {i offset : Nat}
    {kinds : List (Token × FieldKind)}, HasAt tokens i (memberRuns order offset ts).flatten →
    (spansFrom i (memberRuns order offset ts)).mapM
      (fun m => do return (← tokenAt tokens m.start, ← kindAt tokens m)) = .ok kinds →
    membersFilled ts → membersMeasuredAt tokens i (placeMembers offset kinds)
  | [], i, offset, kinds, _, hk, _ => by
    rw [memberRuns] at hk
    obtain rfl : [] = kinds := Except.ok.inj hk
    rw [placeMembers, membersMeasuredAt]
    trivial
  | t :: ts, i, offset, kinds, h, hk, hf => by
    obtain ⟨first, kind, rest, rfl, hfirst, hkind, hrest⟩ := exists_of_kinds_cons hk
    rw [memberRuns, List.flatten_cons] at h
    rw [membersFilled] at hf
    have hmeasured := TypeDef.measuredAt_of_filled h.left hkind hf.1
    have hmembers := membersMeasuredAt_of_filled h.right hrest hf.2
    have hwidth := (TypeDef.width_of_kindAt h.left hkind).2.2 hf.1
    obtain ⟨u, hu, hoffset, -⟩ := TypeDef.measured_tokens h.left
    rw [hfirst] at hu
    cases hu
    rw [placeMembers, membersMeasuredAt, (t.whole_tokens order offset).behind_eq h.left]
    simp only [hoffset, max_self, FieldLayout.stop, FieldLayout.width, hwidth]
    exact ⟨hmeasured, hmembers⟩

end

/-- The tokens of a type say what its elements measure just if it has no empty array. -/
theorem TypeDef.measuredAt_iff {t : TypeDef} {i offset : Nat} {k : FieldKind}
    (h : HasAt tokens i (t.tokens order offset))
    (hk : kindAt tokens ⟨i, i + (t.tokens order offset).length⟩ = .ok k) :
    k.MeasuredAt tokens i offset ↔ t.Filled := by
  refine ⟨fun hm => ?_, measuredAt_of_filled h hk⟩
  exact (width_of_kindAt h hk).2.1
    ((FieldKind.measured_of_measuredAt hm).width_eq (measured_tokens h))


end Read

end SimpleBinary
