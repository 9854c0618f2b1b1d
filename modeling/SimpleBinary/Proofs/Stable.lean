import Mathlib
import SimpleBinary.Proofs.RoundTrip

/-!
# Writing what was read

What a reader makes of any bytes can be written again and is then read as the same
(`MessageCodec.exists_encodeBody_of_decodeBody`): an element is read as the literal that is kept for
it, a text as the bytes before the first zero, an enum under the first of the names that its literal
has, a set without the bits that have no choice.  The block of a body has to be as long as its layout
says, at the least, and so have the blocks of its groups' elements (`BodyLayout.Ample`): a field that
an older sender left out cannot be written.
-/

namespace SimpleBinary

/-! ## Primitive fields -/

namespace PrimitiveLayout

variable {p : PrimitiveLayout} {bs : Bytes} {v : Option Value}

theorem toLiteral?_literalOf (q : Primitive) (w : Nat) :
    (Value.ofLiteral (q.literalOf w)).toLiteral? = some (q.literalOf w) := by
  cases q <;> rfl

theorem keeps_of_mem_literalsIn {q : Primitive} {order : ByteOrder} : ∀ {count : Nat} {bs : Bytes},
    ∀ l ∈ literalsIn q order count bs, q.Keeps l l
  | 0, _, l, hl => absurd hl List.not_mem_nil
  | count + 1, bs, l, hl => by
    rw [literalsIn] at hl
    rcases List.mem_cons.1 hl with rfl | hl
    · exact q.keeps_literalOf_word order (by rw [List.length_take]; omega)
    · exact keeps_of_mem_literalsIn l hl

theorem length_literalsIn {q : Primitive} {order : ByteOrder} : ∀ (count : Nat) (bs : Bytes),
    (literalsIn q order count bs).length = count
  | 0, _ => rfl
  | count + 1, bs => by rw [literalsIn, List.length_cons, length_literalsIn]

theorem mapM_toLiteral?_literalsIn {q : Primitive} {order : ByteOrder} : ∀ (count : Nat)
    (bs : Bytes), ((literalsIn q order count bs).map Value.ofLiteral).mapM Value.toLiteral?
      = some (literalsIn q order count bs)
  | 0, _ => rfl
  | count + 1, bs => by
    rw [literalsIn, List.map_cons, List.mapM_cons, toLiteral?_literalOf,
      mapM_toLiteral?_literalsIn count]
    rfl

/-- A text was read from bytes that it is written as. -/
theorem text?_of_textValue? {x : Value}
    (h : textValue? (p.characterEncoding.getD "US-ASCII") bs = some x) : p.text? x = some bs := by
  have h' := h
  rw [textValue?] at h'
  split at h'
  · cases h'
    rfl
  · obtain ⟨cs, -, rfl⟩ := Option.map_eq_some_iff.1 h'
    exact textImage?_of_textValue? h

theorem image?_of_value?_text (hp : p.Laid) (hc : ¬p.isConstant) (ht : p.isText)
    (hbs : bs.length ≤ p.width) (h : p.value? bs = some v) :
    ∃ w, p.image? v = some w ∧ p.value? w = some v := by
  rw [value?_text hc ht] at h
  obtain ⟨x, hx, rfl⟩ := Option.map_eq_some_iff.1 h
  have htext := text?_of_textValue? hx
  have hlen := length_takeWhile_le bs
  rw [width, if_neg hc, size_of_isText ht, one_mul] at hbs
  obtain ⟨w, hw⟩ := exists_image?_of_text? hc ht htext (by omega)
  obtain ⟨bs', hbs', hval⟩ := value?_of_text hp hc ht hw
  rw [textBytes?, htext] at hbs'
  cases hbs'
  exact ⟨w, hw, by rw [hval, takeWhile_of_zero_notMem (zero_notMem_takeWhile bs), hx]; rfl⟩

theorem image?_of_value?_array (hp : p.Laid) (hc : ¬p.isConstant) (ht : ¬p.isText) (ha : p.isArray)
    (h : p.value? bs = some v) : ∃ w, p.image? v = some w ∧ p.value? w = some v := by
  rw [value?_array hc ht ha] at h
  cases h
  have hwritten : p.written? (some (.array
      ((literalsIn p.primitive p.byteOrder p.arrayLength bs).map .ofLiteral)))
      = some (literalsIn p.primitive p.byteOrder p.arrayLength bs) := by
    rw [written?, literals?.eq_def, if_neg ht, if_pos ha]
    dsimp only
    rw [if_pos (by rw [List.length_map, length_literalsIn]), mapM_toLiteral?_literalsIn]
  obtain ⟨w, hw⟩ := exists_image? hc hwritten fun l hl => (keeps_of_mem_literalsIn l hl).accepts
  obtain ⟨ls, ls', hls, hkeeps, hval⟩ := value?_of_array hp hc ht ha hw
  rw [hwritten] at hls
  cases hls
  exact ⟨w, hw, by rw [hval, Primitive.eq_of_forall₂_keeps hkeeps fun l hl l' hk =>
    hk.unique (keeps_of_mem_literalsIn l hl)]⟩

theorem image?_of_value?_scalar (hp : p.Laid) (hc : ¬p.isConstant) (ht : ¬p.isText)
    (ha : ¬p.isArray) (hn : p.isOptional → p.primitive.Accepts p.nullValue)
    (h : p.value? bs = some v) : ∃ w, p.image? v = some w ∧ p.value? w = some v := by
  rw [value?_scalar hc ht ha] at h
  have hlen : (bs.take p.primitive.size).length ≤ p.primitive.size := List.length_take_le _ _
  generalize bs.take p.primitive.size = element at h hlen
  have hkept := p.primitive.keeps_literalOf_word p.byteOrder hlen
  split at h
  · rename_i hnull
    cases h
    obtain ⟨ho, hnull⟩ := Bool.and_eq_true_iff.1 hnull
    have hrep : p.primitive.Represents p.nullValue := ⟨_, p.byteOrder.word_lt_of_length hlen, hnull⟩
    have hwritten : p.written? none = some [p.nullValue] := by
      rw [written?, if_pos ho, arrayLength_eq_one hp ha]
      rfl
    obtain ⟨w, hw⟩ := exists_image? hc hwritten fun l hl => List.mem_singleton.1 hl ▸ hn ho
    obtain ⟨l, l', hl, hkeeps, hval⟩ := value?_of_scalar hp hc ht ha hw
    rw [hwritten] at hl
    cases hl
    exact ⟨w, hw, hval.trans (congrArg some (if_pos (Bool.and_eq_true_iff.2
      ⟨ho, hrep.agrees_of_keeps hkeeps⟩)))⟩
  · rename_i hnull
    cases h
    have hwritten : p.written? (some (.ofLiteral (p.primitive.literalOf
        (p.byteOrder.word element)))) = some [p.primitive.literalOf (p.byteOrder.word element)] := by
      rw [written?, literals?.eq_def, if_neg ht, if_neg ha, toLiteral?_literalOf]
      rfl
    obtain ⟨w, hw⟩ := exists_image? hc hwritten fun l hl =>
      List.mem_singleton.1 hl ▸ hkept.accepts
    obtain ⟨l, l', hl, hkeeps, hval⟩ := value?_of_scalar hp hc ht ha hw
    rw [hwritten] at hl
    cases hl
    exact ⟨w, hw, by rw [hval, hkeeps.unique hkept, if_neg hnull]⟩

/-- What was read of a field is written, and read as the same. -/
theorem image?_of_value? (hp : p.Laid) (hn : p.isOptional → p.primitive.Accepts p.nullValue)
    (hbs : bs.length ≤ p.width) (h : p.value? bs = some v) :
    ∃ w, p.image? v = some w ∧ p.value? w = some v := by
  by_cases hc : p.isConstant
  · obtain ⟨l, hl⟩ := Option.isSome_iff_exists.1 (hp.2 hc)
    have hconst : p.constant? = some l := by rw [constant?, if_pos hc, hl]
    rw [value?, hconst] at h
    exact ⟨[], by rw [image?, if_pos hc], by rw [value?, hconst, h]⟩
  · by_cases ht : p.isText
    · exact image?_of_value?_text hp hc ht hbs h
    · by_cases ha : p.isArray
      · exact image?_of_value?_array hp hc ht ha h
      · exact image?_of_value?_scalar hp hc ht ha hn h

end PrimitiveLayout

/-! ## Enums and sets -/

/-- An enum whose values have names of their own, other than that of the null value, and literals in
the range of the encoding. -/
structure EnumLayout.Stable (e : EnumLayout) : Prop where
  names : (e.values.map (·.name)).Nodup
  unreserved : nullName ∉ e.values.map (·.name)
  accepted : ∀ v ∈ e.values, e.encoding.Accepts v.value
  null : e.encoding.Accepts e.nullValue

/-- What agrees with the element that an enum was read from is read as the same value. -/
theorem EnumLayout.value?_of_agrees {e : EnumLayout} {bs w : Bytes} {l : Literal}
    (hbs : bs.length ≤ e.encoding.size)
    (ha : (e.encoding.literalOf (e.byteOrder.word bs)).agrees l)
    (h : e.encoding.encode? e.byteOrder l = some w) : e.value? w = e.value? bs := by
  obtain ⟨x, hx, hword⟩ := literalOf_word_of_encode? h
  have hsame := Primitive.agrees_literalOf (e.byteOrder.word_lt_of_length hbs) ha hx
  simp only [value?, byValue?, hword, hsame]
  rw [Literal.agrees_comm, hsame, Literal.agrees_comm]

theorem EnumLayout.image?_of_value? {e : EnumLayout} (hs : e.Stable) {bs : Bytes} {x : Value}
    (hbs : bs.length ≤ e.encoding.size) (h : e.value? bs = some x) :
    ∃ w, e.image? x = some w ∧ e.value? w = some x := by
  have h' := h
  rw [value?] at h'
  split at h'
  · rename_i v hv
    cases h'
    have hmem := List.mem_of_find?_eq_some hv
    have hne : v.name ≠ nullName := fun h => hs.unreserved (h ▸ List.mem_map_of_mem hmem)
    have hby : e.byName? v.name = some v := find?_eq_some_of_nodup hs.names hmem
    obtain ⟨w, hw⟩ := exists_encode? e.byteOrder (hs.accepted v hmem)
    have ha := List.find?_some hv
    rw [Literal.agrees_comm] at ha
    refine ⟨w, ?_, (value?_of_agrees hbs ha hw).trans h⟩
    rw [image?, Value.enumName?, Option.bind_some, literalNamed?, if_neg hne, hby]
    exact hw
  · split at h'
    · rename_i ha
      cases h'
      obtain ⟨w, hw⟩ := exists_encode? e.byteOrder hs.null
      refine ⟨w, ?_, (value?_of_agrees hbs ha hw).trans h⟩
      rw [image?, Value.enumName?, Option.bind_some, literalNamed?, if_pos rfl]
      exact hw
    · simp at h'

/-- Bits among those of a natural that was read are written, and read as the same bits. -/
theorem Primitive.exists_keeps_of_le {p : Primitive} {w : Nat} (hw : w < 256 ^ p.size)
    (bits : UInt64) (h : bits.toNat ≤ (p.literalOf w).toNat?.getD 0) :
    ∃ l, p.Keeps (.uint bits) l ∧ l.toNat?.getD 0 = bits.toNat := by
  have hint : ∀ hp : p.IsInteger, ∀ {w'}, p.word? (.uint bits) = some w' →
      ∃ l, p.Keeps (.uint bits) l ∧ l.toNat?.getD 0 = bits.toNat := fun hp w' hw' =>
    ⟨_, ⟨w', hw', rfl⟩, by rw [toNat?_literalOf hp hw', Option.getD_some]⟩
  have h64 : w < 2 ^ 64 := lt_of_lt_of_le hw p.pow_size_le
  rcases p.kind_cases with hk | hk | hp
  · refine hint (by rcases hk with hk | hk <;> simp [IsInteger, hk]) ((word?_natural hk).2 ⟨rfl, ?_⟩)
    rw [literalOf_natural hk hw, Literal.toNat?, Option.getD_some,
      UInt64.toNat_ofNat_of_lt' h64] at h
    omega
  · have hb := signedWord_bounds p.size w
    have hsize := p.pow_size_le
    rw [literalOf_signed hk, Literal.toNat?, Int64.toInt_ofInt_of_le (by omega) (by omega)] at h
    have hle : 2 * (bits.toNat : Int) < (256 ^ p.size : Nat) := by
      split at h
      · rw [Option.getD_some] at h
        omega
      · rw [Option.getD_none] at h
        have : 0 < 256 ^ p.size := by positivity
        omega
    refine hint (by simp [IsInteger, hk]) ((word?_signed hk).2 ⟨bits.toNat, ?_, by omega, hle, rfl⟩)
    rw [Literal.toInt?, if_pos (by
      have : (256 ^ p.size : Nat) ≤ 2 ^ 64 := hsize
      have hmax : Int64.maxValue.toInt = 2 ^ 63 - 1 := rfl
      omega)]
  · have hfloat : ∀ {w}, (p.literalOf w).toNat?.getD 0 = 0 := by
      rcases hp with rfl | rfl <;> exact fun {w} => rfl
    rw [hfloat] at h
    obtain ⟨w', hw'⟩ : ∃ w', p.word? (.uint bits) = some w' := by
      rcases hp with rfl | rfl
      · exact ⟨_, word?_float.2 ⟨_, rfl, rfl⟩⟩
      · exact ⟨_, word?_double.2 ⟨_, rfl, rfl⟩⟩
    exact ⟨_, ⟨w', hw', rfl⟩, by rw [hfloat]; omega⟩

/-- The bits of the choices that are set are among the bits. -/
theorem SetLayout.testBit_bits?_choicesOf {s : SetLayout} (hl : s.Laid)
    (hs : (s.choices.map (·.name)).Nodup) {bits : Nat} {bits' : UInt64}
    (h : s.bits? (s.choicesOf bits) = some bits') (i : Nat) :
    bits'.toNat.testBit i ↔ ∃ c ∈ s.choices, c.bit = i ∧ bits.testBit i := by
  rw [testBit_bits? hl h]
  constructor
  · rintro ⟨name, hname, d, hd, rfl⟩
    obtain ⟨c, hc, rfl⟩ := List.mem_map.1 hname
    obtain ⟨hc, hbit⟩ := List.mem_filter.1 hc
    have hdn := List.find?_some hd
    have hdc := eq_of_map_eq hs (List.mem_of_find?_eq_some hd) hc (by simpa using hdn)
    exact ⟨d, List.mem_of_find?_eq_some hd, rfl, hdc ▸ hbit⟩
  · rintro ⟨c, hc, rfl, hbit⟩
    exact ⟨c.name, List.mem_map_of_mem (List.mem_filter.2 ⟨hc, hbit⟩), c,
      find?_eq_some_of_nodup hs hc, rfl⟩

theorem SetLayout.image?_value {s : SetLayout} (hl : s.Laid)
    (hs : (s.choices.map (·.name)).Nodup) {bs : Bytes} (hbs : bs.length ≤ s.encoding.size) :
    ∃ w, s.image? (s.value bs) = some w ∧ s.value w = s.value bs := by
  have hlt := s.byteOrder.word_lt_of_length hbs
  rw [value]
  generalize hraw : (s.encoding.literalOf (s.byteOrder.word bs)).toNat?.getD 0 = bits
  have hsub : (s.choicesOf bits).Sublist (s.choices.map (·.name)) := List.filter_sublist.map _
  obtain ⟨bits', hbits'⟩ := exists_bits? hsub.subset
  have htest := testBit_bits?_choicesOf hl hs hbits'
  have hle : bits'.toNat ≤ bits := by
    refine Nat.le_of_testBit fun i hi => ?_
    obtain ⟨-, -, -, hbit⟩ := (htest i).1 hi
    exact hbit
  obtain ⟨l, ⟨w', hw', rfl⟩, hnat⟩ := Primitive.exists_keeps_of_le hlt bits' (hraw.symm ▸ hle)
  obtain ⟨w, hw⟩ := exists_encode? s.byteOrder ⟨w', hw'⟩
  refine ⟨w, by rw [image?, hbits', Option.bind_some]; exact hw, ?_⟩
  obtain ⟨x, hx, hword⟩ := literalOf_word_of_encode? hw
  rw [hw'] at hx
  cases hx
  rw [value, hword, hnat, choicesOf, choicesOf]
  refine congrArg (Value.set s.typeName) (congrArg _ (List.filter_congr fun c hc => ?_))
  rw [Bool.eq_iff_iff, htest]
  constructor
  · rintro ⟨-, -, -, hbit⟩
    exact hbit
  · intro hbit
    exact ⟨c, hc, rfl, hbit⟩

/-! ## Fields -/

/-- The names and literals in a kind are such that what is read of it can be written. -/
def FieldKind.Stable : FieldKind → Prop
  | .primitive p => p.isOptional → p.primitive.Accepts p.nullValue
  | .composite ⟨_, _, members, _⟩ => (members.map (·.name)).Nodup
  | .enumeration e => e.Stable
  | .set s => (s.choices.map (·.name)).Nodup

/-- Nothing is put under a name that no field has. -/
theorem lookup_fieldsValue? {limit : Option Nat} {block : Bytes} {n : String} :
    ∀ {fields : List FieldLayout} {acc acc' : Fields}, fieldsValue? limit block acc fields = some acc' →
    n ∉ fields.map (·.name) → acc'.lookup n = acc.lookup n
  | [], _, _, h, _ => by
    rw [fieldsValue?] at h
    cases h
    rfl
  | ⟨name, _, _, offset, _, kind⟩ :: fields, acc, acc', h, hn => by
    rw [List.map_cons, List.mem_cons, not_or] at hn
    rw [fieldsValue?] at h
    split at h
    · obtain ⟨x, -, h⟩ := Option.bind_eq_some_iff.1 h
      rw [lookup_fieldsValue? h hn.2, lookup_addField_of_ne hn.1]
    · exact lookup_fieldsValue? h hn.2

mutual

theorem FieldKind.seen?_of_value? {bs : Bytes} {x : Option Value} : ∀ {k : FieldKind}, k.Laid →
    (∀ k' ∈ k.parts, k'.Stable) → bs.length ≤ k.width → k.value? bs = some x →
    (∃ w, k.image? x = some w) ∧ k.seen? x = some x
  | .primitive p, hk, hs, hbs, h => by
    rw [FieldKind.Laid] at hk
    rw [FieldKind.parts, List.forall_mem_singleton, FieldKind.Stable] at hs
    rw [FieldKind.value?] at h
    rw [FieldKind.image?, FieldKind.seen?]
    obtain ⟨w, hw, hval⟩ := p.image?_of_value? hk hs hbs h
    exact ⟨⟨w, hw⟩, by rw [hw, Option.bind_some, hval]⟩
  | .composite ⟨typeName, encodedLength, members, _⟩, hk, hs, hbs, h => by
    rw [FieldKind.Laid] at hk
    rw [FieldKind.parts, List.forall_mem_cons, FieldKind.Stable] at hs
    rw [FieldKind.value?] at h
    obtain ⟨fs, hfs, rfl⟩ := Option.map_eq_some_iff.1 h
    obtain ⟨⟨w, hw⟩, hseen⟩ := fieldsSeen?_of_value? (v := .object typeName fs) hk
      hs.2 hs.1 (fun _ _ => rfl) (by simp) hfs fun _ _ => rfl
    rw [FieldKind.image?, FieldKind.seen?, Option.bind_some, Option.bind_some, hseen,
      if_pos (by rfl), hw]
    exact ⟨⟨_, rfl⟩, rfl⟩
  | .enumeration e, _, hs, hbs, h => by
    rw [FieldKind.parts, List.forall_mem_singleton, FieldKind.Stable] at hs
    rw [FieldKind.value?] at h
    obtain ⟨y, hy, rfl⟩ := Option.map_eq_some_iff.1 h
    rw [FieldKind.image?, FieldKind.seen?, Option.bind_some]
    obtain ⟨w, hw, hval⟩ := e.image?_of_value? hs hbs hy
    exact ⟨⟨w, hw⟩, by rw [hw, Option.bind_some, hval, Option.map_some]⟩
  | .set s, hk, hs, hbs, h => by
    rw [FieldKind.Laid] at hk
    rw [FieldKind.parts, List.forall_mem_singleton, FieldKind.Stable] at hs
    rw [FieldKind.value?] at h
    cases h
    rw [FieldKind.image?, FieldKind.seen?, Option.bind_some]
    obtain ⟨w, hw, hval⟩ := s.image?_value hk hs hbs
    exact ⟨⟨w, hw⟩, by rw [hw, Option.map_some, hval]⟩

/-- The fields that were read, all of a block, are read again from where they are written. -/
theorem fieldsSeen?_of_value? {v : Value} {limit : Option Nat} {length : Nat} {block : Bytes} :
    ∀ {fields : List FieldLayout} {cursor : Nat} {acc acc' : Fields},
    fieldsLaid cursor length fields → (∀ k' ∈ fieldsParts fields, k'.Stable) →
    (fields.map (·.name)).Nodup → (∀ f ∈ fields, acc.lookup f.name = none) →
    (∀ n ∈ limit, length ≤ n) → fieldsValue? limit block acc fields = some acc' →
    (∀ f ∈ fields, v.field? f.name = acc'.lookup f.name) →
    (∃ w, fieldsImage? cursor v fields = some w) ∧ fieldsSeen? v acc fields = some acc'
  | [], _, _, _, _, _, _, _, _, h, _ => by
    rw [fieldsValue?] at h
    rw [fieldsImage?, fieldsSeen?]
    exact ⟨⟨[], rfl⟩, h⟩
  | ⟨name, _, _, offset, _, kind⟩ :: fields, cursor, acc, acc', hl, hs, hn, hacc, hlimit, h, hv => by
    rw [fieldsLaid] at hl
    rw [fieldsParts, List.forall_mem_append] at hs
    rw [List.map_cons, List.nodup_cons] at hn
    obtain ⟨hfirst, hacc⟩ := List.forall_mem_cons.1 hacc
    obtain ⟨hname, hv⟩ := List.forall_mem_cons.1 hv
    have hstop := fieldsLaid_le hl.2.2
    rw [fieldsValue?, if_pos (isWithin_iff.2 (.inr fun n hn => le_trans hstop (hlimit n hn)))] at h
    obtain ⟨x, hx, h⟩ := Option.bind_eq_some_iff.1 h
    have hown : v.field? name = x := by
      rw [hname, lookup_fieldsValue? h hn.1, lookup_addField_self hfirst]
    have hfree : ∀ f ∈ fields, (addField name x acc).lookup f.name = none := fun f hf => by
      rw [lookup_addField_of_ne fun hfn => hn.1 (List.mem_map.2 ⟨f, hf, hfn⟩), hacc f hf]
    obtain ⟨⟨bs, hbs⟩, hseen⟩ := FieldKind.seen?_of_value? hl.2.1 hs.1 (List.length_take_le _ _) hx
    obtain ⟨⟨rest, hrest⟩, hseen'⟩ := fieldsSeen?_of_value? hl.2.2 hs.2 hn.2 hfree hlimit h hv
    rw [← hown] at hbs hseen
    refine ⟨⟨_, fieldsImage?_cons_eq_some_iff.2 ⟨bs, rest, hbs, hrest, rfl⟩⟩, ?_⟩
    rw [fieldsSeen?, hseen, hown, Option.bind_eq_bind, Option.bind_some, hseen']

end

/-! ## Headers and var-data -/

theorem Literal.toNat?_lt {l : Literal} {n : Nat} (h : l.toNat? = some n) : n < UInt64.size := by
  cases l with
  | uint v =>
    cases h
    exact v.toNat_lt
  | int v =>
    rw [toNat?, Option.ite_none_right_eq_some] at h
    obtain ⟨hv, h⟩ := h
    cases h
    have := v.toInt_lt
    have hsize : UInt64.size = 2 ^ 64 := rfl
    omega
  | _ => simp [toNat?] at h

/-- A slot can hold what was read from it, and less. -/
theorem HeaderSlot.accepts_of_value? {s : HeaderSlot} {header : Bytes} {n n' : Nat}
    (h : s.value? header = some n) (hle : n' ≤ n) : s.Accepts n' := by
  have hn := Literal.toNat?_lt h
  have hlt : s.byteOrder.word ((header.drop s.offset).take s.width) < 256 ^ s.primitive.size :=
    s.byteOrder.word_lt_of_length (List.length_take_le _ _)
  have hbits : (UInt64.ofNat n').toNat = n' := UInt64.toNat_ofNat_of_lt' (by omega)
  rw [value?] at h
  obtain ⟨l, hl, -⟩ := Primitive.exists_keeps_of_le hlt (UInt64.ofNat n') (by
    rw [h, hbits]
    exact hle)
  exact ⟨by omega, hl.accepts⟩

theorem DimensionLayout.value?_of_parse? {d : DimensionLayout} {trailerLength : Nat}
    {bs rest : Bytes} {header : GroupHeader} (h : d.parse? trailerLength bs = some (header, rest)) :
    d.blockLength.value? bs = some header.blockLength
      ∧ d.numInGroup.value? bs = some header.count ∧ rest = bs.drop d.encodedLength := by
  obtain ⟨-, hl, hc, -, hr⟩ := parse?_eq_some_iff.1 h
  exact ⟨hl, hc, hr.symm⟩

theorem VarDataLayout.payload?_of_value? {d : VarDataLayout} {payload : Bytes} {x : Value}
    (h : d.value? payload = some x) : d.payload? (some x) = some payload := by
  rw [value?] at h
  split at h
  · cases h
    rfl
  · rename_i encoding he
    have h' := h
    rw [textValue?] at h'
    split at h'
    · cases h'
      rfl
    · obtain ⟨cs, -, rfl⟩ := Option.map_eq_some_iff.1 h'
      rw [payload?, he]
      exact @textImage?_of_textValue? (some encoding) _ _ h

theorem VarDataLayout.seen?_of_parse? {d : VarDataLayout} {bs rest : Bytes} {x : Value}
    (h : d.parse? bs = some (x, rest)) :
    (∃ w, d.image? (some x) = some w) ∧ d.seen? (some x) = some x := by
  obtain ⟨-, length, hl, hle, hy, -⟩ := parse?_eq_some_iff.1 h
  have hp := payload?_of_value? hy
  have hlen : ((bs.drop d.headerLength).take length).length = length := by
    rw [List.length_take]
    omega
  refine ⟨exists_image? hp (HeaderSlot.accepts_of_value? hl hlen.le), ?_⟩
  rw [seen?, hp, Option.bind_some, hy]

/-! ## Bodies -/

theorem lookup_parseVarData? {n : String} : ∀ {ds : List VarDataLayout} {acc acc' : Fields}
    {bs rest : Bytes}, parseVarData? ds acc bs = some (acc', rest) → n ∉ ds.map (·.name) →
    acc'.lookup n = acc.lookup n
  | [], _, _, _, _, h, _ => by
    cases h
    rfl
  | d :: ds, acc, acc', bs, rest, h, hn => by
    rw [List.map_cons, List.mem_cons, not_or] at hn
    rw [parseVarData?] at h
    obtain ⟨⟨x, rest'⟩, -, h⟩ := Option.bind_eq_some_iff.1 h
    rw [lookup_parseVarData? h hn.2, lookup_insertField_of_ne hn.1]

theorem lookup_parseGroups? {n : String} : ∀ {groups : List GroupLayout} {acc acc' : Fields}
    {bs rest : Bytes}, parseGroups? groups acc bs = some (acc', rest) → n ∉ groups.map (·.name) →
    acc'.lookup n = acc.lookup n
  | [], _, _, _, _, h, _ => by
    rw [parseGroups?] at h
    cases h
    rfl
  | ⟨name, _, _, dimension, body, _⟩ :: groups, acc, acc', bs, rest, h, hn => by
    rw [List.map_cons, List.mem_cons, not_or] at hn
    obtain ⟨header, rest₁, elements, rest₂, -, -, h⟩ := parseGroups?_cons_eq_some_iff.1 h
    rw [lookup_parseGroups? h hn.2, lookup_insertField_of_ne hn.1]

theorem varDataSeen?_of_parse? {v : Value} : ∀ {ds : List VarDataLayout} {acc acc' : Fields}
    {bs rest : Bytes}, (ds.map (·.name)).Nodup → parseVarData? ds acc bs = some (acc', rest) →
    (∀ d ∈ ds, v.field? d.name = acc'.lookup d.name) →
    (∃ w, varDataImage? v ds = some w) ∧ varDataSeen? v acc ds = some acc'
  | [], _, _, _, _, _, h, _ => by
    cases h
    exact ⟨⟨[], rfl⟩, rfl⟩
  | d :: ds, acc, acc', bs, rest, hn, h, hv => by
    rw [List.map_cons, List.nodup_cons] at hn
    obtain ⟨hname, hv⟩ := List.forall_mem_cons.1 hv
    rw [parseVarData?] at h
    obtain ⟨⟨x, rest'⟩, hx, h⟩ := Option.bind_eq_some_iff.1 h
    rw [lookup_parseVarData? h hn.1, lookup_insertField_self] at hname
    obtain ⟨⟨w, hw⟩, hseen⟩ := VarDataLayout.seen?_of_parse? hx
    obtain ⟨⟨ws, hws⟩, hseen'⟩ := varDataSeen?_of_parse? hn.2 h hv
    rw [← hname] at hw
    refine ⟨⟨w ++ ws, concat?_cons_eq_some_iff.2 ⟨w, ws, hw, hws, rfl⟩⟩, ?_⟩
    rw [varDataSeen?, hname, hseen, Option.bind_eq_bind, Option.bind_some, hseen']

/-- A test that the bytes of each of several items pass, where they start. -/
def itemsPass (pass : Bytes → Prop) (parse : Bytes → Option (Value × Bytes)) :
    (count : Nat) → Bytes → Prop
  | 0, _ => True
  | count + 1, bs =>
    pass bs ∧ ∀ v rest, parse bs = some (v, rest) → itemsPass pass parse count rest

mutual

/-- In the bytes of a body whose block takes `blockLength` of them, the length that the header of a
group gives to the blocks of its elements passes a test, at any depth. -/
def BodyLayout.Meets (P : BodyLayout → Nat → Prop) : BodyLayout → (blockLength : Nat) → Bytes → Prop
  | ⟨_, _, groups, _⟩, blockLength, bs => groupsMeet P groups (bs.drop blockLength)

def groupsMeet (P : BodyLayout → Nat → Prop) : List GroupLayout → Bytes → Prop
  | [], _ => True
  | ⟨name, _, _, dimension, body, _⟩ :: groups, bs =>
    ∀ header rest, dimension.parse? body.trailerLength bs = some (header, rest) →
      P body header.blockLength
      ∧ itemsPass (fun bs => body.Meets P header.blockLength bs)
        (fun bs => body.parse? header.blockLength name bs) header.count rest
      ∧ ∀ elements rest', parseItems? (fun bs => body.parse? header.blockLength name bs)
        header.count rest = some (elements, rest') → groupsMeet P groups rest'

end

/-- No header of a group gives its elements a shorter block than the layout does. -/
def BodyLayout.Ample (b : BodyLayout) (blockLength : Nat) (bs : Bytes) : Prop :=
  b.Meets (fun b length => b.blockLength ≤ length) blockLength bs

theorem forall_of_parseItems? {pass : Bytes → Prop} {parse : Bytes → Option (Value × Bytes)}
    {Q : Value → Prop} (h : ∀ bs v rest, pass bs → parse bs = some (v, rest) → Q v) :
    ∀ {count : Nat} {bs rest : Bytes} {vs : List Value}, itemsPass pass parse count bs →
    parseItems? parse count bs = some (vs, rest) → vs.length = count ∧ ∀ v ∈ vs, Q v
  | 0, _, _, _, _, hp => by
    cases hp
    exact ⟨rfl, fun _ hv => absurd hv List.not_mem_nil⟩
  | count + 1, bs, rest, vs, ha, hp => by
    rw [parseItems?] at hp
    obtain ⟨⟨v, rest'⟩, hv, hp⟩ := Option.bind_eq_some_iff.1 hp
    obtain ⟨⟨vs', rest''⟩, hvs, hp⟩ := Option.bind_eq_some_iff.1 hp
    cases hp
    obtain ⟨hlen, hall⟩ := forall_of_parseItems? h (ha.2 v rest' hv) hvs
    exact ⟨by rw [List.length_cons, hlen], List.forall_mem_cons.2 ⟨h bs v rest' ha.1 hv, hall⟩⟩

/-- The elements of a body have names of their own. -/
def BodyLayout.Distinct (b : BodyLayout) : Prop := (b.elements.map (·.name)).Nodup

mutual

theorem BodyLayout.seen?_of_parse? : ∀ {b : BodyLayout}, b.Laid →
    (∀ b' ∈ b.bodies, b'.Distinct ∧ ∀ k ∈ b'.kinds, k.Stable) → ∀ {name : String}
    {blockLength : Nat} {bs rest : Bytes} {v : Value}, b.blockLength ≤ blockLength →
    b.Ample blockLength bs → b.parse? blockLength name bs = some (v, rest) →
    (∃ w, b.image? v = some w) ∧ b.seen? name v = some v
  | ⟨own, fields, groups, varData⟩, hb, hs, name, blockLength, bs, rest, v, hle, ha, h => by
    obtain ⟨hn, hstable⟩ := hs _ (BodyLayout.self_mem_bodies _)
    have hin : ∀ g ∈ groups, ∀ b' ∈ g.body.bodies, b'.Distinct ∧ ∀ k ∈ b'.kinds, k.Stable :=
      fun g hg b' hb' => hs b' (mem_bodies_of_mem_groups hg hb')
    rw [BodyLayout.Laid] at hb
    rw [BodyLayout.Ample, BodyLayout.Meets] at ha
    rw [BodyLayout.Distinct, BodyLayout.names_elements, List.nodup_append, List.nodup_append] at hn
    obtain ⟨hnf, ⟨hng, hnd, hgd⟩, hf⟩ := hn
    obtain ⟨-, acc₁, acc₂, acc₃, rest₂, h₁, h₂, h₃, rfl⟩ := BodyLayout.parse?_eq_some_iff.1 h
    have hlast : ∀ n ∉ varData.map (·.name), acc₃.lookup n = acc₂.lookup n :=
      fun n hn => lookup_parseVarData? h₃ hn
    have hmiddle : ∀ n ∉ groups.map (·.name), acc₂.lookup n = acc₁.lookup n :=
      fun n hn => lookup_parseGroups? h₂ hn
    obtain ⟨⟨block, hblock⟩, hseen₁⟩ := fieldsSeen?_of_value? (v := .object name acc₃) hb.1 hstable hnf
      (fun _ _ => rfl) (fun n hn => Option.some.inj hn ▸ hle) h₁ fun f hf' => by
        have hmem := List.mem_map_of_mem (f := FieldLayout.name) hf'
        exact (hlast f.name fun h => hf _ hmem _ (List.mem_append_right _ h) rfl).trans
          (hmiddle f.name fun h => hf _ hmem _ (List.mem_append_left _ h) rfl)
    obtain ⟨⟨elements, helements⟩, hseen₂⟩ := groupsSeen?_of_parse? (v := .object name acc₃) hb.2 hin
      hng ha h₂ fun g hg => hlast g.name fun h => hgd _ (List.mem_map_of_mem hg) _ h rfl
    obtain ⟨⟨data, hdata⟩, hseen₃⟩ := varDataSeen?_of_parse? (v := .object name acc₃) hnd h₃
      fun _ _ => rfl
    rw [BodyLayout.image?, BodyLayout.seen?, if_pos (by rfl), hblock, helements, hdata, hseen₁]
    simp only [Option.bind_eq_bind, Option.bind_some, hseen₂, hseen₃]
    exact ⟨⟨_, rfl⟩, rfl⟩

theorem groupsSeen?_of_parse? {v : Value} : ∀ {groups : List GroupLayout}, groupsLaid groups →
    (∀ g ∈ groups, ∀ b' ∈ g.body.bodies, b'.Distinct ∧ ∀ k ∈ b'.kinds, k.Stable) →
    (groups.map (·.name)).Nodup → ∀ {acc acc' : Fields} {bs rest : Bytes},
    groupsMeet (fun b length => b.blockLength ≤ length) groups bs →
    parseGroups? groups acc bs = some (acc', rest) →
    (∀ g ∈ groups, v.field? g.name = acc'.lookup g.name) →
    (∃ w, groupsImage? groups v = some w) ∧ groupsSeen? groups v acc = some acc'
  | [], _, _, _, _, _, _, _, _, h, _ => by
    rw [parseGroups?] at h
    cases h
    rw [groupsImage?, groupsSeen?]
    exact ⟨⟨[], rfl⟩, rfl⟩
  | ⟨name, _, _, dimension, body, _⟩ :: groups, hg, hs, hn, acc, acc', bs, rest, ha, h, hv => by
    rw [groupsLaid] at hg
    obtain ⟨hbody, hs⟩ := List.forall_mem_cons.1 hs
    rw [List.map_cons, List.nodup_cons] at hn
    obtain ⟨hname, hv⟩ := List.forall_mem_cons.1 hv
    rw [groupsMeet] at ha
    obtain ⟨header, rest₁, elements, rest₂, hh, hi, h⟩ := parseGroups?_cons_eq_some_iff.1 h
    obtain ⟨hle, hitems, hgroups⟩ := ha header rest₁ hh
    obtain ⟨hlength, hcount, -⟩ := DimensionLayout.value?_of_parse? hh
    obtain ⟨hlen, hall⟩ := forall_of_parseItems? (fun bs x rest ha hx =>
      BodyLayout.seen?_of_parse? hg.2.1 hbody hle ha hx) hitems hi
    have hfield : v.field? name = some (.array elements) := by
      rw [hname, lookup_parseGroups? h hn.1, lookup_insertField_self]
    obtain ⟨header', hheader⟩ := DimensionLayout.exists_image?
      (HeaderSlot.accepts_of_value? hlength hle)
      (HeaderSlot.accepts_of_value? hcount hlen.le)
    obtain ⟨items, hitems⟩ := exists_concat? (f := fun x => body.image? x) fun x hx => (hall x hx).1
    have hseen : elements.mapM (fun x => body.seen? name x) = some elements := by
      have h := mapM_eq_some_map (g := id) fun x hx => (hall x hx).2
      rwa [List.map_id] at h
    obtain ⟨⟨ws, hws⟩, hseen'⟩ := groupsSeen?_of_parse? hg.2.2 hs hn.2
      (hgroups elements rest₂ hi) h hv
    rw [groupsImage?, groupsSeen?, hfield]
    dsimp only
    rw [hheader, hitems, hws, hseen]
    exact ⟨⟨_, rfl⟩, hseen'⟩

end

/-! ## Messages -/

/-- What was decoded from any bytes is encoded, and decoded again as the same. -/
theorem MessageCodec.exists_encodeBody_of_decodeBody {m : MessageCodec} {tokens : List Token}
    (ht : MessageLayout.ofTokens tokens = .ok m.message)
    (hl : ∀ b ∈ m.message.body.bodies, b.Framed ∧ b.Distinct ∧ ∀ k ∈ b.kinds, k.Stable)
    {bs : Bytes} {blockLength : Nat} {v : Value} (hv : m.decodeBody bs blockLength = .ok v)
    (hle : m.message.body.blockLength ≤ blockLength) (ha : m.message.body.Ample blockLength bs) :
    ∃ bs', m.encodeBody v = .ok bs' ∧ m.decodeBody bs' m.message.body.blockLength = .ok v := by
  have hlaid := MessageLayout.laid_of_ofTokens ht
  rw [← toOption_eq_some_iff, toOption_decodeBody hlaid] at hv
  obtain ⟨⟨x, rest⟩, hx, rfl⟩ := Option.map_eq_some_iff.1 hv
  obtain ⟨⟨w, hw⟩, hseen⟩ := BodyLayout.seen?_of_parse? hlaid (fun b hb => (hl b hb).2) hle ha hx
  have hbs := (encodeBody_eq_ok_iff hlaid).2 hw
  refine ⟨w, hbs, ?_⟩
  rw [← toOption_eq_some_iff,
    toOption_decodeBody_of_encodeBody hlaid (fun b hb => (hl b hb).1) hbs, hseen]

namespace Orders

theorem message_stable :
    ∀ b ∈ message.body.bodies, b.Framed ∧ b.Distinct ∧ ∀ k ∈ b.kinds, k.Stable := by
  have hbodies : message.body.bodies = [message.body, fills.body] := rfl
  have hkinds : message.body.kinds = [.primitive symbol, .enumeration side, .primitive lot] := rfl
  have hfills : fills.body.kinds = [.primitive quantity] := rfl
  have hside : side.Stable := ⟨by decide, by decide, by decide, by decide⟩
  have hquantity : quantity.isOptional → quantity.primitive.Accepts quantity.nullValue :=
    fun _ => by decide
  intro b hb
  refine ⟨(message_sound b hb).1, ?_⟩
  rw [hbodies] at hb
  rcases List.mem_cons.1 hb with rfl | hb
  · rw [hkinds]
    refine ⟨by unfold BodyLayout.Distinct; decide, ?_⟩
    simp [FieldKind.Stable, hside, symbol, lot, PrimitiveLayout.isOptional]
  · rw [List.mem_singleton.1 hb, hfills]
    exact ⟨by unfold BodyLayout.Distinct; decide, by simpa [FieldKind.Stable] using hquantity⟩

/-- An order of a longer block, with something behind the symbol's end, and of a fill of a longer
block. -/
def foreign : Bytes := [65, 0, 200, 7, 1, 99, 2, 1, 128, 9, 1, 120]

/-- An order from elsewhere is written without what was not understood. -/
theorem exists_encodeBody_foreign : ∃ v bs, codec.decodeBody foreign 6 = .ok v
    ∧ codec.encodeBody v = .ok bs ∧ codec.decodeBody bs 5 = .ok v := by
  obtain ⟨v, hv⟩ : ∃ v, codec.decodeBody foreign 6 = .ok v := by
    simp only [← toOption_eq_some_iff, ← Option.isSome_iff_exists]
    decide +kernel
  have ha : message.body.Ample 6 foreign := by
    intro header rest h
    cases h
    exact ⟨by decide, ⟨trivial, fun _ _ _ => trivial⟩, fun _ _ _ => trivial⟩
  obtain ⟨bs, hbs, hdecode⟩ := MessageCodec.exists_encodeBody_of_decodeBody (m := codec)
    ofTokens_tokens message_stable hv (by decide) ha
  exact ⟨v, bs, hv, hbs, hdecode⟩

end Orders

end SimpleBinary
