import Mathlib
import SimpleBinary.Codec.Message
import SimpleBinary.Proofs.Seen

/-!
# Headers of messages

A message's header is a block of zeros with four numbers put in it, each in a slot of its own, so
that every slot is read as it was written (`value?_putSlots?`).  In front of a body it is taken off
by `HeaderLayout.parse?`, and `MessageCodec.parse?` goes on with the body.  `toOption_encode` and
`toOption_decode` say that the codec's two functions are these; a header that is read at all is read
as it was written (`HeaderLayout.eq_of_parse?_image?`), since a slot that is no integer is not read.
-/

namespace SimpleBinary

/-! ## Numbers in slots -/

/-- A header with numbers put in its slots. -/
def putSlots? : List (HeaderSlot × Nat) → Bytes → Option Bytes
  | [], header => some header
  | (s, n) :: ps, header => do
    let bs ← s.image? n
    putSlots? ps (overwrite s.offset bs header)

theorem length_putSlots? : ∀ {ps : List (HeaderSlot × Nat)} {header header' : Bytes},
    (∀ p ∈ ps, p.1.offset + p.1.width ≤ header.length) → putSlots? ps header = some header' →
    header'.length = header.length
  | [], header, header', _, h => by
    cases h
    rfl
  | (s, n) :: ps, header, header', hin, h => by
    obtain ⟨hs, hin⟩ := List.forall_mem_cons.1 hin
    obtain ⟨bs, hbs, h⟩ := Option.bind_eq_some_iff.1 h
    have hlen : (overwrite s.offset bs header).length = header.length := length_overwrite (by
      rw [HeaderSlot.length_image? hbs]
      exact hs)
    rw [← hlen] at hin ⊢
    exact length_putSlots? hin h

/-- Slots apart from those put keep their bytes. -/
theorem take_drop_putSlots? {s : HeaderSlot} : ∀ {ps : List (HeaderSlot × Nat)} {header header' : Bytes},
    (∀ p ∈ ps, p.1.offset + p.1.width ≤ header.length) → (∀ p ∈ ps, s.Apart p.1) →
    putSlots? ps header = some header' →
    (header'.drop s.offset).take s.width = (header.drop s.offset).take s.width
  | [], header, header', _, _, h => by
    cases h
    rfl
  | (t, n) :: ps, header, header', hin, hap, h => by
    obtain ⟨ht, hin⟩ := List.forall_mem_cons.1 hin
    obtain ⟨hst, hap⟩ := List.forall_mem_cons.1 hap
    obtain ⟨bs, hbs, h⟩ := Option.bind_eq_some_iff.1 h
    unfold HeaderSlot.Apart at hst
    dsimp only at ht hst
    rw [← HeaderSlot.length_image? hbs] at ht hst
    rw [← length_overwrite ht] at hin
    rw [take_drop_putSlots? hin hap h, take_drop_overwrite_of_apart ht (by omega)]

/-- Each of several slots that lie apart is read as it was written. -/
theorem value?_putSlots? : ∀ {ps : List (HeaderSlot × Nat)} {header header' : Bytes},
    (∀ p ∈ ps, p.1.offset + p.1.width ≤ header.length) →
    ps.Pairwise (fun p q => p.1.Apart q.1) → putSlots? ps header = some header' →
    ∀ p ∈ ps, p.1.primitive.IsInteger → p.1.value? header' = some p.2
  | [], _, _, _, _, _, p, hp, _ => absurd hp List.not_mem_nil
  | (t, n) :: ps, header, header', hin, hap, h, p, hp, hi => by
    obtain ⟨ht, hin⟩ := List.forall_mem_cons.1 hin
    obtain ⟨hfirst, hap⟩ := List.pairwise_cons.1 hap
    obtain ⟨bs, hbs, h⟩ := Option.bind_eq_some_iff.1 h
    have hw := HeaderSlot.length_image? hbs
    dsimp only at ht
    rw [← hw] at ht
    rw [← length_overwrite ht] at hin
    rcases List.mem_cons.1 hp with rfl | hp
    · have hkept := take_drop_putSlots? hin hfirst h
      rw [← hw, take_drop_overwrite_self (le_trans (Nat.le_add_right _ _) ht)] at hkept
      exact HeaderSlot.value?_image? hi hbs hkept
    · exact value?_putSlots? hin hap h p hp hi

/-! ## Headers -/

namespace HeaderLayout

variable {h : HeaderLayout} {m m' : MessageHeader} {header : Bytes}

/-- A header's slots, in the order in which they are written and read. -/
def slots (h : HeaderLayout) : List HeaderSlot :=
  [h.blockLength, h.templateId, h.schemaId, h.version]

/-- The slots of a header lie within it, apart from each other. -/
structure Laid (h : HeaderLayout) : Prop where
  within : ∀ s ∈ h.slots, s.offset + s.width ≤ h.encodedLength
  apart : h.slots.Pairwise HeaderSlot.Apart

theorem laid_of_ofTokens {tokens : List Token} (hh : HeaderLayout.ofTokens tokens = .ok h) :
    h.Laid := by
  obtain ⟨c, hc, hh⟩ := bind_eq_ok_iff.1 hh
  obtain ⟨blockLength, hb, hh⟩ := bind_eq_ok_iff.1 hh
  obtain ⟨templateId, ht, hh⟩ := bind_eq_ok_iff.1 hh
  obtain ⟨schemaId, hs, hh⟩ := bind_eq_ok_iff.1 hh
  obtain ⟨version, hv, hh⟩ := bind_eq_ok_iff.1 hh
  cases hh
  obtain ⟨s, -, hc⟩ := bind_eq_ok_iff.1 hc
  have hlaid := CompositeLayout.laid_of_compositeAt s hc
  constructor
  · simp only [slots, encodedLength, List.forall_mem_cons]
    exact ⟨HeaderSlot.stop_le_of_ofMember hlaid hb, HeaderSlot.stop_le_of_ofMember hlaid ht,
      HeaderSlot.stop_le_of_ofMember hlaid hs, HeaderSlot.stop_le_of_ofMember hlaid hv, by simp⟩
  · simp only [slots, List.pairwise_cons, List.forall_mem_cons]
    have hapart := @HeaderSlot.apart_of_ofMember c
    exact ⟨⟨hapart hlaid (by decide) hb ht, hapart hlaid (by decide) hb hs,
      hapart hlaid (by decide) hb hv, by simp⟩, ⟨hapart hlaid (by decide) ht hs,
      hapart hlaid (by decide) ht hv, by simp⟩, ⟨hapart hlaid (by decide) hs hv, by simp⟩, by simp,
      .nil⟩

/-- The numbers of a header and where they go. -/
def numbers (h : HeaderLayout) (m : MessageHeader) : List (HeaderSlot × Nat) :=
  [(h.blockLength, m.blockLength.toNat), (h.templateId, m.templateId.toNat),
    (h.schemaId, m.schemaId.toNat), (h.version, m.version.toNat)]

/-- The bytes of a header. -/
def image? (h : HeaderLayout) (m : MessageHeader) : Option Bytes :=
  putSlots? (h.numbers m) (zeros h.encodedLength)

theorem within_numbers (hl : h.Laid) : ∀ p ∈ h.numbers m,
    p.1.offset + p.1.width ≤ (zeros h.encodedLength).length := by
  have := hl.within
  simpa [slots, numbers] using this

theorem length_image? (hl : h.Laid) (hm : h.image? m = some header) :
    header.length = h.encodedLength := by
  rw [length_putSlots? (within_numbers hl) hm, length_zeros]

/-- A header and what is left behind it. -/
def parse? (h : HeaderLayout) (bs : Bytes) : Option (MessageHeader × Bytes) :=
  if bs.length < h.encodedLength then none
  else do
    let blockLength ← h.blockLength.value? bs
    let templateId ← h.templateId.value? bs
    let schemaId ← h.schemaId.value? bs
    let version ← h.version.value? bs
    return (⟨.ofNat blockLength, .ofNat templateId, .ofNat schemaId, .ofNat version⟩,
      bs.drop h.encodedLength)

theorem parse?_eq_some_iff {bs rest : Bytes} : h.parse? bs = some (m, rest) ↔
    h.encodedLength ≤ bs.length ∧ rest = bs.drop h.encodedLength
      ∧ ∃ blockLength templateId schemaId version, h.blockLength.value? bs = some blockLength
        ∧ h.templateId.value? bs = some templateId ∧ h.schemaId.value? bs = some schemaId
        ∧ h.version.value? bs = some version
        ∧ m = ⟨.ofNat blockLength, .ofNat templateId, .ofNat schemaId, .ofNat version⟩ := by
  unfold parse?
  simp only [Option.ite_none_left_eq_some, Option.bind_eq_bind, Option.bind_eq_some_iff, not_lt]
  constructor
  · rintro ⟨hlen, b, hb, t, ht, s, hs, v, hv, h⟩
    cases h
    exact ⟨hlen, rfl, b, t, s, v, hb, ht, hs, hv, rfl⟩
  · rintro ⟨hlen, rfl, b, t, s, v, hb, ht, hs, hv, rfl⟩
    exact ⟨hlen, b, hb, t, ht, s, hs, v, hv, rfl⟩

theorem isInteger_of_parse? {bs rest : Bytes} (hp : h.parse? bs = some (m, rest)) :
    ∀ s ∈ h.slots, s.primitive.IsInteger := by
  obtain ⟨-, -, b, t, s, v, hb, ht, hs, hv, -⟩ := parse?_eq_some_iff.1 hp
  simp only [slots, List.forall_mem_cons]
  exact ⟨HeaderSlot.isInteger_of_value? hb, HeaderSlot.isInteger_of_value? ht,
    HeaderSlot.isInteger_of_value? hs, HeaderSlot.isInteger_of_value? hv, by simp⟩

/-- A header of integers is read as it was written. -/
theorem parse?_image? (hl : h.Laid) (hi : ∀ s ∈ h.slots, s.primitive.IsInteger)
    (hm : h.image? m = some header) (rest : Bytes) :
    h.parse? (header ++ rest) = some (m, rest) := by
  have hlen := length_image? hl hm
  have hap : (h.numbers m).Pairwise fun p q => p.1.Apart q.1 := by
    have := hl.apart
    simpa [slots, numbers] using this
  have hval := value?_putSlots? (within_numbers hl) hap hm
  simp only [numbers, List.forall_mem_cons] at hval
  have hin := hl.within
  simp only [slots, List.forall_mem_cons] at hi hin
  rw [← hlen] at hin
  obtain ⟨hb, ht, hs, hv, -⟩ := hval
  obtain ⟨hinb, hint, hins, hinv, -⟩ := hin
  refine parse?_eq_some_iff.2 ⟨by rw [List.length_append]; omega, (List.drop_left' hlen).symm,
    m.blockLength.toNat, m.templateId.toNat, m.schemaId.toNat, m.version.toNat, ?_⟩
  rw [HeaderSlot.value?_append hinb, HeaderSlot.value?_append hint, HeaderSlot.value?_append hins,
    HeaderSlot.value?_append hinv]
  exact ⟨hb hi.1, ht hi.2.1, hs hi.2.2.1, hv hi.2.2.2.1, by simp only [UInt64.ofNat_toNat]⟩

/-- A header that is read at all is read as it was written. -/
theorem eq_of_parse?_image? (hl : h.Laid) (hm : h.image? m = some header) {rest rest' : Bytes}
    (hp : h.parse? (header ++ rest) = some (m', rest')) : m' = m ∧ rest' = rest := by
  rw [parse?_image? hl (isInteger_of_parse? hp) hm] at hp
  cases hp
  exact ⟨rfl, rfl⟩

end HeaderLayout

namespace MessageHeader

variable {h : HeaderLayout}

theorem toOption_encode (hl : h.Laid) (m : MessageHeader) :
    (m.encode h).toOption = h.image? m := by
  have hput : ∀ {s : HeaderSlot} {header : Bytes} (path : String) (n : Nat),
      s ∈ h.slots → header.length = h.encodedLength →
      (s.put 0 path n header).toOption = (s.image? n).map (overwrite s.offset · header) := by
    intro s header path n hs hlen
    have hin : s.offset + s.width ≤ header.length := by
      have := hl.within s hs
      omega
    simpa using HeaderSlot.toOption_put hin path n []
  have hstep : ∀ {s : HeaderSlot} {header bs : Bytes} {n : Nat},
      s ∈ h.slots → header.length = h.encodedLength → s.image? n = some bs →
      (overwrite s.offset bs header).length = h.encodedLength := by
    intro s header bs n hs hlen hbs
    rw [length_overwrite, hlen]
    rw [HeaderSlot.length_image? hbs, hlen]
    exact hl.within s hs
  have h0 : (padTo h.encodedLength []).length = h.encodedLength := length_padTo (Nat.zero_le _)
  unfold encode HeaderLayout.image? HeaderLayout.numbers
  simp only [putSlots?]
  rw [toOption_bind, hput _ _ (by simp [HeaderLayout.slots]) h0]
  cases hb : h.blockLength.image? m.blockLength.toNat with
  | none => rfl
  | some b =>
    have h1 := hstep (by simp [HeaderLayout.slots]) h0 hb
    simp only [Option.map_some, Option.bind_some, Option.bind_eq_bind]
    rw [toOption_bind, hput _ _ (by simp [HeaderLayout.slots]) h1]
    cases ht : h.templateId.image? m.templateId.toNat with
    | none => rfl
    | some t =>
      have h2 := hstep (by simp [HeaderLayout.slots]) h1 ht
      simp only [Option.map_some, Option.bind_some]
      rw [toOption_bind, hput _ _ (by simp [HeaderLayout.slots]) h2]
      cases hs : h.schemaId.image? m.schemaId.toNat with
      | none => rfl
      | some s =>
        have h3 := hstep (by simp [HeaderLayout.slots]) h2 hs
        simp only [Option.map_some, Option.bind_some]
        rw [hput _ _ (by simp [HeaderLayout.slots]) h3]
        cases h.version.image? m.version.toNat <;> rfl

theorem toOption_decode (hl : h.Laid) {bs : Bytes} (hlen : h.encodedLength ≤ bs.length) :
    (decode h bs).toOption = (h.parse? bs).map (·.1) := by
  have hread : ∀ {s : HeaderSlot} (path : String) {c : Cursor}, s ∈ h.slots → c.data = bs →
      Reads (s.read 0 path c) bs True (s.value? bs) := by
    intro s path c hs hc
    have hr := s.reads_read 0 path c
    rw [hc] at hr
    have := hl.within s hs
    exact hr.mono fun _ => by omega
  unfold decode HeaderLayout.parse?
  rw [if_neg (not_lt.2 hlen)]
  rcases (hread (s := h.blockLength) "header.blockLength" (by simp [HeaderLayout.slots])
    (show (Cursor.mk bs 0).data = bs from rfl)).cases trivial with
    ⟨⟨e, he⟩, ho⟩ | ⟨blockLength, c₁, he, hc₁, ho⟩
  · simp [he, ho]
  rw [he, ho, ok_bind]
  rcases (hread (s := h.templateId) "header.templateId" (by simp [HeaderLayout.slots])
    hc₁).cases trivial with ⟨⟨e, he⟩, ho⟩ | ⟨templateId, c₂, he, hc₂, ho⟩
  · simp [he, ho]
  simp only [he, ho, ok_bind]
  rcases (hread (s := h.schemaId) "header.schemaId" (by simp [HeaderLayout.slots])
    hc₂).cases trivial with ⟨⟨e, he⟩, ho⟩ | ⟨schemaId, c₃, he, hc₃, ho⟩
  · simp [he, ho]
  simp only [he, ho, ok_bind]
  rcases (hread (s := h.version) "header.version" (by simp [HeaderLayout.slots])
    hc₃).cases trivial with ⟨⟨e, he⟩, ho⟩ | ⟨version, c₄, he, hc₄, ho⟩
  · simp [he, ho]
  simp only [he, ho, ok_bind]
  rfl

end MessageHeader

/-! ## Messages -/

namespace MessageCodec

variable {m : MessageCodec} {v : Value} {bs : Bytes}

theorem encode_eq_ok_iff (hh : m.header.Laid) (hb : m.message.body.Laid) :
    m.encode v = .ok bs ↔ ∃ header body, m.header.image? m.ownHeader = some header
      ∧ m.message.body.image? v = some body ∧ bs = header ++ body := by
  rw [← toOption_eq_some_iff]
  unfold encode
  rw [toOption_bind, MessageHeader.toOption_encode hh]
  simp only [BodyLayout.toOption_encode hb, Option.bind_eq_some_iff, Option.map_eq_some_iff]
  constructor
  · rintro ⟨header, hheader, body, hbody, rfl⟩
    exact ⟨header, body, hheader, hbody, rfl⟩
  · rintro ⟨header, body, hheader, hbody, rfl⟩
    exact ⟨header, hheader, body, hbody, rfl⟩

/-- The value of a message and what is left behind it, if the header names the message. -/
def parse? (m : MessageCodec) (bs : Bytes) : Option (Value × Bytes) := do
  let (header, rest) ← m.header.parse? bs
  if header.templateId = headerId m.message.id then
    m.message.body.parse? header.blockLength.toNat m.message.name rest
  else none

theorem toOption_decode (hh : m.header.Laid) (hb : m.message.body.Laid) (bs : Bytes) :
    (m.decode bs).toOption = (m.parse? bs).map (·.1) := by
  unfold decode parse?
  rcases seekFor_eq ⟨bs, 0⟩ m.message.name m.header.encodedLength with ⟨hlt, e, he⟩ | ⟨hle, he⟩
  · have hshort : m.header.parse? bs = none := by
      unfold HeaderLayout.parse?
      exact if_pos hlt
    rw [hshort]
    cases MessageHeader.decode m.header bs with
    | error e => rfl
    | ok header =>
      rw [ok_bind]
      split <;> simp [he]
  · have hheader := MessageHeader.toOption_decode hh hle
    cases hp : m.header.parse? bs with
    | none =>
      rw [hp] at hheader
      rw [toOption_bind, hheader]
      rfl
    | some r =>
      obtain ⟨header, rest⟩ := r
      have hrest := (HeaderLayout.parse?_eq_some_iff.1 hp).2.1
      rw [hp, Option.map_some, toOption_eq_some_iff] at hheader
      have hat : Cursor.At ⟨bs, m.header.encodedLength⟩ rest := ⟨hle, hrest.symm⟩
      simp only [hheader, ok_bind, he, Option.bind_eq_bind, Option.bind_some]
      by_cases hid : header.templateId = headerId m.message.id
      · rw [if_neg (not_not.2 hid), if_pos hid, decodeAt, toOption_map]
        exact (BodyLayout.parses_decode hb header.blockLength.toNat m.message.name m.message.name
          hat).toOption_fst
      · rw [if_pos hid, if_neg hid]
        rfl

theorem decode_eq_ok_iff (hh : m.header.Laid) (hb : m.message.body.Laid) :
    m.decode bs = .ok v ↔ ∃ rest, m.parse? bs = some (v, rest) := by
  rw [← toOption_eq_some_iff, toOption_decode hh hb, Option.map_eq_some_iff]
  simp

end MessageCodec

end SimpleBinary
