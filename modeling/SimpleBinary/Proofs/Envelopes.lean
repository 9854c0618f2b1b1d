import Mathlib
import SimpleBinary.Proofs.Exchange

/-!
# A message is its body behind a header

Four numbers are put in a header, and a slot takes a number if the number lies in the range of the
slot's type (`HeaderSlot.accepts_iff`).  Whether they all go in depends on the codec alone, so
the codec of a message has at most one header, and that stands in front of every body it encodes.
Decoding reads the header back and goes on as if the bytes behind it were all
(`MessageCodec.encode_iff_and_decode_iff`).
-/

namespace SimpleBinary

/-! ## Numbers that fit -/

theorem exists_putSlots?_iff : ∀ {ps : List (HeaderSlot × Nat)} {header : Bytes},
    (∃ header', putSlots? ps header = some header') ↔ ∀ p ∈ ps, ∃ bs, p.1.image? p.2 = some bs
  | [], header => by simp [putSlots?]
  | (s, n) :: ps, header => by
    rw [List.forall_mem_cons]
    constructor
    · rintro ⟨header', h⟩
      obtain ⟨bs, hbs, h⟩ := Option.bind_eq_some_iff.1 h
      exact ⟨⟨bs, hbs⟩, exists_putSlots?_iff.1 ⟨header', h⟩⟩
    · rintro ⟨⟨bs, hbs⟩, hps⟩
      have hrest : ∃ header', putSlots? ps (overwrite s.offset bs header) = some header' :=
        exists_putSlots?_iff.2 hps
      obtain ⟨header', h⟩ := hrest
      exact ⟨header', Option.bind_eq_some_iff.2 ⟨bs, hbs, h⟩⟩

/-- The numbers of a header lie in the ranges of the slots they go in. -/
def HeaderLayout.Holds (h : HeaderLayout) (m : MessageHeader) : Prop :=
  ∀ p ∈ h.numbers m, p.1.primitive.Holds p.2

theorem HeaderLayout.exists_image?_iff {h : HeaderLayout} {m : MessageHeader} :
    (∃ header, h.image? m = some header) ↔ h.Holds m := by
  have hlt : ∀ p ∈ h.numbers m, p.2 < UInt64.size := by
    simp only [numbers, List.forall_mem_cons]
    exact ⟨m.blockLength.toNat_lt, m.templateId.toNat_lt, m.schemaId.toNat_lt,
      m.version.toNat_lt, by simp⟩
  rw [image?, exists_putSlots?_iff]
  exact forall₂_congr fun p hp =>
    HeaderSlot.exists_image?_iff.trans (HeaderSlot.accepts_iff (hlt p hp))

/-! ## The two entry points -/

namespace MessageCodec

variable {m : MessageCodec}

/-- What a codec encodes is its own header, if there is one, and the body. -/
theorem encode_eq_ok_iff_encodeBody (hh : m.header.Laid) (hb : m.message.body.Laid) :
    ∃ header : Bytes, header.length = m.header.encodedLength ∧ ∀ v bs,
      m.encode v = .ok bs ↔ m.header.Holds m.ownHeader
        ∧ ∃ body, m.encodeBody v = .ok body ∧ bs = header ++ body := by
  simp only [encode_eq_ok_iff hh hb, encodeBody_eq_ok_iff hb]
  by_cases hfit : m.header.Holds m.ownHeader
  · obtain ⟨header, himage⟩ := HeaderLayout.exists_image?_iff.2 hfit
    refine ⟨header, HeaderLayout.length_image? hh himage, fun v bs => ⟨?_, ?_⟩⟩
    · rintro ⟨header', body, hheader, hbody, rfl⟩
      rw [himage] at hheader
      cases hheader
      exact ⟨hfit, body, hbody, rfl⟩
    · rintro ⟨-, body, hbody, rfl⟩
      exact ⟨header, body, himage, hbody, rfl⟩
  · refine ⟨zeros m.header.encodedLength, length_zeros _, fun v bs => ⟨?_, ?_⟩⟩
    · rintro ⟨header, body, hheader, -⟩
      exact absurd (HeaderLayout.exists_image?_iff.1 ⟨header, hheader⟩) hfit
    · rintro ⟨hholds, -⟩
      exact absurd hholds hfit

/-- What a codec decodes is a header of its own message and the body behind it. -/
theorem decode_eq_ok_iff_decodeBody (hh : m.header.Laid) (hb : m.message.body.Laid) {bs : Bytes}
    {w : Value} : m.decode bs = .ok w ↔ m.header.encodedLength ≤ bs.length
      ∧ ∃ header, MessageHeader.decode m.header bs = .ok header
        ∧ header.templateId = headerId m.message.id
        ∧ m.decodeBody (bs.drop m.header.encodedLength) header.blockLength.toNat = .ok w := by
  simp only [decode_eq_ok_iff hh hb, decodeBody_eq_ok_iff hb, parse?, Option.bind_eq_bind,
    Option.bind_eq_some_iff, Option.ite_none_right_eq_some, Prod.exists]
  constructor
  · rintro ⟨rest, header, behind, hp, hid, hw⟩
    obtain ⟨hlen, rfl, -⟩ := HeaderLayout.parse?_eq_some_iff.1 hp
    refine ⟨hlen, header, ?_, hid, rest, hw⟩
    rw [← toOption_eq_some_iff, MessageHeader.toOption_decode hh hlen, hp]
    rfl
  · rintro ⟨hlen, header, hheader, hid, rest, hw⟩
    rw [← toOption_eq_some_iff, MessageHeader.toOption_decode hh hlen] at hheader
    obtain ⟨⟨header', behind⟩, hp, rfl⟩ := Option.map_eq_some_iff.1 hheader
    obtain ⟨-, rfl, -⟩ := HeaderLayout.parse?_eq_some_iff.1 hp
    exact ⟨rest, header', _, hp, hid, hw⟩

/-- A message is encoded just when its header's numbers fit and its body is encoded, and is then a
header of the codec's own with the body behind it; bytes are decoded just when a header of the
message can be read from them and the rest is decoded as a body whose block has the length that the
header names. -/
theorem encode_iff_and_decode_iff {s : Schema} {tokens : List Token}
    (hm : MessageCodec.ofTokens s tokens = .ok m) :
    (∃ header : Bytes, header.length = m.header.encodedLength ∧ ∀ v bs,
      m.encode v = .ok bs ↔ m.header.Holds m.ownHeader
        ∧ ∃ body, m.encodeBody v = .ok body ∧ bs = header ++ body)
    ∧ ∀ bs w, m.decode bs = .ok w ↔ m.header.encodedLength ≤ bs.length
      ∧ ∃ header, MessageHeader.decode m.header bs = .ok header
        ∧ header.templateId = headerId m.message.id
        ∧ m.decodeBody (bs.drop m.header.encodedLength) header.blockLength.toNat = .ok w := by
  obtain ⟨hheader, hmessage, -, -⟩ := of_ofTokens hm
  have hh := HeaderLayout.laid_of_ofTokens hheader
  have hb := MessageLayout.laid_of_ofTokens hmessage
  exact ⟨encode_eq_ok_iff_encodeBody hh hb, fun bs w => decode_eq_ok_iff_decodeBody hh hb⟩

end MessageCodec

/-- Orders have a header of eight bytes, which names the length of the block. -/
theorem Orders.encode_iff_and_decode_iff_definedCodec :
    (∃ header : Bytes, header.length = 8 ∧ ∀ v bs,
      definedCodec.encode v = .ok bs ↔ definedCodec.header.Holds definedCodec.ownHeader
        ∧ ∃ body, definedCodec.encodeBody v = .ok body ∧ bs = header ++ body)
    ∧ ∀ bs w, definedCodec.decode bs = .ok w ↔ 8 ≤ bs.length
      ∧ ∃ header, MessageHeader.decode definedCodec.header bs = .ok header
        ∧ header.templateId = 7
        ∧ definedCodec.decodeBody (bs.drop 8) header.blockLength.toNat = .ok w :=
  MessageCodec.encode_iff_and_decode_iff ofTokens_schema

end SimpleBinary
