import Mathlib
import SimpleBinary.Proofs.Flattening
import SimpleBinary.Proofs.Headers
import SimpleBinary.Proofs.Versions

/-!
# Truncated messages

A reader does not look beyond what it takes: what is read of some bytes is read of them whatever is
put behind, and that is left over in the end (`BodyLayout.parse?_append`), so bytes behind a message
change nothing (`MessageCodec.decode_append`).  A message that was written is read to its last byte
(`BodyLayout.meets_image?`), so if a part of it from the start were read, nothing could be missing
(`BodyLayout.eq_of_parse?_start`).  The header adds nothing to this but its own length.
-/

namespace SimpleBinary

/-! ## Bytes put behind -/

theorem VarDataLayout.parse?_append {d : VarDataLayout} {bs rest : Bytes} {v : Value}
    (h : d.parse? bs = some (v, rest)) (post : Bytes) :
    d.parse? (bs ++ post) = some (v, rest ++ post) := by
  obtain ⟨hlen, length, hl, hrest, hx, rfl⟩ := parse?_eq_some_iff.1 h
  rw [parse?_eq_some_iff, HeaderSlot.value?_append hlen, List.drop_append_of_le_length hlen]
  refine ⟨by rw [List.length_append]; omega, length, hl, by rw [List.length_append]; omega, ?_,
    List.drop_append_of_le_length hrest⟩
  rw [List.take_append_of_le_length hrest, hx]

theorem parseVarData?_append : ∀ {ds : List VarDataLayout} {acc acc' : Fields} {bs rest : Bytes},
    parseVarData? ds acc bs = some (acc', rest) → ∀ post,
    parseVarData? ds acc (bs ++ post) = some (acc', rest ++ post)
  | [], acc, acc', bs, rest, h, post => by
    cases h
    rfl
  | d :: ds, acc, acc', bs, rest, h, post => by
    rw [parseVarData?] at h ⊢
    obtain ⟨⟨x, rest₁⟩, hx, h⟩ := Option.bind_eq_some_iff.1 h
    rw [VarDataLayout.parse?_append hx]
    exact parseVarData?_append h post

theorem DimensionLayout.parse?_append {d : DimensionLayout} (hd : d.Laid) {trailerLength : Nat}
    {bs rest : Bytes} {header : GroupHeader} (h : d.parse? trailerLength bs = some (header, rest))
    (post : Bytes) : d.parse? trailerLength (bs ++ post) = some (header, rest ++ post) := by
  obtain ⟨hlen, hb, hc, hroom, rfl⟩ := parse?_eq_some_iff.1 h
  rw [parse?_eq_some_iff, HeaderSlot.value?_append (le_trans hd.blockLength hlen),
    HeaderSlot.value?_append (le_trans hd.numInGroup hlen), List.drop_append_of_le_length hlen]
  exact ⟨by rw [List.length_append]; omega, hb, hc, by rw [List.length_append]; omega, rfl⟩

theorem parseItems?_append {α : Type} {parse : Bytes → Option (α × Bytes)}
    (h : ∀ {bs rest : Bytes} {x : α}, parse bs = some (x, rest) → ∀ post,
      parse (bs ++ post) = some (x, rest ++ post)) :
    ∀ {count : Nat} {bs rest : Bytes} {xs : List α}, parseItems? parse count bs = some (xs, rest) →
    ∀ post, parseItems? parse count (bs ++ post) = some (xs, rest ++ post)
  | 0, bs, rest, xs, hxs, post => by
    cases hxs
    rfl
  | count + 1, bs, rest, xs, hxs, post => by
    rw [parseItems?] at hxs ⊢
    obtain ⟨⟨x, rest₁⟩, hx, hxs⟩ := Option.bind_eq_some_iff.1 hxs
    obtain ⟨⟨xs', rest₂⟩, hxs', hxs⟩ := Option.bind_eq_some_iff.1 hxs
    cases hxs
    rw [h hx post]
    simp only [Option.bind_eq_bind, Option.bind_some, parseItems?_append h hxs' post]
    rfl

mutual

/-- What is put behind the bytes of a body is left over. -/
theorem BodyLayout.parse?_append : ∀ {b : BodyLayout}, b.Laid → ∀ {blockLength : Nat}
    {name : String} {bs rest : Bytes} {v : Value},
    b.parse? blockLength name bs = some (v, rest) → ∀ post,
    b.parse? blockLength name (bs ++ post) = some (v, rest ++ post)
  | ⟨_, fields, groups, varData⟩, hb, blockLength, name, bs, rest, v, h, post => by
    rw [BodyLayout.Laid] at hb
    obtain ⟨hlen, acc₁, acc₂, acc₃, rest₂, h₁, h₂, h₃, rfl⟩ := BodyLayout.parse?_eq_some_iff.1 h
    rw [BodyLayout.parse?_eq_some_iff, List.take_append_of_le_length hlen,
      List.drop_append_of_le_length hlen]
    exact ⟨by rw [List.length_append]; omega, acc₁, acc₂, acc₃, rest₂ ++ post, h₁,
      parseGroups?_append hb.2 h₂ post, parseVarData?_append h₃ post, rfl⟩

theorem parseGroups?_append : ∀ {groups : List GroupLayout}, groupsLaid groups →
    ∀ {acc acc' : Fields} {bs rest : Bytes}, parseGroups? groups acc bs = some (acc', rest) →
    ∀ post, parseGroups? groups acc (bs ++ post) = some (acc', rest ++ post)
  | [], _, acc, acc', bs, rest, h, post => by
    rw [parseGroups?] at h ⊢
    cases h
    rfl
  | ⟨name, _, _, dimension, body, _⟩ :: groups, hg, acc, acc', bs, rest, h, post => by
    rw [groupsLaid] at hg
    obtain ⟨hd, hb, hg⟩ := hg
    obtain ⟨header, rest₁, elements, rest₂, hheader, helements, h⟩ :=
      parseGroups?_cons_eq_some_iff.1 h
    have hitem : ∀ {bs rest : Bytes} {x : Value},
        body.parse? header.blockLength name bs = some (x, rest) → ∀ post,
        body.parse? header.blockLength name (bs ++ post) = some (x, rest ++ post) :=
      fun hx post => BodyLayout.parse?_append hb hx post
    exact parseGroups?_cons_eq_some_iff.2 ⟨header, rest₁ ++ post, elements, rest₂ ++ post,
      DimensionLayout.parse?_append hd hheader post, parseItems?_append hitem helements post,
      parseGroups?_append hg h post⟩

end

theorem HeaderLayout.parse?_append {h : HeaderLayout} (hl : h.Laid) {bs rest : Bytes}
    {m : MessageHeader} (hp : h.parse? bs = some (m, rest)) (post : Bytes) :
    h.parse? (bs ++ post) = some (m, rest ++ post) := by
  obtain ⟨hlen, rfl, b, t, s, v, hb, ht, hs, hv, rfl⟩ := parse?_eq_some_iff.1 hp
  have hin := hl.within
  simp only [slots, List.forall_mem_cons] at hin
  obtain ⟨hinb, hint, hins, hinv, -⟩ := hin
  refine parse?_eq_some_iff.2 ⟨by rw [List.length_append]; omega,
    (List.drop_append_of_le_length hlen).symm, b, t, s, v, ?_⟩
  rw [HeaderSlot.value?_append (le_trans hinb hlen), HeaderSlot.value?_append (le_trans hint hlen),
    HeaderSlot.value?_append (le_trans hins hlen), HeaderSlot.value?_append (le_trans hinv hlen)]
  exact ⟨hb, ht, hs, hv, rfl⟩

namespace MessageCodec

variable {m : MessageCodec} {v : Value} {bs rest : Bytes}

theorem parse?_append (hh : m.header.Laid) (hb : m.message.body.Laid)
    (h : m.parse? bs = some (v, rest)) (post : Bytes) :
    m.parse? (bs ++ post) = some (v, rest ++ post) := by
  unfold parse? at h ⊢
  obtain ⟨⟨header, rest₁⟩, hheader, h⟩ := Option.bind_eq_some_iff.1 h
  rw [Option.ite_none_right_eq_some] at h
  obtain ⟨hid, h⟩ := h
  rw [HeaderLayout.parse?_append hh hheader]
  simp only [Option.bind_eq_bind, Option.bind_some]
  rw [if_pos hid]
  exact BodyLayout.parse?_append hb h post

/-- Whatever is put behind a body or a message, it is decoded as before. -/
theorem decode_append {tokens : List Token}
    (ht : MessageLayout.ofTokens tokens = .ok m.message) :
    (∀ bs blockLength v, m.decodeBody bs blockLength = .ok v →
      ∀ post, m.decodeBody (bs ++ post) blockLength = .ok v)
    ∧ (∀ headerTokens, HeaderLayout.ofTokens headerTokens = .ok m.header →
      ∀ bs v, m.decode bs = .ok v → ∀ post, m.decode (bs ++ post) = .ok v) := by
  have hb := MessageLayout.laid_of_ofTokens ht
  refine ⟨fun bs blockLength v hv post => ?_, fun headerTokens hh bs v hv post => ?_⟩
  · obtain ⟨rest, hp⟩ := (decodeBody_eq_ok_iff hb).1 hv
    exact (decodeBody_eq_ok_iff hb).2 ⟨rest ++ post, BodyLayout.parse?_append hb hp post⟩
  · have hh := HeaderLayout.laid_of_ofTokens hh
    obtain ⟨rest, hp⟩ := (decode_eq_ok_iff hh hb).1 hv
    exact (decode_eq_ok_iff hh hb).2 ⟨rest ++ post, parse?_append hh hb hp post⟩

end MessageCodec

/-! ## Bytes left out -/

/-- If a part of a body's bytes from the start is read, it is all of them. -/
theorem BodyLayout.eq_of_parse?_start {b : BodyLayout} (hb : b.Laid) {v x : Value}
    {bs start rest : Bytes} {name : String} (h : b.image? v = some bs) (hstart : start <+: bs)
    (hp : b.parse? b.blockLength name start = some (x, rest)) : start = bs := by
  obtain ⟨missing, rfl⟩ := hstart
  have hall := BodyLayout.parse?_append hb hp missing
  rw [← List.append_nil (start ++ missing)] at hall
  have hend := (BodyLayout.meets_image? hb h hall).1
  rw [(List.append_eq_nil_iff.1 hend).2, List.append_nil]

namespace MessageCodec

variable {m : MessageCodec} {v x : Value} {bs start rest : Bytes}

/-- If a part of a message from the start is read, it is all of it. -/
theorem eq_of_parse?_start (hh : m.header.Laid) (hb : m.message.body.Laid)
    (hlength : m.message.body.blockLength < UInt64.size) (h : m.encode v = .ok bs)
    (hstart : start <+: bs) (hp : m.parse? start = some (x, rest)) : start = bs := by
  obtain ⟨header, body, hheader, hbody, rfl⟩ := (encode_eq_ok_iff hh hb).1 h
  obtain ⟨⟨found, rest₁⟩, hfound, hp⟩ := Option.bind_eq_some_iff.1 hp
  rw [Option.ite_none_right_eq_some] at hp
  obtain ⟨missing, hmissing⟩ := hstart
  -- the header is complete, and followed by the start of the body
  have hall := HeaderLayout.parse?_append hh hfound missing
  rw [hmissing] at hall
  obtain ⟨rfl, hrest⟩ := HeaderLayout.eq_of_parse?_image? hh hheader hall
  have hown : m.ownHeader.blockLength.toNat = m.message.body.blockLength :=
    UInt64.toNat_ofNat_of_lt' hlength
  rw [hown] at hp
  have hbodyEq := BodyLayout.eq_of_parse?_start hb hbody ⟨missing, hrest⟩ hp.2
  rw [hbodyEq, List.append_right_eq_self] at hrest
  rw [← hmissing, hrest, List.append_nil]

/-- A message or a body from which the end is missing is not decoded. -/
theorem decode_truncated {tokens : List Token}
    (ht : MessageLayout.ofTokens tokens = .ok m.message) :
    (∀ bs start, m.encodeBody v = .ok bs → start <+: bs → start ≠ bs →
      ∃ e, m.decodeBody start m.message.body.blockLength = .error e)
    ∧ (∀ headerTokens, HeaderLayout.ofTokens headerTokens = .ok m.header →
      m.message.body.blockLength < UInt64.size → ∀ bs start, m.encode v = .ok bs → start <+: bs →
      start ≠ bs → ∃ e, m.decode start = .error e) := by
  have hb := MessageLayout.laid_of_ofTokens ht
  refine ⟨fun bs start hbs hstart hne => ?_, fun headerTokens hh hlength bs start hbs hstart hne =>
    ?_⟩
  · cases hd : m.decodeBody start m.message.body.blockLength with
    | error e => exact ⟨e, rfl⟩
    | ok x =>
      obtain ⟨rest, hp⟩ := (decodeBody_eq_ok_iff hb).1 hd
      exact absurd (BodyLayout.eq_of_parse?_start hb ((encodeBody_eq_ok_iff hb).1 hbs) hstart hp) hne
  · have hh := HeaderLayout.laid_of_ofTokens hh
    cases hd : m.decode start with
    | error e => exact ⟨e, rfl⟩
    | ok x =>
      obtain ⟨rest, hp⟩ := (decode_eq_ok_iff hh hb).1 hd
      exact absurd (eq_of_parse?_start hh hb hlength hbs hstart hp) hne

end MessageCodec

namespace Orders

/-- The codec of the orders that are defined. -/
def definedCodec : MessageCodec where
  header
  message := definedMessage
  schemaId := 1
  version := 0

/-- An order of a longer block from elsewhere is decoded as it was with more bytes behind it, and so
is an order behind a header. -/
theorem decode_append_foreign :
    (∃ v, definedCodec.decodeBody foreign 6 = .ok v
      ∧ definedCodec.decodeBody (foreign ++ [7, 0]) 6 = .ok v)
    ∧ ∃ v, definedCodec.decode ([6, 0, 7, 0, 1, 0, 0, 0] ++ foreign) = .ok v
      ∧ definedCodec.decode ([6, 0, 7, 0, 1, 0, 0, 0] ++ foreign ++ [7, 0]) = .ok v := by
  obtain ⟨hbody, hmessage⟩ := MessageCodec.decode_append (m := definedCodec)
    (MessageDef.ofTokens_tokens_of_layout? definition_sound layout?_definition)
  obtain ⟨v, hv⟩ : ∃ v, definedCodec.decodeBody foreign 6 = .ok v := by
    simp only [← toOption_eq_some_iff, ← Option.isSome_iff_exists]
    decide +kernel
  obtain ⟨w, hw⟩ : ∃ w, definedCodec.decode ([6, 0, 7, 0, 1, 0, 0, 0] ++ foreign) = .ok w := by
    simp only [← toOption_eq_some_iff, ← Option.isSome_iff_exists]
    decide +kernel
  exact ⟨⟨v, hv, hbody _ _ _ hv _⟩, w, hw, hmessage _ ofTokens_header _ _ hw _⟩

/-- An order without the last byte of its note, behind a header or not, is no order. -/
theorem decode_truncated_sell :
    (∃ e, definedCodec.decodeBody [65, 66, 67, 0, 2, 1, 2, 251, 128, 4, 110, 195, 169] 5 = .error e)
    ∧ ∃ e, definedCodec.decode [5, 0, 7, 0, 1, 0, 0, 0,
      65, 66, 67, 0, 2, 1, 2, 251, 128, 4, 110, 195, 169] = .error e := by
  obtain ⟨hbody, hmessage⟩ := MessageCodec.decode_truncated (m := definedCodec)
    (v := .object "Order" sell)
    (MessageDef.ofTokens_tokens_of_layout? definition_sound layout?_definition)
  exact ⟨hbody _ _ rfl ⟨[101], rfl⟩ (by decide),
    hmessage _ ofTokens_header (by decide) _ _ rfl ⟨[101], rfl⟩ (by decide)⟩

end Orders

end SimpleBinary
