import Mathlib
import SimpleBinary.Proofs.Documents

/-!
# Documents and bytes agree

Bytes are decoded by the message that the header numbers, a document is encoded by the message that is
named.  In a schema whose messages have numbers and names of their own the two are the same, so a message
is decoded to the document of its value, and that document is encoded to the bytes it came from
(`Schema.decodeToJson_encodeFromJson`).
-/

namespace SimpleBinary

variable {full : Bool}

/-! ## The messages of a schema -/

/-- The numbers of a schema's messages. -/
def Schema.messageIds (s : Schema) : List Int32 :=
  s.messages.filterMap fun tokens => tokens.head?.map (·.id)

def Schema.messageNames (s : Schema) : List String :=
  s.messages.filterMap fun tokens => tokens.head?.map (·.name)

theorem eq_of_nodup_filterMap {α β : Type} {f : α → Option β} {xs : List α}
    (h : (xs.filterMap f).Nodup) {x y : α} {b : β} (hx : x ∈ xs) (hy : y ∈ xs)
    (hfx : f x = some b) (hfy : f y = some b) : x = y := by
  by_contra hne
  have hpair := List.pairwise_filterMap.1 h
  have : Std.Symm fun x y => ∀ b, f x = some b → ∀ b', f y = some b' → b ≠ b' :=
    ⟨fun _ _ h b hb b' hb' => (h b' hb' b hb).symm⟩
  exact hpair.forall hx hy hne b hfx b hfy rfl

/-- A stream is found by what is its own. -/
theorem firstStream?_of_nodup {α : Type} [BEq α] [LawfulBEq α] {key : Token → α}
    {streams : List (List Token)} {first : Token} {rest : List Token}
    (h : (streams.filterMap fun tokens => tokens.head?.map key).Nodup)
    (hmem : first :: rest ∈ streams) :
    firstStream? streams (fun t => key t == key first) = some (first :: rest) := by
  refine find?_eq_some_of_unique hmem (by simp) fun tokens htokens hkey => ?_
  refine eq_of_nodup_filterMap (b := key first) h htokens hmem ?_ rfl
  cases tokens with
  | nil => simp at hkey
  | cons t ts => simpa using hkey

theorem MessageLayout.exists_first_of_ofTokens {tokens : List Token} {l : MessageLayout}
    (h : MessageLayout.ofTokens tokens = .ok l) :
    ∃ first rest, tokens = first :: rest ∧ l.name = first.name ∧ l.id = first.id := by
  unfold ofTokens at h
  obtain ⟨s, -, h⟩ := bind_eq_ok_iff.1 h
  obtain ⟨t, ht, h⟩ := bind_eq_ok_iff.1 h
  obtain ⟨b, -, h⟩ := bind_eq_ok_iff.1 h
  cases h
  cases tokens with
  | nil => cases ht
  | cons first rest =>
    cases ht
    exact ⟨_, _, rfl, rfl, rfl⟩

theorem MessageCodec.of_ofTokens {s : Schema} {tokens : List Token} {m : MessageCodec}
    (h : MessageCodec.ofTokens s tokens = .ok m) : HeaderLayout.ofTokens s.header = .ok m.header
      ∧ MessageLayout.ofTokens tokens = .ok m.message ∧ m.schemaId = s.id ∧ m.version = s.version := by
  unfold ofTokens at h
  obtain ⟨header, hheader, h⟩ := bind_eq_ok_iff.1 h
  obtain ⟨message, hmessage, h⟩ := bind_eq_ok_iff.1 h
  cases h
  exact ⟨hheader, hmessage, rfl, rfl⟩

/-! ## Numbers in headers -/

/-- A natural identifier is carried as it is. -/
theorem natCast_headerId {id : Int32} (h : 0 ≤ id.toInt) :
    ((headerId id).toNat : Int) = id.toInt := by
  have h64 : 0 ≤ id.toInt64 := by
    rw [Int64.le_iff_toInt_le, Int32.toInt_toInt64]
    exact h
  rw [headerId, Int64.toNat_toUInt64_of_le h64, Int64.toNatClampNeg, Int32.toInt_toInt64,
    Int.toNat_of_nonneg h]

theorem ofNat_headerId {id : Int32} (h : 0 ≤ id.toInt) : Int32.ofNat (headerId id).toNat = id := by
  rw [← Int32.ofInt_eq_ofNat, natCast_headerId h, Int32.ofInt_toInt]

theorem headerId_le {id : Int32} (h : 0 ≤ id.toInt) :
    ((headerId id).toNat : Int) ≤ Int32.maxValue.toInt := by
  have hlt := id.toInt_lt
  rw [natCast_headerId h]
  exact Int.le_of_lt_add_one hlt

/-! ## The message that is found -/

section Found

variable {s : Schema} {tokens : List Token} {m : MessageCodec}

/-- In a schema whose messages have names of their own, a name leads to its message. -/
theorem MessageCodec.ofName_of_mem (hm : MessageCodec.ofTokens s tokens = .ok m)
    (hmem : tokens ∈ s.messages) (hnames : s.messageNames.Nodup) :
    (s.messageNamed? m.message.name).isSome ∧ MessageCodec.ofName s m.message.name = .ok m := by
  obtain ⟨-, hmessage, -, -⟩ := of_ofTokens hm
  obtain ⟨first, rest, rfl, hname, -⟩ := MessageLayout.exists_first_of_ofTokens hmessage
  have hfound : s.messageNamed? m.message.name = some (first :: rest) := by
    rw [hname]
    exact firstStream?_of_nodup hnames hmem
  unfold ofName
  rw [hfound]
  exact ⟨rfl, hm⟩

/-- In a schema whose messages have numbers of their own, a number leads to its message. -/
theorem MessageCodec.ofTemplate_of_mem (hm : MessageCodec.ofTokens s tokens = .ok m)
    (hmem : tokens ∈ s.messages) (hids : s.messageIds.Nodup) (hid : 0 ≤ m.message.id.toInt) :
    MessageCodec.ofTemplate s (headerId m.message.id) = .ok m := by
  obtain ⟨-, hmessage, -, -⟩ := of_ofTokens hm
  obtain ⟨first, rest, rfl, -, hfirst⟩ := MessageLayout.exists_first_of_ofTokens hmessage
  have hfound : s.messageWithId? m.message.id = some (first :: rest) := by
    rw [hfirst]
    exact firstStream?_of_nodup hids hmem
  unfold ofTemplate
  rw [if_pos (headerId_le hid), ofNat_headerId hid, hfound]
  exact hm

end Found

/-! ## Messages -/

namespace MessageCodec

variable {m : MessageCodec} {v : Value} {bs : Bytes}

/-- A message is decoded to its header and to its value, with the constants filled in. -/
theorem decode_of_encode (hh : m.header.Laid) (hb : m.message.body.Laid)
    (hslots : ∀ s ∈ m.header.slots, s.primitive.IsInteger)
    (hl : ∀ b ∈ m.message.body.bodies, b.Framed ∧ ∀ k ∈ b.kinds, k.Sound)
    (hlength : m.message.body.blockLength < UInt64.size)
    (hv : m.message.body.IsDecoded full m.message.name v) (hbs : m.encode v = .ok bs) :
    MessageHeader.decode m.header bs = .ok m.ownHeader
      ∧ m.decode bs = .ok (m.message.body.withConstants m.message.name v) := by
  obtain ⟨header, body, hheader, hbody, rfl⟩ := (encode_eq_ok_iff hh hb).1 hbs
  have hp := HeaderLayout.parse?_image? hh hslots hheader body
  refine ⟨?_, (decode_eq_ok_iff hh hb).2 ⟨[], ?_⟩⟩
  · rw [← toOption_eq_some_iff, MessageHeader.toOption_decode hh, hp]
    · rfl
    · rw [List.length_append, HeaderLayout.length_image? hh hheader]
      exact Nat.le_add_right _ _
  · have hown : m.ownHeader.blockLength.toNat = m.message.body.blockLength :=
      UInt64.toNat_ofNat_of_lt' hlength
    have hparse := BodyLayout.parse?_image? hb (fun b hb => (hl b hb).1) m.message.name hbody []
    rw [List.append_nil, BodyLayout.seen?_of_isDecoded hb (fun b hb => (hl b hb).2) hv hbody]
      at hparse
    unfold parse?
    rw [hp, Option.bind_eq_bind, Option.bind_some]
    dsimp only
    rw [if_pos (by rfl), hown, hparse]
    rfl

end MessageCodec

/-- What a message is decoded to is the document of its value, and from that document the same bytes
are encoded. -/
theorem Schema.decodeToJson_encodeFromJson {s : Schema} {tokens : List Token} {m : MessageCodec}
    {v : Value} {bs : Bytes} (hm : MessageCodec.ofTokens s tokens = .ok m) (hmem : tokens ∈ s.messages)
    (hids : s.messageIds.Nodup) (hnames : s.messageNames.Nodup) (hid : 0 ≤ m.message.id.toInt)
    (hschema : 0 ≤ s.id.toInt) (hversion : 0 ≤ s.version.toInt)
    (hslots : ∀ s ∈ m.header.slots, s.primitive.IsInteger)
    (hl : ∀ b ∈ m.message.body.bodies,
      b.Framed ∧ b.Distinct ∧ ∀ k ∈ b.kinds, k.Sound ∧ k.Distinct)
    (hlength : m.message.body.blockLength < UInt64.size)
    (hv : m.message.body.IsDecoded full m.message.name v) (he : v.IsExpressible)
    (hbs : m.encode v = .ok bs) :
    let body := (m.message.body.withConstants m.message.name v).toJson
    s.decodeToJson bs = .ok (.object [
      ("message", .text m.message.name),
      ("header", .object [
        ("blockLength", .int m.message.body.blockLength),
        ("templateId", .int m.message.id.toInt),
        ("schemaId", .int s.id.toInt),
        ("version", .int s.version.toInt)]),
      ("body", body)])
    ∧ s.encodeFromJson m.message.name body = .ok bs := by
  obtain ⟨hheader, hmessage, hmid, hmversion⟩ := MessageCodec.of_ofTokens hm
  have hh := HeaderLayout.laid_of_ofTokens hheader
  have hb := MessageLayout.laid_of_ofTokens hmessage
  have hd : ∀ b ∈ m.message.body.bodies, b.Distinct ∧ ∀ k ∈ b.kinds, k.Distinct :=
    fun b hb => ⟨(hl b hb).2.1, fun k hk => ((hl b hb).2.2 k hk).2⟩
  refine ⟨?_, ?_⟩
  · obtain ⟨hown, hdecode⟩ := MessageCodec.decode_of_encode hh hb hslots
      (fun b hb => ⟨(hl b hb).1, fun k hk => ((hl b hb).2.2 k hk).1⟩) hlength hv hbs
    have hfound : MessageCodec.ofBytes s bs = .ok m := by
      unfold MessageCodec.ofBytes
      rw [hheader]
      simp only [Except.mapError, ok_bind, hown]
      rw [show m.ownHeader.templateId = headerId m.message.id from rfl,
        MessageCodec.ofTemplate_of_mem hm hmem hids hid]
    have hblock : (m.ownHeader.blockLength.toNat : Int) = m.message.body.blockLength :=
      congrArg _ (UInt64.toNat_ofNat_of_lt' hlength)
    have htemplate : (m.ownHeader.templateId.toNat : Int) = m.message.id.toInt :=
      natCast_headerId hid
    have hschemaId : (m.ownHeader.schemaId.toNat : Int) = s.id.toInt := by
      rw [← natCast_headerId hschema, ← hmid]
      rfl
    have hversion : (m.ownHeader.version.toNat : Int) = s.version.toInt := by
      rw [← natCast_headerId hversion, ← hmversion]
      rfl
    unfold decodeToJson
    rw [hfound, ok_bind, hown, ok_bind, hdecode, ok_bind, hblock, htemplate, hschemaId, hversion]
    rfl
  · obtain ⟨hnamed, hfound⟩ := MessageCodec.ofName_of_mem hm hmem hnames
    have hread := BodyLayout.ofJson_toJson hd hv he m.message.name
    have himage := BodyLayout.image?_withoutConstants hd hv
    have hbytes : m.encode (m.message.body.withoutConstants m.message.name v) = .ok bs := by
      rw [MessageCodec.encode_eq_ok_iff hh hb, himage]
      exact (MessageCodec.encode_eq_ok_iff hh hb).1 hbs
    unfold encodeFromJson
    rw [if_neg (by rw [Option.isNone_iff_eq_none, ← ne_eq, Option.ne_none_iff_isSome]; exact hnamed),
      hfound]
    simp only [Except.mapError, ok_bind, hread, hbytes]

namespace Orders

theorem definedMessage_sound : ∀ b ∈ definedMessage.body.bodies,
    b.Framed ∧ b.Distinct ∧ ∀ k ∈ b.kinds, k.Sound ∧ k.Distinct := by
  have hbodies : definedMessage.body.bodies
      = [definedMessage.body, ⟨1, [⟨"quantity", 5, 0, 0, none, .primitive quantity⟩], [], []⟩] := rfl
  have hkinds : definedMessage.body.kinds
      = [.primitive symbol, .enumeration side, .primitive lot] := rfl
  rw [hbodies, List.forall_mem_cons, List.forall_mem_singleton, hkinds]
  refine ⟨⟨⟨?_, ?_, ?_⟩, ?_, ?_⟩, ⟨?_, ?_, ?_⟩, ?_, ?_⟩
  · simp [definedMessage, fills, Primitive.IsInteger, Primitive.kind]
  · simp [definedMessage, note, Primitive.IsInteger, Primitive.kind]
  · simp [definedMessage]
  · unfold BodyLayout.Distinct
    decide
  · simp [FieldKind.Sound, FieldKind.Distinct, side_sound]
  · simp
  · simp
  · simp
  · unfold BodyLayout.Distinct
    decide
  · simp [BodyLayout.kinds, fieldsParts, FieldKind.parts, FieldKind.Sound, FieldKind.Distinct]

theorem isDecoded_definedSell :
    definedMessage.body.IsDecoded true "Order" (.object "Order" sell) := by
  have hfills : ∀ x ∈ [.object "fills" [("quantity", .int (-5))], Value.object "fills" []],
      (BodyLayout.mk 1 [⟨"quantity", 5, 0, 0, none, .primitive quantity⟩] [] []).IsDecoded true
        "fills" x := by
    refine List.forall_mem_cons.2 ⟨?_, List.forall_mem_singleton.2 ?_⟩
    · exact ⟨_, rfl, by decide +kernel, by decide +kernel, ⟨isDecoded_quantity, trivial⟩, trivial,
        by simp⟩
    · exact ⟨_, rfl, by decide +kernel, by decide +kernel, ⟨isDecoded_noQuantity, trivial⟩, trivial,
        by simp⟩
  refine ⟨sell, rfl, by decide +kernel, by decide +kernel,
    ⟨isDecoded_symbol, ⟨_, rfl, isDecoded_side⟩, isDecoded_lot, trivial⟩,
    ⟨⟨_, rfl, hfills⟩, trivial⟩, ?_⟩
  exact List.forall_mem_singleton.2 ⟨_, rfl, isDecoded_note⟩

/-- A schema of orders and of a message without fields. -/
def schema : Schema :=
  SchemaDef.flatten { id := 1, version := 0, messages := [{ name := "Idle", id := 5 }, definition] }

theorem ofTokens_schema :
    MessageCodec.ofTokens schema (definition.tokens .littleEndian) = .ok definedCodec := by
  unfold MessageCodec.ofTokens
  rw [show HeaderLayout.ofTokens schema.header = .ok header from ofTokens_header, ok_bind,
    MessageDef.ofTokens_tokens_of_layout? definition_sound layout?_definition]
  rfl

/-- The document of an order with two fills, the second without a quantity, and back. -/
theorem decodeToJson_encodeFromJson_sell :
    let bytes : Bytes := [5, 0, 7, 0, 1, 0, 0, 0,
      65, 66, 67, 0, 2, 1, 2, 251, 128, 4, 110, 195, 169, 101]
    let body := Json.object [
      ("fills", .array [.object [("quantity", .int (-5))], .object []]),
      ("lot", .int 10), ("note", .text "née"), ("side", .text "SELL"), ("symbol", .text "ABC")]
    schema.decodeToJson bytes = .ok (.object [
      ("message", .text "Order"),
      ("header", .object [
        ("blockLength", .int 5), ("templateId", .int 7), ("schemaId", .int 1), ("version", .int 0)]),
      ("body", body)])
    ∧ schema.encodeFromJson "Order" body = .ok bytes := by
  have hencode : definedCodec.encode (.object "Order" sell) = .ok [5, 0, 7, 0, 1, 0, 0, 0,
      65, 66, 67, 0, 2, 1, 2, 251, 128, 4, 110, 195, 169, 101] := rfl
  have hexpressible : (Value.object "Order" sell).IsExpressible := by
    simp [Value.IsExpressible, Value.floats, sell, fieldsFloats, itemsFloats]
  have hslots : ∀ s ∈ definedCodec.header.slots, s.primitive.IsInteger := by
    simp [definedCodec, header, HeaderLayout.slots, Primitive.IsInteger, Primitive.kind]
  exact Schema.decodeToJson_encodeFromJson ofTokens_schema (by simp [schema, SchemaDef.flatten])
    (by decide) (by decide) (by decide) (by decide) (by decide) hslots definedMessage_sound
    (by decide) isDecoded_definedSell hexpressible hencode

end Orders

end SimpleBinary
