import Mathlib
import SimpleBinary.Proofs.Flattening.Bodies

/-!
# Definitions and their streams

A definition is flattened to tokens, and a reader lays the tokens out again: the stream of a message is
read as what its definition means, and every flattened stream is balanced, be the definition sound or
not (`SchemaDef.flatten_readable`).
-/

namespace SimpleBinary

/-! ## Balance -/

section Balance

variable (order : ByteOrder)

theorem balanced_leaves {α : Type} {f : α → Token} (hf : ∀ x, (f x).signal.closing? = none
    ∧ (f x).signal.opening? = none ∧ (f x).componentTokenCount = 1) :
    ∀ xs : List α, Balanced (xs.map f)
  | [] => balanced_nil
  | x :: xs =>
    (balanced_leaf (hf x).1 (hf x).2.1 (hf x).2.2).append (balanced_leaves hf xs)

mutual

theorem TypeDef.balanced_tokens : ∀ (offset : Nat) (t : TypeDef), Balanced (t.tokens order offset)
  | _, .primitive d => by
    rw [TypeDef.tokens]
    exact balanced_leaf rfl rfl rfl
  | _, .composite name members => by
    rw [TypeDef.tokens]
    exact (balanced_memberTokens 0 members).wrap _ _
  | _, .enumeration name encoding values => by
    rw [TypeDef.tokens]
    exact (balanced_leaves (fun _ => ⟨rfl, rfl, rfl⟩) values).wrap _ _
  | _, .set name encoding choices => by
    rw [TypeDef.tokens]
    exact (balanced_leaves (fun _ => ⟨rfl, rfl, rfl⟩) choices).wrap _ _

theorem balanced_memberTokens : ∀ (offset : Nat) (ts : List TypeDef),
    Balanced (TypeDef.memberTokens order offset ts)
  | _, [] => by
    rw [TypeDef.memberTokens]
    exact balanced_nil
  | offset, t :: ts => by
    rw [TypeDef.memberTokens]
    exact (TypeDef.balanced_tokens offset t).append (balanced_memberTokens _ ts)

end

theorem balanced_fieldTokens : ∀ (offset : Nat) (fs : List FieldDef),
    Balanced (fieldTokens order offset fs)
  | _, [] => balanced_nil
  | offset, f :: fs =>
    ((f.type.balanced_tokens order offset).wrap _ _).append (balanced_fieldTokens _ fs)

theorem balanced_varDataTokens : ∀ ds : List VarDataDef,
    Balanced (ds.flatMap (·.tokens order))
  | [] => balanced_nil
  | d :: ds => by
    have hinside : Balanced (d.tokens order) := by
      unfold VarDataDef.tokens
      exact (((balanced_leaf rfl rfl rfl).append (balanced_leaf rfl rfl rfl)).wrap _ _).wrap _ _
    rw [List.flatMap_cons]
    exact hinside.append (balanced_varDataTokens ds)

mutual

theorem GroupDef.balanced_tokens : ∀ g : GroupDef, Balanced (g.tokens order)
  | ⟨_, _, _, dimension, fields, groups, varData⟩ => by
    rw [GroupDef.tokens]
    exact ((((dimension.balanced_tokens order 0).append (balanced_fieldTokens order 0 fields)).append
      (balanced_groupTokens groups)).append (balanced_varDataTokens order varData)).wrap _ _

theorem balanced_groupTokens : ∀ gs : List GroupDef, Balanced (groupTokens order gs)
  | [] => by
    rw [groupTokens]
    exact balanced_nil
  | g :: gs => by
    rw [groupTokens]
    exact (GroupDef.balanced_tokens g).append (balanced_groupTokens gs)

end

theorem MessageDef.checkMessage_tokens (m : MessageDef) : checkMessage (m.tokens order) = .ok () := by
  have hbalanced : Balanced (m.tokens order) := by
    unfold tokens
    exact (((balanced_fieldTokens order 0 m.fields).append
      (balanced_groupTokens order m.groups)).append (balanced_varDataTokens order m.varData)).wrap _ _
  obtain ⟨first, rest, htokens, hfirst⟩ : ∃ first rest, m.tokens order = first :: rest
      ∧ first.signal = .opens .message := ⟨_, _, rfl, rfl⟩
  unfold checkMessage
  rw [checkBalanced_of_balanced hbalanced, ok_bind, htokens]
  dsimp only
  rw [if_neg (not_not.2 hfirst)]
  rfl

end Balance

/-- Every stream of a flattened schema is balanced, and the stream of a message is read as what its
definition means. -/
theorem SchemaDef.flatten_readable : (∀ s : SchemaDef, s.flatten.verify = .ok ())
    ∧ ∀ (order : ByteOrder) (m : MessageDef), m.Sound → ∃ l, m.layout? order = some l
      ∧ MessageLayout.ofTokens (m.tokens order) = .ok l := by
  refine ⟨fun s => ?_, fun order m hm => ?_⟩
  · have htypes : s.flatten.types.forM checkBalanced = .ok () := by
      refine forM_eq_ok_iff.2 fun tokens htokens => ?_
      obtain ⟨t, -, rfl⟩ := List.mem_map.1 htokens
      exact checkBalanced_of_balanced (t.balanced_tokens s.byteOrder 0)
    have hmessages : s.flatten.messages.forM checkMessage = .ok () := by
      refine forM_eq_ok_iff.2 fun tokens htokens => ?_
      obtain ⟨m, -, rfl⟩ := List.mem_map.1 htokens
      exact m.checkMessage_tokens s.byteOrder
    unfold Schema.verify
    rw [show checkBalanced s.flatten.header = .ok () from
      checkBalanced_of_balanced (s.header.balanced_tokens s.byteOrder 0), ok_bind, htypes, ok_bind,
      hmessages]
  · obtain ⟨l, hl⟩ := hm.exists_layout? order
    exact ⟨l, hl, MessageDef.ofTokens_tokens_of_layout? hm hl⟩

namespace Orders

/-- The definition of an order. -/
def definition : MessageDef where
  name := "Order"
  id := 7
  fields := [
    { name := "symbol", id := 1, type := .primitive { name := "text", primitive := .char, arrayLength := 4 } },
    { name := "side", id := 2,
      type := .enumeration "Side" .uint8 [("BUY", .uint 1), ("SELL", .uint 2)] },
    { name := "lot", id := 3, type := .primitive {
        name := "lot", primitive := .uint8, presence := .constant, constValue := some (.uint 10) } }]
  groups := [{
    name := "fills", id := 4
    dimension := .ofPrimitives "dimension" [("blockLength", .uint8), ("numInGroup", .uint8)]
    fields := [{ name := "quantity", id := 5, type := .primitive {
      name := "int8", primitive := .int8, presence := .optional } }] }]
  varData := [{ name := "note", id := 6, lengthType := .uint8, characterEncoding := some "UTF-8" }]

/-- What it means: the layout of orders, with numbers for its elements. -/
def definedMessage : MessageLayout where
  name := "Order"
  id := 7
  sinceVersion := 0
  semanticType := none
  description := none
  body := {
    blockLength := 5
    fields := [⟨"symbol", 1, 0, 0, none, .primitive symbol⟩,
      ⟨"side", 2, 0, 4, none, .enumeration side⟩, ⟨"lot", 3, 0, 5, none, .primitive lot⟩]
    groups := [{ fills with
      id := 4
      body := ⟨1, [⟨"quantity", 5, 0, 0, none, .primitive quantity⟩], [], []⟩ }]
    varData := [{ note with id := 6, typeName := "varDataEncoding" }] }

theorem definition_sound : definition.Sound := by
  refine ⟨⟨?_, by simp [definition]⟩, ?_⟩
  · simp [definition, TypeDef.Sound, PrimitiveDef.Sound]
  · refine ⟨⟨?_, ⟨_, _, rfl, ?_⟩, ⟨?_, by simp⟩, trivial⟩, trivial⟩
    · simp [TypeDef.ofPrimitives, TypeDef.Sound, membersSound, PrimitiveDef.Sound]
    · simp [TypeDef.name]
    · simp [TypeDef.Sound, PrimitiveDef.Sound]

theorem layout?_definition : definition.layout? .littleEndian = some definedMessage := rfl

/-- The stream of an order is read as an order. -/
theorem ofTokens_definition :
    MessageLayout.ofTokens (definition.tokens .littleEndian) = .ok definedMessage := by
  obtain ⟨l, hl, h⟩ := SchemaDef.flatten_readable.2 .littleEndian definition definition_sound
  rw [layout?_definition] at hl
  cases hl
  exact h

def headerNumber : PrimitiveLayout :=
  ⟨.uint16, .littleEndian, 1, .required, none, .uint 65535, none⟩

/-- A header of four numbers of 16 bits. -/
def header : HeaderLayout where
  composite := {
    typeName := "messageHeader"
    encodedLength := 8
    members := [⟨"blockLength", -1, 0, 0, none, .primitive headerNumber⟩,
      ⟨"templateId", -1, 0, 2, none, .primitive headerNumber⟩,
      ⟨"schemaId", -1, 0, 4, none, .primitive headerNumber⟩,
      ⟨"version", -1, 0, 6, none, .primitive headerNumber⟩]
    description := none }
  blockLength := ⟨.uint16, .littleEndian, 0⟩
  templateId := ⟨.uint16, .littleEndian, 2⟩
  schemaId := ⟨.uint16, .littleEndian, 4⟩
  version := ⟨.uint16, .littleEndian, 6⟩

theorem ofTokens_header :
    HeaderLayout.ofTokens (TypeDef.messageHeader.tokens .littleEndian 0) = .ok header := by
  refine HeaderLayout.ofTokens_tokens_of_header? ?_ rfl
  simp [TypeDef.messageHeader, TypeDef.ofPrimitives, TypeDef.Sound, membersSound,
    PrimitiveDef.Sound]

end Orders

end SimpleBinary
