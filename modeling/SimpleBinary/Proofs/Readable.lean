import Mathlib
import SimpleBinary.Proofs.RoundTrip

/-!
# What a reader opens

The encoder checks every number, count and length that the decoder looks at, and the name of every
value of an enum; what it does not check is all texts.  Bytes given for a text are written as they
are, a text without a declared encoding is written in UTF-8 and read in ASCII, and so is the null
value of a text that is left out.  A message that was written is decoded just if each of its texts
is one in the encoding in which it is read (`MessageCodec.exists_decodeBody_iff`).
-/

namespace SimpleBinary

/-- Bytes that some text is written as, under an encoding that is interpreted. -/
def IsTextIn (encoding : String) (bs : Bytes) : Prop :=
  ∀ c, Charset.ofName? encoding = some c → ∃ cs, c.encode? cs = some bs

theorem exists_textValue?_iff {encoding : String} {bs : Bytes} :
    (∃ x, textValue? encoding bs = some x) ↔ IsTextIn encoding bs := by
  rw [textValue?, IsTextIn]
  cases Charset.ofName? encoding with
  | none => simp
  | some c => simp [← Charset.decode?_eq_some_iff]

/-! ## Texts of a value -/

/-- The text of a field is one up to its first zero byte. -/
def PrimitiveLayout.Readable (p : PrimitiveLayout) (v : Option Value) : Prop :=
  ¬p.isConstant → p.isText → ∀ bs ∈ p.textBytes? v,
    IsTextIn (p.characterEncoding.getD "US-ASCII") (bs.takeWhile (· != 0))

/-- The payload of var-data of a declared encoding is a text. -/
def VarDataLayout.Readable (d : VarDataLayout) (v : Option Value) : Prop :=
  ∀ encoding ∈ d.characterEncoding, ∀ payload ∈ d.payload? v, IsTextIn encoding payload

mutual

/-- The texts of a field are texts. -/
def FieldKind.Readable (v : Option Value) : FieldKind → Prop
  | .primitive p => p.Readable v
  | .composite ⟨_, _, members, _⟩ => ∀ x ∈ v, fieldsReadable x members
  | .enumeration _ => True
  | .set _ => True

def fieldsReadable (v : Value) : List FieldLayout → Prop
  | [] => True
  | ⟨name, _, _, _, _, kind⟩ :: fields =>
    kind.Readable (v.field? name) ∧ fieldsReadable v fields

end

mutual

/-- The texts of a body are texts. -/
def BodyLayout.Readable : BodyLayout → Value → Prop
  | ⟨_, fields, groups, varData⟩, v => fieldsReadable v fields ∧ groupsReadable groups v
    ∧ ∀ d ∈ varData, d.Readable (v.field? d.name)

def groupsReadable : List GroupLayout → Value → Prop
  | [], _ => True
  | ⟨name, _, _, _, body, _⟩ :: groups, v =>
    (∀ x ∈ v.field? name, ∀ y ∈ x.asArray, body.Readable y) ∧ groupsReadable groups v

end

/-! ## Fields -/

theorem PrimitiveLayout.exists_value?_iff {p : PrimitiveLayout} (hp : p.Laid) {v : Option Value}
    {w : Bytes} (h : p.image? v = some w) : (∃ x, p.value? w = some x) ↔ p.Readable v := by
  by_cases hc : p.isConstant
  · obtain ⟨l, hl⟩ := Option.isSome_iff_exists.1 (hp.2 hc)
    have hconst : p.constant? = some l := by rw [constant?, if_pos hc, hl]
    exact ⟨fun _ hn => absurd hc hn, fun _ => ⟨_, by rw [value?, hconst]⟩⟩
  · by_cases ht : p.isText
    · obtain ⟨bs, hbs, hval⟩ := value?_of_text hp hc ht h
      rw [hval, Readable, hbs]
      simp [hc, ht, ← exists_textValue?_iff]
    · refine ⟨fun _ _ h => absurd h ht, fun _ => ?_⟩
      by_cases ha : p.isArray
      · exact ⟨_, value?_array hc ht ha w⟩
      · exact ⟨_, value?_scalar hc ht ha w⟩

/-- A value of an enum is read, be it under another name. -/
theorem EnumLayout.exists_value?_of_image? {e : EnumLayout} (he : e.encoding.IsInteger) {x : Value}
    {w : Bytes} (h : e.image? x = some w) : ∃ y, e.value? w = some y := by
  obtain ⟨name, raw, raw', -, hraw, hkeeps, hval⟩ := value?_of_image? h
  rw [hval]
  cases hfind : e.byValue? raw' with
  | some v => exact ⟨_, rfl⟩
  | none =>
    rw [literalNamed?] at hraw
    split at hraw
    · cases hraw
      refine ⟨_, if_pos ?_⟩
      rw [Literal.agrees_comm]
      exact hkeeps.agrees he
    · obtain ⟨v, hv, rfl⟩ := Option.map_eq_some_iff.1 hraw
      rw [byValue?, List.find?_eq_none] at hfind
      exact absurd (hkeeps.agrees he) (hfind v (List.mem_of_find?_eq_some hv))

/-- The enums among kinds have integers for their elements. -/
def IntegerEnums (ks : List FieldKind) : Prop :=
  ∀ e, FieldKind.enumeration e ∈ ks → e.encoding.IsInteger

mutual

theorem FieldKind.exists_seen?_iff {v : Option Value} {w : Bytes} : ∀ {k : FieldKind}, k.Laid →
    IntegerEnums k.parts → k.image? v = some w → ((∃ x, k.seen? v = some x) ↔ k.Readable v)
  | .primitive p, hk, _, h => by
    rw [FieldKind.Laid] at hk
    rw [FieldKind.image?] at h
    rw [FieldKind.seen?, FieldKind.Readable, h, Option.bind_some, p.exists_value?_iff hk h]
  | .composite ⟨typeName, _, members, _⟩, hk, he, h => by
    rw [FieldKind.Laid] at hk
    rw [FieldKind.parts] at he
    rw [FieldKind.image?] at h
    obtain ⟨x, rfl, hx⟩ := Option.bind_eq_some_iff.1 h
    rw [Option.ite_none_right_eq_some] at hx
    obtain ⟨w, hw, rfl⟩ := Option.map_eq_some_iff.1 hx.2
    have hmembers := exists_fieldsSeen?_iff hk (fun e h => he e (List.mem_cons_of_mem _ h)) hw []
    rw [FieldKind.seen?, FieldKind.Readable, Option.bind_some]
    simp only [Option.map_eq_some_iff, Option.mem_some_iff, forall_eq']
    rw [← hmembers]
    exact ⟨fun ⟨_, fs, hfs, _⟩ => ⟨fs, hfs⟩, fun ⟨fs, hfs⟩ => ⟨_, fs, hfs, rfl⟩⟩
  | .enumeration e, _, he, h => by
    rw [FieldKind.parts] at he
    rw [FieldKind.image?] at h
    obtain ⟨x, rfl, hx⟩ := Option.bind_eq_some_iff.1 h
    obtain ⟨y, hy⟩ := e.exists_value?_of_image? (he e (List.mem_singleton.2 rfl)) hx
    rw [FieldKind.seen?, FieldKind.Readable, Option.bind_some, hx, Option.bind_some, hy]
    simp
  | .set s, _, _, h => by
    rw [FieldKind.image?] at h
    rw [FieldKind.seen?, FieldKind.Readable, h]
    simp

theorem exists_fieldsSeen?_iff {v : Value} {limit : Nat} : ∀ {fields : List FieldLayout}
    {cursor : Nat} {w : Bytes}, fieldsLaid cursor limit fields →
    IntegerEnums (fieldsParts fields) → fieldsImage? cursor v fields = some w → ∀ acc : Fields,
    (∃ acc', fieldsSeen? v acc fields = some acc') ↔ fieldsReadable v fields
  | [], _, _, _, _, _, _ => by simp [fieldsSeen?, fieldsReadable]
  | ⟨name, _, _, offset, _, kind⟩ :: fields, cursor, w, hl, he, h, acc => by
    rw [fieldsLaid] at hl
    rw [fieldsParts] at he
    obtain ⟨bs, rest, hb, hr, rfl⟩ := fieldsImage?_cons_eq_some_iff.1 h
    have hfirst := FieldKind.exists_seen?_iff hl.2.1 (fun e h => he e (List.mem_append_left _ h)) hb
    have hrest := exists_fieldsSeen?_iff hl.2.2 (fun e h => he e (List.mem_append_right _ h)) hr
    rw [fieldsSeen?, fieldsReadable, ← hfirst]
    cases kind.seen? (v.field? name) with
    | none => simp
    | some x => simp [hrest]

end

/-! ## Bodies -/

theorem VarDataLayout.exists_seen?_iff {d : VarDataLayout} {v : Option Value} {w : Bytes}
    (h : d.image? v = some w) : (∃ x, d.seen? v = some x) ↔ d.Readable v := by
  obtain ⟨payload, hp, -⟩ := Option.bind_eq_some_iff.1 h
  rw [seen?, hp, Option.bind_some, value?, Readable, hp]
  cases d.characterEncoding with
  | none => simp
  | some encoding => simp [exists_textValue?_iff]

theorem exists_varDataSeen?_iff {v : Value} : ∀ {ds : List VarDataLayout} {w : Bytes},
    varDataImage? v ds = some w → ∀ acc : Fields,
    (∃ acc', varDataSeen? v acc ds = some acc') ↔ ∀ d ∈ ds, d.Readable (v.field? d.name)
  | [], _, _, _ => by simp [varDataSeen?]
  | d :: ds, w, h, acc => by
    obtain ⟨bs, rest, hb, hr, rfl⟩ := concat?_cons_eq_some_iff.1 h
    have hrest := exists_varDataSeen?_iff hr
    rw [varDataSeen?, List.forall_mem_cons, ← VarDataLayout.exists_seen?_iff hb]
    cases d.seen? (v.field? d.name) with
    | none => simp
    | some x => simp [hrest]

theorem exists_mapM_iff {α β : Type} {f : α → Option β} {P : α → Prop} : ∀ {xs : List α},
    (∀ x ∈ xs, (∃ y, f x = some y) ↔ P x) → ((∃ ys, xs.mapM f = some ys) ↔ ∀ x ∈ xs, P x)
  | [], _ => by simp
  | x :: xs, h => by
    obtain ⟨hx, hxs⟩ := List.forall_mem_cons.1 h
    rw [List.forall_mem_cons, ← hx, ← exists_mapM_iff hxs, List.mapM_cons]
    cases f x with
    | none => simp
    | some y => cases xs.mapM f <;> simp

mutual

theorem BodyLayout.exists_seen?_iff : ∀ {b : BodyLayout}, b.Laid →
    (∀ b' ∈ b.bodies, IntegerEnums b'.kinds) → ∀ (name : String) {v : Value} {w : Bytes},
    b.image? v = some w → ((∃ x, b.seen? name v = some x) ↔ b.Readable v)
  | ⟨blockLength, fields, groups, varData⟩, hb, he, name, v, w, h => by
    have hin : ∀ g ∈ groups, ∀ b' ∈ g.body.bodies, IntegerEnums b'.kinds :=
      fun g hg b' hb' => he b' (mem_bodies_of_mem_groups hg hb')
    rw [BodyLayout.Laid] at hb
    obtain ⟨-, block, elements, data, hf, hg, hd, -⟩ := BodyLayout.image?_eq_some_iff.1 h
    have hfields := exists_fieldsSeen?_iff hb.1 (he _ (BodyLayout.self_mem_bodies _)) hf []
    have hgroups := exists_groupsSeen?_iff hb.2 hin hg
    have hdata := exists_varDataSeen?_iff hd
    rw [BodyLayout.seen?, BodyLayout.Readable, ← hfields]
    cases fieldsSeen? v [] fields with
    | none => simp
    | some acc =>
      simp only [Option.bind_eq_bind, Option.bind_some]
      rw [← hgroups acc]
      cases groupsSeen? groups v acc with
      | none => simp
      | some acc =>
        simp only [Option.bind_some]
        rw [← hdata acc]
        cases varDataSeen? v acc varData <;> simp

theorem exists_groupsSeen?_iff {v : Value} : ∀ {groups : List GroupLayout}, groupsLaid groups →
    (∀ g ∈ groups, ∀ b' ∈ g.body.bodies, IntegerEnums b'.kinds) → ∀ {w : Bytes},
    groupsImage? groups v = some w → ∀ acc : Fields,
    (∃ acc', groupsSeen? groups v acc = some acc') ↔ groupsReadable groups v
  | [], _, _, _, _, _ => by simp [groupsSeen?, groupsReadable]
  | ⟨name, _, _, dimension, body, _⟩ :: groups, hg, he, w, h, acc => by
    rw [groupsLaid] at hg
    obtain ⟨hbody, he⟩ := List.forall_mem_cons.1 he
    obtain ⟨elements, -, items, rest, hfield, -, hi, hr, -⟩ := groupsImage?_cons_eq_some_iff.1 h
    rw [groupsSeen?, groupsReadable]
    have hitems : (∃ xs, elements.mapM (fun x => body.seen? name x) = some xs)
        ↔ ∀ x ∈ elements, body.Readable x := exists_mapM_iff fun x hx => by
      obtain ⟨bs, hx'⟩ := exists_of_mem_concat? hi x hx
      exact BodyLayout.exists_seen?_iff hg.2.1 hbody name hx'
    have hrest := exists_groupsSeen?_iff hg.2.2 he hr
    simp only [hfield, Option.mem_some_iff, forall_eq', Value.asArray]
    rw [← hitems]
    cases elements.mapM fun x => body.seen? name x with
    | none => simp
    | some xs => simp [hrest]

end

/-! ## Messages -/

/-- A message that was written is decoded just if its texts are texts in the encodings in which they
are read. -/
theorem MessageCodec.exists_decodeBody_iff {m : MessageCodec} {tokens : List Token}
    (ht : MessageLayout.ofTokens tokens = .ok m.message)
    (hl : ∀ b ∈ m.message.body.bodies, b.Framed ∧ IntegerEnums b.kinds) {v : Value} {bs : Bytes}
    (hbs : m.encodeBody v = .ok bs) :
    (∃ x, m.decodeBody bs m.message.body.blockLength = .ok x) ↔ m.message.body.Readable v := by
  have hlaid := MessageLayout.laid_of_ofTokens ht
  rw [← BodyLayout.exists_seen?_iff hlaid (fun b hb => (hl b hb).2) m.message.name
    ((encodeBody_eq_ok_iff hlaid).1 hbs),
    ← toOption_decodeBody_of_encodeBody hlaid (fun b hb => (hl b hb).1) hbs]
  simp only [toOption_eq_some_iff]

namespace Orders

/-- An order of no fills. -/
def plain (symbol : String) : Value := .object "Order"
  [("fills", .array []), ("note", .text ""), ("side", .enumeration "Side" "BUY"),
   ("symbol", .text symbol)]

theorem integerEnums : ∀ b ∈ message.body.bodies, b.Framed ∧ IntegerEnums b.kinds := by
  intro b hb
  refine ⟨(message_sound b hb).1, fun e he => ?_⟩
  have hs := (message_sound b hb).2 _ he
  rw [FieldKind.Sound] at hs
  exact hs.encoding

/-- A symbol outside ASCII is written, and the message cannot be read. -/
theorem not_exists_decodeBody_accent :
    codec.encodeBody (plain "é") = .ok [195, 169, 0, 0, 1, 1, 0, 0]
      ∧ ¬∃ x, codec.decodeBody [195, 169, 0, 0, 1, 1, 0, 0] 5 = .ok x := by
  have hbs : codec.encodeBody (plain "é") = .ok [195, 169, 0, 0, 1, 1, 0, 0] := by rfl
  have hiff := MessageCodec.exists_decodeBody_iff (m := codec) ofTokens_tokens integerEnums hbs
  refine ⟨hbs, fun h => ?_⟩
  obtain ⟨⟨hsymbol, -⟩, -⟩ := hiff.1 h
  obtain ⟨cs, hcs⟩ := hsymbol (by decide) (by decide) [195, 169] rfl .ascii (by decide)
  rw [← Charset.decode?_eq_some_iff] at hcs
  cases hcs

end Orders

end SimpleBinary
