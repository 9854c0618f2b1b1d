import Mathlib
import SimpleBinary.Proofs.Documents
import SimpleBinary.Proofs.Printed
import SimpleBinary.Schema.Balanced
import SimpleBinary.Schema.Document

/-!
# Schemas are loaded as they were saved

The document of a schema is read back as the schema (`Schema.ofJson?_toJson`), but for the form of
its literals: a document does not tell whether an integer was kept with a sign, so one that fits with
a sign is read with a sign (`Literal.signed`).  The value is the same (`Literal.agrees_of_signed_eq`).
-/

namespace SimpleBinary

/-! ## Literals -/

namespace Literal

/-- A literal as a document tells of it: an integer has a sign if it fits with one. -/
def signed : Literal → Literal
  | .int v => .int v
  | .uint v => if v.toNat ≤ Int64.maxValue.toInt then .int (Int64.ofInt v.toNat) else .uint v
  | .float v => .float v
  | .bytes bs => .bytes bs

theorem integer?_signed (l : Literal) : l.signed.integer? = l.integer? := by
  cases l with
  | uint v =>
    rw [signed]
    split_ifs with h
    · have hlt : (v.toNat : Int) < 2 ^ 63 := lt_of_le_of_lt h (by decide)
      rw [integer?, integer?, Int64.toInt_ofInt_of_le (by omega) hlt]
    · rfl
  | _ => rfl

theorem signed_of_integer?_eq_none {l : Literal} (h : l.integer? = none) : l.signed = l := by
  cases l with
  | uint v => cases h
  | _ => rfl

theorem signed_signed (l : Literal) : l.signed.signed = l.signed := by
  cases l with
  | uint v =>
    rw [signed]
    split_ifs with h
    · rfl
    · rw [signed, if_neg h]
  | _ => rfl

theorem toNat?_signed (l : Literal) : l.signed.toNat? = l.toNat? := by
  cases h : l.integer? with
  | none => rw [signed_of_integer?_eq_none h]
  | some n =>
    rw [toNat?_of_integer? h, toNat?_of_integer? ((integer?_signed l).trans h)]

/-- Literals that a document does not tell apart have one value. -/
theorem agrees_of_signed_eq {l m : Literal} (h : l.signed = m.signed) : l.agrees m := by
  have hinteger : l.integer? = m.integer? := by
    rw [← integer?_signed l, h, integer?_signed]
  cases hl : l.integer? with
  | none =>
    rw [signed_of_integer?_eq_none hl, signed_of_integer?_eq_none (hinteger.symm.trans hl)] at h
    rw [h]
    exact agrees_self m
  | some n =>
    rw [agrees_congr_right (hinteger.symm.trans hl) hl]
    exact agrees_self_of_integer? hl

end Literal

/-! ## Schemas with other literals -/

def Encoding.mapLiterals (f : Literal → Literal) (e : Encoding) : Encoding :=
  { e with constValue := e.constValue.map f, nullValue := e.nullValue.map f }

def Token.mapLiterals (f : Literal → Literal) (t : Token) : Token :=
  { t with encoding := t.encoding.mapLiterals f }

def Schema.mapLiterals (f : Literal → Literal) (s : Schema) : Schema :=
  { s with
    header := s.header.map (·.mapLiterals f)
    messages := s.messages.map fun ts => ts.map (·.mapLiterals f)
    types := s.types.map fun ts => ts.map (·.mapLiterals f) }

section Members

variable (f : Literal → Literal) (t : Token)

@[simp]
theorem Token.signal_mapLiterals : (t.mapLiterals f).signal = t.signal := rfl

@[simp]
theorem Token.primitive_mapLiterals :
    (t.mapLiterals f).encoding.primitive = t.encoding.primitive := rfl

@[simp]
theorem Token.constValue_mapLiterals :
    (t.mapLiterals f).encoding.constValue = t.encoding.constValue.map f := rfl

@[simp]
theorem Token.nullValue_mapLiterals :
    (t.mapLiterals f).encoding.nullValue = t.encoding.nullValue.map f := rfl

end Members

/-! ## Reading what was written -/

/-- Items are read one by one as they were written. -/
theorem mapM_map_eq_some {α β : Type} {read : Json → Option α} {write : β → Json} {f : β → α}
    {bs : List β} (h : ∀ b ∈ bs, read (write b) = some (f b)) :
    (bs.map write).mapM read = some (bs.map f) :=
  mapM_eq_some_iff.2 (List.forall₂_map_left_iff.2 (List.forall₂_map_right_iff.2
    (List.forall₂_same.2 h)))

namespace Json

theorem int32?_toInt (n : Int32) : (Json.int n.toInt).int32? = some n := by
  have hmin := n.le_toInt
  have hmax := n.toInt_lt
  rw [int32?, intIn?, if_pos ⟨hmin, hmax⟩, Option.map_some, Int32.ofInt_toInt]

theorem size?_natCast {n : Nat} (h : n < UInt64.size) : (Json.int n).size? = some n := by
  rw [size?, intIn?, if_pos ⟨Int.natCast_nonneg n, by exact_mod_cast h⟩, Option.map_some,
    Int.toNat_natCast]

theorem text?_text (s : String) : (Json.text s).text? = some s := rfl

theorem byteOrder?_code (o : ByteOrder) : (Json.text o.code).byteOrder? = some o := by
  cases o <;> rfl

theorem presence?_code (p : Presence) : (Json.text p.code).presence? = some p := by
  cases p <;> rfl

theorem primitive?_name (p : Primitive) : (Json.text p.name).primitive? = some p := by
  cases p <;> rfl

theorem signal?_code (s : Signal) : (Json.text s.code).signal? = some s := by
  rcases s with c | c | _ | _ | _
  · cases c <;> rfl
  · cases c <;> rfl
  · rfl
  · rfl
  · rfl

theorem bytes?_ofBytes (bs : Bytes) : (ofBytes bs).bytes? = some bs := by
  have hread : (bs.map fun b => Json.int b.toNat).mapM byte? = some (bs.map id) :=
    mapM_map_eq_some fun b _ => byte?_toNat b
  rw [List.map_id] at hread
  exact hread

/-- A literal is read in its signed form. -/
theorem literal?_ofLiteral {l : Literal} (h : ∀ x, l = .float x → x.isFinite) :
    (ofLiteral l).literal? = some l.signed := by
  cases l with
  | int v =>
    rw [ofLiteral, literal?, int64?_toInt]
    rfl
  | uint v =>
    have hmin : Int64.minValue.toInt ≤ (v.toNat : Int) :=
      le_trans (by decide) (Int.natCast_nonneg v.toNat)
    have hint : (Json.int v.toNat).int64?
        = if (v.toNat : Int) ≤ Int64.maxValue.toInt then some (Int64.ofInt v.toNat) else none := by
      rw [int64?, intIn?]
      split_ifs <;> first | rfl | omega
    rw [ofLiteral, literal?, hint, uint64?_toNat, Literal.signed]
    split_ifs <;> rfl
  | float x =>
    have hx := h x rfl
    rw [ofLiteral, ofFloat, if_pos hx]
    rfl
  | bytes bs =>
    have hbytes := bytes?_ofBytes bs
    rw [ofLiteral]
    unfold literal?
    rw [hbytes]
    rfl

end Json

namespace Record

variable {α β : Type}

/-- An object whose members are named in the order of the record is that record. -/
theorem ofJson?_object {names : List String} (hnames : names.Nodup) {members : List (String × Json)}
    (h : (members.map (·.1)).Sublist names) : ofJson? names (.object members) = some ⟨false, members⟩ := by
  have hknown : members.filter (fun m => names.contains m.1) = members :=
    List.filter_eq_self.2 fun m hm =>
      List.contains_iff_mem.2 (h.subset (List.mem_map_of_mem hm))
  unfold ofJson?
  simp only [hknown]
  exact if_pos (h.nodup hnames)

variable {r : Record} {name : String} {j : Json} {read : Json → Option α}

theorem required_eq (h : r.members.lookup name = some j) : r.required name read = read j := by
  rw [required, h, Option.bind_some]

theorem defaulted_eq (h : r.members.lookup name = some j) (a : α) :
    r.defaulted name a read = read j := by
  rw [defaulted, h]

/-- A member that is `null` when there is nothing to write. -/
theorem optional_eq_map {write : β → Json} {f : β → α} {b : Option β}
    (h : r.members.lookup name = some (.ofOption write b))
    (hread : ∀ b' ∈ b, (write b').isNull = false ∧ read (write b') = some (f b')) :
    r.optional name read = some (b.map f) := by
  rw [optional, defaulted_eq h]
  cases b with
  | none => rfl
  | some b =>
    obtain ⟨hnull, hread⟩ := hread b rfl
    rw [Json.ofOption, hnull, if_neg (by decide), hread]
    rfl

/-- A member that is left out when there is nothing to write. -/
theorem optional_eq_text {s : Option String} (h : r.members.lookup name = s.map .text) :
    r.optional name Json.text? = some s := by
  cases s with
  | none => rw [optional, defaulted, h]; rfl
  | some s => rw [optional, defaulted_eq h]; rfl

end Record

/-! ## Documents of schemas -/

/-- The literals of an encoding. -/
def Encoding.literals (e : Encoding) : List Literal := e.constValue.toList ++ e.nullValue.toList

/-- The doubles among the literals of a token. -/
def Token.floats (t : Token) : List Binary64 :=
  t.encoding.literals.filterMap fun
    | .float x => some x
    | _ => none

theorem Token.mem_floats {t : Token} {x : Binary64} :
    x ∈ t.floats ↔ .float x ∈ t.encoding.literals := by
  rw [floats, List.mem_filterMap]
  constructor
  · rintro ⟨l, hl, heq⟩
    cases l <;> cases heq
    exact hl
  · exact fun h => ⟨_, h, rfl⟩

/-- Whether the sizes of a token have 64 bits. -/
def Token.IsSized (t : Token) : Prop :=
  ∀ n ∈ [t.offset, t.encodedLength, t.componentTokenCount, t.arrayLength], n < UInt64.size

theorem Json.optional_ofLiteral {r : Record} {name : String} {o : Option Literal}
    (h : r.members.lookup name = some (.ofOption .ofLiteral o))
    (hfinite : ∀ l ∈ o, ∀ x, l = .float x → x.isFinite) :
    r.optional name Json.literal? = some (o.map Literal.signed) := by
  refine Record.optional_eq_map h fun l hl => ⟨?_, literal?_ofLiteral (hfinite l hl)⟩
  cases l with
  | float x =>
    rw [ofLiteral, ofFloat, if_pos (hfinite _ hl x rfl)]
    rfl
  | _ => rfl

theorem Encoding.ofJson?_toJson {e : Encoding}
    (hfinite : ∀ l ∈ e.literals, ∀ x, l = .float x → x.isFinite) :
    ofJson? e.toJson = some (e.mapLiterals .signed) := by
  have hrecord : Record.ofJson? memberNames e.toJson = some _ :=
    Record.ofJson?_object (by decide) (List.Sublist.refl memberNames)
  have hconst : ∀ l ∈ e.constValue, ∀ x, l = .float x → x.isFinite := fun l hl =>
    hfinite l (List.mem_append_left _ (Option.mem_toList.2 hl))
  have hnull : ∀ l ∈ e.nullValue, ∀ x, l = .float x → x.isFinite := fun l hl =>
    hfinite l (List.mem_append_right _ (Option.mem_toList.2 hl))
  unfold ofJson?
  simp only [Option.bind_eq_bind]
  rw [hrecord, Option.bind_some,
    Record.defaulted_eq rfl, Json.presence?_code, Option.bind_some,
    Record.optional_eq_map (f := id) rfl fun p _ => ⟨rfl, Json.primitive?_name p⟩, Option.bind_some,
    Record.defaulted_eq rfl, Json.byteOrder?_code, Option.bind_some,
    Json.optional_ofLiteral rfl hconst, Option.bind_some,
    Json.optional_ofLiteral rfl hnull, Option.bind_some,
    Record.optional_eq_map (f := id) rfl fun s _ => ⟨rfl, Json.text?_text s⟩, Option.bind_some,
    Option.map_id, Option.map_id]
  rfl

theorem optionalMember_sublist (name : String) (s : Option String) :
    ((optionalMember name s).map (·.1)).Sublist [name] := by
  cases s with
  | none => exact List.nil_sublist [name]
  | some s => exact List.Sublist.refl [name]

namespace Token

/-- The members of a token's document. -/
theorem exists_record (t : Token) :
    ∃ r, Record.ofJson? memberNames t.toJson = some r
      ∧ r.members.lookup "signal" = some (.text t.signal.code)
      ∧ r.members.lookup "name" = some (.text t.name)
      ∧ r.members.lookup "referenced_name" = t.referencedName.map .text
      ∧ r.members.lookup "description" = t.description.map .text
      ∧ r.members.lookup "id" = some (.int t.id.toInt)
      ∧ r.members.lookup "version" = some (.int t.version.toInt)
      ∧ r.members.lookup "offset" = some (.int t.offset)
      ∧ r.members.lookup "encoded_length" = some (.int t.encodedLength)
      ∧ r.members.lookup "component_token_count" = some (.int t.componentTokenCount)
      ∧ r.members.lookup "array_length" = some (.int t.arrayLength)
      ∧ r.members.lookup "encoding" = some t.encoding.toJson := by
  obtain ⟨signal, name, referencedName, description, id, version, offset, encodedLength,
    componentTokenCount, arrayLength, encoding⟩ := t
  refine ⟨_, Record.ofJson?_object (by decide) ?_, ?_⟩
  · rw [List.map_append, List.map_append, List.map_append]
    exact (((List.Sublist.refl ["signal", "name"]).append (optionalMember_sublist _ _)).append
      (optionalMember_sublist _ _)).append (List.Sublist.refl (memberNames.drop 4))
  · cases referencedName <;> cases description <;>
      exact ⟨rfl, rfl, rfl, rfl, rfl, rfl, rfl, rfl, rfl, rfl, rfl⟩

theorem ofJson?_toJson {t : Token} (hsized : t.IsSized) (hfinite : ∀ x ∈ t.floats, x.isFinite) :
    ofJson? t.toJson = some (t.mapLiterals .signed) := by
  obtain ⟨r, hrecord, hsignal, hname, hreferenced, hdescription, hid, hversion, hoffset, hlength,
    hcount, harray, hencoding⟩ := t.exists_record
  have hsizes := hsized
  simp only [IsSized, List.forall_mem_cons] at hsizes
  obtain ⟨hoffset', hlength', hcount', harray', -⟩ := hsizes
  have hliterals : ∀ l ∈ t.encoding.literals, ∀ x, l = .float x → x.isFinite := by
    rintro _ hl x rfl
    exact hfinite x (mem_floats.2 hl)
  unfold ofJson?
  simp only [Option.bind_eq_bind]
  rw [hrecord, Option.bind_some,
    Record.required_eq hsignal, Json.signal?_code, Option.bind_some,
    Record.required_eq hname, Json.text?_text, Option.bind_some,
    Record.optional_eq_text hreferenced, Option.bind_some,
    Record.optional_eq_text hdescription, Option.bind_some,
    Record.defaulted_eq hid, Json.int32?_toInt, Option.bind_some,
    Record.defaulted_eq hversion, Json.int32?_toInt, Option.bind_some,
    Record.defaulted_eq hoffset, Json.size?_natCast hoffset', Option.bind_some,
    Record.defaulted_eq hlength, Json.size?_natCast hlength', Option.bind_some,
    Record.defaulted_eq hcount, Json.size?_natCast hcount', Option.bind_some,
    Record.defaulted_eq harray, Json.size?_natCast harray', Option.bind_some,
    Record.defaulted_eq hencoding, Encoding.ofJson?_toJson hliterals, Option.bind_some]
  rfl

theorem stream?_streamToJson {ts : List Token}
    (h : ∀ t ∈ ts, t.IsSized ∧ ∀ x ∈ t.floats, x.isFinite) :
    stream? (streamToJson ts) = some (ts.map (·.mapLiterals .signed)) :=
  mapM_map_eq_some fun t ht => ofJson?_toJson (h t ht).1 (h t ht).2

end Token

namespace Schema

/-- The tokens of a schema's streams. -/
def tokens (s : Schema) : List Token := s.header ++ s.messages.flatten ++ s.types.flatten

theorem exists_record (s : Schema) :
    ∃ r, Record.ofJson? memberNames s.toJson = some r
      ∧ r.members.lookup "package_name" = s.package.map .text
      ∧ r.members.lookup "id" = some (.int s.id.toInt)
      ∧ r.members.lookup "version" = some (.int s.version.toInt)
      ∧ r.members.lookup "byte_order" = some (.text s.byteOrder.code)
      ∧ r.members.lookup "header_structure" = some (Token.streamToJson s.header)
      ∧ r.members.lookup "messages" = some (.array (s.messages.map Token.streamToJson))
      ∧ r.members.lookup "types" = some (.array (s.types.map Token.streamToJson)) := by
  obtain ⟨package, id, version, byteOrder, header, messages, types⟩ := s
  refine ⟨_, Record.ofJson?_object (by decide) ?_, ?_⟩
  · rw [List.map_append]
    exact (optionalMember_sublist _ _).append (List.Sublist.refl (memberNames.drop 1))
  · cases package <;> exact ⟨rfl, rfl, rfl, rfl, rfl, rfl, rfl⟩

/-- The document of a schema is read as the schema, its literals in their signed forms. -/
theorem ofJson?_toJson {s : Schema}
    (h : ∀ t ∈ s.tokens, t.IsSized ∧ ∀ x ∈ t.floats, x.isFinite) :
    ofJson? s.toJson = some (s.mapLiterals .signed) := by
  obtain ⟨r, hrecord, hpackage, hid, hversion, horder, hheader, hmessages, htypes⟩ := s.exists_record
  rw [tokens, List.forall_mem_append, List.forall_mem_append] at h
  obtain ⟨⟨hheader', hmessages'⟩, htypes'⟩ := h
  have hstreams : ∀ {streams : List (List Token)},
      (∀ t ∈ streams.flatten, t.IsSized ∧ ∀ x ∈ t.floats, x.isFinite) →
      Json.listOf? Token.stream? (.array (streams.map Token.streamToJson))
        = some (streams.map fun ts => ts.map (·.mapLiterals .signed)) := fun h =>
    mapM_map_eq_some fun ts hts => Token.stream?_streamToJson fun t ht =>
      h t (List.mem_flatten_of_mem hts ht)
  unfold ofJson?
  simp only [Option.bind_eq_bind]
  rw [hrecord, Option.bind_some,
    Record.optional_eq_text hpackage, Option.bind_some,
    Record.required_eq hid, Json.int32?_toInt, Option.bind_some,
    Record.required_eq hversion, Json.int32?_toInt, Option.bind_some,
    Record.defaulted_eq horder, Json.byteOrder?_code, Option.bind_some,
    Record.required_eq hheader, Token.stream?_streamToJson hheader', Option.bind_some,
    Record.defaulted_eq hmessages, hstreams hmessages', Option.bind_some,
    Record.defaulted_eq htypes, hstreams htypes', Option.bind_some]
  rfl

end Schema

/-! ## Writing schemas -/

namespace Json

theorem itemsWritable_iff : ∀ {js : List Json}, itemsWritable js ↔ ∀ j ∈ js, j.Writable
  | [] => by simp [itemsWritable]
  | j :: js => by rw [itemsWritable, itemsWritable_iff, List.forall_mem_cons]

theorem membersWritable_iff : ∀ {ms : List (String × Json)},
    membersWritable ms ↔ ∀ m ∈ ms, m.2.Writable
  | [] => by simp [membersWritable]
  | (name, j) :: ms => by rw [membersWritable, membersWritable_iff, List.forall_mem_cons]

theorem writable_int32 (n : Int32) : (Json.int n.toInt).Writable := by
  have hmin := n.le_toInt
  have hmax := n.toInt_lt
  have h64 : Int64.minValue.toInt = -2 ^ 63 := by decide
  have hsize : (UInt64.size : Int) = 2 ^ 64 := rfl
  exact ⟨by omega, by omega⟩

theorem writable_natCast {n : Nat} (h : n < UInt64.size) : (Json.int n).Writable :=
  ⟨le_trans (by decide) (Int.natCast_nonneg n), by exact_mod_cast h⟩

theorem writable_ofOption {α : Type} {f : α → Json} {o : Option α} (h : ∀ a ∈ o, (f a).Writable) :
    (ofOption f o).Writable := by
  cases o with
  | none => exact trivial
  | some a => exact h a rfl

theorem writable_ofLiteral {l : Literal} (h : ∀ x, l = .float x → x.isFinite ∧ x.IsReadBack) :
    (ofLiteral l).Writable := by
  cases l with
  | int v =>
    have hmax := v.toInt_lt
    have hsize : (UInt64.size : Int) = 2 ^ 64 := rfl
    exact ⟨v.minValue_le_toInt, by omega⟩
  | uint v => exact writable_natCast v.toNat_lt
  | float x =>
    rw [ofLiteral, ofFloat, if_pos (h x rfl).1]
    exact h x rfl
  | bytes bs =>
    refine itemsWritable_iff.2 fun j hj => ?_
    obtain ⟨b, -, rfl⟩ := List.mem_map.1 hj
    exact writable_natCast (lt_trans b.toNat_lt (by decide))

end Json

theorem membersWritable_optionalMember (name : String) (s : Option String) :
    ∀ m ∈ optionalMember name s, m.2.Writable := by
  cases s with
  | none => exact fun _ h => absurd h List.not_mem_nil
  | some s => exact List.forall_mem_singleton.2 trivial

theorem Encoding.writable_toJson {e : Encoding}
    (h : ∀ l ∈ e.literals, ∀ x, l = .float x → x.isFinite ∧ x.IsReadBack) : e.toJson.Writable := by
  refine Json.membersWritable_iff.2 ?_
  simp only [List.forall_mem_cons]
  refine ⟨trivial, Json.writable_ofOption fun _ _ => trivial, trivial,
    Json.writable_ofOption fun l hl => Json.writable_ofLiteral (h l ?_),
    Json.writable_ofOption fun l hl => Json.writable_ofLiteral (h l ?_),
    Json.writable_ofOption fun _ _ => trivial, fun _ h => absurd h List.not_mem_nil⟩
  · exact List.mem_append_left _ (Option.mem_toList.2 hl)
  · exact List.mem_append_right _ (Option.mem_toList.2 hl)

/-- Whether a document's text can hold a token. -/
def Token.IsSavable (t : Token) : Prop :=
  t.IsSized ∧ ∀ x ∈ t.floats, x.isFinite ∧ x.IsReadBack

theorem Token.writable_toJson {t : Token} (h : t.IsSavable) : t.toJson.Writable := by
  obtain ⟨hsized, hfloats⟩ := h
  simp only [IsSized, List.forall_mem_cons] at hsized
  obtain ⟨hoffset, hlength, hcount, harray, -⟩ := hsized
  have hencoding : t.encoding.toJson.Writable := Encoding.writable_toJson (by
    rintro _ hl x rfl
    exact hfloats x (mem_floats.2 hl))
  refine Json.membersWritable_iff.2 ?_
  simp only [List.forall_mem_append, List.forall_mem_cons]
  exact ⟨⟨⟨⟨trivial, trivial, fun _ h => absurd h List.not_mem_nil⟩,
      membersWritable_optionalMember _ _⟩, membersWritable_optionalMember _ _⟩,
    Json.writable_int32 _, Json.writable_int32 _, Json.writable_natCast hoffset,
    Json.writable_natCast hlength, Json.writable_natCast hcount, Json.writable_natCast harray,
    hencoding, fun _ h => absurd h List.not_mem_nil⟩

namespace Schema

theorem writable_toJson {s : Schema} (h : ∀ t ∈ s.tokens, t.IsSavable) : s.toJson.Writable := by
  rw [tokens, List.forall_mem_append, List.forall_mem_append] at h
  obtain ⟨⟨hheader, hmessages⟩, htypes⟩ := h
  have hstream : ∀ {ts : List Token}, (∀ t ∈ ts, t.IsSavable) → (Token.streamToJson ts).Writable := by
    intro ts hts
    refine Json.itemsWritable_iff.2 fun j hj => ?_
    obtain ⟨t, ht, rfl⟩ := List.mem_map.1 hj
    exact Token.writable_toJson (hts t ht)
  have hstreams : ∀ {streams : List (List Token)}, (∀ t ∈ streams.flatten, t.IsSavable) →
      (Json.array (streams.map Token.streamToJson)).Writable := by
    intro streams h
    refine Json.itemsWritable_iff.2 fun j hj => ?_
    obtain ⟨ts, hts, rfl⟩ := List.mem_map.1 hj
    exact hstream fun t ht => h t (List.mem_flatten_of_mem hts ht)
  refine Json.membersWritable_iff.2 ?_
  simp only [List.forall_mem_append, List.forall_mem_cons]
  exact ⟨membersWritable_optionalMember _ _, Json.writable_int32 _, Json.writable_int32 _, trivial,
    hstream hheader, hstreams hmessages, hstreams htypes, fun _ h => absurd h List.not_mem_nil⟩

/-- A schema is read from the text of its document, compact or pretty. -/
theorem parse?_text {s : Schema} (h : ∀ t ∈ s.tokens, t.IsSavable) {text : String}
    (htext : text ∈ [s.toJson.compact, s.toJson.pretty]) :
    parse? text = some (s.mapLiterals .signed) := by
  have hwritable := writable_toJson h
  have hjson : Json.parse? text = some s.toJson := by
    rcases List.mem_pair.1 htext with rfl | rfl
    · exact Json.parse?_compact hwritable
    · exact Json.parse?_pretty hwritable
  rw [parse?, hjson, Option.bind_some]
  exact ofJson?_toJson fun t ht => ⟨(h t ht).1, fun x hx => ((h t ht).2 x hx).1⟩

end Schema

/-! ## Checking what was loaded -/

theorem checkBalancedFrom_mapLiterals (f : Literal → Literal) : ∀ (ts : List Token)
    (opened : List (Nat × Token)) (index : Nat),
    checkBalancedFrom (opened.map fun o => (o.1, o.2.mapLiterals f)) index
        (ts.map (·.mapLiterals f))
      = checkBalancedFrom opened index ts
  | [], [], _ => rfl
  | [], _ :: _, _ => rfl
  | t :: ts, opened, index => by
    have ih := checkBalancedFrom_mapLiterals f ts
    rw [List.map_cons, checkBalancedFrom, checkBalancedFrom, Token.signal_mapLiterals]
    cases t.signal with
    | opens c => exact ih ((index, t) :: opened) (index + 1)
    | closes c =>
      cases opened with
      | nil => rfl
      | cons o opened =>
        rw [List.map_cons]
        dsimp only
        rw [ih opened (index + 1)]
        rfl
    | validValue | choice | encoding =>
      dsimp only
      rw [ih opened (index + 1)]
      rfl

theorem checkBalanced_mapLiterals (f : Literal → Literal) (ts : List Token) :
    checkBalanced (ts.map (·.mapLiterals f)) = checkBalanced ts :=
  checkBalancedFrom_mapLiterals f ts [] 0

theorem checkMessage_mapLiterals (f : Literal → Literal) (ts : List Token) :
    checkMessage (ts.map (·.mapLiterals f)) = checkMessage ts := by
  unfold checkMessage
  rw [checkBalanced_mapLiterals]
  cases ts <;> rfl

theorem Schema.verify_mapLiterals (f : Literal → Literal) (s : Schema) :
    (s.mapLiterals f).verify = s.verify := by
  unfold verify mapLiterals
  dsimp only
  simp only [List.forM_eq_forM, List.forM_map, checkBalanced_mapLiterals, checkMessage_mapLiterals]

end SimpleBinary
