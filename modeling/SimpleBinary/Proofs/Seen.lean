import Mathlib
import SimpleBinary.Codec.Message
import SimpleBinary.Proofs.Images
import SimpleBinary.Proofs.Readings

/-!
# What a reader sees of a value

A value that was written is read field by field from the places where its fields were put, so what
is read is known without the bytes: `BodyLayout.seen?` goes through the value once and looks at each
element as it comes back.  `BodyLayout.parse?_image?` says that reading the bytes of a value gives
just that, whatever follows them, and leaves what follows.  It needs the slots of headers to be
integers and no element of a group to be empty (`BodyLayout.Framed`): a count is checked against the
bytes that are left, one for each element at the least.
-/

namespace SimpleBinary

/-! ## Elements -/

section Elements

variable {p : Primitive} {order : ByteOrder}

theorem literalOf_word_of_encode? {l : Literal} {bs : Bytes} (h : p.encode? order l = some bs) :
    ∃ w, p.word? l = some w ∧ order.word bs = w := by
  obtain ⟨w, hw, rfl⟩ := Option.map_eq_some_iff.1 h
  exact ⟨w, hw, order.word_bytes_of_lt (Primitive.word?_lt hw)⟩

/-- What was written element by element is read element by element. -/
theorem forall₂_literalsIn : ∀ {ls : List Literal} {bs : Bytes},
    concat? (p.encode? order) ls = some bs → ∀ post,
    List.Forall₂ (fun l l' => ∃ w, p.word? l = some w ∧ l' = p.literalOf w) ls
      (literalsIn p order ls.length (bs ++ post))
  | [], _, _, _ => .nil
  | l :: ls, bs, h, post => by
    obtain ⟨first, rest, hf, hr, rfl⟩ := concat?_cons_eq_some_iff.1 h
    have hlen := length_encode? hf
    obtain ⟨w, hw, hword⟩ := literalOf_word_of_encode? hf
    rw [List.length_cons, literalsIn, List.append_assoc, ← hlen, List.take_left, List.drop_left,
      hword]
    exact .cons ⟨w, hw, rfl⟩ (forall₂_literalsIn hr post)

end Elements

/-! ## Fields -/

mutual

/-- What is read of a field's value; nothing where it comes back as the null value. -/
def FieldKind.seen? (v : Option Value) : FieldKind → Option (Option Value)
  | .primitive p => (p.image? v).bind p.value?
  | .composite ⟨typeName, _, members, _⟩ => v.bind fun v =>
    (fieldsSeen? v [] members).map fun fields => some (.object typeName fields)
  | .enumeration e => (v.bind e.image?).bind fun bs => (e.value? bs).map some
  | .set s => (v.bind s.image?).map fun bs => some (s.value bs)

/-- What is read of the fields of a value, on top of `acc`. -/
def fieldsSeen? (v : Value) (acc : Fields) : List FieldLayout → Option Fields
  | [] => some acc
  | ⟨name, _, _, _, _, kind⟩ :: fields => do
    let x ← kind.seen? (v.field? name)
    fieldsSeen? v (addField name x acc) fields

end

mutual

theorem FieldKind.value?_image? {v : Option Value} {w : Bytes} : ∀ {k : FieldKind}, k.Laid →
    k.image? v = some w → k.value? w = k.seen? v
  | .primitive p, _, h => by
    rw [FieldKind.image?] at h
    rw [FieldKind.value?, FieldKind.seen?, h, Option.bind_some]
  | .composite ⟨typeName, encodedLength, members, _⟩, hk, h => by
    rw [FieldKind.Laid] at hk
    rw [FieldKind.image?] at h
    obtain ⟨v, rfl, hv⟩ := Option.bind_eq_some_iff.1 h
    rw [Option.ite_none_right_eq_some] at hv
    obtain ⟨w, hw, rfl⟩ := Option.map_eq_some_iff.1 hv.2
    rw [FieldKind.value?, FieldKind.seen?, Option.bind_some, fieldsValue?_image? none hk
      hw (by simp) (show (padTo encodedLength w).drop 0 = w ++ zeros (encodedLength - w.length) from
        rfl)]
  | .enumeration e, _, h => by
    rw [FieldKind.image?] at h
    rw [FieldKind.value?, FieldKind.seen?, h, Option.bind_some]
  | .set s, _, h => by
    rw [FieldKind.image?] at h
    rw [FieldKind.value?, FieldKind.seen?, h, Option.map_some]

/-- Fields are read where they were put, if the block is as long as it was laid out. -/
theorem fieldsValue?_image? {v : Value} {length : Nat} {block : Bytes} (limit : Option Nat) :
    ∀ {fields : List FieldLayout} {cursor : Nat} {w post : Bytes} {acc : Fields},
    fieldsLaid cursor length fields → fieldsImage? cursor v fields = some w →
    (∀ n ∈ limit, length ≤ n) → block.drop cursor = w ++ post →
    fieldsValue? limit block acc fields = fieldsSeen? v acc fields
  | [], _, _, _, _, _, _, _, _ => by rw [fieldsValue?, fieldsSeen?]
  | ⟨name, _, _, offset, _, kind⟩ :: fields, cursor, w, post, acc, hl, h, hlimit, hblock => by
    rw [fieldsLaid] at hl
    obtain ⟨hcur, hk, hrest⟩ := hl
    obtain ⟨bs, rest, hb, hr, rfl⟩ := fieldsImage?_cons_eq_some_iff.1 h
    have hle := fieldsLaid_le hrest
    have hbs := FieldKind.length_image? hk hb
    have hoffset : block.drop offset = bs ++ (rest ++ post) := by
      rw [← Nat.add_sub_cancel' hcur, ← List.drop_drop, hblock, List.append_assoc,
        List.append_assoc, List.drop_left' (length_zeros _)]
    have hstop : block.drop (offset + kind.width) = rest ++ post := by
      rw [← List.drop_drop, hoffset, ← hbs, List.drop_left]
    rw [fieldsValue?, fieldsSeen?, if_pos (isWithin_iff.2 (.inr fun n hn => by
      have := hlimit n hn
      omega)), hoffset, ← hbs, List.take_left, FieldKind.value?_image? hk hb]
    cases kind.seen? (v.field? name) with
    | none => rfl
    | some x => exact fieldsValue?_image? limit hrest hr hlimit hstop

end

/-- In a block of their own, filled up, all fields are within what is read. -/
theorem fieldsValue?_padTo_image? {v : Value} {fields : List FieldLayout} {n : Nat} {block : Bytes}
    (hl : fieldsLaid 0 n fields) (h : fieldsImage? 0 v fields = some block) :
    fieldsValue? (some n) (padTo n block) [] fields = fieldsSeen? v [] fields := by
  have hdrop : (padTo n block).drop 0 = block ++ zeros (n - block.length) := by
    rw [List.drop_zero, padTo_eq]
  exact fieldsValue?_image? (some n) hl h (fun m hm => le_of_eq (Option.some.inj hm)) hdrop

/-! ## Headers and var-data -/

theorem take_drop_overwrite_self {pos : Nat} {bs image : Bytes} (h : pos ≤ image.length) :
    ((overwrite pos bs image).drop pos).take bs.length = bs := by
  have hpos : (image.take pos).length = pos := by
    rw [List.length_take]
    omega
  rw [overwrite, List.append_assoc, List.drop_left' hpos, List.take_left]

/-- What lies apart from the bytes put is as before. -/
theorem take_drop_overwrite_of_apart {pos offset width : Nat} {bs image : Bytes}
    (h : pos + bs.length ≤ image.length) (ha : offset + width ≤ pos ∨ pos + bs.length ≤ offset) :
    ((overwrite pos bs image).drop offset).take width = (image.drop offset).take width := by
  apply List.ext_getElem?
  intro i
  simp only [overwrite, List.getElem?_take, List.getElem?_drop]
  split
  · rcases ha with ha | ha
    · rw [List.append_assoc, List.getElem?_append_left (by rw [List.length_take]; omega),
        List.getElem?_take, if_pos (by omega)]
    · rw [List.getElem?_append_right (by rw [List.length_append, List.length_take]; omega),
        List.getElem?_drop, List.length_append, List.length_take]
      congr 1
      omega
  · rfl

/-- A float is no length. -/
theorem HeaderSlot.isInteger_of_value? {s : HeaderSlot} {header : Bytes} {n : Nat}
    (h : s.value? header = some n) : s.primitive.IsInteger := by
  rw [value?] at h
  rcases s.primitive.kind_cases with hk | hk | hk | hk
  · rcases hk with hk | hk <;> simp [Primitive.IsInteger, hk]
  · simp [Primitive.IsInteger, hk]
  · rw [hk] at h
    cases h
  · rw [hk] at h
    cases h

theorem HeaderSlot.value?_append {s : HeaderSlot} {header : Bytes}
    (h : s.offset + s.width ≤ header.length) (rest : Bytes) :
    s.value? (header ++ rest) = s.value? header := by
  unfold value?
  rw [List.drop_append_of_le_length (by omega),
    List.take_append_of_le_length (by rw [List.length_drop]; omega)]

theorem HeaderSlot.value?_image? {s : HeaderSlot} {n : Nat} {bs header : Bytes}
    (hs : s.primitive.IsInteger) (h : s.image? n = some bs)
    (hh : (header.drop s.offset).take bs.length = bs) : s.value? header = some n := by
  have hlen := HeaderSlot.length_image? h
  rw [image?, Option.ite_none_right_eq_some] at h
  obtain ⟨w, hw, hword⟩ := literalOf_word_of_encode? h.2
  rw [value?, ← hlen, hh, hword, Primitive.toNat?_literalOf hs hw, UInt64.toNat_ofNat_of_lt' h.1]

/-- Both slots of a group's header are read back, whatever follows the header. -/
theorem DimensionLayout.value?_image? {d : DimensionLayout} (hd : d.Laid)
    (hbl : d.blockLength.primitive.IsInteger) (hn : d.numInGroup.primitive.IsInteger)
    {blockLength count : Nat} {header : Bytes} (h : d.image? blockLength count = some header)
    (rest : Bytes) : d.blockLength.value? (header ++ rest) = some blockLength
      ∧ d.numInGroup.value? (header ++ rest) = some count := by
  have hlen := length_image? hd h
  obtain ⟨length, hl, h⟩ := Option.bind_eq_some_iff.1 h
  obtain ⟨number, hm, h⟩ := Option.bind_eq_some_iff.1 h
  have hlw := HeaderSlot.length_image? hl
  have hnw := HeaderSlot.length_image? hm
  have h1 := hd.blockLength
  have h2 := hd.numInGroup
  have h3 := hd.apart
  have hinner : (overwrite d.blockLength.offset length (zeros d.encodedLength)).length
      = (zeros d.encodedLength).length := length_overwrite (by
    rw [length_zeros]
    omega)
  rw [length_zeros] at hinner
  have hfirst : (header.drop d.blockLength.offset).take length.length = length := by
    cases h
    rw [take_drop_overwrite_of_apart (by omega) (by omega),
      take_drop_overwrite_self (by rw [length_zeros]; omega)]
  have hsecond : (header.drop d.numInGroup.offset).take number.length = number := by
    cases h
    exact take_drop_overwrite_self (by omega)
  rw [HeaderSlot.value?_append (by omega), HeaderSlot.value?_append (by omega)]
  exact ⟨HeaderSlot.value?_image? hbl hl hfirst, HeaderSlot.value?_image? hn hm hsecond⟩

/-- The header of a group is read back if the elements it counts can follow. -/
theorem DimensionLayout.parse?_image? {d : DimensionLayout} (hd : d.Laid)
    (hbl : d.blockLength.primitive.IsInteger) (hn : d.numInGroup.primitive.IsInteger)
    {blockLength count : Nat} {header : Bytes} (h : d.image? blockLength count = some header)
    (trailerLength : Nat) {rest : Bytes}
    (hrest : count * elementLength blockLength trailerLength ≤ rest.length) :
    d.parse? trailerLength (header ++ rest) = some (⟨blockLength, count⟩, rest) := by
  have hlen := length_image? hd h
  obtain ⟨hv1, hv2⟩ := value?_image? hd hbl hn h rest
  rw [parse?, if_neg (by rw [List.length_append]; omega), hv1, hv2]
  simp only [Option.bind_eq_bind, Option.bind_some, ← hlen, List.drop_left]
  rw [if_neg (not_lt.2 hrest)]

/-- What is read of var-data. -/
def VarDataLayout.seen? (d : VarDataLayout) (v : Option Value) : Option Value :=
  (d.payload? v).bind d.value?

theorem VarDataLayout.parse?_image? {d : VarDataLayout} (hd : d.length.primitive.IsInteger)
    {v : Option Value} {w : Bytes} (h : d.image? v = some w) (post : Bytes) :
    d.parse? (w ++ post) = (d.seen? v).map fun v => (v, post) := by
  obtain ⟨payload, hp, h⟩ := Option.bind_eq_some_iff.1 h
  obtain ⟨length, hl, h⟩ := Option.bind_eq_some_iff.1 h
  cases h
  have hlw := HeaderSlot.length_image? hl
  have hheader : (zeros d.length.offset ++ length).length = d.headerLength := by
    rw [List.length_append, length_zeros, hlw, headerLength]
  have hv : d.length.value? (zeros d.length.offset ++ length ++ payload ++ post)
      = some payload.length := by
    refine HeaderSlot.value?_image? hd hl ?_
    simp only [List.append_assoc]
    rw [List.drop_left' (length_zeros _), List.take_left]
  rw [parse?, if_neg (by simp only [List.length_append, length_zeros, hlw, headerLength]; omega),
    hv, List.append_assoc _ payload, seen?, hp]
  simp only [Option.bind_eq_bind, Option.bind_some, ← hheader, List.drop_left]
  rw [if_neg (by rw [List.length_append]; omega), List.take_left]

/-- What is read of the var-data of a value, on top of `acc`. -/
def varDataSeen? (v : Value) : Fields → List VarDataLayout → Option Fields
  | acc, [] => some acc
  | acc, d :: ds => do
    let x ← d.seen? (v.field? d.name)
    varDataSeen? v (insertField d.name x acc) ds

theorem parseVarData?_image? {v : Value} : ∀ {ds : List VarDataLayout} {w : Bytes},
    (∀ d ∈ ds, d.length.primitive.IsInteger) → varDataImage? v ds = some w →
    ∀ (acc : Fields) (post : Bytes),
    parseVarData? ds acc (w ++ post) = (varDataSeen? v acc ds).map fun acc => (acc, post)
  | [], w, _, h, acc, post => by
    cases h
    rfl
  | d :: ds, w, hd, h, acc, post => by
    obtain ⟨hd, hds⟩ := List.forall_mem_cons.1 hd
    obtain ⟨bs, rest, hb, hr, rfl⟩ := concat?_cons_eq_some_iff.1 h
    rw [parseVarData?, varDataSeen?, List.append_assoc, VarDataLayout.parse?_image? hd hb]
    cases d.seen? (v.field? d.name) with
    | none => rfl
    | some x => exact parseVarData?_image? hds hr (insertField d.name x acc) post

/-! ## Bodies -/

/-- Items are read one behind the other if each is, whatever follows it. -/
theorem parseItems?_concat? {α : Type} {f : Value → Option Bytes}
    {parse : Bytes → Option (α × Bytes)} {seen? : Value → Option α}
    (h : ∀ {v : Value} {w : Bytes}, f v = some w → ∀ post,
      parse (w ++ post) = (seen? v).map fun x => (x, post)) :
    ∀ {vs : List Value} {w : Bytes}, concat? f vs = some w → ∀ post,
    parseItems? parse vs.length (w ++ post) = (vs.mapM seen?).map fun xs => (xs, post)
  | [], w, hw, post => by
    cases hw
    rfl
  | v :: vs, w, hw, post => by
    obtain ⟨bs, rest, hb, hr, rfl⟩ := concat?_cons_eq_some_iff.1 hw
    rw [List.length_cons, parseItems?, List.append_assoc, h hb, List.mapM_cons]
    cases seen? v with
    | none => rfl
    | some x =>
      simp only [Option.bind_eq_bind, Option.map_some, Option.bind_some,
        parseItems?_concat? h hr post]
      cases vs.mapM seen? <;> rfl

/-- The slots in the headers of groups and var-data are integers, and no element of a group is
empty. -/
structure BodyLayout.Framed (b : BodyLayout) : Prop where
  dimensions : ∀ g ∈ b.groups, g.dimension.blockLength.primitive.IsInteger
    ∧ g.dimension.numInGroup.primitive.IsInteger
  lengths : ∀ d ∈ b.varData, d.length.primitive.IsInteger
  room : ∀ g ∈ b.groups, 1 ≤ g.body.blockLength + g.body.trailerLength

theorem length_concat? {f : Value → Option Bytes} {n : Nat}
    (h : ∀ {v : Value} {w : Bytes}, f v = some w → n ≤ w.length) :
    ∀ {vs : List Value} {w : Bytes}, concat? f vs = some w → vs.length * n ≤ w.length
  | [], _, _ => by simp
  | v :: vs, w, hw => by
    obtain ⟨bs, rest, hb, hr, rfl⟩ := concat?_cons_eq_some_iff.1 hw
    have h1 := h hb
    have h2 := length_concat? h hr
    rw [List.length_cons, List.length_append, Nat.succ_mul]
    omega

theorem length_varDataImage? {v : Value} : ∀ {ds : List VarDataLayout} {w : Bytes},
    varDataImage? v ds = some w → ds.foldr (·.headerLength + ·) 0 ≤ w.length
  | [], _, _ => by simp
  | d :: ds, w, h => by
    obtain ⟨bs, rest, hb, hr, rfl⟩ := concat?_cons_eq_some_iff.1 h
    obtain ⟨payload, -, hb⟩ := Option.bind_eq_some_iff.1 hb
    obtain ⟨length, hl, hb⟩ := Option.bind_eq_some_iff.1 hb
    cases hb
    have := HeaderSlot.length_image? hl
    have := length_varDataImage? hr
    simp only [List.foldr_cons, List.length_append, length_zeros, VarDataLayout.headerLength] at *
    omega

theorem length_groupsImage? {v : Value} : ∀ {groups : List GroupLayout} {w : Bytes},
    groupsLaid groups → groupsImage? groups v = some w →
    groups.foldr (·.dimension.encodedLength + ·) 0 ≤ w.length
  | [], _, _, _ => by simp
  | ⟨name, _, _, dimension, body, _⟩ :: groups, w, hg, h => by
    rw [groupsLaid] at hg
    obtain ⟨elements, header, items, rest, -, hh, -, hr, rfl⟩ := groupsImage?_cons_eq_some_iff.1 h
    have := DimensionLayout.length_image? hg.1 hh
    have := length_groupsImage? hg.2.2 hr
    simp only [List.foldr_cons, List.length_append] at *
    omega

/-- An element takes its block and its trailer at the least. -/
theorem BodyLayout.le_length_image? {b : BodyLayout} (hb : b.Laid) {v : Value} {w : Bytes}
    (h : b.image? v = some w) : b.blockLength + b.trailerLength ≤ w.length := by
  obtain ⟨blockLength, fields, groups, varData⟩ := b
  rw [BodyLayout.Laid] at hb
  obtain ⟨-, block, elements, data, hf, hg, hd, rfl⟩ := BodyLayout.image?_eq_some_iff.1 h
  have h1 := length_groupsImage? hb.2 hg
  have h2 := length_varDataImage? hd
  simp only [List.length_append, length_padTo_fieldsImage? hb.1 hf, BodyLayout.trailerLength]
  omega

theorem elementLength_le {blockLength trailerLength : Nat} (h : 1 ≤ blockLength + trailerLength) :
    elementLength blockLength trailerLength ≤ blockLength + trailerLength :=
  max_le (min_le_left _ _) h

mutual

/-- What is read of a body's value. -/
def BodyLayout.seen? : BodyLayout → (name : String) → Value → Option Value
  | ⟨_, fields, groups, varData⟩, name, v => do
    let acc ← fieldsSeen? v [] fields
    let acc ← groupsSeen? groups v acc
    let acc ← varDataSeen? v acc varData
    return .object name acc

/-- What is read of the groups of a value, on top of `acc`. -/
def groupsSeen? : List GroupLayout → Value → Fields → Option Fields
  | [], _, acc => some acc
  | ⟨name, _, _, _, body, _⟩ :: groups, v, acc =>
    match v.field? name with
    | some (.array elements) => do
      let seen ← elements.mapM fun v => body.seen? name v
      groupsSeen? groups v (insertField name (.array seen) acc)
    | _ => none

end

/-- The bodies of a group's elements are among those of the body the group is in. -/
theorem mem_bodies_of_mem_groups {b b' : BodyLayout} {g : GroupLayout} (hg : g ∈ b.groups)
    (h : b' ∈ g.body.bodies) : b' ∈ b.bodies := by
  have hgroups : ∀ groups : List GroupLayout, g ∈ groups → b' ∈ groupsBodies groups := by
    intro groups hg
    induction groups with
    | nil => exact absurd hg List.not_mem_nil
    | cons g' groups ih =>
      obtain ⟨name, id, since, dimension, body, description⟩ := g'
      rw [groupsBodies, List.mem_append]
      rcases List.mem_cons.1 hg with rfl | hg
      · exact .inl h
      · exact .inr (ih hg)
  obtain ⟨blockLength, fields, groups, varData⟩ := b
  rw [BodyLayout.bodies]
  exact List.mem_cons_of_mem _ (hgroups groups hg)

mutual

/-- The bytes of a value are read as what is seen of it, whatever follows them. -/
theorem BodyLayout.parse?_image? : ∀ {b : BodyLayout}, b.Laid → (∀ b' ∈ b.bodies, b'.Framed) →
    ∀ (name : String) {v : Value} {w : Bytes}, b.image? v = some w → ∀ post,
    b.parse? b.blockLength name (w ++ post) = (b.seen? name v).map fun v => (v, post)
  | ⟨blockLength, fields, groups, varData⟩, hb, hframed, name, v, w, h, post => by
    have hown := hframed _ (BodyLayout.self_mem_bodies _)
    have hin : ∀ g ∈ groups, ∀ b' ∈ g.body.bodies, b'.Framed := fun g hg b' hb' =>
      hframed b' (mem_bodies_of_mem_groups hg hb')
    rw [BodyLayout.Laid] at hb
    obtain ⟨-, block, elements, data, hf, hg, hd, rfl⟩ := BodyLayout.image?_eq_some_iff.1 h
    have hblock := length_padTo_fieldsImage? hb.1 hf
    rw [BodyLayout.parse?, BodyLayout.seen?, if_neg (by simp only [List.length_append]; omega)]
    simp only [List.append_assoc]
    rw [List.take_left' hblock, List.drop_left' hblock, fieldsValue?_padTo_image? hb.1 hf]
    cases fieldsSeen? v [] fields with
    | none => rfl
    | some acc =>
      simp only [Option.bind_eq_bind, Option.bind_some]
      rw [parseGroups?_image? hb.2 hown.dimensions hown.room hin hg]
      cases groupsSeen? groups v acc with
      | none => rfl
      | some acc =>
        simp only [Option.map_some, Option.bind_some]
        rw [parseVarData?_image? hown.lengths hd]
        cases varDataSeen? v acc varData <;> rfl

theorem parseGroups?_image? {v : Value} : ∀ {groups : List GroupLayout}, groupsLaid groups →
    (∀ g ∈ groups, g.dimension.blockLength.primitive.IsInteger
      ∧ g.dimension.numInGroup.primitive.IsInteger) →
    (∀ g ∈ groups, 1 ≤ g.body.blockLength + g.body.trailerLength) →
    (∀ g ∈ groups, ∀ b' ∈ g.body.bodies, b'.Framed) → ∀ {w : Bytes},
    groupsImage? groups v = some w → ∀ {acc : Fields} {post : Bytes},
    parseGroups? groups acc (w ++ post) = (groupsSeen? groups v acc).map fun acc => (acc, post)
  | [], _, _, _, _, w, h, acc, post => by
    rw [groupsImage?] at h
    cases h
    rw [parseGroups?, groupsSeen?]
    rfl
  | ⟨name, _, _, dimension, body, _⟩ :: groups, hg, hslots, hroom, hin, w, h, acc, post => by
    rw [groupsLaid] at hg
    obtain ⟨hd, hb, hrest⟩ := hg
    obtain ⟨hslot, hslots⟩ := List.forall_mem_cons.1 hslots
    obtain ⟨hone, hroom⟩ := List.forall_mem_cons.1 hroom
    obtain ⟨hbody, hin⟩ := List.forall_mem_cons.1 hin
    obtain ⟨elements, header, items, rest, hfield, hh, hi, hr, rfl⟩ :=
      groupsImage?_cons_eq_some_iff.1 h
    rw [parseGroups?, groupsSeen?]
    have hitems := parseItems?_concat? (fun hv post => BodyLayout.parse?_image? hb hbody name hv
      post) hi (rest ++ post)
    have hcount : elements.length * elementLength body.blockLength body.trailerLength
        ≤ (items ++ (rest ++ post)).length := by
      have h1 := length_concat? (fun hv => BodyLayout.le_length_image? hb hv) hi
      have h2 : elements.length * elementLength body.blockLength body.trailerLength
          ≤ elements.length * (body.blockLength + body.trailerLength) :=
        Nat.mul_le_mul_left _ (elementLength_le hone)
      rw [List.length_append]
      omega
    simp only [List.append_assoc]
    rw [DimensionLayout.parse?_image? hd hslot.1 hslot.2 hh body.trailerLength hcount]
    simp only [Option.bind_eq_bind, Option.bind_some, hitems, hfield]
    cases elements.mapM fun v => body.seen? name v with
    | none => rfl
    | some seen => exact parseGroups?_image? hrest hslots hroom hin hr

end

/-! ## Messages -/

namespace MessageCodec

variable {m : MessageCodec} {v : Value} {bs : Bytes}

theorem encodeBody_eq_ok_iff (h : m.message.body.Laid) :
    m.encodeBody v = .ok bs ↔ m.message.body.image? v = some bs := by
  rw [← toOption_eq_some_iff, encodeBody, BodyLayout.toOption_encode h]
  simp

theorem toOption_decodeBody (h : m.message.body.Laid) (bs : Bytes) (blockLength : Nat) :
    (m.decodeBody bs blockLength).toOption
      = (m.message.body.parse? blockLength m.message.name bs).map (·.1) := by
  have hc : Cursor.At ⟨bs, 0⟩ bs := ⟨Nat.zero_le _, rfl⟩
  rw [decodeBody, decodeAt, toOption_map,
    (BodyLayout.parses_decode h blockLength m.message.name m.message.name hc).toOption_fst]

theorem decodeBody_eq_ok_iff (h : m.message.body.Laid) {blockLength : Nat} :
    m.decodeBody bs blockLength = .ok v
      ↔ ∃ rest, m.message.body.parse? blockLength m.message.name bs = some (v, rest) := by
  rw [← toOption_eq_some_iff, toOption_decodeBody h, Option.map_eq_some_iff]
  simp

/-- The bytes of a message are decoded to what is seen of its value. -/
theorem toOption_decodeBody_of_encodeBody (h : m.message.body.Laid)
    (hf : ∀ b ∈ m.message.body.bodies, b.Framed) (hbs : m.encodeBody v = .ok bs) :
    (m.decodeBody bs m.message.body.blockLength).toOption
      = m.message.body.seen? m.message.name v := by
  have hparse := BodyLayout.parse?_image? h hf m.message.name ((encodeBody_eq_ok_iff h).1 hbs) []
  rw [List.append_nil] at hparse
  rw [toOption_decodeBody h, hparse, Option.map_map]
  exact Option.map_id'

end MessageCodec

end SimpleBinary
