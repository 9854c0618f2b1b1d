import Mathlib
import SimpleBinary.Proofs.Decoded

/-!
# Reading what was written

A value in the form in which it is read comes back from its bytes, with the constants of every block
beside what it holds (`MessageCodec.decodeBody_encodeBody`); one that holds its constants comes back
as it is.  It has bytes at all if its numbers lie in the range of their types, its texts fit their
arrays, and the headers have room for the counts and lengths (`BodyLayout.Fits`).
-/

namespace SimpleBinary

variable {full : Bool}

/-! ## Bodies -/

theorem varDataSeen?_of_isDecoded {v : Value} : ∀ {ds : List VarDataLayout} {acc : Fields},
    (∀ d ∈ ds, ∃ x, v.field? d.name = some x ∧ d.IsDecoded x) → varDataSeen? v acc ds
      = some (ds.foldl (fun acc d => addField d.name (v.field? d.name) acc) acc)
  | [], _, _ => rfl
  | d :: ds, acc, h => by
    obtain ⟨⟨x, hx, hd⟩, hds⟩ := List.forall_mem_cons.1 h
    rw [varDataSeen?, hx, VarDataLayout.seen?_of_isDecoded hd, List.foldl_cons, hx]
    exact varDataSeen?_of_isDecoded hds

theorem mapM_eq_some_map {α β : Type} {f : α → Option β} {g : α → β} : ∀ {xs : List α},
    (∀ x ∈ xs, f x = some (g x)) → xs.mapM f = some (xs.map g)
  | [], _ => rfl
  | x :: xs, h => by
    obtain ⟨hx, hxs⟩ := List.forall_mem_cons.1 h
    rw [List.mapM_cons, hx, mapM_eq_some_map hxs]
    rfl

mutual

theorem BodyLayout.seen?_of_isDecoded : ∀ {b : BodyLayout}, b.Laid →
    (∀ b' ∈ b.bodies, ∀ k ∈ b'.kinds, k.Sound) → ∀ {name : String} {v : Value} {w : Bytes},
    b.IsDecoded full name v → b.image? v = some w →
    b.seen? name v = some (b.withConstants name v)
  | ⟨blockLength, fields, groups, varData⟩, hb, hs, name, v, w, hv, h => by
    have hin : ∀ g ∈ groups, ∀ b' ∈ g.body.bodies, ∀ k ∈ b'.kinds, k.Sound :=
      fun g hg b' hb' => hs b' (mem_bodies_of_mem_groups hg hb')
    rw [BodyLayout.Laid] at hb
    rw [BodyLayout.IsDecoded] at hv
    obtain ⟨fs, -, -, -, hfields, hgroups, hdata⟩ := hv
    obtain ⟨-, block, elements, -, hf, hg, -, -⟩ := BodyLayout.image?_eq_some_iff.1 h
    rw [BodyLayout.seen?, BodyLayout.withConstants,
      fieldsSeen?_of_isDecoded hb.1 (hs _ (BodyLayout.self_mem_bodies _)) hfields hf]
    simp only [Option.bind_eq_bind, Option.bind_some]
    rw [groupsSeen?_of_isDecoded hb.2 hin hgroups hg, Option.bind_some,
      varDataSeen?_of_isDecoded hdata]
    rfl

theorem groupsSeen?_of_isDecoded {v : Value} : ∀ {groups : List GroupLayout}, groupsLaid groups →
    (∀ g ∈ groups, ∀ b' ∈ g.body.bodies, ∀ k ∈ b'.kinds, k.Sound) → ∀ {w : Bytes} {acc : Fields},
    groupsDecoded full groups v → groupsImage? groups v = some w →
    groupsSeen? groups v acc = some (groupsWithConstants groups v acc)
  | [], _, _, _, _, _, _ => by rw [groupsSeen?, groupsWithConstants]
  | ⟨name, _, _, dimension, body, _⟩ :: groups, hg, hs, w, acc, hv, h => by
    rw [groupsLaid] at hg
    obtain ⟨hbody, hs⟩ := List.forall_mem_cons.1 hs
    rw [groupsDecoded] at hv
    obtain ⟨⟨items, hfield, hitems⟩, hv⟩ := hv
    rw [groupsImage?, hfield] at h
    obtain ⟨header, -, h⟩ := Option.bind_eq_some_iff.1 h
    obtain ⟨bs, hbs, h⟩ := Option.bind_eq_some_iff.1 h
    obtain ⟨rest, hr, -⟩ := Option.bind_eq_some_iff.1 h
    have hseen : items.mapM (fun x => body.seen? name x)
        = some (items.map fun x => body.withConstants name x) := mapM_eq_some_map fun x hx => by
      obtain ⟨bs, hx'⟩ := exists_of_mem_concat? hbs x hx
      exact BodyLayout.seen?_of_isDecoded hg.2.1 hbody (hitems x hx) hx'
    rw [groupsSeen?, groupsWithConstants, hfield]
    dsimp only
    rw [hseen]
    exact groupsSeen?_of_isDecoded hg.2.2 hs hv hr

end

/-! ## Values that hold their constants -/

/-- What is put under the names that are left makes up the fields of a value. -/
structure Collects (v : Value) (acc : Fields) (names : List String) : Prop where
  ordered : Ordered acc
  lookup : ∀ n, acc.lookup n = v.field? n ∨ n ∈ names ∧ acc.lookup n = none

namespace Collects

variable {v : Value} {acc : Fields} {name : String} {names : List String}

theorem nil {fs : Fields} (h : Named names fs) : Collects (.object name fs) [] names where
  ordered := .nil
  lookup n := by
    by_cases hn : n ∈ names
    · exact .inr ⟨hn, rfl⟩
    · refine .inl (Eq.symm (List.lookup_eq_none_iff.2 fun f hf => bne_iff_ne.2 fun hnf => ?_))
      exact hn (hnf ▸ h f hf)

theorem addField (h : Collects v acc (name :: names)) :
    Collects v (addField name (v.field? name) acc) names where
  ordered := h.ordered.addField
  lookup n := by
    by_cases hn : n = name
    · subst hn
      left
      cases hx : v.field? n with
      | some x => exact lookup_insertField_self n x acc
      | none =>
        rcases h.lookup n with hl | ⟨-, hl⟩
        · exact hl.trans hx
        · exact hl
    · rw [lookup_addField_of_ne hn]
      exact (h.lookup n).imp id fun h => ⟨(List.mem_cons.1 h.1).resolve_left hn, h.2⟩

theorem eq {fs : Fields} (h : Collects (.object name fs) acc []) (hf : Ordered fs) : acc = fs :=
  h.ordered.ext hf fun n => (h.lookup n).resolve_right fun h => List.not_mem_nil h.1

end Collects

mutual

theorem FieldKind.withConstants_of_full {v : Option Value} : ∀ {k : FieldKind},
    k.IsDecoded true v → k.withConstants v = v
  | .primitive p, h => by
    rw [FieldKind.IsDecoded] at h
    rw [FieldKind.withConstants, h.withConstant_eq]
  | .composite ⟨typeName, _, members, _⟩, h => by
    rw [FieldKind.IsDecoded] at h
    obtain ⟨fs, rfl, ho, hn, hfs⟩ := h
    rw [← List.append_nil (members.map _)] at hn
    rw [FieldKind.withConstants, Option.map_some,
      (collects_fieldsWithConstants hfs (.nil hn)).eq ho]
  | .enumeration e, _ => by rw [FieldKind.withConstants]
  | .set s, _ => by rw [FieldKind.withConstants]

theorem collects_fieldsWithConstants {v : Value} {names : List String} :
    ∀ {fields : List FieldLayout} {acc : Fields}, fieldsDecoded true v fields →
    Collects v acc (fields.map (·.name) ++ names) →
    Collects v (fieldsWithConstants v acc fields) names
  | [], _, _, h => by
    rw [fieldsWithConstants]
    exact h
  | ⟨name, _, _, _, _, kind⟩ :: fields, acc, hv, h => by
    rw [fieldsDecoded] at hv
    rw [fieldsWithConstants, FieldKind.withConstants_of_full hv.1]
    exact collects_fieldsWithConstants hv.2 h.addField

end

theorem collects_varData {v : Value} : ∀ {ds : List VarDataLayout} {acc : Fields},
    Collects v acc (ds.map (·.name)) →
    Collects v (ds.foldl (fun acc d => addField d.name (v.field? d.name) acc) acc) []
  | [], _, h => h
  | _ :: _, _, h => by
    rw [List.foldl_cons]
    exact collects_varData h.addField

theorem BodyLayout.names_elements (b : BodyLayout) : b.elements.map (·.name)
    = b.fields.map (·.name) ++ (b.groups.map (·.name) ++ b.varData.map (·.name)) := by
  simp only [elements, List.map_append, List.map_map, List.append_assoc]
  rfl

mutual

theorem BodyLayout.withConstants_of_full : ∀ {b : BodyLayout} {name : String} {v : Value},
    b.IsDecoded true name v → b.withConstants name v = v
  | ⟨blockLength, fields, groups, varData⟩, name, v, h => by
    rw [BodyLayout.IsDecoded] at h
    obtain ⟨fs, rfl, ho, hn, hfields, hgroups, -⟩ := h
    rw [BodyLayout.names_elements] at hn
    have h := collects_fieldsWithConstants hfields (.nil hn)
    rw [BodyLayout.withConstants,
      (collects_varData (collects_groupsWithConstants hgroups h)).eq ho]

theorem collects_groupsWithConstants {v : Value} {names : List String} :
    ∀ {groups : List GroupLayout} {acc : Fields}, groupsDecoded true groups v →
    Collects v acc (groups.map (·.name) ++ names) →
    Collects v (groupsWithConstants groups v acc) names
  | [], _, _, h => by
    rw [groupsWithConstants]
    exact h
  | ⟨name, _, _, _, body, _⟩ :: groups, acc, hv, h => by
    rw [groupsDecoded] at hv
    obtain ⟨⟨items, hfield, hitems⟩, hv⟩ := hv
    have hsame : items.map (fun x => body.withConstants name x) = items :=
      (List.map_congr_left (g := id) fun x hx =>
        BodyLayout.withConstants_of_full (hitems x hx)).trans (List.map_id _)
    have h := h.addField
    rw [hfield] at h
    rw [groupsWithConstants, hfield, Option.map_some, Value.asArray, hsame]
    exact collects_groupsWithConstants hv h

end

/-! ## Values that fit -/

/-- A text fits its array, and numbers lie in the range of the type. -/
def PrimitiveLayout.Fits (p : PrimitiveLayout) : Option Value → Prop
  | some x => (∀ bs ∈ p.text? x, bs.length ≤ p.arrayLength)
    ∧ ∀ y ∈ x :: x.asArray, ∀ l ∈ y.toLiteral?, p.primitive.Accepts l
  | none => p.primitive.Accepts p.nullValue

/-- The literal of an enum's value lies in the range of the encoding. -/
def EnumLayout.Fits (e : EnumLayout) (x : Value) : Prop :=
  ∀ name ∈ x.enumName?, ∀ l ∈ e.literalNamed? name, e.encoding.Accepts l

mutual

/-- The elements of a field fit their places; the bits of a set always do. -/
def FieldKind.Fits (v : Option Value) : FieldKind → Prop
  | .primitive p => p.isConstant ∨ p.Fits v
  | .composite ⟨_, _, members, _⟩ => ∀ x ∈ v, fieldsFit x members
  | .enumeration e => ∀ x ∈ v, e.Fits x
  | .set _ => True

def fieldsFit (v : Value) : List FieldLayout → Prop
  | [] => True
  | ⟨name, _, _, _, _, kind⟩ :: fields => kind.Fits (v.field? name) ∧ fieldsFit v fields

end

mutual

/-- The elements of a body fit their places, and the headers have room for what they say. -/
def BodyLayout.Fits : BodyLayout → Value → Prop
  | ⟨_, fields, groups, varData⟩, v => fieldsFit v fields ∧ groupsFit groups v
    ∧ ∀ d ∈ varData, ∀ payload ∈ d.payload? (v.field? d.name), d.length.Accepts payload.length

def groupsFit : List GroupLayout → Value → Prop
  | [], _ => True
  | ⟨name, _, _, dimension, body, _⟩ :: groups, v =>
    (∀ x ∈ v.field? name, dimension.blockLength.Accepts body.blockLength
      ∧ dimension.numInGroup.Accepts x.length ∧ ∀ y ∈ x.asArray, body.Fits y)
      ∧ groupsFit groups v

end

theorem PrimitiveLayout.exists_image?_of_isDecoded {p : PrimitiveLayout} {v : Option Value}
    (h : p.IsDecoded full v) (hf : p.isConstant ∨ p.Fits v) : ∃ w, p.image? v = some w := by
  cases h with
  | constant hc h hfull => exact ⟨[], by rw [image?, if_pos hc]⟩
  | text hc ht h hz =>
    obtain ⟨hlen, -⟩ := hf.resolve_left hc
    obtain ⟨bs, hbs, -, -⟩ := h.exists_text?
    exact exists_image?_of_text? hc ht hbs (hlen bs hbs)
  | array hc ht ha hn h =>
    obtain ⟨-, hrange⟩ := hf.resolve_left hc
    refine exists_image? hc (literals?_array ht ha hn h) fun l hl => ?_
    exact hrange (.ofLiteral l) (List.mem_cons_of_mem _ (List.mem_map_of_mem hl)) l
      (toLiteral?_ofLiteral (h l hl))
  | element hc ht ha h hn =>
    obtain ⟨-, hrange⟩ := hf.resolve_left hc
    refine exists_image? hc (literals?_element ht ha h) fun l' hl' => ?_
    rw [List.mem_singleton.1 hl']
    exact hrange _ List.mem_cons_self _ (toLiteral?_ofLiteral h)
  | absent hc ht ha ho h =>
    refine exists_image? hc (if_pos ho) fun l hl => ?_
    rw [List.eq_of_mem_replicate hl]
    exact hf.resolve_left hc

theorem EnumLayout.exists_image?_of_isDecoded {e : EnumLayout} {x : Value} (h : e.IsDecoded x)
    (hf : e.Fits x) : ∃ w, e.image? x = some w := by
  obtain ⟨name, rfl, h⟩ := h
  have hl : ∃ l, e.literalNamed? name = some l := by
    rw [literalNamed?]
    split
    · exact ⟨_, rfl⟩
    · rename_i hne
      obtain ⟨v, hv, hname⟩ := List.mem_map.1 (h.resolve_right fun h => hne h.1)
      cases hby : e.byName? name with
      | some v => exact ⟨_, rfl⟩
      | none =>
        rw [byName?, List.find?_eq_none] at hby
        exact absurd (beq_iff_eq.2 hname) (hby v hv)
  obtain ⟨l, hl⟩ := hl
  rw [image?, Value.enumName?, Option.bind_some, hl, Option.bind_some]
  exact exists_encode? e.byteOrder (hf name rfl l hl)

theorem SetLayout.exists_image?_of_isDecoded {s : SetLayout} (hl : s.Laid) (hs : s.Sound)
    {x : Value} (h : s.IsDecoded x) : ∃ w, s.image? x = some w := by
  obtain ⟨names, rfl, hsub⟩ := h
  obtain ⟨bits, hbits⟩ := exists_bits? hsub.subset
  rw [image?, hbits, Option.bind_some]
  exact exists_encode? s.byteOrder ⟨_, (Primitive.word?_natural hs.encoding).2 ⟨rfl, bits?_lt hl hbits⟩⟩

mutual

theorem FieldKind.exists_image?_of_isDecoded {v : Option Value} : ∀ {k : FieldKind}, k.Laid →
    (∀ k' ∈ k.parts, k'.Sound) → k.IsDecoded full v → k.Fits v → ∃ w, k.image? v = some w
  | .primitive p, _, _, hv, hf => by
    rw [FieldKind.IsDecoded] at hv
    rw [FieldKind.Fits] at hf
    rw [FieldKind.image?]
    exact p.exists_image?_of_isDecoded hv hf
  | .composite ⟨typeName, encodedLength, members, _⟩, hk, hs, hv, hf => by
    rw [FieldKind.Laid] at hk
    rw [FieldKind.parts, List.forall_mem_cons] at hs
    rw [FieldKind.IsDecoded] at hv
    rw [FieldKind.Fits] at hf
    obtain ⟨fs, rfl, -, -, hfs⟩ := hv
    obtain ⟨w, hw⟩ := exists_fieldsImage?_of_isDecoded hk hs.2 hfs (hf _ rfl)
    rw [FieldKind.image?, Option.bind_some, if_pos (by rfl), hw]
    exact ⟨_, rfl⟩
  | .enumeration e, _, _, hv, hf => by
    rw [FieldKind.IsDecoded] at hv
    rw [FieldKind.Fits] at hf
    obtain ⟨x, rfl, hx⟩ := hv
    rw [FieldKind.image?, Option.bind_some]
    exact e.exists_image?_of_isDecoded hx (hf x rfl)
  | .set s, hk, hs, hv, _ => by
    rw [FieldKind.Laid] at hk
    rw [FieldKind.parts, List.forall_mem_singleton, FieldKind.Sound] at hs
    rw [FieldKind.IsDecoded] at hv
    obtain ⟨x, rfl, hx⟩ := hv
    rw [FieldKind.image?, Option.bind_some]
    exact s.exists_image?_of_isDecoded hk hs hx

theorem exists_fieldsImage?_of_isDecoded {v : Value} {limit : Nat} :
    ∀ {fields : List FieldLayout} {cursor : Nat}, fieldsLaid cursor limit fields →
    (∀ k' ∈ fieldsParts fields, k'.Sound) → fieldsDecoded full v fields → fieldsFit v fields →
    ∃ w, fieldsImage? cursor v fields = some w
  | [], cursor, _, _, _, _ => ⟨[], by rw [fieldsImage?]⟩
  | ⟨name, _, _, offset, _, kind⟩ :: fields, cursor, hl, hs, hv, hf => by
    rw [fieldsLaid] at hl
    rw [fieldsParts, List.forall_mem_append] at hs
    rw [fieldsDecoded] at hv
    rw [fieldsFit] at hf
    obtain ⟨bs, hbs⟩ := FieldKind.exists_image?_of_isDecoded hl.2.1 hs.1 hv.1 hf.1
    obtain ⟨rest, hrest⟩ := exists_fieldsImage?_of_isDecoded hl.2.2 hs.2 hv.2 hf.2
    exact ⟨_, fieldsImage?_cons_eq_some_iff.2 ⟨bs, rest, hbs, hrest, rfl⟩⟩

end

theorem VarDataLayout.exists_payload?_of_isDecoded {d : VarDataLayout} {x : Value}
    (h : d.IsDecoded x) : ∃ payload, d.payload? (some x) = some payload := by
  have hseen := seen?_of_isDecoded h
  rw [seen?] at hseen
  obtain ⟨payload, hp, -⟩ := Option.bind_eq_some_iff.1 hseen
  exact ⟨payload, hp⟩

mutual

/-- A value that fits has bytes. -/
theorem BodyLayout.exists_image?_of_isDecoded : ∀ {b : BodyLayout}, b.Laid →
    (∀ b' ∈ b.bodies, ∀ k ∈ b'.kinds, k.Sound) → ∀ {name : String} {v : Value},
    b.IsDecoded full name v → b.Fits v → ∃ w, b.image? v = some w
  | ⟨blockLength, fields, groups, varData⟩, hb, hs, name, v, hv, hf => by
    have hin : ∀ g ∈ groups, ∀ b' ∈ g.body.bodies, ∀ k ∈ b'.kinds, k.Sound :=
      fun g hg b' hb' => hs b' (mem_bodies_of_mem_groups hg hb')
    rw [BodyLayout.Laid] at hb
    rw [BodyLayout.IsDecoded] at hv
    rw [BodyLayout.Fits] at hf
    obtain ⟨fs, rfl, -, -, hfields, hgroups, hdata⟩ := hv
    obtain ⟨block, hblock⟩ := exists_fieldsImage?_of_isDecoded hb.1
      (hs _ (BodyLayout.self_mem_bodies _)) hfields hf.1
    obtain ⟨elements, helements⟩ := exists_groupsImage?_of_isDecoded hb.2 hin hgroups hf.2.1
    obtain ⟨data, hd⟩ : ∃ data, varDataImage? (.object name fs) varData = some data := by
      refine exists_concat? fun d hd => ?_
      obtain ⟨x, hx, hdec⟩ := hdata d hd
      obtain ⟨payload, hp⟩ := VarDataLayout.exists_payload?_of_isDecoded hdec
      rw [← hx] at hp
      exact VarDataLayout.exists_image? hp (hf.2.2 d hd payload hp)
    rw [BodyLayout.image?, if_pos (by rfl), hblock, helements, hd]
    exact ⟨_, rfl⟩

theorem exists_groupsImage?_of_isDecoded {v : Value} : ∀ {groups : List GroupLayout},
    groupsLaid groups → (∀ g ∈ groups, ∀ b' ∈ g.body.bodies, ∀ k ∈ b'.kinds, k.Sound) →
    groupsDecoded full groups v → groupsFit groups v → ∃ w, groupsImage? groups v = some w
  | [], _, _, _, _ => ⟨[], by rw [groupsImage?]⟩
  | ⟨name, _, _, dimension, body, _⟩ :: groups, hg, hs, hv, hf => by
    rw [groupsLaid] at hg
    obtain ⟨hbody, hs⟩ := List.forall_mem_cons.1 hs
    rw [groupsDecoded] at hv
    rw [groupsFit] at hf
    obtain ⟨⟨items, hfield, hitems⟩, hv⟩ := hv
    obtain ⟨hlength, hcount, hfits⟩ := hf.1 _ hfield
    obtain ⟨header, hh⟩ := DimensionLayout.exists_image? hlength hcount
    obtain ⟨bs, hbs⟩ := exists_concat? (f := fun x => body.image? x) fun x hx =>
      BodyLayout.exists_image?_of_isDecoded hg.2.1 hbody (hitems x hx) (hfits x hx)
    obtain ⟨rest, hr⟩ := exists_groupsImage?_of_isDecoded hg.2.2 hs hv hf.2
    rw [groupsImage?, hfield]
    dsimp only
    rw [show dimension.image? body.blockLength items.length = some header from hh, hbs, hr]
    exact ⟨_, rfl⟩

end

/-! ## An order -/

namespace Orders

/-- The tokens of a container. -/
def around (c : Container) (name : String) (encodedLength : Nat) (encoding : Encoding)
    (inner : List Token) : List Token :=
  { signal := .opens c, name, encodedLength, componentTokenCount := inner.length + 2, encoding }
    :: inner ++ [{ signal := .closes c, name }]

/-- The encoding of an element that has to be there. -/
def encoding (p : Primitive) : Encoding := { primitive := some p }

/-- The encoding of a byte that is the same in every message. -/
def byteEncoding (n : UInt64) : Encoding where
  presence := .constant
  primitive := some .uint8
  constValue := some (.uint n)

/-- A message of a symbol, a side, a constant lot, a group of fills and a note, in blocks of some
lengths and with more fields behind. -/
def tokensWith (length : Nat) (extra : List Token) (fillLength : Nat) (fillExtra : List Token) :
    List Token :=
  around .message "Order" length {} (
    around .field "symbol" 0 {}
      [{ signal := .encoding, name := "text", arrayLength := 4, encoding := encoding .char }]
    ++ around .field "side" 0 {} (
      around .enumeration "Side" 0 (encoding .uint8)
        [{ signal := .validValue, name := "BUY", encoding := byteEncoding 1 },
         { signal := .validValue, name := "SELL", encoding := byteEncoding 2 }])
    ++ around .field "lot" 0 {}
      [{ signal := .encoding, name := "uint8", encoding := byteEncoding 10 }]
    ++ extra ++ around .group "fills" fillLength {} (
      around .composite "dimension" 0 {}
        [{ signal := .encoding, name := "blockLength", encoding := encoding .uint8 },
         { signal := .encoding, name := "numInGroup", encoding := encoding .uint8 }]
      ++ around .field "quantity" 0 {}
        [{ signal := .encoding, name := "int8",
           encoding := { presence := .optional, primitive := some .int8 } }]
      ++ fillExtra)
    ++ around .varData "note" 0 {} (
      around .composite "text" 0 {}
        [{ signal := .encoding, name := "length", encoding := encoding .uint8 },
         { signal := .encoding, name := "varData",
           encoding := { primitive := some .uint8, characterEncoding := some "UTF-8" } }]))

/-- A message of these and no more. -/
def tokens : List Token := tokensWith 5 [] 1 []

def symbol : PrimitiveLayout := ⟨.char, .littleEndian, 4, .required, none, .uint 0, none⟩

def side : EnumLayout where
  typeName := "Side"
  encoding := .uint8
  byteOrder := .littleEndian
  values := [⟨"BUY", .uint 1⟩, ⟨"SELL", .uint 2⟩]
  nullValue := .uint 255
  description := none

def lot : PrimitiveLayout := ⟨.uint8, .littleEndian, 1, .constant, some (.uint 10), .uint 255, none⟩

def quantity : PrimitiveLayout :=
  ⟨.int8, .littleEndian, 1, .optional, none, .int (-128), none⟩

def fills : GroupLayout where
  name := "fills"
  id := -1
  sinceVersion := 0
  dimension := ⟨"dimension", ⟨.uint8, .littleEndian, 0⟩, ⟨.uint8, .littleEndian, 1⟩, 2⟩
  body := ⟨1, [⟨"quantity", -1, 0, 0, none, .primitive quantity⟩], [], []⟩
  description := none

def note : VarDataLayout where
  name := "note"
  id := -1
  sinceVersion := 0
  typeName := "text"
  length := ⟨.uint8, .littleEndian, 0⟩
  characterEncoding := some "UTF-8"
  description := none

def message : MessageLayout where
  name := "Order"
  id := -1
  sinceVersion := 0
  semanticType := none
  description := none
  body := {
    blockLength := 5
    fields := [⟨"symbol", -1, 0, 0, none, .primitive symbol⟩,
      ⟨"side", -1, 0, 4, none, .enumeration side⟩, ⟨"lot", -1, 0, 5, none, .primitive lot⟩]
    groups := [fills]
    varData := [note] }

theorem groupAt_tokens : groupAt tokens ⟨13, 22⟩ = .ok fills := by
  have hm : members tokens ⟨15, 17⟩ = .ok [⟨15, 16⟩, ⟨16, 17⟩] := by cbv
  have hdim : dimensionAt tokens ⟨14, 18⟩ = .ok fills.dimension := by
    rw [dimensionAt, compositeAt_of_members rfl hm (by cbv)]
    cbv
  have hs : splitBody tokens ⟨18, 21⟩ = .ok ⟨[⟨18, 21⟩], [], []⟩ := by cbv
  have hb : bodyAt tokens ⟨18, 21⟩ 1 "fills" = .ok fills.body :=
    (bodyAt_of_spans hs (by cbv) rfl rfl).trans (by cbv)
  have ht : tokenAt tokens 13 = .ok {
      signal := .opens .group, name := "fills", encodedLength := 1, componentTokenCount := 9 } := rfl
  have hd : spanAt (tokens.take 22) 14 = .ok ⟨14, 18⟩ := by cbv
  exact groupAt_of_body (s := ⟨13, 22⟩) ht hd rfl rfl hdim hb

theorem ofTokens_tokens : MessageLayout.ofTokens tokens = .ok message := by
  have hs : splitBody tokens ⟨1, 28⟩
      = .ok ⟨[⟨1, 4⟩, ⟨4, 10⟩, ⟨10, 13⟩], [⟨13, 22⟩], [⟨22, 28⟩]⟩ := by cbv
  have hb : bodyAt tokens ⟨1, 28⟩ 5 "Order" = .ok message.body :=
    (bodyAt_of_spans hs (by cbv) (by rw [List.mapM_cons, groupAt_tokens]; rfl) (by cbv)).trans
      (by cbv)
  have hw : wholeSpan tokens .message = .ok ⟨0, 29⟩ := by cbv
  have ht : tokenAt tokens 0 = .ok {
      signal := .opens .message, name := "Order", encodedLength := 5, componentTokenCount := 29 } :=
    rfl
  rw [MessageLayout.ofTokens, hw, ok_bind, ht, ok_bind, show Span.inner ⟨0, 29⟩ = ⟨1, 28⟩ from rfl,
    hb]
  rfl

/-- The codec of orders. -/
def codec : MessageCodec where
  header := ⟨⟨"messageHeader", 4, [], none⟩, ⟨.uint8, .littleEndian, 0⟩, ⟨.uint8, .littleEndian, 1⟩,
    ⟨.uint8, .littleEndian, 2⟩, ⟨.uint8, .littleEndian, 3⟩⟩
  message
  schemaId := 1
  version := 0

theorem side_sound : side.Sound := ⟨by decide, by decide, by decide, by decide⟩

theorem message_sound : ∀ b ∈ message.body.bodies, b.Framed ∧ ∀ k ∈ b.kinds, k.Sound := by
  have hbodies : message.body.bodies = [message.body, fills.body] := rfl
  have hkinds : message.body.kinds = [.primitive symbol, .enumeration side, .primitive lot] := rfl
  rw [hbodies, List.forall_mem_cons, List.forall_mem_singleton, hkinds]
  refine ⟨⟨⟨?_, ?_, ?_⟩, ?_⟩, ⟨?_, ?_, ?_⟩, ?_⟩
  · simp [message, fills, Primitive.IsInteger, Primitive.kind]
  · simp [message, note, Primitive.IsInteger, Primitive.kind]
  · simp [message, fills]
  · simp [FieldKind.Sound, side_sound]
  · simp [fills]
  · simp [fills]
  · simp [fills]
  · simp [fills, BodyLayout.kinds, fieldsParts, FieldKind.parts, FieldKind.Sound]

/-- The fields of an order of two fills, the quantity of the second left out. -/
def sell : Fields :=
  [("fills", .array [.object "fills" [("quantity", .int (-5))], .object "fills" []]),
   ("lot", .uint 10), ("note", .text "née"), ("side", .enumeration "Side" "SELL"),
   ("symbol", .text "ABC")]

theorem isDecoded_symbol : symbol.IsDecoded true (some (.text "ABC")) :=
  .text (by decide) (by decide) ⟨_, rfl, by decide⟩ (show '\x00' ∉ "ABC".toList by decide)

theorem isDecoded_side : side.IsDecoded (.enumeration "Side" "SELL") :=
  ⟨"SELL", rfl, .inl (by decide)⟩

theorem isDecoded_lot : lot.IsDecoded true (some (.uint 10)) :=
  .constant (by decide) (fun x hx => by cases hx; rfl) fun _ => rfl

theorem isDecoded_quantity : quantity.IsDecoded true (some (.int (-5))) :=
  .element (l := .int (-5)) (by decide) (by decide) (by decide) rfl (by decide)

theorem isDecoded_noQuantity : quantity.IsDecoded true none :=
  .absent (by decide) (by decide) (by decide) (by decide) ⟨128, by decide, by decide⟩

theorem isDecoded_note : note.IsDecoded (.text "née") := ⟨"née", rfl, by decide⟩

theorem isDecoded_sell : message.body.IsDecoded true "Order" (.object "Order" sell) := by
  have hfirst : fills.body.IsDecoded true "fills" (.object "fills" [("quantity", .int (-5))]) :=
    ⟨_, rfl, by decide +kernel, by decide +kernel, ⟨isDecoded_quantity, trivial⟩, trivial, by simp⟩
  have hsecond : fills.body.IsDecoded true "fills" (.object "fills" []) :=
    ⟨_, rfl, by decide +kernel, by decide +kernel, ⟨isDecoded_noQuantity, trivial⟩, trivial,
      by simp⟩
  refine ⟨sell, rfl, by decide +kernel, by decide +kernel,
    ⟨isDecoded_symbol, ⟨_, rfl, isDecoded_side⟩, isDecoded_lot, trivial⟩,
    ⟨⟨_, rfl, ?_⟩, trivial⟩, ?_⟩
  · exact List.forall_mem_cons.2 ⟨hfirst, List.forall_mem_singleton.2 hsecond⟩
  · exact List.forall_mem_singleton.2 ⟨_, rfl, isDecoded_note⟩

end Orders

/-! ## Messages -/

namespace MessageCodec

variable {m : MessageCodec} {tokens : List Token} {v : Value}

/-- A value in the form in which it is read has bytes if it fits, and is decoded from its bytes,
with its constants filled in. -/
theorem decodeBody_encodeBody (ht : MessageLayout.ofTokens tokens = .ok m.message)
    (hl : ∀ b ∈ m.message.body.bodies, b.Framed ∧ ∀ k ∈ b.kinds, k.Sound)
    (hv : m.message.body.IsDecoded full m.message.name v) :
    (m.message.body.Fits v → ∃ bs, m.encodeBody v = .ok bs)
      ∧ (∀ bs, m.encodeBody v = .ok bs → m.decodeBody bs m.message.body.blockLength
        = .ok (m.message.body.withConstants m.message.name v))
      ∧ (full → m.message.body.withConstants m.message.name v = v) := by
  have hlaid := MessageLayout.laid_of_ofTokens ht
  refine ⟨fun hf => ?_, fun bs hbs => ?_, fun hfull => ?_⟩
  · obtain ⟨bs, hbs⟩ := BodyLayout.exists_image?_of_isDecoded hlaid (fun b hb => (hl b hb).2) hv hf
    exact ⟨bs, (encodeBody_eq_ok_iff hlaid).2 hbs⟩
  · have hseen := BodyLayout.seen?_of_isDecoded hlaid (fun b hb => (hl b hb).2) hv
      ((encodeBody_eq_ok_iff hlaid).1 hbs)
    rw [← toOption_eq_some_iff, ← hseen]
    exact toOption_decodeBody_of_encodeBody hlaid (fun b hb => (hl b hb).1) hbs
  · rw [hfull] at hv
    exact BodyLayout.withConstants_of_full hv

end MessageCodec

/-- Two fills, of the second no quantity, come back with everything else of an order. -/
theorem Orders.decodeBody_encodeBody_sell :
    codec.decodeBody [65, 66, 67, 0, 2, 1, 2, 251, 128, 4, 110, 195, 169, 101] 5
      = .ok (.object "Order" sell) := by
  obtain ⟨-, hdecode, hfull⟩ :=
    MessageCodec.decodeBody_encodeBody (m := codec) ofTokens_tokens message_sound isDecoded_sell
  rw [← hfull rfl]
  exact hdecode _ (by rfl)

end SimpleBinary
