import Mathlib
import SimpleBinary.Codec.Demand
import SimpleBinary.Codec.Outside
import SimpleBinary.Proofs.Leaves
import SimpleBinary.Proofs.Sizes
import SimpleBinary.Proofs.Truncation

/-!
# Elements are put within what was reserved

An element that would reach past the end of an image is not put, and the encoder reports it as it
reports a value that is too large.  That never happens: in a layout whose elements lie within their
blocks each put stays inside of the image and leaves it as long as it was (`Inside`), so the encoder
is the same whatever would come of a put outside (`BodyLayout.safe_encode`).  What is left of the
error is a place of the value that does not fit: the path of the error is that of something the
encoding asks for, the error shows what it is, and there is no room for it (`Demand.Fits`).
-/

namespace SimpleBinary

/-! ## Values that do not fit -/

/-- Whether there is room for what is asked for: a literal in the range of its type, a number that
its slot can hold, a text no longer than its array. -/
def Demand.Fits : Demand → Prop
  | literal p l => p.Accepts l
  | number s n => s.Accepts n
  | text length arrayLength => length ≤ arrayLength

/-- An error of range shows something that is asked for at its path, and there is no room for it. -/
def Unfit (A : String → Demand → Prop) (path value type : String) : Prop :=
  ∃ d, A path d ∧ ¬d.Fits ∧ value = d.shown ∧ type = d.typeName

/-- Whether an error says that a value does not fit. -/
def CodecError.isRange : CodecError → Bool
  | .outOfRange .. => true
  | _ => false

/-- Where a step fails for the range of a value, something that is asked for does not fit. -/
def FailsUnfit {α : Type} (A : String → Demand → Prop) (x : Except CodecError α) : Prop :=
  ∀ path value type, x = .error (.outOfRange path value type) → Unfit A path value type

namespace FailsUnfit

variable {α β : Type} {A B : String → Demand → Prop}

theorem ok (a : α) : FailsUnfit A (.ok a) := by rintro _ _ _ ⟨⟩

theorem unfit {path : String} {d : Demand} (hd : A path d) (h : ¬d.Fits) :
    FailsUnfit A (.error (.outOfRange path d.shown d.typeName) : Except CodecError α) := by
  rintro _ _ _ ⟨⟩
  exact ⟨d, hd, h, rfl, rfl⟩

/-- Other errors say nothing of a range. -/
theorem other {e : CodecError} (h : e.isRange = false) :
    FailsUnfit A (.error e : Except CodecError α) := by
  rintro _ _ _ ⟨⟩
  cases h

theorem mono {x : Except CodecError α} (h : FailsUnfit A x) (hAB : ∀ place d, A place d → B place d) :
    FailsUnfit B x := by
  intro path value type hx
  obtain ⟨d, hd, hfits⟩ := h path value type hx
  exact ⟨d, hAB path d hd, hfits⟩

theorem bind {x : Except CodecError α} {f : α → Except CodecError β} (hx : FailsUnfit A x)
    (hf : ∀ a, x = .ok a → FailsUnfit A (f a)) : FailsUnfit A (x >>= f) := by
  cases x with
  | error e =>
    rintro path value type ⟨⟩
    exact hx path value type rfl
  | ok a => exact hf a rfl

end FailsUnfit

section Texts

variable {A : String → Demand → Prop}

theorem failsUnfit_encodeText (path : String) (encoding : Option String) (s : String) :
    FailsUnfit A (encodeText path encoding s) := by
  unfold encodeText
  repeat' split
  all_goals rintro _ _ _ ⟨⟩

theorem PrimitiveLayout.failsUnfit_textBytes (p : PrimitiveLayout) (path : String) (v : Value) :
    FailsUnfit A (p.textBytes path v) := by
  cases v with
  | text s => exact failsUnfit_encodeText path _ s
  | bytes bs => exact .ok bs
  | _ => exact .other rfl

theorem VarDataLayout.failsUnfit_payload (d : VarDataLayout) (path : String) (v : Option Value) :
    FailsUnfit A (d.payload path v) := by
  cases v with
  | none => exact .other rfl
  | some v =>
    cases v with
    | text s => exact failsUnfit_encodeText path _ s
    | bytes bs => exact .ok bs
    | _ => exact .other rfl

theorem SetLayout.failsUnfit_bitsOf (s : SetLayout) (path : String) : ∀ choices : List String,
    FailsUnfit A (s.bitsOf path choices)
  | [] => .ok 0
  | choice :: choices => by
    have hrest := s.failsUnfit_bitsOf path choices
    rw [bitsOf]
    cases s.byName? choice with
    | none => exact .other rfl
    | some c => exact hrest.bind fun bits _ => .ok _

end Texts

/-! ## Steps inside of an image -/

/-- A step comes out the same whatever would come of a put outside, and where it fails for the range
of a value, something that is asked for does not fit. -/
structure Safe (A : String → Demand → Prop) (x y : Except CodecError Bytes) : Prop where
  eq : x = y
  fails : FailsUnfit A y

/-- A safe step on an image that leaves it as long as it was. -/
structure Inside (A : String → Demand → Prop) (image : Bytes) (x y : Except CodecError Bytes) : Prop
    extends Safe A x y where
  length : ∀ image', y = .ok image' → image'.length = image.length

section Steps

variable {α : Type} {A B : String → Demand → Prop} {image : Bytes} {x y : Except CodecError Bytes}

theorem Safe.ok (image : Bytes) : Safe A (.ok image) (.ok image) := ⟨rfl, .ok image⟩

theorem Safe.other {e : CodecError} (h : e.isRange = false) : Safe A (.error e) (.error e) :=
  ⟨rfl, .other h⟩

theorem Safe.mono (h : Safe A x y) (hAB : ∀ place d, A place d → B place d) : Safe B x y :=
  ⟨h.eq, h.fails.mono hAB⟩

theorem Safe.bind {a : Except CodecError α} {f g : α → Except CodecError Bytes}
    (ha : FailsUnfit A a) (hfg : ∀ b, a = .ok b → Safe A (f b) (g b)) :
    Safe A (a >>= f) (a >>= g) := by
  refine ⟨?_, ha.bind fun b hb => (hfg b hb).fails⟩
  cases a with
  | error e => rfl
  | ok b => exact (hfg b rfl).eq

/-- Safe steps one behind the other. -/
theorem Safe.append {f g : Bytes → Except CodecError Bytes} (h : Safe A x y)
    (hfg : ∀ image, Safe A (f image) (g image)) : Safe A (x >>= f) (y >>= g) := by
  obtain ⟨rfl, hfails⟩ := h
  exact .bind hfails fun image _ => hfg image

namespace Inside

theorem ok : Inside A image (.ok image) (.ok image) := ⟨.ok image, by rintro _ ⟨⟩; rfl⟩

theorem unfit {path : String} {d : Demand} (hd : A path d) (h : ¬d.Fits) :
    Inside A image (.error (.outOfRange path d.shown d.typeName))
      (.error (.outOfRange path d.shown d.typeName)) :=
  ⟨⟨rfl, .unfit hd h⟩, by rintro _ ⟨⟩⟩

theorem other {e : CodecError} (h : e.isRange = false) :
    Inside A image (.error e) (.error e) := ⟨.other h, by rintro _ ⟨⟩⟩

theorem mono (h : Inside A image x y) (hAB : ∀ place d, A place d → B place d) :
    Inside B image x y :=
  ⟨h.toSafe.mono hAB, h.length⟩

/-- Steps on one image, one behind the other. -/
theorem bind {f g : Bytes → Except CodecError Bytes} (h : Inside A image x y)
    (hfg : ∀ image', image'.length = image.length → Inside A image' (f image') (g image')) :
    Inside A image (x >>= f) (y >>= g) := by
  obtain ⟨⟨rfl, hfails⟩, hlength⟩ := h
  refine ⟨.bind hfails fun image' h => (hfg image' (hlength image' h)).toSafe, fun image'' h => ?_⟩
  obtain ⟨image', hx, hg⟩ := bind_eq_ok_iff.1 h
  have hlen := hlength image' hx
  rw [(hfg image' hlen).length image'' hg, hlen]

/-- What is made of the value comes before what is done to the image. -/
theorem bind_left {a : Except CodecError α} {f g : α → Except CodecError Bytes}
    (ha : FailsUnfit A a) (hfg : ∀ b, a = .ok b → Inside A image (f b) (g b)) :
    Inside A image (a >>= f) (a >>= g) := by
  refine ⟨.bind ha fun b hb => (hfg b hb).toSafe, fun image' h => ?_⟩
  obtain ⟨b, hb, hg⟩ := bind_eq_ok_iff.1 h
  exact (hfg b hb).length image' hg

end Inside

end Steps

section Puts

variable (outside : Except CodecError Bytes) {A : String → Demand → Prop}

theorem Primitive.not_accepts_of_encode? {p : Primitive} {order : ByteOrder} {l : Literal}
    (h : p.encode? order l = none) : ¬p.Accepts l := by
  intro hacc
  obtain ⟨bs, hbs⟩ := exists_encode? order hacc
  rw [h] at hbs
  cases hbs

theorem HeaderSlot.inside_put {s : HeaderSlot} {base : Nat} {image : Bytes}
    (h : base + s.offset + s.width ≤ image.length) {path : String} {n : Nat}
    (hA : A path (.number s n)) :
    Inside A image (s.putOr outside base path n image) (s.put base path n image) := by
  rw [width] at h
  unfold putOr put
  by_cases hsize : n < UInt64.size
  · rw [if_pos hsize, if_pos hsize, if_neg (not_lt.2 h), putElement?, if_neg (not_lt.2 h)]
    cases hn : s.primitive.encode? s.byteOrder (.uint (UInt64.ofNat n)) with
    | none => exact .unfit hA fun hacc => Primitive.not_accepts_of_encode? hn hacc.2
    | some bs =>
      refine ⟨.ok _, ?_⟩
      rintro _ ⟨⟩
      exact length_overwrite (by rw [length_encode? hn]; exact h)
  · rw [if_neg hsize, if_neg hsize]
    exact .unfit hA fun hacc => hsize hacc.1

theorem inside_putLiteral {p : Primitive} {order : ByteOrder} {pos : Nat} {image : Bytes}
    (h : pos + p.size ≤ image.length) {path : String} {l : Literal}
    (hA : ¬p.Accepts l → A path (.literal p l)) :
    Inside A image (putLiteralOr outside p order pos path l image)
      (putLiteral p order pos path l image) := by
  rw [putLiteralOr, putLiteral, if_neg (not_lt.2 h), putElement?, if_neg (not_lt.2 h)]
  cases hl : p.encode? order l with
  | none =>
    have hacc := Primitive.not_accepts_of_encode? hl
    exact .unfit (hA hacc) hacc
  | some bs =>
    refine ⟨.ok _, ?_⟩
    rintro _ ⟨⟩
    exact length_overwrite (by rw [length_encode? hl]; exact h)

/-! ## Fields -/

namespace PrimitiveLayout

variable {p : PrimitiveLayout}

theorem inside_putAll {path : String} : ∀ {ls : List Literal} {pos : Nat} {image : Bytes},
    pos + p.primitive.size * ls.length ≤ image.length →
    (∀ l ∈ ls, ¬p.primitive.Accepts l → A path (.literal p.primitive l)) →
    Inside A image (p.putAllOr outside path pos ls image) (p.putAll path pos ls image)
  | [], pos, image, _, _ => by
    rw [putAllOr, putAll]
    exact .ok
  | l :: ls, pos, image, h, hA => by
    rw [List.length_cons, Nat.mul_succ] at h
    rw [putAllOr, putAll]
    refine (inside_putLiteral outside (by omega) (hA l List.mem_cons_self)).bind
      fun image' hlen => ?_
    exact inside_putAll (by omega) fun l' hl' => hA l' (List.mem_cons_of_mem _ hl')

theorem inside_putItems {path : String} : ∀ {items : List Value} {index pos : Nat}
    {image : Bytes}, pos + p.primitive.size * items.length ≤ image.length →
    (∀ (i : Nat) (v : Value) (l : Literal), items[i]? = some v → v.toLiteral? = some l →
      A (itemPath path (index + i)) (.literal p.primitive l)) →
    Inside A image (p.putItemsOr outside path index pos items image)
      (p.putItems path index pos items image)
  | [], index, pos, image, _, _ => by
    rw [putItemsOr, putItems]
    exact .ok
  | v :: items, index, pos, image, h, hA => by
    rw [List.length_cons, Nat.mul_succ] at h
    rw [putItemsOr, putItems]
    cases hv : v.toLiteral? with
    | none => exact .other rfl
    | some l =>
      refine (inside_putLiteral outside (by omega) fun _ => hA 0 v l rfl hv).bind
        fun image' hlen => ?_
      refine inside_putItems (by omega) fun i w l' hw hl' => ?_
      have := hA (i + 1) w l' hw hl'
      rwa [← Nat.add_assoc, Nat.add_right_comm] at this

/-- A byte is in the range of a character. -/
theorem accepts_byte (ht : p.isText) (b : UInt8) : p.primitive.Accepts (.uint b.toUInt64) := by
  rw [primitive_of_isText ht]
  exact ⟨b.toNat, word?_char_byte b⟩

theorem inside_encodeValue (hp : p.Laid) (hc : p.isConstant = false) {pos : Nat} {image : Bytes}
    (h : pos + p.primitive.size * p.arrayLength ≤ image.length) (path : String) (v : Value) :
    Inside (p.Demands path (some v)) image (p.encodeValueOr outside pos path v image)
      (p.encodeValue pos path v image) := by
  have hle : ∀ {n : Nat}, n ≤ p.arrayLength → pos + p.primitive.size * n ≤ image.length :=
    fun hn => le_trans (Nat.add_le_add_left (Nat.mul_le_mul_left _ hn) _) h
  unfold encodeValueOr encodeValue
  by_cases ht : p.isText
  · rw [if_pos ht, if_pos ht]
    refine .bind_left (p.failsUnfit_textBytes path v) fun bs hbs => ?_
    by_cases hlen : p.arrayLength < bs.length
    · rw [if_pos hlen, if_pos hlen]
      have hd : p.Demands path (some v) path (.text bs.length p.arrayLength) := .text hc ht hbs
      exact .unfit hd (not_le.2 hlen)
    · rw [if_neg hlen, if_neg hlen]
      refine inside_putAll outside (hle (by rw [List.length_map]; exact not_lt.1 hlen))
        fun l hl hacc => ?_
      obtain ⟨b, -, rfl⟩ := List.mem_map.1 hl
      exact absurd (accepts_byte ht b) hacc
  · rw [if_neg ht, if_neg ht]
    rw [Bool.not_eq_true] at ht
    by_cases ha : p.isArray
    · rw [if_pos ha, if_pos ha]
      cases v with
      | array items =>
        dsimp only
        split
        · exact .other rfl
        · rename_i hlen
          refine inside_putItems outside (hle (not_not.1 hlen).le) fun i v l hv hl => ?_
          rw [Nat.zero_add]
          exact .item hc ht ha hv hl
      | _ => exact .other rfl
    · rw [if_neg ha, if_neg ha]
      cases hl : v.toLiteral? with
      | none => exact .other rfl
      | some l =>
        rw [Bool.not_eq_true] at ha
        exact inside_putLiteral outside (by simpa using hle hp.1) fun _ => .element hc ht ha hl

theorem inside_encode (hp : p.Laid) {pos : Nat} {image : Bytes}
    (h : pos + p.width ≤ image.length) (path : String) (v : Option Value) :
    Inside (p.Demands path v) image (p.encodeOr outside pos path v image)
      (p.encode pos path v image) := by
  unfold encodeOr encode
  by_cases hc : p.isConstant
  · rw [if_pos hc, if_pos hc]
    exact .ok
  · rw [width, if_neg hc] at h
    rw [if_neg hc, if_neg hc]
    rw [Bool.not_eq_true] at hc
    cases v with
    | some v => exact inside_encodeValue outside hp hc h path v
    | none =>
      by_cases ho : p.isOptional
      · dsimp only
        rw [if_pos ho, if_pos ho]
        refine inside_putAll outside (by rw [List.length_replicate]; exact h) fun l hl _ => ?_
        rw [List.eq_of_mem_replicate hl]
        exact .null hc ho
      · dsimp only
        rw [if_neg ho, if_neg ho]
        exact .other rfl

end PrimitiveLayout

theorem EnumLayout.inside_encode {e : EnumLayout} {pos : Nat} {image : Bytes}
    (h : pos + e.width ≤ image.length) (path : String) (v : Value) :
    Inside (FieldKind.Demands (.enumeration e) path (some v)) image
      (e.encodeOr outside pos path v image) (e.encode pos path v image) := by
  rw [encodeOr, encode]
  cases hv : v.enumName? with
  | none => exact .other rfl
  | some name =>
    dsimp only
    cases hl : e.literalNamed? name with
    | none => exact .other rfl
    | some raw => exact inside_putLiteral outside h fun _ => .enumeration hv hl

theorem SetLayout.inside_encode {s : SetLayout} {pos : Nat} {image : Bytes}
    (h : pos + s.width ≤ image.length) (path : String) (v : Value) :
    Inside (FieldKind.Demands (.set s) path (some v)) image (s.encodeOr outside pos path v image)
      (s.encode pos path v image) := by
  cases v with
  | set typeName choices =>
    rw [encodeOr, encode]
    exact .bind_left (s.failsUnfit_bitsOf path choices) fun bits hbits =>
      inside_putLiteral outside h fun _ => .set hbits
  | _ => exact .other rfl

mutual

/-- A field is put inside of an image that reaches behind it. -/
theorem FieldKind.inside_encode (path : String) (v : Option Value) :
    ∀ {k : FieldKind}, k.Laid → ∀ {pos : Nat} {image : Bytes}, pos + k.width ≤ image.length →
    Inside (k.Demands path v) image (k.encodeOr outside pos path v image)
      (k.encode pos path v image)
  | .primitive p, hk, pos, image, h => by
    rw [FieldKind.Laid] at hk
    rw [FieldKind.encodeOr, FieldKind.encode]
    exact (p.inside_encode outside hk h path v).mono fun place d => .primitive
  | .composite ⟨_, encodedLength, members, _⟩, hk, pos, image, h => by
    rw [FieldKind.Laid] at hk
    rw [FieldKind.width] at h
    cases v with
    | none => exact .other rfl
    | some v =>
      rw [FieldKind.encodeOr, FieldKind.encode]
      by_cases hv : v.isObject
      · rw [if_pos hv, if_pos hv]
        exact inside_encodeFields path v hk (fun f hf place d => .member hv hf) h
      · rw [if_neg hv, if_neg hv]
        exact .other rfl
  | .enumeration e, _, pos, image, h => by
    cases v with
    | none => exact .other rfl
    | some v =>
      rw [FieldKind.encodeOr, FieldKind.encode]
      exact e.inside_encode outside h path v
  | .set s, _, pos, image, h => by
    cases v with
    | none => exact .other rfl
    | some v =>
      rw [FieldKind.encodeOr, FieldKind.encode]
      exact s.inside_encode outside h path v

/-- The fields of a block are put inside of an image that reaches behind the block. -/
theorem inside_encodeFields (path : String) (v : Value) {base limit : Nat} :
    ∀ {A : String → Demand → Prop} {fields : List FieldLayout} {cursor : Nat},
    fieldsLaid cursor limit fields →
    (∀ f ∈ fields, ∀ place d, f.kind.Demands (childPath path f.name) (v.field? f.name) place d →
      A place d) →
    ∀ {image : Bytes}, base + limit ≤ image.length →
    Inside A image (encodeFieldsOr outside base path v image fields)
      (encodeFields base path v image fields)
  | _, [], _, _, _, image, _ => by
    rw [encodeFieldsOr, encodeFields]
    exact .ok
  | _, ⟨name, _, _, offset, _, kind⟩ :: fields, cursor, hl, hA, image, h => by
    rw [fieldsLaid] at hl
    obtain ⟨-, hk, hrest⟩ := hl
    have hstop := fieldsLaid_le hrest
    have hfield : Inside (kind.Demands (childPath path name) (v.field? name)) image
        (kind.encodeOr outside (base + offset) (childPath path name) (v.field? name) image)
        (kind.encode (base + offset) (childPath path name) (v.field? name) image) :=
      FieldKind.inside_encode (childPath path name) (v.field? name) hk (by omega)
    rw [encodeFieldsOr, encodeFields]
    refine (hfield.mono (hA _ List.mem_cons_self)).bind fun image' hlen => ?_
    exact inside_encodeFields path v hrest (fun f hf => hA f (List.mem_cons_of_mem _ hf)) (by omega)

end

/-! ## Headers and var-data -/

theorem length_padTo_add (image : Bytes) (n : Nat) :
    (padTo (image.length + n) image).length = image.length + n :=
  length_padTo (Nat.le_add_right _ _)

theorem VarDataLayout.safe_encode {d : VarDataLayout} {path : String} {v : Option Value}
    (hA : ∀ payload, d.payload path v = .ok payload → A path (.number d.length payload.length))
    (image : Bytes) : Safe A (d.encodeOr outside path v image) (d.encode path v image) := by
  refine .bind (d.failsUnfit_payload path v) fun payload hpayload => ?_
  have hroom : image.length + d.length.offset + d.length.width
      ≤ (padTo (image.length + d.headerLength) image).length := by
    rw [length_padTo_add, headerLength, Nat.add_assoc]
  exact (HeaderSlot.inside_put outside hroom (hA payload hpayload)).toSafe.append
    fun image => .ok _

theorem DimensionLayout.safe_encode {d : DimensionLayout} (hd : d.Laid) {path : String}
    {blockLength count : Nat} (hb : A path (.number d.blockLength blockLength))
    (hc : A path (.number d.numInGroup count)) (image : Bytes) :
    Safe A (d.encodeOr outside path blockLength count image)
      (d.encode path blockLength count image) := by
  have hlen := length_padTo_add image d.encodedLength
  have h1 := hd.blockLength
  have h2 := hd.numInGroup
  refine (Inside.bind (HeaderSlot.inside_put outside (by omega) hb) fun image' hlen' => ?_).toSafe
  exact HeaderSlot.inside_put outside (by omega) hc

/-! ## Bodies -/

theorem safe_encodeVarData {b : BodyLayout} {path : String} {v : Value} : ∀ {ds : List VarDataLayout},
    (∀ d ∈ ds, d ∈ b.varData) → ∀ image : Bytes,
    Safe (b.Demands path v) (encodeVarDataOr outside path v image ds)
      (encodeVarData path v image ds)
  | [], _, image => .ok image
  | d :: _, hds, image =>
    (VarDataLayout.safe_encode outside (fun _ => .length (hds d List.mem_cons_self)) image).append
      fun image => safe_encodeVarData (fun d' hd' => hds d' (List.mem_cons_of_mem _ hd')) image

/-- Items are appended safely if each of them is. -/
theorem safe_encodeItems {f g : String → Value → Bytes → Except CodecError Bytes} {path : String} :
    ∀ {vs : List Value} {index : Nat}, (∀ (i : Nat) (v : Value), vs[i]? = some v → ∀ image,
      Safe A (f (itemPath path (index + i)) v image) (g (itemPath path (index + i)) v image)) →
    ∀ image : Bytes, Safe A (encodeItems f path index vs image) (encodeItems g path index vs image)
  | [], _, _, image => .ok image
  | v :: vs, index, h, image => by
    refine (h 0 v rfl image).append fun image => safe_encodeItems (fun i w hw image => ?_) image
    have := h (i + 1) w hw image
    rwa [← Nat.add_assoc, Nat.add_right_comm] at this

mutual

/-- The encoder is the same whatever would come of a put outside, and a body asks for what does not
fit. -/
theorem BodyLayout.safe_encode : ∀ {b : BodyLayout}, b.Laid → ∀ (path : String) (v : Value)
    (image : Bytes), Safe (b.Demands path v) (b.encodeOr outside path v image)
      (b.encode path v image)
  | ⟨blockLength, fields, groups, varData⟩, hb, path, v, image => by
    rw [BodyLayout.Laid] at hb
    rw [BodyLayout.encodeOr, BodyLayout.encode]
    cases hv : v.isObject with
    | false => exact .other rfl
    | true =>
      have hfields := inside_encodeFields outside path v hb.1
        (fun f hf place d => BodyLayout.Demands.field (b := ⟨blockLength, fields, groups, varData⟩)
          hv hf) (length_padTo_add image blockLength).ge
      refine hfields.toSafe.append fun block => ?_
      refine (safe_encodeGroups hb.2 (fun _ => id) block).append fun elements => ?_
      exact safe_encodeVarData outside (fun _ => id) elements

theorem safe_encodeGroups {b : BodyLayout} : ∀ {groups : List GroupLayout}, groupsLaid groups →
    (∀ g ∈ groups, g ∈ b.groups) → ∀ {path : String} {v : Value} (image : Bytes),
    Safe (b.Demands path v) (encodeGroupsOr outside groups path v image)
      (encodeGroups groups path v image)
  | [], _, _, path, v, image => by
    rw [encodeGroupsOr, encodeGroups]
    exact .ok image
  | ⟨name, _, _, dimension, body, _⟩ :: groups, hg, hgroups, path, v, image => by
    rw [groupsLaid] at hg
    obtain ⟨hd, hb, hrest⟩ := hg
    have hown := hgroups _ List.mem_cons_self
    rw [encodeGroupsOr, encodeGroups]
    dsimp only
    cases hv : v.field? name with
    | none => exact .other rfl
    | some element =>
      cases element with
      | array elements =>
        refine (dimension.safe_encode outside hd (.blockLength hown hv) (.count hown hv)
          image).append fun header => ?_
        refine (safe_encodeItems (fun i e he image => ?_) header).append fun items => ?_
        · rw [Nat.zero_add]
          exact (BodyLayout.safe_encode hb _ e image).mono fun place d => .element hown hv he
        · exact safe_encodeGroups hrest (fun g hg => hgroups g (List.mem_cons_of_mem _ hg)) items
      | _ => exact .other rfl

end

/-! ## Messages -/

theorem MessageHeader.safe_encode {h : HeaderLayout} (hl : h.Laid) (m : MessageHeader) :
    Safe (m.Demands h) (m.encodeOr outside h) (m.encode h) := by
  have hlen : (padTo h.encodedLength []).length = h.encodedLength := length_padTo (Nat.zero_le _)
  have hput : ∀ s ∈ h.slots, ∀ {image : Bytes}, image.length = h.encodedLength → ∀ {path n},
      m.Demands h path (.number s n) →
      Inside (m.Demands h) image (s.putOr outside 0 path n image) (s.put 0 path n image) := by
    intro s hs image himage path n hA
    have hstop := hl.within s hs
    exact HeaderSlot.inside_put outside (by omega) hA
  refine (Inside.bind (hput _ (by simp [HeaderLayout.slots]) hlen .blockLength)
    fun image h1 => ?_).toSafe
  refine Inside.bind (hput _ (by simp [HeaderLayout.slots]) (h1.trans hlen) .templateId)
    fun image h2 => ?_
  refine Inside.bind (hput _ (by simp [HeaderLayout.slots]) (h2.trans (h1.trans hlen)) .schemaId)
    fun image h3 => ?_
  exact hput _ (by simp [HeaderLayout.slots]) (h3.trans (h2.trans (h1.trans hlen))) .version

namespace MessageCodec

variable {m : MessageCodec}

/-- What a message asks for: what its header does, and what its body does. -/
def Demands (m : MessageCodec) (v : Value) (place : String) (d : Demand) : Prop :=
  m.ownHeader.Demands m.header place d ∨ m.message.body.Demands m.message.name v place d

theorem safe_encodeBody (hb : m.message.body.Laid) (v : Value) :
    Safe (m.message.body.Demands m.message.name v) (m.encodeBodyOr outside v) (m.encodeBody v) :=
  BodyLayout.safe_encode outside hb _ v []

theorem safe_encode (hh : m.header.Laid) (hb : m.message.body.Laid) (v : Value) :
    Safe (m.Demands v) (m.encodeOr outside v) (m.encode v) :=
  ((m.ownHeader.safe_encode outside hh).mono fun _ _ => .inl).append fun image =>
    (BodyLayout.safe_encode outside hb _ v image).mono fun _ _ => .inr

end MessageCodec

end Puts

namespace MessageCodec

variable {m : MessageCodec}

/-- A body takes as many bytes as its size says, the encoder never puts an element outside of what
it reserved, and an error of range names a place where the value asks for something that does not
fit, and shows what that is. -/
theorem encodeBody_sized_and_inside {tokens : List Token}
    (ht : MessageLayout.ofTokens tokens = .ok m.message) (v : Value) :
    (∀ bs, m.encodeBody v = .ok bs → bs.length = m.message.body.size v)
    ∧ (∀ outside, m.encodeBodyOr outside v = m.encodeBody v)
    ∧ (∀ path value type, m.encodeBody v = .error (.outOfRange path value type) →
      ∃ d, m.message.body.Demands m.message.name v path d ∧ ¬d.Fits
        ∧ value = d.shown ∧ type = d.typeName)
    ∧ ∀ headerTokens, HeaderLayout.ofTokens headerTokens = .ok m.header →
      (∀ outside, m.encodeOr outside v = m.encode v)
      ∧ ∀ path value type, m.encode v = .error (.outOfRange path value type) →
        ∃ d, m.Demands v path d ∧ ¬d.Fits ∧ value = d.shown ∧ type = d.typeName := by
  have hlaid := MessageLayout.laid_of_ofTokens ht
  -- what an error of range says is the same for any outcome outside
  refine ⟨fun bs hbs => ?_, fun outside => (safe_encodeBody outside hlaid v).eq,
    (safe_encodeBody (.ok []) hlaid v).fails, fun headerTokens hh => ?_⟩
  · exact BodyLayout.length_image? hlaid ((encodeBody_eq_ok_iff hlaid).1 hbs)
  · have hheader := HeaderLayout.laid_of_ofTokens hh
    exact ⟨fun outside => (safe_encode outside hheader hlaid v).eq,
      (safe_encode (.ok []) hheader hlaid v).fails⟩

end MessageCodec

/-- An order takes the five bytes of its block, four with its fills and five with its note; one
whose symbol is too long has none, and the symbol is what does not fit. -/
theorem Orders.encodeBody_sized_sell :
    (∃ bs, definedCodec.encodeBody (.object "Order" sell) = .ok bs
      ∧ bs.length = definedCodec.message.body.size (.object "Order" sell)
      ∧ definedCodec.message.body.size (.object "Order" sell) = 14)
    ∧ (∀ outside, definedCodec.encodeOr outside (.object "Order" sell)
      = definedCodec.encode (.object "Order" sell))
    ∧ definedCodec.encodeBody (.object "Order" (insertField "symbol" (.text "ABCDE") sell))
      = .error (.outOfRange "Order.symbol" "5 bytes" "char[4]")
    ∧ ∃ d, definedCodec.message.body.Demands "Order"
        (.object "Order" (insertField "symbol" (.text "ABCDE") sell)) "Order.symbol" d
      ∧ ¬d.Fits ∧ "5 bytes" = d.shown ∧ "char[4]" = d.typeName := by
  have ht : MessageLayout.ofTokens (definition.tokens .littleEndian) = .ok definedCodec.message :=
    MessageDef.ofTokens_tokens_of_layout? definition_sound layout?_definition
  obtain ⟨hsize, -, -, hinside⟩ :=
    MessageCodec.encodeBody_sized_and_inside ht (.object "Order" sell)
  obtain ⟨-, -, hunfit, -⟩ := MessageCodec.encodeBody_sized_and_inside ht
    (.object "Order" (insertField "symbol" (.text "ABCDE") sell))
  exact ⟨⟨_, rfl, hsize _ rfl, by decide +kernel⟩, (hinside _ ofTokens_header).1, by rfl,
    hunfit "Order.symbol" _ _ (by rfl)⟩

end SimpleBinary
