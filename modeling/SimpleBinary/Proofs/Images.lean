import Mathlib
import SimpleBinary.Proofs.Images.Fields

/-!
# The bytes of a value

Behind the block of a body the encoder appends its groups and its var-data.  `BodyLayout.image?` are
the bytes of a body; the encoder gives these and nothing else (`BodyLayout.toOption_encode`), and it
fails just where they do not exist.
-/

namespace SimpleBinary

/-! ## Headers and var-data -/

theorem length_overwrite {pos : Nat} {bs image : Bytes} (h : pos + bs.length ≤ image.length) :
    (overwrite pos bs image).length = image.length := by
  simp only [overwrite, List.length_append, List.length_take, List.length_drop]
  omega

theorem overwrite_zeros {pos : Nat} (bs : Bytes) :
    overwrite pos bs (zeros (pos + bs.length)) = zeros pos ++ bs := by
  have h : overwrite (zeros pos).length bs (zeros pos ++ zeros bs.length ++ [])
      = zeros pos ++ bs ++ [] := overwrite_append (by rw [length_zeros]) []
  rwa [List.append_nil, List.append_nil, length_zeros, ← zeros_add] at h

/-- The bytes of a length or a count. -/
def HeaderSlot.image? (s : HeaderSlot) (n : Nat) : Option Bytes :=
  if n < UInt64.size then s.primitive.encode? s.byteOrder (.uint (UInt64.ofNat n)) else none

theorem HeaderSlot.length_image? {s : HeaderSlot} {n : Nat} {bs : Bytes}
    (h : s.image? n = some bs) : bs.length = s.width := by
  rw [image?, Option.ite_none_right_eq_some] at h
  exact length_encode? h.2

theorem HeaderSlot.toOption_put {s : HeaderSlot} {header : Bytes}
    (h : s.offset + s.width ≤ header.length) (path : String) (n : Nat) (pre : Bytes) :
    (s.put pre.length path n (pre ++ header)).toOption
      = (s.image? n).map fun bs => pre ++ overwrite s.offset bs header := by
  have hput : (if n < UInt64.size then
        putElement? (pre.length + s.offset) s.primitive s.byteOrder (.uint (UInt64.ofNat n))
          (pre ++ header)
      else none) = (s.image? n).map fun bs => pre ++ overwrite s.offset bs header := by
    rw [image?]
    split
    · rw [width] at h
      rw [putElement?, if_neg (by rw [List.length_append]; omega)]
      exact Option.map_congr fun bs _ => overwrite_append_right _ _ _ _
    · rfl
  simp only [put, hput]
  cases s.image? n <;> rfl

/-- The payload of var-data. -/
def VarDataLayout.payload? (d : VarDataLayout) : Option Value → Option Bytes
  | some (.text s) => textImage? d.characterEncoding s
  | some (.bytes bs) => some bs
  | _ => none

theorem VarDataLayout.toOption_payload (d : VarDataLayout) (path : String) (v : Option Value) :
    (d.payload path v).toOption = d.payload? v := by
  cases v with
  | none => rfl
  | some v => cases v <;> first | rfl | exact toOption_encodeText path d.characterEncoding _

/-- The bytes of var-data. -/
def VarDataLayout.image? (d : VarDataLayout) (v : Option Value) : Option Bytes := do
  let payload ← d.payload? v
  let length ← d.length.image? payload.length
  return zeros d.length.offset ++ length ++ payload

theorem VarDataLayout.toOption_encode (d : VarDataLayout) (path : String) (v : Option Value)
    (image : Bytes) : (d.encode path v image).toOption = (d.image? v).map (image ++ ·) := by
  rw [encode, image?, toOption_bind, d.toOption_payload]
  cases d.payload? v with
  | none => rfl
  | some payload =>
    simp only [Option.bind_some, Option.bind_eq_bind, Option.pure_def]
    have hpad : padTo (image.length + d.headerLength) image = image ++ zeros d.headerLength := by
      rw [padTo_eq, Nat.add_sub_cancel_left]
    rw [hpad, toOption_bind, HeaderSlot.toOption_put (by simp [headerLength])]
    cases h : d.length.image? payload.length with
    | none => rfl
    | some length =>
      have hw : d.headerLength = d.length.offset + length.length := by
        rw [headerLength, HeaderSlot.length_image? h]
      simp only [Option.map_some, Option.bind_some, toOption_pure, hw, overwrite_zeros,
        List.append_assoc]

def varDataImage? (v : Value) : List VarDataLayout → Option Bytes :=
  concat? fun d => d.image? (v.field? d.name)

theorem varDataImage?_congr {u v : Value} {ds : List VarDataLayout}
    (h : ∀ d ∈ ds, u.field? d.name = v.field? d.name) : varDataImage? u ds = varDataImage? v ds :=
  concat?_congr fun d hd => by rw [h d hd]

theorem toOption_encodeVarData (path : String) (v : Value) : ∀ (ds : List VarDataLayout)
    (image : Bytes),
    (encodeVarData path v image ds).toOption = (varDataImage? v ds).map (image ++ ·)
  | [], image => by
    rw [varDataImage?, concat?, Option.map_some, List.append_nil]
    rfl
  | d :: ds, image => by
    have h := toOption_encodeVarData path v ds
    simp only [encodeVarData, varDataImage?] at h ⊢
    rw [List.foldlM_cons, toOption_bind, d.toOption_encode, concat?_cons]
    cases d.image? (v.field? d.name) with
    | none => rfl
    | some bs =>
      simp only [Option.map_some, Option.bind_some, h, Option.map_map]
      exact Option.map_congr fun rest _ => List.append_assoc _ _ _

/-- The bytes of a group's header. -/
def DimensionLayout.image? (d : DimensionLayout) (blockLength count : Nat) : Option Bytes := do
  let length ← d.blockLength.image? blockLength
  let number ← d.numInGroup.image? count
  return overwrite d.numInGroup.offset number
    (overwrite d.blockLength.offset length (zeros d.encodedLength))

theorem DimensionLayout.toOption_encode {d : DimensionLayout} (hd : d.Laid) (path : String)
    (blockLength count : Nat) (image : Bytes) :
    (d.encode path blockLength count image).toOption
      = (d.image? blockLength count).map (image ++ ·) := by
  have hpad : padTo (image.length + d.encodedLength) image = image ++ zeros d.encodedLength := by
    rw [padTo_eq, Nat.add_sub_cancel_left]
  rw [encode, image?, hpad, toOption_bind, HeaderSlot.toOption_put (by simpa using hd.blockLength)]
  cases h : d.blockLength.image? blockLength with
  | none => rfl
  | some length =>
    have hlen : (overwrite d.blockLength.offset length (zeros d.encodedLength)).length
        = (zeros d.encodedLength).length := length_overwrite (by
      rw [HeaderSlot.length_image? h, length_zeros]
      exact hd.blockLength)
    simp only [Option.map_some, Option.bind_some, Option.bind_eq_bind]
    rw [HeaderSlot.toOption_put (by rw [hlen, length_zeros]; exact hd.numInGroup)]
    cases d.numInGroup.image? count <;> rfl

theorem DimensionLayout.length_image? {d : DimensionLayout} (hd : d.Laid) {blockLength count : Nat}
    {bs : Bytes} (h : d.image? blockLength count = some bs) : bs.length = d.encodedLength := by
  obtain ⟨length, hl, h⟩ := Option.bind_eq_some_iff.1 h
  obtain ⟨number, hn, h⟩ := Option.bind_eq_some_iff.1 h
  cases h
  have h1 : (overwrite d.blockLength.offset length (zeros d.encodedLength)).length
      = (zeros d.encodedLength).length := length_overwrite (by
    rw [HeaderSlot.length_image? hl, length_zeros]
    exact hd.blockLength)
  rw [length_overwrite, h1, length_zeros]
  rw [h1, length_zeros, HeaderSlot.length_image? hn]
  exact hd.numInGroup

/-! ## Bodies -/

/-- Items that are appended in turn have their bytes one behind the other. -/
theorem toOption_encodeItems {encode : String → Value → Bytes → Except CodecError Bytes}
    {f : Value → Option Bytes}
    (h : ∀ path v image, (encode path v image).toOption = (f v).map (image ++ ·)) (path : String) :
    ∀ (vs : List Value) (index : Nat) (image : Bytes),
    (encodeItems encode path index vs image).toOption = (concat? f vs).map (image ++ ·)
  | [], index, image => by
    rw [encodeItems, concat?, Option.map_some, List.append_nil]
    rfl
  | v :: vs, index, image => by
    rw [encodeItems, toOption_bind, h, concat?_cons]
    cases f v with
    | none => rfl
    | some bs =>
      simp only [Option.map_some, Option.bind_some, toOption_encodeItems h, Option.map_map]
      exact Option.map_congr fun rest _ => List.append_assoc _ _ _

mutual

/-- The bytes of a body. -/
def BodyLayout.image? : BodyLayout → Value → Option Bytes
  | ⟨blockLength, fields, groups, varData⟩, v =>
    if v.isObject then do
      let block ← fieldsImage? 0 v fields
      let elements ← groupsImage? groups v
      let data ← varDataImage? v varData
      return padTo blockLength block ++ elements ++ data
    else none

/-- The bytes of the groups of a value. -/
def groupsImage? : List GroupLayout → Value → Option Bytes
  | [], _ => some []
  | ⟨name, _, _, dimension, body, _⟩ :: groups, v =>
    match v.field? name with
    | some (.array elements) => do
      let header ← dimension.image? body.blockLength elements.length
      let items ← concat? (fun v => body.image? v) elements
      let rest ← groupsImage? groups v
      return header ++ items ++ rest
    | _ => none

end

theorem BodyLayout.image?_eq_some_iff {blockLength : Nat} {fields : List FieldLayout}
    {groups : List GroupLayout} {varData : List VarDataLayout} {v : Value} {w : Bytes} :
    BodyLayout.image? ⟨blockLength, fields, groups, varData⟩ v = some w ↔
      v.isObject ∧ ∃ block elements data, fieldsImage? 0 v fields = some block
        ∧ groupsImage? groups v = some elements ∧ varDataImage? v varData = some data
        ∧ w = padTo blockLength block ++ elements ++ data := by
  rw [BodyLayout.image?, Option.ite_none_right_eq_some]
  simp only [Option.bind_eq_bind, Option.pure_def, Option.bind_eq_some_iff, Option.some.injEq]
  grind

theorem groupsImage?_cons_eq_some_iff {name : String} {id since : Int32}
    {dimension : DimensionLayout} {body : BodyLayout} {description : Option String}
    {groups : List GroupLayout} {v : Value} {w : Bytes} :
    groupsImage? (⟨name, id, since, dimension, body, description⟩ :: groups) v = some w ↔
      ∃ elements header items rest, v.field? name = some (.array elements)
        ∧ dimension.image? body.blockLength elements.length = some header
        ∧ concat? (fun v => body.image? v) elements = some items
        ∧ groupsImage? groups v = some rest ∧ w = header ++ items ++ rest := by
  rw [groupsImage?]
  constructor
  · intro h
    split at h
    · rename_i elements hfield
      obtain ⟨header, hh, h⟩ := Option.bind_eq_some_iff.1 h
      obtain ⟨items, hi, h⟩ := Option.bind_eq_some_iff.1 h
      obtain ⟨rest, hr, h⟩ := Option.bind_eq_some_iff.1 h
      cases h
      exact ⟨elements, header, items, rest, hfield, hh, hi, hr, rfl⟩
    · cases h
  · rintro ⟨elements, header, items, rest, hfield, hh, hi, hr, rfl⟩
    rw [hfield]
    simp only [hh, hi, hr, Option.bind_eq_bind, Option.bind_some, Option.pure_def]

mutual

/-- The encoder appends the bytes of a body. -/
theorem BodyLayout.toOption_encode : ∀ {b : BodyLayout}, b.Laid → ∀ (path : String) (v : Value)
    (image : Bytes), (b.encode path v image).toOption = (b.image? v).map (image ++ ·)
  | ⟨blockLength, fields, groups, varData⟩, hb, path, v, image => by
    rw [BodyLayout.Laid] at hb
    rw [BodyLayout.encode, BodyLayout.image?]
    cases hv : v.isObject with
    | false => rfl
    | true =>
      have hpad : padTo (image.length + blockLength) image
          = image ++ zeros (blockLength - 0) ++ [] := by
        rw [padTo_eq, Nat.add_sub_cancel_left, List.append_nil, Nat.sub_zero]
      simp only [Bool.not_true, Bool.false_eq_true, if_false, if_true]
      rw [hpad, toOption_bind, toOption_encodeFields path v image.length [] hb.1 rfl]
      cases fieldsImage? 0 v fields with
      | none => rfl
      | some block =>
        simp only [Option.map_some, Option.bind_some, Option.bind_eq_bind, toOption_bind,
          toOption_encodeGroups hb.2, toOption_encodeVarData]
        cases groupsImage? groups v with
        | none => rfl
        | some elements =>
          simp only [Option.map_some, Option.bind_some]
          cases varDataImage? v varData with
          | none => rfl
          | some data => simp

theorem toOption_encodeGroups : ∀ {groups : List GroupLayout}, groupsLaid groups →
    ∀ (path : String) (v : Value) (image : Bytes),
    (encodeGroups groups path v image).toOption = (groupsImage? groups v).map (image ++ ·)
  | [], _, path, v, image => by
    rw [encodeGroups, groupsImage?, Option.map_some, List.append_nil]
    rfl
  | ⟨name, _, _, dimension, body, _⟩ :: groups, hg, path, v, image => by
    rw [groupsLaid] at hg
    obtain ⟨hd, hb, hrest⟩ := hg
    rw [encodeGroups, groupsImage?]
    cases v.field? name with
    | none => rfl
    | some element =>
      cases element with
      | array elements =>
        have hitems := toOption_encodeItems
          (fun path v image => BodyLayout.toOption_encode hb path v image) (childPath path name)
          elements 0
        simp only [toOption_bind, DimensionLayout.toOption_encode hd]
        cases dimension.image? body.blockLength elements.length with
        | none => rfl
        | some header =>
          simp only [Option.map_some, Option.bind_some, Option.bind_eq_bind, hitems]
          cases concat? (fun v => body.image? v) elements with
          | none => rfl
          | some items =>
            simp only [Option.map_some, Option.bind_some, toOption_encodeGroups hrest]
            cases groupsImage? groups v with
            | none => rfl
            | some rest => simp
      | _ => rfl

end

end SimpleBinary
