import Mathlib
import SimpleBinary.Codec.Document
import SimpleBinary.Proofs.Stable
import SimpleBinary.Proofs.Truncation

/-!
# Messages as documents and back

The document of a value forgets what its layout knows: enums and texts are both texts, bytes and arrays
both arrays, a NaN is `null`.  Read by the layout it gives the value again, without the constants, which
are not looked at (`BodyLayout.ofJson_toJson`), and so the bytes that the value has
(`BodyLayout.image?_withoutConstants`).  It needs every float to be a finite number or the NaN that `null`
stands for (`Value.IsExpressible`).
-/

namespace SimpleBinary

variable {full : Bool}

/-! ## Floats -/

mutual

/-- The floats in a value, at any depth. -/
def Value.floats : Value → List Binary64
  | .float x => [x]
  | .array items => itemsFloats items
  | .object _ fields => fieldsFloats fields
  | _ => []

def itemsFloats : List Value → List Binary64
  | [] => []
  | v :: vs => v.floats ++ itemsFloats vs

def fieldsFloats : List (String × Value) → List Binary64
  | [] => []
  | (_, v) :: fields => v.floats ++ fieldsFloats fields

end

/-- Every float of the value is a finite number or the NaN without sign and payload. -/
def Value.IsExpressible (v : Value) : Prop := ∀ x ∈ v.floats, x.isFinite ∨ x = .nan

theorem mem_itemsFloats {x : Binary64} {v : Value} : ∀ {items : List Value}, v ∈ items →
    x ∈ v.floats → x ∈ itemsFloats items
  | [], hv, _ => absurd hv List.not_mem_nil
  | w :: items, hv, hx => by
    rw [itemsFloats, List.mem_append]
    rcases List.mem_cons.1 hv with rfl | hv
    · exact .inl hx
    · exact .inr (mem_itemsFloats hv hx)

theorem mem_fieldsFloats {x : Binary64} {name : String} {v : Value} : ∀ {fs : Fields},
    fs.lookup name = some v → x ∈ v.floats → x ∈ fieldsFloats fs
  | [], hv, _ => by simp at hv
  | (m, w) :: fs, hv, hx => by
    rw [lookup_cons_field] at hv
    rw [fieldsFloats, List.mem_append]
    split at hv
    · cases hv
      exact .inl hx
    · exact .inr (mem_fieldsFloats hv hx)

theorem Value.IsExpressible.item {v : Value} {items : List Value}
    (h : (Value.array items).IsExpressible) (hv : v ∈ items) : v.IsExpressible := fun x hx =>
  h x (by rw [Value.floats]; exact mem_itemsFloats hv hx)

theorem Value.IsExpressible.field {v w : Value} {name : String} (h : v.IsExpressible)
    (hw : v.field? name = some w) : w.IsExpressible := by
  intro x hx
  cases v with
  | object n fs => exact h x (by rw [Value.floats]; exact mem_fieldsFloats hw hx)
  | _ => cases hw

/-! ## Numbers -/

namespace Json

theorem int64?_toInt (v : Int64) : (Json.int v.toInt).int64? = some v := by
  have h1 := v.le_toInt
  have h2 := v.toInt_lt
  rw [int64?, intIn?, if_pos ⟨h1, h2⟩, Option.map_some, Int64.ofInt_toInt]

theorem uint64?_toNat (v : UInt64) : (Json.int v.toNat).uint64? = some v := by
  have h : (v.toNat : Int) < UInt64.size := by exact_mod_cast v.toNat_lt
  rw [uint64?, intIn?, if_pos ⟨Int.natCast_nonneg _, h⟩, Option.map_some, Int.toNat_natCast,
    UInt64.ofNat_toNat]

theorem byte?_toNat (b : UInt8) : (Json.int b.toNat).byte? = some b := by
  have h : (b.toNat : Int) < 256 := by exact_mod_cast b.toNat_lt
  rw [byte?, intIn?, if_pos ⟨Int.natCast_nonneg _, h⟩, Option.map_some, Int.toNat_natCast,
    UInt8.ofNat_toNat]

end Json

theorem bytesOfJson_ofBytes (path : String) : ∀ (bs : Bytes) (index : Nat),
    bytesOfJson path index (bs.map fun b => .int b.toNat) = .ok bs
  | [], _ => rfl
  | b :: bs, index => by
    rw [List.map_cons, bytesOfJson, Json.byte?_toNat]
    dsimp only
    rw [bytesOfJson_ofBytes path bs (index + 1)]
    rfl

theorem itemsToJson_eq : ∀ items : List Value, itemsToJson items = items.map Value.toJson
  | [] => rfl
  | v :: vs => by rw [itemsToJson, itemsToJson_eq vs, List.map_cons]

namespace Primitive

variable {p : Primitive} {l : Literal}

theorem ofJson_toJson (h : p.IsDecoded l) (hx : (Value.ofLiteral l).IsExpressible) (path : String) :
    p.ofJson path (Value.ofLiteral l).toJson = .ok (.ofLiteral l) := by
  unfold ofJson ofJson?
  cases l with
  | uint v =>
    rw [Value.ofLiteral, Value.toJson]
    rcases h with hk | hk
    · simp only [hk, characterOfJson?, Json.uint64?_toNat, Option.map_some]
    · simp only [hk, Json.uint64?_toNat, Option.map_some]
  | int v =>
    have hk : p.kind = .signed := h
    rw [Value.ofLiteral, Value.toJson]
    simp only [hk, Json.int64?_toInt, Option.map_some]
  | float x =>
    have hk : p.kind = .float := h.1
    rw [Value.ofLiteral, Value.toJson]
    rcases hx x (by simp [Value.ofLiteral, Value.floats]) with hfin | rfl
    · simp [hk, Json.ofFloat, hfin, Json.isNull, Json.float?]
    · have hnan : Json.ofFloat .nan = .null := if_neg (by decide)
      simp [hk, hnan, Json.isNull]
  | bytes bs => exact h.elim

theorem itemsOfJson_toJson (path : String) : ∀ {ls : List Literal},
    (∀ l ∈ ls, p.IsDecoded l) → (∀ l ∈ ls, (Value.ofLiteral l).IsExpressible) → ∀ index : Nat,
    p.itemsOfJson path index ((ls.map Value.ofLiteral).map Value.toJson) = .ok (ls.map .ofLiteral)
  | [], _, _, _ => rfl
  | l :: ls, h, hx, index => by
    obtain ⟨hl, hls⟩ := List.forall_mem_cons.1 h
    obtain ⟨hxl, hxls⟩ := List.forall_mem_cons.1 hx
    rw [List.map_cons, List.map_cons, itemsOfJson, ofJson_toJson hl hxl, ok_bind,
      itemsOfJson_toJson path hls hxls]
    rfl

end Primitive

/-! ## Leaves -/

theorem PrimitiveLayout.ofJson_toJson {p : PrimitiveLayout} {x : Value} (hc : ¬p.isConstant)
    (h : p.IsDecoded full (some x)) (hx : x.IsExpressible) (path : String) :
    p.ofJson path x.toJson = .ok (some x) := by
  unfold ofJson
  cases h with
  | constant hc' => exact absurd hc' hc
  | text hc ht h hz =>
    rw [if_pos ht]
    rw [IsTextOf] at h
    split at h
    · obtain ⟨s, rfl, -⟩ := h
      rfl
    · obtain ⟨bs, rfl⟩ := h
      rw [Value.toJson, Json.ofBytes]
      dsimp only
      rw [bytesOfJson_ofBytes]
      rfl
  | @array ls hc ht ha hn h =>
    have hitems : ∀ l ∈ ls, (Value.ofLiteral l).IsExpressible := fun l hl =>
      hx.item (List.mem_map_of_mem hl)
    rw [if_neg ht, if_pos ha, Value.toJson, itemsToJson_eq]
    dsimp only
    rw [Primitive.itemsOfJson_toJson path h hitems]
    rfl
  | @element l hc ht ha h hn =>
    have hnull : ¬((Value.ofLiteral l).toJson.isNull && p.primitive.kind != .float) := by
      cases l with
      | float x =>
        have hk : p.primitive.kind = .float := h.1
        simp [hk]
      | bytes bs => exact h.elim
      | _ => simp [Value.ofLiteral, Value.toJson, Json.isNull]
    rw [if_neg ht, if_neg ha, if_neg hnull, Primitive.ofJson_toJson h hx]
    rfl

theorem EnumLayout.ofJson_toJson {e : EnumLayout} {x : Value} (h : e.IsDecoded x) (path : String) :
    e.ofJson path x.toJson = .ok x := by
  obtain ⟨name, rfl, h⟩ := h
  have hknown : name = nullName || (e.byName? name).isSome := by
    rw [Bool.or_eq_true, decide_eq_true_eq, byName?, List.find?_isSome]
    rcases h with h | ⟨h, -⟩
    · obtain ⟨v, hv, rfl⟩ := List.mem_map.1 h
      exact .inr ⟨v, hv, beq_self_eq_true _⟩
    · exact .inl h
  rw [Value.toJson, ofJson, Json.text?]
  exact if_pos hknown

theorem SetLayout.mapM_choiceOfJson {s : SetLayout} (path : String) : ∀ {names : List String},
    (∀ name ∈ names, name ∈ s.choices.map (·.name)) →
    (names.map Json.text).mapM (s.choiceOfJson path) = .ok names
  | [], _ => rfl
  | name :: names, h => by
    obtain ⟨hname, hnames⟩ := List.forall_mem_cons.1 h
    have hknown : (s.byName? name).isSome := by
      obtain ⟨c, hc, rfl⟩ := List.mem_map.1 hname
      rw [byName?, List.find?_isSome]
      exact ⟨c, hc, beq_self_eq_true _⟩
    have hfirst : s.choiceOfJson path (.text name) = .ok name := by
      rw [choiceOfJson, Json.text?]
      exact if_pos hknown
    rw [List.map_cons, List.mapM_cons, hfirst, ok_bind, mapM_choiceOfJson path hnames]
    rfl

theorem SetLayout.ofJson_toJson {s : SetLayout} {x : Value} (h : s.IsDecoded x) (path : String) :
    s.ofJson path x.toJson = .ok x := by
  obtain ⟨names, rfl, hsub⟩ := h
  rw [Value.toJson, ofJson, Json.array?]
  dsimp only
  rw [mapM_choiceOfJson path fun name hname => hsub.subset hname]
  rfl

theorem VarDataLayout.ofJson_toJson {d : VarDataLayout} {x : Value} (h : d.IsDecoded x)
    (path : String) : d.ofJson path (some x.toJson) = .ok x := by
  have hbytes : ∀ bs : Bytes, d.ofJson path (some (Value.bytes bs).toJson) = .ok (.bytes bs) := by
    intro bs
    rw [Value.toJson, Json.ofBytes, ofJson, bytesOfJson_ofBytes]
    rfl
  rw [IsDecoded] at h
  split at h
  · rename_i encoding he
    rw [IsTextOf] at h
    split at h
    · obtain ⟨s, rfl, -⟩ := h
      have ht : d.isText := by
        rw [isText, he]
        rfl
      rw [Value.toJson, ofJson, if_pos ht]
    · obtain ⟨bs, rfl⟩ := h
      exact hbytes bs
  · obtain ⟨bs, rfl⟩ := h
    exact hbytes bs

/-! ## Fields -/

/-- The members of a composite have names of their own. -/
def FieldKind.Distinct : FieldKind → Prop
  | .composite ⟨_, _, members, _⟩ => (members.map (·.name)).Nodup
  | _ => True

mutual

/-- The value of a field without its constants. -/
def FieldKind.withoutConstants (v : Option Value) : FieldKind → Option Value
  | .primitive p => if p.isConstant then none else v
  | .composite ⟨typeName, _, members, _⟩ => v.map fun v =>
    .object typeName (fieldsWithoutConstants v [] members)
  | .enumeration _ => v
  | .set _ => v

def fieldsWithoutConstants (v : Value) (acc : Fields) : List FieldLayout → Fields
  | [] => acc
  | ⟨name, _, _, _, _, kind⟩ :: fields =>
    fieldsWithoutConstants v (addField name (kind.withoutConstants (v.field? name)) acc) fields

end

theorem fieldsWithConstants_eq (v : Value) : ∀ (fields : List FieldLayout) (acc : Fields),
    fieldsWithConstants v acc fields
      = addFields (·.name) (fun f => f.kind.withConstants (v.field? f.name)) fields acc
  | [], _ => by rw [fieldsWithConstants]; rfl
  | ⟨_, _, _, _, _, _⟩ :: fields, _ => by
    rw [fieldsWithConstants, fieldsWithConstants_eq v fields]
    rfl

theorem fieldsWithoutConstants_eq (v : Value) : ∀ (fields : List FieldLayout) (acc : Fields),
    fieldsWithoutConstants v acc fields
      = addFields (·.name) (fun f => f.kind.withoutConstants (v.field? f.name)) fields acc
  | [], _ => by rw [fieldsWithoutConstants]; rfl
  | ⟨_, _, _, _, _, _⟩ :: fields, _ => by
    rw [fieldsWithoutConstants, fieldsWithoutConstants_eq v fields]
    rfl

theorem fieldsToJson_eq : ∀ fs : Fields, fieldsToJson fs = fs.map fun f => (f.1, f.2.toJson)
  | [] => rfl
  | (_, _) :: fs => by rw [fieldsToJson, fieldsToJson_eq fs, List.map_cons]

/-- What the document of an object has under a name. -/
theorem member?_fieldsToJson {fs : Fields} (h : Ordered fs) (name : String) :
    Json.member? (fieldsToJson fs) name = (fs.lookup name).map Value.toJson := by
  have hordered : Ordered (fieldsToJson fs) := by
    rw [fieldsToJson_eq]
    exact List.pairwise_map.2 h
  rw [Json.member?, hordered.lookup_reverse]
  clear h hordered
  induction fs with
  | nil => rfl
  | cons f fs ih =>
    rw [fieldsToJson, lookup_cons_field, lookup_cons_field, ih]
    split <;> rfl

theorem lookup_fieldsWithConstants {v : Value} {fields : List FieldLayout}
    (h : (fields.map (·.name)).Nodup) : ∀ f ∈ fields,
    (fieldsWithConstants v [] fields).lookup f.name = f.kind.withConstants (v.field? f.name) := by
  rw [fieldsWithConstants_eq]
  exact lookup_addFields h fun _ _ => rfl

theorem lookup_fieldsWithoutConstants {v : Value} {fields : List FieldLayout}
    (h : (fields.map (·.name)).Nodup) : ∀ f ∈ fields,
    (fieldsWithoutConstants v [] fields).lookup f.name
      = f.kind.withoutConstants (v.field? f.name) := by
  rw [fieldsWithoutConstants_eq]
  exact lookup_addFields h fun _ _ => rfl

mutual

/-- Constants are not written. -/
theorem FieldKind.image?_withoutConstants {v : Option Value} : ∀ {k : FieldKind},
    (∀ k' ∈ k.parts, k'.Distinct) → k.IsDecoded full v →
    k.image? (k.withoutConstants v) = k.image? v
  | .primitive p, _, _ => by
    rw [FieldKind.image?, FieldKind.image?, FieldKind.withoutConstants]
    split
    · rename_i hc
      unfold PrimitiveLayout.image?
      rw [if_pos hc, if_pos hc]
    · rfl
  | .composite ⟨typeName, encodedLength, members, _⟩, hd, hv => by
    rw [FieldKind.parts, List.forall_mem_cons] at hd
    rw [FieldKind.IsDecoded] at hv
    obtain ⟨fs, rfl, -, -, hfs⟩ := hv
    have hnames : (members.map (·.name)).Nodup := hd.1
    rw [FieldKind.image?, FieldKind.image?, FieldKind.withoutConstants, Option.map_some,
      Option.bind_some, Option.bind_some, if_pos (by rfl), if_pos (by rfl),
      fieldsImage?_of_withoutConstants (u := .object typeName _) hd.2 hfs
        (lookup_fieldsWithoutConstants hnames)]
  | .enumeration e, _, _ => by rw [FieldKind.withoutConstants]
  | .set s, _, _ => by rw [FieldKind.withoutConstants]

theorem fieldsImage?_of_withoutConstants {u v : Value} : ∀ {fields : List FieldLayout}
    {cursor : Nat}, (∀ k' ∈ fieldsParts fields, k'.Distinct) → fieldsDecoded full v fields →
    (∀ f ∈ fields, u.field? f.name = f.kind.withoutConstants (v.field? f.name)) →
    fieldsImage? cursor u fields = fieldsImage? cursor v fields
  | [], _, _, _, _ => by rw [fieldsImage?, fieldsImage?]
  | ⟨name, _, _, offset, _, kind⟩ :: fields, cursor, hd, hv, hu => by
    rw [fieldsParts, List.forall_mem_append] at hd
    rw [fieldsDecoded] at hv
    obtain ⟨hname, hu⟩ := List.forall_mem_cons.1 hu
    dsimp only at hname
    rw [fieldsImage?, fieldsImage?, hname, FieldKind.image?_withoutConstants hd.1 hv.1,
      fieldsImage?_of_withoutConstants hd.2 hv.2 hu]

end

theorem FieldKind.withoutConstants_of_constant {k : FieldKind} (hc : k.isConstant)
    (v : Option Value) : k.withoutConstants v = none := by
  cases k with
  | primitive p =>
    rw [withoutConstants]
    exact if_pos hc
  | _ => cases hc

/-- A field that has no constant is there with its constants only if it is there without them. -/
theorem FieldKind.withoutConstants_eq_none {k : FieldKind} (hc : ¬k.isConstant) {v : Option Value}
    (h : k.withConstants v = none) : k.withoutConstants v = none := by
  cases k with
  | primitive p =>
    rw [withConstants, p.withConstant_of_not hc] at h
    rw [withoutConstants, h, ite_self]
  | composite c =>
    obtain ⟨typeName, encodedLength, members, description⟩ := c
    rw [withConstants, Option.map_eq_none_iff] at h
    rw [withoutConstants, h, Option.map_none]
  | _ =>
    rw [withConstants] at h
    rw [withoutConstants, h]

mutual

/-- The document of a field is read as its value without constants. -/
theorem FieldKind.ofJson_toJson {v : Option Value} {x : Value} : ∀ {k : FieldKind},
    (∀ k' ∈ k.parts, k'.Distinct) → k.IsDecoded full v → (∀ y ∈ v, y.IsExpressible) →
    ¬k.isConstant → k.withConstants v = some x → ∀ path : String,
    k.ofJson path x.toJson = .ok (k.withoutConstants v)
  | .primitive p, _, hv, he, hc, hx, path => by
    have hc : ¬p.isConstant := hc
    rw [FieldKind.IsDecoded] at hv
    rw [FieldKind.withConstants, p.withConstant_of_not hc] at hx
    subst hx
    rw [FieldKind.ofJson, FieldKind.withoutConstants, if_neg hc]
    exact p.ofJson_toJson hc hv (he x rfl) path
  | .composite ⟨typeName, _, members, _⟩, hd, hv, he, _, hx, path => by
    rw [FieldKind.parts, List.forall_mem_cons] at hd
    rw [FieldKind.IsDecoded] at hv
    obtain ⟨fs, rfl, -, -, hfs⟩ := hv
    have hnames : (members.map (·.name)).Nodup := hd.1
    rw [FieldKind.withConstants, Option.map_some] at hx
    cases hx
    have hordered : Ordered (fieldsWithConstants (.object typeName fs) [] members) := by
      rw [fieldsWithConstants_eq]
      exact Ordered.addFields .nil
    have hmembers := fieldsOfJson_of_member? path [] hd.2 hfs (he _ rfl) fun f hf => by
      rw [member?_fieldsToJson hordered, lookup_fieldsWithConstants hnames f hf]
    rw [FieldKind.ofJson, FieldKind.withoutConstants, Value.toJson,
      if_neg (by simp [Json.isNull]), Json.object?]
    dsimp only
    rw [hmembers]
    rfl
  | .enumeration e, _, hv, _, _, hx, path => by
    rw [FieldKind.IsDecoded] at hv
    obtain ⟨x', rfl, h⟩ := hv
    rw [FieldKind.withConstants] at hx
    cases hx
    have hnull : ¬x.toJson.isNull := by
      obtain ⟨name, rfl, -⟩ := h
      simp [Value.toJson, Json.isNull]
    rw [FieldKind.ofJson, FieldKind.withoutConstants, if_neg hnull, e.ofJson_toJson h]
    rfl
  | .set s, _, hv, _, _, hx, path => by
    rw [FieldKind.IsDecoded] at hv
    obtain ⟨x', rfl, h⟩ := hv
    rw [FieldKind.withConstants] at hx
    cases hx
    have hnull : ¬x.toJson.isNull := by
      obtain ⟨names, rfl, -⟩ := h
      simp [Value.toJson, Json.isNull]
    rw [FieldKind.ofJson, FieldKind.withoutConstants, if_neg hnull, s.ofJson_toJson h]
    rfl

theorem fieldsOfJson_of_member? {v : Value} {ms : List (String × Json)} (path : String) :
    ∀ {fields : List FieldLayout} (acc : Fields), (∀ k' ∈ fieldsParts fields, k'.Distinct) →
    fieldsDecoded full v fields → v.IsExpressible →
    (∀ f ∈ fields, Json.member? ms f.name
      = (f.kind.withConstants (v.field? f.name)).map Value.toJson) →
    fieldsOfJson path ms acc fields = .ok (fieldsWithoutConstants v acc fields)
  | [], _, _, _, _, _ => by rw [fieldsOfJson, fieldsWithoutConstants]
  | ⟨name, _, _, _, _, kind⟩ :: fields, acc, hd, hv, he, hms => by
    rw [fieldsParts, List.forall_mem_append] at hd
    rw [fieldsDecoded] at hv
    obtain ⟨hname, hms⟩ := List.forall_mem_cons.1 hms
    dsimp only at hname
    rw [fieldsOfJson, fieldsWithoutConstants]
    by_cases hc : kind.isConstant
    · rw [if_pos hc, FieldKind.withoutConstants_of_constant hc]
      exact fieldsOfJson_of_member? path _ hd.2 hv.2 he hms
    · rw [if_neg hc, hname]
      cases hx : kind.withConstants (v.field? name) with
      | none =>
        rw [FieldKind.withoutConstants_eq_none hc hx]
        exact fieldsOfJson_of_member? path _ hd.2 hv.2 he hms
      | some x =>
        have hread := FieldKind.ofJson_toJson hd.1 hv.1 (fun y hy => he.field hy) hc hx
          (childPath path name)
        rw [Option.map_some]
        dsimp only
        rw [hread, ok_bind]
        cases kind.withoutConstants (v.field? name) with
        | none => exact fieldsOfJson_of_member? path _ hd.2 hv.2 he hms
        | some y => exact fieldsOfJson_of_member? path _ hd.2 hv.2 he hms

end

/-! ## Bodies -/

mutual

/-- The value of a body without the constants of any block. -/
def BodyLayout.withoutConstants : BodyLayout → (name : String) → Value → Value
  | ⟨_, fields, groups, varData⟩, name, v =>
    let acc := groupsWithoutConstants groups v (fieldsWithoutConstants v [] fields)
    .object name (varData.foldl (fun acc d => addField d.name (v.field? d.name) acc) acc)

def groupsWithoutConstants : List GroupLayout → Value → Fields → Fields
  | [], _, acc => acc
  | ⟨name, _, _, _, body, _⟩ :: groups, v, acc =>
    let items := (v.field? name).map fun x =>
      Value.array (x.asArray.map fun v => body.withoutConstants name v)
    groupsWithoutConstants groups v (addField name items acc)

end

theorem groupsWithConstants_eq (v : Value) : ∀ (groups : List GroupLayout) (acc : Fields),
    groupsWithConstants groups v acc = addFields (·.name) (fun g => (v.field? g.name).map fun x =>
      .array (x.asArray.map fun v => g.body.withConstants g.name v)) groups acc
  | [], _ => by rw [groupsWithConstants]; rfl
  | ⟨_, _, _, _, _, _⟩ :: groups, _ => by
    rw [groupsWithConstants, groupsWithConstants_eq v groups]
    rfl

theorem groupsWithoutConstants_eq (v : Value) : ∀ (groups : List GroupLayout) (acc : Fields),
    groupsWithoutConstants groups v acc = addFields (·.name) (fun g => (v.field? g.name).map fun x =>
      .array (x.asArray.map fun v => g.body.withoutConstants g.name v)) groups acc
  | [], _ => by rw [groupsWithoutConstants]; rfl
  | ⟨_, _, _, _, _, _⟩ :: groups, _ => by
    rw [groupsWithoutConstants, groupsWithoutConstants_eq v groups]
    rfl

section Regions

variable {b : BodyLayout} {field : FieldLayout → Option Value} {group : GroupLayout → Option Value}
  {data : VarDataLayout → Option Value}

/-- What is put for the elements of a body, region by region. -/
def BodyLayout.collect (b : BodyLayout) (field : FieldLayout → Option Value)
    (group : GroupLayout → Option Value) (data : VarDataLayout → Option Value) : Fields :=
  addFields (·.name) data b.varData (addFields (·.name) group b.groups
    (addFields (·.name) field b.fields []))

theorem BodyLayout.ordered_collect : Ordered (b.collect field group data) :=
  Ordered.addFields (Ordered.addFields (Ordered.addFields .nil))

/-- If the elements have names of their own, what was put for each is found. -/
theorem BodyLayout.Distinct.lookup_collect (h : b.Distinct) :
    (∀ f ∈ b.fields, (b.collect field group data).lookup f.name = field f)
    ∧ (∀ g ∈ b.groups, (b.collect field group data).lookup g.name = group g)
    ∧ ∀ d ∈ b.varData, (b.collect field group data).lookup d.name = data d := by
  unfold BodyLayout.Distinct at h
  rw [names_elements, List.nodup_append, List.nodup_append] at h
  obtain ⟨hf, ⟨hg, hd, hgd⟩, hfgd⟩ := h
  have hgroup : ∀ g ∈ b.groups, g.name ∉ b.fields.map (·.name) := fun g hg h =>
    hfgd _ h _ (List.mem_append_left _ (List.mem_map_of_mem hg)) rfl
  have hdata : ∀ d ∈ b.varData, d.name ∉ b.fields.map (·.name) ∧ d.name ∉ b.groups.map (·.name) :=
    fun d hd => ⟨fun h => hfgd _ h _ (List.mem_append_right _ (List.mem_map_of_mem hd)) rfl,
      fun h => hgd _ h _ (List.mem_map_of_mem hd) rfl⟩
  unfold collect
  refine ⟨fun f hf' => ?_, fun g hg' => ?_, lookup_addFields hd fun d hd' => ?_⟩
  · have hname := List.mem_map_of_mem (f := FieldLayout.name) hf'
    rw [lookup_addFields_of_notMem fun h => hfgd _ hname _ (List.mem_append_right _ h) rfl,
      lookup_addFields_of_notMem fun h => hfgd _ hname _ (List.mem_append_left _ h) rfl]
    exact lookup_addFields hf (fun _ _ => rfl) f hf'
  · rw [lookup_addFields_of_notMem fun h => hgd _ (List.mem_map_of_mem hg') _ h rfl]
    refine lookup_addFields hg (fun g hg => ?_) g hg'
    rw [lookup_addFields_of_notMem (hgroup g hg)]
    rfl
  · rw [lookup_addFields_of_notMem (hdata d hd').2, lookup_addFields_of_notMem (hdata d hd').1]
    rfl

theorem BodyLayout.withConstants_eq (b : BodyLayout) (name : String) (v : Value) :
    b.withConstants name v = .object name (b.collect
      (fun f => f.kind.withConstants (v.field? f.name))
      (fun g => (v.field? g.name).map fun x =>
        .array (x.asArray.map fun v => g.body.withConstants g.name v))
      fun d => v.field? d.name) := by
  obtain ⟨blockLength, fields, groups, varData⟩ := b
  rw [withConstants, groupsWithConstants_eq, fieldsWithConstants_eq]
  rfl

theorem BodyLayout.withoutConstants_eq (b : BodyLayout) (name : String) (v : Value) :
    b.withoutConstants name v = .object name (b.collect
      (fun f => f.kind.withoutConstants (v.field? f.name))
      (fun g => (v.field? g.name).map fun x =>
        .array (x.asArray.map fun v => g.body.withoutConstants g.name v))
      fun d => v.field? d.name) := by
  obtain ⟨blockLength, fields, groups, varData⟩ := b
  rw [withoutConstants, groupsWithoutConstants_eq, fieldsWithoutConstants_eq]
  rfl

end Regions

mutual

/-- The bytes of a body are those of its value without constants. -/
theorem BodyLayout.image?_withoutConstants : ∀ {b : BodyLayout},
    (∀ b' ∈ b.bodies, b'.Distinct ∧ ∀ k ∈ b'.kinds, k.Distinct) → ∀ {name : String} {v : Value},
    b.IsDecoded full name v → b.image? (b.withoutConstants name v) = b.image? v
  | ⟨blockLength, fields, groups, varData⟩, hd, name, v, hv => by
    obtain ⟨hown, hkinds⟩ := hd _ (BodyLayout.self_mem_bodies _)
    have hin : ∀ g ∈ groups, ∀ b' ∈ g.body.bodies, b'.Distinct ∧ ∀ k ∈ b'.kinds, k.Distinct :=
      fun g hg b' hb' => hd b' (mem_bodies_of_mem_groups hg hb')
    rw [BodyLayout.IsDecoded] at hv
    obtain ⟨fs, rfl, -, -, hfields, hgroups, -⟩ := hv
    obtain ⟨hf, hg, hdata⟩ := hown.lookup_collect
    rw [BodyLayout.withoutConstants_eq, BodyLayout.image?, BodyLayout.image?, if_pos (by rfl),
      if_pos (by rfl), fieldsImage?_of_withoutConstants (u := .object name _) hkinds hfields hf,
      groupsImage?_of_withoutConstants (u := .object name _) hin hgroups hg,
      varDataImage?_congr (u := .object name _) hdata]

theorem groupsImage?_of_withoutConstants {u v : Value} : ∀ {groups : List GroupLayout},
    (∀ g ∈ groups, ∀ b' ∈ g.body.bodies, b'.Distinct ∧ ∀ k ∈ b'.kinds, k.Distinct) →
    groupsDecoded full groups v →
    (∀ g ∈ groups, u.field? g.name = (v.field? g.name).map fun x =>
      .array (x.asArray.map fun v => g.body.withoutConstants g.name v)) →
    groupsImage? groups u = groupsImage? groups v
  | [], _, _, _ => by rw [groupsImage?, groupsImage?]
  | ⟨name, _, _, dimension, body, _⟩ :: groups, hd, hv, hu => by
    obtain ⟨hbody, hd⟩ := List.forall_mem_cons.1 hd
    rw [groupsDecoded] at hv
    obtain ⟨⟨items, hfield, hitems⟩, hv⟩ := hv
    obtain ⟨hname, hu⟩ := List.forall_mem_cons.1 hu
    dsimp only at hname
    rw [hfield, Option.map_some, Value.asArray] at hname
    have hsame := concat?_congr fun x hx => BodyLayout.image?_withoutConstants hbody (hitems x hx)
    rw [groupsImage?, groupsImage?, hname, hfield]
    dsimp only
    rw [List.length_map, concat?_map, hsame, groupsImage?_of_withoutConstants hd hv hu]

end

/-- Elements are read one by one. -/
theorem elementsOfJson_map (read : String → Json → Except CodecError Value) {f g : Value → Value}
    (path : String) : ∀ {items : List Value},
    (∀ x ∈ items, ∀ path, read path (f x).toJson = .ok (g x)) → ∀ index : Nat,
    elementsOfJson read path index (itemsToJson (items.map f)) = .ok (items.map g)
  | [], _, _ => by
    rw [List.map_nil, itemsToJson, elementsOfJson]
    rfl
  | x :: items, h, index => by
    obtain ⟨hx, hitems⟩ := List.forall_mem_cons.1 h
    rw [List.map_cons, itemsToJson, elementsOfJson, hx, ok_bind,
      elementsOfJson_map read path hitems]
    rfl

theorem varDataOfJson_of_member? {v : Value} {ms : List (String × Json)} (path : String) :
    ∀ {ds : List VarDataLayout} (acc : Fields),
    (∀ d ∈ ds, ∃ x, v.field? d.name = some x ∧ d.IsDecoded x) →
    (∀ d ∈ ds, Json.member? ms d.name = (v.field? d.name).map Value.toJson) →
    varDataOfJson path ms acc ds
      = .ok (ds.foldl (fun acc d => addField d.name (v.field? d.name) acc) acc)
  | [], _, _, _ => rfl
  | d :: ds, acc, hv, hms => by
    obtain ⟨⟨x, hx, hd⟩, hv⟩ := List.forall_mem_cons.1 hv
    obtain ⟨hmember, hms⟩ := List.forall_mem_cons.1 hms
    have ih := varDataOfJson_of_member? path (insertField d.name x acc) hv hms
    unfold varDataOfJson at ih ⊢
    rw [List.foldlM_cons, hmember, hx, Option.map_some, d.ofJson_toJson hd, List.foldl_cons, hx]
    exact ih

mutual

/-- The document of a body is read as its value without constants. -/
theorem BodyLayout.ofJson_toJson : ∀ {b : BodyLayout},
    (∀ b' ∈ b.bodies, b'.Distinct ∧ ∀ k ∈ b'.kinds, k.Distinct) → ∀ {name : String} {v : Value},
    b.IsDecoded full name v → v.IsExpressible → ∀ path : String,
    b.ofJson name path (b.withConstants name v).toJson = .ok (b.withoutConstants name v)
  | ⟨blockLength, fields, groups, varData⟩, hd, name, v, hv, he, path => by
    obtain ⟨hown, hkinds⟩ := hd _ (BodyLayout.self_mem_bodies _)
    have hin : ∀ g ∈ groups, ∀ b' ∈ g.body.bodies, b'.Distinct ∧ ∀ k ∈ b'.kinds, k.Distinct :=
      fun g hg b' hb' => hd b' (mem_bodies_of_mem_groups hg hb')
    rw [BodyLayout.IsDecoded] at hv
    obtain ⟨-, -, -, -, hfields, hgroups, hdata⟩ := hv
    obtain ⟨hf, hg, hd⟩ := hown.lookup_collect
    rw [BodyLayout.withConstants_eq, BodyLayout.withoutConstants, Value.toJson, BodyLayout.ofJson,
      Json.object?]
    dsimp only
    rw [fieldsOfJson_of_member? path [] hkinds hfields he fun f hmem => by
      rw [member?_fieldsToJson BodyLayout.ordered_collect, hf f hmem], ok_bind]
    rw [groupsOfJson_of_member? path _ hin hgroups he fun g hmem => by
      rw [member?_fieldsToJson BodyLayout.ordered_collect, hg g hmem], ok_bind]
    rw [varDataOfJson_of_member? path _ hdata fun d hmem => by
      rw [member?_fieldsToJson BodyLayout.ordered_collect, hd d hmem]]
    rfl

theorem groupsOfJson_of_member? {v : Value} {ms : List (String × Json)} (path : String) :
    ∀ {groups : List GroupLayout} (acc : Fields),
    (∀ g ∈ groups, ∀ b' ∈ g.body.bodies, b'.Distinct ∧ ∀ k ∈ b'.kinds, k.Distinct) →
    groupsDecoded full groups v → v.IsExpressible →
    (∀ g ∈ groups, Json.member? ms g.name = ((v.field? g.name).map fun x =>
      Value.array (x.asArray.map fun v => g.body.withConstants g.name v)).map Value.toJson) →
    groupsOfJson groups path ms acc = .ok (groupsWithoutConstants groups v acc)
  | [], _, _, _, _, _ => by rw [groupsOfJson, groupsWithoutConstants]
  | ⟨name, _, _, _, body, _⟩ :: groups, acc, hd, hv, he, hms => by
    obtain ⟨hbody, hd⟩ := List.forall_mem_cons.1 hd
    rw [groupsDecoded] at hv
    obtain ⟨⟨items, hfield, hitems⟩, hv⟩ := hv
    obtain ⟨hname, hms⟩ := List.forall_mem_cons.1 hms
    dsimp only at hname
    rw [hfield, Option.map_some, Value.asArray, Option.map_some, Value.toJson] at hname
    have hread := elementsOfJson_map (fun path j => body.ofJson name path j) (childPath path name)
      (fun x hx path => BodyLayout.ofJson_toJson hbody (hitems x hx) ((he.field hfield).item hx) path)
      0
    rw [groupsOfJson, groupsWithoutConstants, hname, hfield]
    dsimp only
    rw [hread]
    exact groupsOfJson_of_member? path _ hd hv he hms

end

end SimpleBinary
