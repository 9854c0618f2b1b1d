import Mathlib
import SimpleBinary.Proofs.Documents

/-!
# What documents keep apart

Two values that are read by one layout are alike (`Value.Alike`): what stands at one place in both of
them has one form.  So a document forgets nothing of such values but what it forgets of their
floats, and that is the same for every float that is not finite: all of them are `null`, the
infinities as well as the NaNs (`MessageCodec.toJson_eq_iff_of_decodeBody`).
-/

namespace SimpleBinary

/-! ## Changing floats -/

mutual

/-- The value with each of its floats changed. -/
def Value.mapFloats (f : Binary64 → Binary64) : Value → Value
  | .float x => .float (f x)
  | .array items => .array (itemsMapFloats f items)
  | .object name fields => .object name (fieldsMapFloats f fields)
  | v => v

def itemsMapFloats (f : Binary64 → Binary64) : List Value → List Value
  | [] => []
  | v :: vs => v.mapFloats f :: itemsMapFloats f vs

def fieldsMapFloats (f : Binary64 → Binary64) : Fields → Fields
  | [] => []
  | (name, v) :: fields => (name, v.mapFloats f) :: fieldsMapFloats f fields

end

/-- The NaN for every NaN. -/
def Binary64.canonical (x : Binary64) : Binary64 := if x.isNaN then .nan else x

/-- The NaN for everything that is no finite number. -/
def Binary64.finiteOrNaN (x : Binary64) : Binary64 := if x.isFinite then x else .nan

theorem Binary64.finiteOrNaN_eq_canonical {x : Binary64} (h : x.isFinite ∨ x.isNaN) :
    x.finiteOrNaN = x.canonical := by
  unfold finiteOrNaN canonical
  rcases h with h | h
  · have hnan : ¬x.isNaN := by
      simp only [isFinite, isNaN, decide_eq_true_eq] at h ⊢
      omega
    rw [if_pos h, if_neg hnan]
  · have hfin : ¬x.isFinite := by
      simp only [isFinite, isNaN, decide_eq_true_eq] at h ⊢
      omega
    rw [if_neg hfin, if_pos h]

section MapFloats

variable {f g : Binary64 → Binary64}

theorem itemsMapFloats_eq : ∀ items : List Value,
    itemsMapFloats f items = items.map (Value.mapFloats f)
  | [] => rfl
  | v :: vs => by rw [itemsMapFloats, itemsMapFloats_eq vs, List.map_cons]

theorem fieldsMapFloats_eq : ∀ fs : Fields,
    fieldsMapFloats f fs = fs.map fun p => (p.1, p.2.mapFloats f)
  | [] => rfl
  | (_, _) :: fs => by rw [fieldsMapFloats, fieldsMapFloats_eq fs, List.map_cons]

mutual

theorem Value.mapFloats_congr : ∀ {v : Value}, (∀ x ∈ v.floats, f x = g x) →
    v.mapFloats f = v.mapFloats g
  | .float x, h => by
    rw [Value.mapFloats, Value.mapFloats, h x (List.mem_singleton.2 rfl)]
  | .array items, h => by
    rw [Value.mapFloats, Value.mapFloats, itemsMapFloats_congr h]
  | .object name fields, h => by
    rw [Value.mapFloats, Value.mapFloats, fieldsMapFloats_congr h]
  | .int _, _ | .uint _, _ | .text _, _ | .bytes _, _ | .enumeration _ _, _ | .set _ _, _ => rfl

theorem itemsMapFloats_congr : ∀ {items : List Value}, (∀ x ∈ itemsFloats items, f x = g x) →
    itemsMapFloats f items = itemsMapFloats g items
  | [], _ => rfl
  | v :: vs, h => by
    rw [itemsFloats, List.forall_mem_append] at h
    rw [itemsMapFloats, itemsMapFloats, Value.mapFloats_congr h.1, itemsMapFloats_congr h.2]

theorem fieldsMapFloats_congr : ∀ {fs : Fields}, (∀ x ∈ fieldsFloats fs, f x = g x) →
    fieldsMapFloats f fs = fieldsMapFloats g fs
  | [], _ => rfl
  | (_, v) :: fs, h => by
    rw [fieldsFloats, List.forall_mem_append] at h
    rw [fieldsMapFloats, fieldsMapFloats, Value.mapFloats_congr h.1, fieldsMapFloats_congr h.2]

end

end MapFloats

theorem Json.ofFloat_finiteOrNaN (x : Binary64) : ofFloat x.finiteOrNaN = ofFloat x := by
  by_cases h : x.isFinite
  · rw [Binary64.finiteOrNaN, if_pos h]
  · have hnan : ¬Binary64.nan.isFinite := by decide
    rw [Binary64.finiteOrNaN, if_neg h, ofFloat, ofFloat, if_neg h, if_neg hnan]

theorem Json.ofFloat_eq_iff {x y : Binary64} :
    ofFloat x = ofFloat y ↔ x.finiteOrNaN = y.finiteOrNaN := by
  constructor
  · intro h
    unfold ofFloat at h
    unfold Binary64.finiteOrNaN
    split at h <;> split at h <;> simp_all
  · intro h
    rw [← ofFloat_finiteOrNaN x, h, ofFloat_finiteOrNaN]

mutual

/-- A document has nothing of floats that are not finite. -/
theorem Value.toJson_mapFloats : ∀ v : Value, (v.mapFloats Binary64.finiteOrNaN).toJson = v.toJson
  | .float x => by
    rw [Value.mapFloats, Value.toJson, Value.toJson, Json.ofFloat_finiteOrNaN]
  | .array items => by
    rw [Value.mapFloats, Value.toJson, Value.toJson, itemsToJson_mapFloats items]
  | .object name fields => by
    rw [Value.mapFloats, Value.toJson, Value.toJson, fieldsToJson_mapFloats fields]
  | .int _ | .uint _ | .text _ | .bytes _ | .enumeration _ _ | .set _ _ => rfl

theorem itemsToJson_mapFloats : ∀ items : List Value,
    itemsToJson (itemsMapFloats Binary64.finiteOrNaN items) = itemsToJson items
  | [] => rfl
  | v :: vs => by
    rw [itemsMapFloats, itemsToJson, itemsToJson, Value.toJson_mapFloats v,
      itemsToJson_mapFloats vs]

theorem fieldsToJson_mapFloats : ∀ fs : Fields,
    fieldsToJson (fieldsMapFloats Binary64.finiteOrNaN fs) = fieldsToJson fs
  | [] => rfl
  | (_, v) :: fs => by
    rw [fieldsMapFloats, fieldsToJson, fieldsToJson, Value.toJson_mapFloats v,
      fieldsToJson_mapFloats fs]

end

/-! ## Values of one form -/

/-- Values in which the same place has the same form: numbers of one sort, items of arrays that are
alike whichever two are taken, fields of objects that are alike where they have one name. -/
inductive Value.Alike : Value → Value → Prop where
  | int (x y : Int64) : Alike (.int x) (.int y)
  | uint (x y : UInt64) : Alike (.uint x) (.uint y)
  | float (x y : Binary64) : Alike (.float x) (.float y)
  | text (x y : String) : Alike (.text x) (.text y)
  | bytes (x y : Bytes) : Alike (.bytes x) (.bytes y)
  | enumeration (typeName n m : String) : Alike (.enumeration typeName n) (.enumeration typeName m)
  | set (typeName : String) (xs ys : List String) : Alike (.set typeName xs) (.set typeName ys)
  | array {xs ys : List Value} (h : ∀ x ∈ xs, ∀ y ∈ ys, Alike x y) : Alike (.array xs) (.array ys)
  | object {name : String} {fs gs : Fields} (h : ∀ n x y, (n, x) ∈ fs → (n, y) ∈ gs → Alike x y) :
    Alike (.object name fs) (.object name gs)

theorem map_eq_map_of_imp {α β γ : Type} {f : α → β} {g : α → γ} : ∀ {xs ys : List α},
    (∀ x ∈ xs, ∀ y ∈ ys, f x = f y → g x = g y) → xs.map f = ys.map f → xs.map g = ys.map g
  | [], [], _, _ => rfl
  | x :: xs, y :: ys, h, heq => by
    rw [List.map_cons, List.map_cons, List.cons.injEq] at heq ⊢
    refine ⟨h x List.mem_cons_self y List.mem_cons_self heq.1, map_eq_map_of_imp ?_ heq.2⟩
    exact fun x hx y hy => h x (List.mem_cons_of_mem _ hx) y (List.mem_cons_of_mem _ hy)

namespace Value.Alike

theorem refl_ofLiteral (l : Literal) : Alike (.ofLiteral l) (.ofLiteral l) := by
  cases l with
  | int v => exact .int v v
  | uint v => exact .uint v v
  | float v => exact .float v v
  | bytes bs => exact .text _ _

/-- Values that are alike are told apart by their documents, but for floats that are not finite. -/
theorem mapFloats_eq_of_toJson_eq {v w : Value} (h : v.Alike w) (heq : v.toJson = w.toJson) :
    v.mapFloats Binary64.finiteOrNaN = w.mapFloats Binary64.finiteOrNaN := by
  induction h with
  | int x y =>
    rw [toJson, toJson, Json.int.injEq, Int64.toInt_inj] at heq
    rw [heq]
  | uint x y =>
    rw [toJson, toJson, Json.int.injEq, Int.natCast_inj, UInt64.toNat_inj] at heq
    rw [heq]
  | float x y =>
    rw [toJson, toJson, Json.ofFloat_eq_iff] at heq
    rw [mapFloats, mapFloats, heq]
  | text x y | enumeration typeName x y =>
    rw [toJson, toJson, Json.text.injEq] at heq
    rw [heq]
  | bytes x y =>
    have hinj : Function.Injective fun b : UInt8 => Json.int b.toNat := fun a b h => by
      simpa [UInt8.toNat_inj] using h
    rw [toJson, toJson, Json.ofBytes, Json.ofBytes, Json.array.injEq] at heq
    rw [List.map_injective_iff.2 hinj heq]
  | set typeName xs ys =>
    have hinj : Function.Injective Json.text := fun a b h => Json.text.inj h
    rw [toJson, toJson, Json.array.injEq] at heq
    rw [List.map_injective_iff.2 hinj heq]
  | array h ih =>
    rw [toJson, toJson, Json.array.injEq, itemsToJson_eq, itemsToJson_eq] at heq
    rw [mapFloats, mapFloats, itemsMapFloats_eq, itemsMapFloats_eq, map_eq_map_of_imp ih heq]
  | object h ih =>
    rw [toJson, toJson, Json.object.injEq, fieldsToJson_eq, fieldsToJson_eq] at heq
    rw [mapFloats, mapFloats, fieldsMapFloats_eq, fieldsMapFloats_eq]
    refine congrArg _ (map_eq_map_of_imp ?_ heq)
    rintro ⟨n, x⟩ hx ⟨m, y⟩ hy hxy
    obtain ⟨hname, hjson⟩ := Prod.mk.inj hxy
    subst hname
    exact congrArg (n, ·) (ih n x y hx hy hjson)

theorem toJson_eq_iff {v w : Value} (h : v.Alike w) : v.toJson = w.toJson
    ↔ v.mapFloats Binary64.finiteOrNaN = w.mapFloats Binary64.finiteOrNaN := by
  refine ⟨h.mapFloats_eq_of_toJson_eq, fun heq => ?_⟩
  rw [← toJson_mapFloats v, heq, toJson_mapFloats]

end Value.Alike

/-! ## Values of one field -/

theorem Primitive.alike_literalOf (p : Primitive) (w w' : Nat) :
    Value.Alike (.ofLiteral (p.literalOf w)) (.ofLiteral (p.literalOf w')) := by
  cases p with
  | char | uint8 | uint16 | uint32 | uint64 => exact .uint _ _
  | int8 | int16 | int32 | int64 => exact .int _ _
  | float | double => exact .float _ _

theorem alike_of_mem_literalsIn {p : Primitive} {order : ByteOrder} {l l' : Literal}
    {count count' : Nat} {bs bs' : Bytes} (h : l ∈ literalsIn p order count bs)
    (h' : l' ∈ literalsIn p order count' bs') : Value.Alike (.ofLiteral l) (.ofLiteral l') := by
  obtain ⟨w, -, rfl⟩ := PrimitiveLayout.keeps_of_mem_literalsIn l h
  obtain ⟨w', -, rfl⟩ := PrimitiveLayout.keeps_of_mem_literalsIn l' h'
  exact p.alike_literalOf w w'

theorem alike_of_textValue? {encoding : String} {bs bs' : Bytes} {x y : Value}
    (hx : textValue? encoding bs = some x) (hy : textValue? encoding bs' = some y) : x.Alike y := by
  unfold textValue? at hx hy
  cases hc : Charset.ofName? encoding with
  | none =>
    rw [hc] at hx hy
    cases hx
    cases hy
    exact .bytes _ _
  | some c =>
    rw [hc] at hx hy
    obtain ⟨cs, -, rfl⟩ := Option.map_eq_some_iff.1 hx
    obtain ⟨ds, -, rfl⟩ := Option.map_eq_some_iff.1 hy
    exact .text _ _

variable {bs bs' : Bytes} {x y : Value}

theorem PrimitiveLayout.alike_of_value? {p : PrimitiveLayout} (hx : p.value? bs = some (some x))
    (hy : p.value? bs' = some (some y)) : x.Alike y := by
  unfold value? at hx hy
  cases hc : p.constant? with
  | some l =>
    rw [hc] at hx hy
    cases hx
    cases hy
    exact .refl_ofLiteral l
  | none =>
    rw [hc] at hx hy
    dsimp only at hx hy
    by_cases ht : p.isText
    · rw [if_pos ht] at hx hy
      obtain ⟨x', hx, hsome⟩ := Option.map_eq_some_iff.1 hx
      obtain ⟨y', hy, hsome'⟩ := Option.map_eq_some_iff.1 hy
      cases hsome
      cases hsome'
      exact alike_of_textValue? hx hy
    rw [if_neg ht] at hx hy
    by_cases ha : p.isArray
    · rw [if_pos ha] at hx hy
      cases hx
      cases hy
      refine .array ?_
      rw [List.forall_mem_map]
      intro l hl
      rw [List.forall_mem_map]
      exact fun l' hl' => alike_of_mem_literalsIn hl hl'
    · rw [if_neg ha, Option.some.injEq, Option.ite_none_left_eq_some] at hx hy
      cases hx.2
      cases hy.2
      exact p.primitive.alike_literalOf _ _

theorem EnumLayout.exists_of_value? {e : EnumLayout} (h : e.value? bs = some x) :
    ∃ name, x = .enumeration e.typeName name := by
  unfold value? at h
  dsimp only at h
  split at h
  · cases h
    exact ⟨_, rfl⟩
  · rw [Option.ite_none_right_eq_some] at h
    cases h.2
    exact ⟨_, rfl⟩

theorem VarDataLayout.alike_of_value? {d : VarDataLayout} (hx : d.value? bs = some x)
    (hy : d.value? bs' = some y) : x.Alike y := by
  unfold value? at hx hy
  cases hc : d.characterEncoding with
  | none =>
    rw [hc] at hx hy
    cases hx
    cases hy
    exact .bytes _ _
  | some encoding =>
    rw [hc] at hx hy
    exact alike_of_textValue? hx hy

/-! ## Where fields come from -/

theorem exists_of_mem_fieldsValue? {limit : Option Nat} {block : Bytes} {n : String} :
    ∀ {fields : List FieldLayout} {acc acc' : Fields},
    fieldsValue? limit block acc fields = some acc' → (n, x) ∈ acc' →
    (n, x) ∈ acc ∨ ∃ f ∈ fields, f.name = n ∧ ∃ bs, f.kind.value? bs = some (some x)
  | [], _, _, h, hx => by
    rw [fieldsValue?] at h
    cases h
    exact .inl hx
  | ⟨name, id, since, offset, description, kind⟩ :: fields, acc, acc', h, hx => by
    rw [fieldsValue?] at h
    split at h
    · obtain ⟨v, hv, h⟩ := Option.bind_eq_some_iff.1 h
      rcases exists_of_mem_fieldsValue? h hx with hacc | ⟨f, hf, hfrom⟩
      · cases v with
        | none => exact .inl hacc
        | some v =>
          rcases mem_insertField hacc with heq | hacc
          · obtain ⟨rfl, rfl⟩ := Prod.mk.inj heq
            exact .inr ⟨_, List.mem_cons_self, rfl, _, hv⟩
          · exact .inl hacc
      · exact .inr ⟨f, List.mem_cons_of_mem _ hf, hfrom⟩
    · rcases exists_of_mem_fieldsValue? h hx with hacc | ⟨f, hf, hfrom⟩
      · exact .inl hacc
      · exact .inr ⟨f, List.mem_cons_of_mem _ hf, hfrom⟩

theorem exists_of_mem_parseItems? {parse : Bytes → Option (Value × Bytes)} :
    ∀ {count : Nat} {bs rest : Bytes} {vs : List Value},
    parseItems? parse count bs = some (vs, rest) → ∀ v ∈ vs, ∃ bs rest, parse bs = some (v, rest)
  | 0, _, _, _, h, v, hv => by
    cases h
    exact absurd hv List.not_mem_nil
  | count + 1, bs, rest, vs, h, v, hv => by
    rw [parseItems?] at h
    obtain ⟨⟨u, rest'⟩, hu, h⟩ := Option.bind_eq_some_iff.1 h
    obtain ⟨⟨us, rest''⟩, hus, h⟩ := Option.bind_eq_some_iff.1 h
    cases h
    rcases List.mem_cons.1 hv with rfl | hv
    · exact ⟨bs, rest', hu⟩
    · exact exists_of_mem_parseItems? hus v hv

/-- An array of elements that were read of a group. -/
def GroupLayout.Yields (g : GroupLayout) (x : Value) : Prop :=
  ∃ items, x = .array items
    ∧ ∀ v ∈ items, ∃ blockLength bs rest, g.body.parse? blockLength g.name bs = some (v, rest)

theorem exists_of_mem_parseGroups? {n : String} : ∀ {groups : List GroupLayout}
    {acc acc' : Fields} {bs rest : Bytes}, parseGroups? groups acc bs = some (acc', rest) →
    (n, x) ∈ acc' → (n, x) ∈ acc ∨ ∃ g ∈ groups, g.name = n ∧ g.Yields x
  | [], _, _, _, _, h, hx => by
    rw [parseGroups?] at h
    cases h
    exact .inl hx
  | ⟨name, _, _, dimension, body, _⟩ :: groups, acc, acc', bs, rest, h, hx => by
    obtain ⟨header, rest₁, elements, rest₂, -, helements, h⟩ :=
      parseGroups?_cons_eq_some_iff.1 h
    rcases exists_of_mem_parseGroups? h hx with hacc | ⟨g, hg, hfrom⟩
    · rcases mem_insertField hacc with heq | hacc
      · obtain ⟨rfl, rfl⟩ := Prod.mk.inj heq
        refine .inr ⟨_, List.mem_cons_self, rfl, elements, rfl, fun v hv => ?_⟩
        obtain ⟨bs, rest, hparse⟩ := exists_of_mem_parseItems? helements v hv
        exact ⟨header.blockLength, bs, rest, hparse⟩
      · exact .inl hacc
    · exact .inr ⟨g, List.mem_cons_of_mem _ hg, hfrom⟩

theorem VarDataLayout.exists_value?_of_parse? {d : VarDataLayout} {bs rest : Bytes}
    (h : d.parse? bs = some (x, rest)) : ∃ payload, d.value? payload = some x := by
  obtain ⟨-, length, -, -, hv, -⟩ := parse?_eq_some_iff.1 h
  exact ⟨_, hv⟩

theorem exists_of_mem_parseVarData? {n : String} : ∀ {ds : List VarDataLayout}
    {acc acc' : Fields} {bs rest : Bytes}, parseVarData? ds acc bs = some (acc', rest) →
    (n, x) ∈ acc' → (n, x) ∈ acc ∨ ∃ d ∈ ds, d.name = n ∧ ∃ payload, d.value? payload = some x
  | [], _, _, _, _, h, hx => by
    cases h
    exact .inl hx
  | d :: ds, acc, acc', bs, rest, h, hx => by
    rw [parseVarData?] at h
    obtain ⟨⟨v, rest₁⟩, hv, h⟩ := Option.bind_eq_some_iff.1 h
    rcases exists_of_mem_parseVarData? h hx with hacc | ⟨d', hd', hfrom⟩
    · rcases mem_insertField hacc with heq | hacc
      · obtain ⟨rfl, rfl⟩ := Prod.mk.inj heq
        exact .inr ⟨d, List.mem_cons_self, rfl, VarDataLayout.exists_value?_of_parse? hv⟩
      · exact .inl hacc
    · exact .inr ⟨d', List.mem_cons_of_mem _ hd', hfrom⟩

/-- What is read under a name: of a field, of a group or of var-data. -/
theorem BodyLayout.exists_of_parse? {b : BodyLayout} {blockLength : Nat} {name : String}
    {rest : Bytes} (h : b.parse? blockLength name bs = some (x, rest)) :
    ∃ fs, x = .object name fs ∧ ∀ n y, (n, y) ∈ fs →
      (∃ f ∈ b.fields, f.name = n ∧ ∃ bs, f.kind.value? bs = some (some y))
      ∨ (∃ g ∈ b.groups, g.name = n ∧ g.Yields y)
      ∨ ∃ d ∈ b.varData, d.name = n ∧ ∃ payload, d.value? payload = some y := by
  obtain ⟨own, fields, groups, varData⟩ := b
  obtain ⟨-, acc₁, acc₂, acc₃, rest₂, h₁, h₂, h₃, rfl⟩ := BodyLayout.parse?_eq_some_iff.1 h
  refine ⟨acc₃, rfl, fun n y hy => ?_⟩
  rcases exists_of_mem_parseVarData? h₃ hy with hy | hdata
  · rcases exists_of_mem_parseGroups? h₂ hy with hy | hgroup
    · rcases exists_of_mem_fieldsValue? h₁ hy with hy | hfield
      · exact absurd hy List.not_mem_nil
      · exact .inl hfield
    · exact .inr (.inl hgroup)
  · exact .inr (.inr hdata)

/-! ## Values of one layout -/

mutual

theorem FieldKind.alike_of_value? : ∀ {k : FieldKind}, (∀ k' ∈ k.parts, k'.Distinct) →
    ∀ {bs bs' : Bytes} {x y : Value}, k.value? bs = some (some x) → k.value? bs' = some (some y) →
    x.Alike y
  | .primitive p, _, bs, bs', x, y, hx, hy => by
    rw [FieldKind.value?] at hx hy
    exact PrimitiveLayout.alike_of_value? hx hy
  | .composite ⟨typeName, _, members, _⟩, hd, bs, bs', x, y, hx, hy => by
    rw [FieldKind.parts, List.forall_mem_cons] at hd
    have hnames : (members.map (·.name)).Nodup := hd.1
    rw [FieldKind.value?] at hx hy
    obtain ⟨fs, hfs, hx⟩ := Option.map_eq_some_iff.1 hx
    obtain ⟨gs, hgs, hy⟩ := Option.map_eq_some_iff.1 hy
    cases hx
    cases hy
    refine .object fun n x y hx hy => ?_
    have hfrom := (exists_of_mem_fieldsValue? hfs hx).resolve_left List.not_mem_nil
    have hfrom' := (exists_of_mem_fieldsValue? hgs hy).resolve_left List.not_mem_nil
    obtain ⟨f, hf, hname, _, hx⟩ := hfrom
    obtain ⟨f', hf', hname', _, hy⟩ := hfrom'
    cases eq_of_map_eq hnames hf hf' (hname.trans hname'.symm)
    exact fields_alike hd.2 f hf hx hy
  | .enumeration e, _, bs, bs', x, y, hx, hy => by
    rw [FieldKind.value?] at hx hy
    obtain ⟨x', hx, hsome⟩ := Option.map_eq_some_iff.1 hx
    obtain ⟨y', hy, hsome'⟩ := Option.map_eq_some_iff.1 hy
    cases hsome
    cases hsome'
    obtain ⟨n, rfl⟩ := EnumLayout.exists_of_value? hx
    obtain ⟨m, rfl⟩ := EnumLayout.exists_of_value? hy
    exact .enumeration _ n m
  | .set s, _, bs, bs', x, y, hx, hy => by
    rw [FieldKind.value?] at hx hy
    cases hx
    cases hy
    exact .set _ _ _

theorem fields_alike : ∀ {fields : List FieldLayout}, (∀ k' ∈ fieldsParts fields, k'.Distinct) →
    ∀ f ∈ fields, ∀ {bs bs' : Bytes} {x y : Value}, f.kind.value? bs = some (some x) →
    f.kind.value? bs' = some (some y) → x.Alike y
  | [], _, f, hf, _, _, _, _, _, _ => absurd hf List.not_mem_nil
  | ⟨name, _, _, _, _, kind⟩ :: fields, hd, f, hf, bs, bs', x, y, hx, hy => by
    rw [fieldsParts, List.forall_mem_append] at hd
    rcases List.mem_cons.1 hf with rfl | hf
    · exact FieldKind.alike_of_value? hd.1 hx hy
    · exact fields_alike hd.2 f hf hx hy

end

/-- Of elements with names of their own, two of one name are the same. -/
theorem BodyLayout.Distinct.names {b : BodyLayout} (h : b.Distinct) :
    ((b.fields.map (·.name)).Nodup ∧ (b.groups.map (·.name)).Nodup
      ∧ (b.varData.map (·.name)).Nodup)
    ∧ (∀ f ∈ b.fields, ∀ g ∈ b.groups, f.name ≠ g.name)
    ∧ (∀ f ∈ b.fields, ∀ d ∈ b.varData, f.name ≠ d.name)
    ∧ ∀ g ∈ b.groups, ∀ d ∈ b.varData, g.name ≠ d.name := by
  unfold BodyLayout.Distinct at h
  rw [names_elements, List.nodup_append, List.nodup_append] at h
  obtain ⟨hf, ⟨hg, hd, hgd⟩, hfgd⟩ := h
  refine ⟨⟨hf, hg, hd⟩, fun f hf g hg => ?_, fun f hf d hd => ?_, fun g hg d hd => ?_⟩
  · exact hfgd _ (List.mem_map_of_mem hf) _ (List.mem_append_left _ (List.mem_map_of_mem hg))
  · exact hfgd _ (List.mem_map_of_mem hf) _ (List.mem_append_right _ (List.mem_map_of_mem hd))
  · exact hgd _ (List.mem_map_of_mem hg) _ (List.mem_map_of_mem hd)

mutual

/-- Whatever bytes and acting block lengths they are read with, values of one body are alike. -/
theorem BodyLayout.alike_of_parse? : ∀ {b : BodyLayout},
    (∀ b' ∈ b.bodies, b'.Distinct ∧ ∀ k ∈ b'.kinds, k.Distinct) → ∀ {name : String}
    {length length' : Nat} {bs bs' rest rest' : Bytes} {v w : Value},
    b.parse? length name bs = some (v, rest) → b.parse? length' name bs' = some (w, rest') →
    v.Alike w
  | ⟨own, fields, groups, varData⟩, hd, name, length, length', bs, bs', rest, rest', v, w, hv,
      hw => by
    obtain ⟨hown, hkinds⟩ := hd _ (BodyLayout.self_mem_bodies _)
    have hin : ∀ g ∈ groups, ∀ b' ∈ g.body.bodies, b'.Distinct ∧ ∀ k ∈ b'.kinds, k.Distinct :=
      fun g hg b' hb' => hd b' (mem_bodies_of_mem_groups hg hb')
    obtain ⟨⟨hnf, hng, hnd⟩, hfg, hfd, hgd⟩ := hown.names
    obtain ⟨fs, rfl, hfs⟩ := BodyLayout.exists_of_parse? hv
    obtain ⟨gs, rfl, hgs⟩ := BodyLayout.exists_of_parse? hw
    refine .object fun n x y hx hy => ?_
    rcases hfs n x hx with ⟨f, hf, rfl, _, hx'⟩ | ⟨g, hg, rfl, hx'⟩ | ⟨d, hd, rfl, _, hx'⟩
    · rcases hgs _ y hy with ⟨f', hf', hname, _, hy'⟩ | ⟨g, hg, hname, -⟩ | ⟨d, hd, hname, -⟩
      · cases eq_of_map_eq hnf hf hf' hname.symm
        exact fields_alike hkinds f hf hx' hy'
      · exact absurd hname.symm (hfg f hf g hg)
      · exact absurd hname.symm (hfd f hf d hd)
    · rcases hgs _ y hy with ⟨f, hf, hname, -⟩ | ⟨g', hg', hname, hy'⟩ | ⟨d, hd, hname, -⟩
      · exact absurd hname (hfg f hf g hg)
      · cases eq_of_map_eq hng hg hg' hname.symm
        exact groups_alike hin g hg hx' hy'
      · exact absurd hname.symm (hgd g hg d hd)
    · rcases hgs _ y hy with ⟨f, hf, hname, -⟩ | ⟨g, hg, hname, -⟩ | ⟨d', hd', hname, _, hy'⟩
      · exact absurd hname (hfd f hf d hd)
      · exact absurd hname (hgd g hg d hd)
      · cases eq_of_map_eq hnd hd hd' hname.symm
        exact VarDataLayout.alike_of_value? hx' hy'

theorem groups_alike : ∀ {groups : List GroupLayout},
    (∀ g ∈ groups, ∀ b' ∈ g.body.bodies, b'.Distinct ∧ ∀ k ∈ b'.kinds, k.Distinct) →
    ∀ g ∈ groups, ∀ {x y : Value}, g.Yields x → g.Yields y → x.Alike y
  | [], _, g, hg, _, _, _, _ => absurd hg List.not_mem_nil
  | ⟨name, _, _, dimension, body, _⟩ :: groups, hd, g, hg, x, y, hx, hy => by
    obtain ⟨hbody, hd⟩ := List.forall_mem_cons.1 hd
    rcases List.mem_cons.1 hg with rfl | hg
    · obtain ⟨items, rfl, hitems⟩ := hx
      obtain ⟨items', rfl, hitems'⟩ := hy
      refine .array fun v hv w hw => ?_
      obtain ⟨length, bs, rest, hparse⟩ := hitems v hv
      obtain ⟨length', bs', rest', hparse'⟩ := hitems' w hw
      exact BodyLayout.alike_of_parse? hbody hparse hparse'
    · exact groups_alike hd g hg hx hy

end

/-! ## Messages -/

/-- Two values that are decoded by one layout, of any bytes and with any block lengths, have the
same document just if they are the same up to floats that are not finite.  If they have no
infinities, they are then the same up to their NaNs. -/
theorem MessageCodec.toJson_eq_iff_of_decodeBody {m : MessageCodec} {tokens : List Token}
    (ht : MessageLayout.ofTokens tokens = .ok m.message)
    (hd : ∀ b ∈ m.message.body.bodies, b.Distinct ∧ ∀ k ∈ b.kinds, k.Distinct)
    {bs bs' : Bytes} {blockLength blockLength' : Nat} {v w : Value}
    (hv : m.decodeBody bs blockLength = .ok v) (hw : m.decodeBody bs' blockLength' = .ok w) :
    (v.toJson = w.toJson
      ↔ v.mapFloats Binary64.finiteOrNaN = w.mapFloats Binary64.finiteOrNaN)
    ∧ ((∀ x ∈ v.floats ++ w.floats, x.isFinite ∨ x.isNaN) →
      (v.toJson = w.toJson ↔ v.mapFloats Binary64.canonical = w.mapFloats Binary64.canonical)) := by
  have hlaid := MessageLayout.laid_of_ofTokens ht
  rw [← toOption_eq_some_iff, toOption_decodeBody hlaid] at hv hw
  obtain ⟨⟨_, rest⟩, hparse, rfl⟩ := Option.map_eq_some_iff.1 hv
  obtain ⟨⟨_, rest'⟩, hparse', rfl⟩ := Option.map_eq_some_iff.1 hw
  have hiff := (BodyLayout.alike_of_parse? hd hparse hparse').toJson_eq_iff
  refine ⟨hiff, fun hfloats => ?_⟩
  rw [List.forall_mem_append] at hfloats
  rw [hiff, Value.mapFloats_congr fun x hx => Binary64.finiteOrNaN_eq_canonical (hfloats.1 x hx),
    Value.mapFloats_congr fun x hx => Binary64.finiteOrNaN_eq_canonical (hfloats.2 x hx)]

namespace Quotes

/-- A price. -/
def definition : MessageDef where
  name := "Quote"
  id := 1
  fields := [
    { name := "price", id := 1, type := .primitive { name := "double", primitive := .double } }]

def price : PrimitiveLayout :=
  ⟨.double, .littleEndian, 1, .required, none, .float .nan, none⟩

def codec : MessageCodec where
  header := Orders.header
  message := {
    name := "Quote"
    id := 1
    sinceVersion := 0
    semanticType := none
    description := none
    body := ⟨8, [⟨"price", 1, 0, 0, none, .primitive price⟩], [], []⟩ }
  schemaId := 1
  version := 0

theorem ofTokens_quote :
    MessageLayout.ofTokens (definition.tokens .littleEndian) = .ok codec.message := by
  refine MessageDef.ofTokens_tokens_of_layout? ⟨?_, trivial⟩ rfl
  simp [BlockSound, definition, TypeDef.Sound, PrimitiveDef.Sound]

theorem distinct_quote :
    ∀ b ∈ codec.message.body.bodies, b.Distinct ∧ ∀ k ∈ b.kinds, k.Distinct := by
  have hbodies : codec.message.body.bodies = [codec.message.body] := rfl
  have hkinds : codec.message.body.kinds = [.primitive price] := rfl
  rw [hbodies, List.forall_mem_singleton, hkinds, List.forall_mem_singleton]
  exact ⟨by unfold BodyLayout.Distinct; decide, trivial⟩

/-- The price that is above all, and the one that is below all. -/
def highest : Bytes := [0, 0, 0, 0, 0, 0, 0xf0, 0x7f]

def lowest : Bytes := [0, 0, 0, 0, 0, 0, 0xf0, 0xff]

/-- The two infinities have one document. -/
theorem toJson_highest : ∃ v w, codec.decodeBody highest 8 = .ok v ∧ codec.decodeBody lowest 8 = .ok w
    ∧ v.mapFloats Binary64.canonical ≠ w.mapFloats Binary64.canonical ∧ v.toJson = w.toJson := by
  have hv : codec.decodeBody highest 8
      = .ok (.object "Quote" [("price", .float ⟨0x7ff0000000000000⟩)]) := rfl
  have hw : codec.decodeBody lowest 8
      = .ok (.object "Quote" [("price", .float ⟨0xfff0000000000000⟩)]) := rfl
  refine ⟨_, _, hv, hw, ?_, ?_⟩
  · simp [Value.mapFloats, fieldsMapFloats]
    decide
  · exact (MessageCodec.toJson_eq_iff_of_decodeBody ofTokens_quote distinct_quote hv hw).1.2 rfl

end Quotes

end SimpleBinary
