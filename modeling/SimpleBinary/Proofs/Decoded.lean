import Mathlib
import SimpleBinary.Proofs.Leaves

/-!
# Values as they are read

A field's value is in the form in which it is read (`FieldKind.IsDecoded`) when its numbers have the
kind of their type, its texts are texts of their encoding, and its objects have a field for each of
their layout and no other.  Constants may be left out of it; reading fills them in
(`FieldKind.withConstants`).  Such a value is read back as it was written (`seen?_of_isDecoded`), in
enums whose values have their own names and literals and in sets whose choices have their own names
and bits (`FieldKind.Sound`).
-/

namespace SimpleBinary

/-! ## Elements -/

namespace Primitive

/-- A literal as an element of the type is read: naturals without a sign, integers with one, floats
of which the type holds every digit. -/
def IsDecoded (p : Primitive) : Literal → Prop
  | .uint _ => p.IsNatural
  | .int _ => p.kind = .signed
  | .float x => p.kind = .float ∧ (p = .float → ∃ y : Binary32, y.widen = x)
  | .bytes _ => False

/-- Some element of the type has the value of the literal. -/
def Represents (p : Primitive) (l : Literal) : Prop :=
  ∃ w < 256 ^ p.size, (p.literalOf w).agrees l

variable {p : Primitive} {l l' : Literal}

theorem IsDecoded.eq_of_keeps (h : p.IsDecoded l) (hk : p.Keeps l l') : l' = l := by
  obtain ⟨w, hw, rfl⟩ := hk
  cases l with
  | uint v => exact literalOf_word?_uint h hw
  | int v => exact literalOf_word?_int h hw
  | float x =>
    refine literalOf_word?_float h.1 (fun hp => ?_) hw
    obtain ⟨y, rfl⟩ := h.2 hp
    rw [Binary32.widen_narrow_widen]
  | bytes bs => exact h.elim

theorem Represents.agrees_of_keeps (h : p.Represents l) (hk : p.Keeps l l') : l'.agrees l := by
  obtain ⟨w, hw, rfl⟩ := hk
  obtain ⟨w', hw', ha⟩ := h
  rw [Literal.agrees_comm, agrees_literalOf hw' ha hw, Literal.agrees_comm]
  exact ha

end Primitive

/-! ## Texts -/

/-- A text of the encoding, or bytes if the encoding is not interpreted. -/
def IsTextOf (encoding : String) (v : Value) : Prop :=
  match Charset.ofName? encoding with
  | some c => ∃ s, v = .text s ∧ (c.encode? s.toList).isSome
  | none => ∃ bs, v = .bytes bs

/-- There is no zero among the characters or bytes. -/
def Value.IsZeroFree : Value → Prop
  | .text s => '\x00' ∉ s.toList
  | .bytes bs => 0 ∉ bs
  | _ => True

theorem textValue?_of_encode? {encoding : String} {c : Charset} {s : String} {bs : Bytes}
    (hc : Charset.ofName? encoding = some c) (h : c.encode? s.toList = some bs) :
    textValue? encoding bs = some (.text s) := by
  rw [textValue?, hc]
  dsimp only
  rw [Charset.decode?_eq_some_iff.2 h, Option.map_some, String.ofList_toList]

/-- A text is read from the bytes it is written as. -/
theorem IsTextOf.exists_text? {p : PrimitiveLayout} {v : Value}
    (h : IsTextOf (p.characterEncoding.getD "US-ASCII") v) : ∃ bs, p.text? v = some bs
      ∧ textValue? (p.characterEncoding.getD "US-ASCII") bs = some v
      ∧ (v.IsZeroFree → 0 ∉ bs) := by
  rw [IsTextOf] at h
  split at h
  · rename_i c hc
    obtain ⟨s, rfl, hs⟩ := h
    obtain ⟨bs, hbs⟩ := Option.isSome_iff_exists.1 hs
    have hv := textValue?_of_encode? hc hbs
    exact ⟨bs, textImage?_of_textValue? hv, hv, Charset.zero_notMem_encode? hbs⟩
  · rename_i hc
    obtain ⟨bs, rfl⟩ := h
    exact ⟨bs, rfl, by rw [textValue?, hc], id⟩

/-! ## Primitive fields -/

namespace PrimitiveLayout

variable {p : PrimitiveLayout} {full : Bool} {v : Option Value} {w : Bytes}

/-- The value of a field as it is read.  If the value is to be `full`, constants are there. -/
inductive IsDecoded (p : PrimitiveLayout) (full : Bool) : Option Value → Prop where
  | constant {v : Option Value} (hc : p.isConstant)
      (h : ∀ x ∈ v, p.constant?.map .ofLiteral = some x) (hfull : full → v.isSome) :
      IsDecoded p full v
  | text {x : Value} (hc : ¬p.isConstant) (ht : p.isText)
      (h : IsTextOf (p.characterEncoding.getD "US-ASCII") x) (hz : x.IsZeroFree) :
      IsDecoded p full (some x)
  | array {ls : List Literal} (hc : ¬p.isConstant) (ht : ¬p.isText) (ha : p.isArray)
      (hn : ls.length = p.arrayLength) (h : ∀ l ∈ ls, p.primitive.IsDecoded l) :
      IsDecoded p full (some (.array (ls.map .ofLiteral)))
  | element {l : Literal} (hc : ¬p.isConstant) (ht : ¬p.isText) (ha : ¬p.isArray)
      (h : p.primitive.IsDecoded l) (hn : p.isOptional → ¬l.agrees p.nullValue) :
      IsDecoded p full (some (.ofLiteral l))
  | absent (hc : ¬p.isConstant) (ht : ¬p.isText) (ha : ¬p.isArray) (ho : p.isOptional)
      (h : p.primitive.Represents p.nullValue) : IsDecoded p full none

/-- The value of a field, the constant if it is one. -/
def withConstant (p : PrimitiveLayout) (v : Option Value) : Option Value :=
  (p.constant?.map .ofLiteral).or v

theorem withConstant_of_not (hc : ¬p.isConstant) : p.withConstant v = v := by
  rw [withConstant, constant?_of_not hc]
  rfl

theorem IsDecoded.withConstant_eq (h : p.IsDecoded true v) :
    p.withConstant v = v := by
  cases h with
  | constant hc h hfull =>
    obtain ⟨x, rfl⟩ := Option.isSome_iff_exists.1 (hfull rfl)
    rw [withConstant, h x rfl]
    rfl
  | text hc | array hc | element hc | absent hc => exact withConstant_of_not hc

theorem toLiteral?_ofLiteral {q : Primitive} {l : Literal} (h : q.IsDecoded l) :
    (Value.ofLiteral l).toLiteral? = some l := by
  cases l with
  | bytes bs => exact h.elim
  | _ => rfl

theorem mapM_toLiteral? {q : Primitive} : ∀ {ls : List Literal}, (∀ l ∈ ls, q.IsDecoded l) →
    (ls.map Value.ofLiteral).mapM Value.toLiteral? = some ls
  | [], _ => rfl
  | l :: ls, h => by
    obtain ⟨hl, hls⟩ := List.forall_mem_cons.1 h
    rw [List.map_cons, List.mapM_cons, toLiteral?_ofLiteral hl, mapM_toLiteral? hls]
    rfl

theorem literals?_array (ht : ¬p.isText) (ha : p.isArray) {ls : List Literal}
    (hn : ls.length = p.arrayLength) (h : ∀ l ∈ ls, p.primitive.IsDecoded l) :
    p.literals? (.array (ls.map .ofLiteral)) = some ls := by
  rw [literals?.eq_def, if_neg ht, if_pos ha]
  dsimp only
  rw [if_pos (by rw [List.length_map, hn]), mapM_toLiteral? h]

theorem literals?_element (ht : ¬p.isText) (ha : ¬p.isArray) {l : Literal}
    (h : p.primitive.IsDecoded l) : p.literals? (.ofLiteral l) = some [l] := by
  rw [literals?.eq_def, if_neg ht, if_neg ha, toLiteral?_ofLiteral h]
  rfl

/-- A value in the form in which it is read is read back. -/
theorem value?_of_isDecoded (hp : p.Laid) (h : p.IsDecoded full v) (hw : p.image? v = some w) :
    p.value? w = some (p.withConstant v) := by
  cases h with
  | constant hc h hfull =>
    obtain ⟨l, hl⟩ := Option.isSome_iff_exists.1 (hp.2 hc)
    have hconst : p.constant? = some l := by rw [constant?, if_pos hc, hl]
    rw [value?, hconst, withConstant, hconst]
    rfl
  | text hc ht h hz =>
    obtain ⟨bs, hbs, hv, hzero⟩ := h.exists_text?
    obtain ⟨bs', hbs', hval⟩ := value?_of_text hp hc ht hw
    rw [textBytes?, hbs] at hbs'
    cases hbs'
    rw [hval, takeWhile_of_zero_notMem (hzero hz), hv, withConstant_of_not hc]
    rfl
  | array hc ht ha hn h =>
    obtain ⟨ls', ls'', hls', hkeeps, hval⟩ := value?_of_array hp hc ht ha hw
    rw [written?, literals?_array ht ha hn h] at hls'
    cases hls'
    rw [hval, Primitive.eq_of_forall₂_keeps hkeeps fun l hl _ hk => (h l hl).eq_of_keeps hk,
      withConstant_of_not hc]
  | element hc ht ha h hn =>
    obtain ⟨l', l'', hl', hkeeps, hval⟩ := value?_of_scalar hp hc ht ha hw
    rw [written?, literals?_element ht ha h] at hl'
    cases hl'
    rw [hval, h.eq_of_keeps hkeeps, withConstant_of_not hc, if_neg]
    rw [Bool.and_eq_true, not_and]
    exact hn
  | absent hc ht ha ho h =>
    obtain ⟨l', l'', hl', hkeeps, hval⟩ := value?_of_scalar hp hc ht ha hw
    rw [written?, if_pos ho, arrayLength_eq_one hp ha] at hl'
    cases hl'
    rw [hval, withConstant_of_not hc, if_pos]
    rw [Bool.and_eq_true]
    exact ⟨ho, h.agrees_of_keeps hkeeps⟩

end PrimitiveLayout

/-! ## Enums and sets -/

/-- Only one element of the list passes, so it is the one that is found. -/
theorem find?_eq_some_of_unique {α : Type} {f : α → Bool} {x : α} : ∀ {xs : List α}, x ∈ xs →
    f x → (∀ y ∈ xs, f y → y = x) → xs.find? f = some x
  | [], hx, _, _ => absurd hx List.not_mem_nil
  | y :: ys, hx, hf, h => by
    obtain ⟨hy, hys⟩ := List.forall_mem_cons.1 h
    rw [List.find?_cons]
    cases hfy : f y with
    | true => rw [hy hfy]
    | false =>
      refine find?_eq_some_of_unique ((List.mem_cons.1 hx).resolve_left fun hxy => ?_) hf hys
      rw [hxy, hfy] at hf
      exact Bool.false_ne_true hf

theorem eq_of_map_eq {α β : Type} {f : α → β} {xs : List α} (h : (xs.map f).Nodup) {x y : α}
    (hx : x ∈ xs) (hy : y ∈ xs) (hxy : f x = f y) : x = y :=
  List.inj_on_of_nodup_map h hx hy hxy

/-- Where names are different, an element is found by its own. -/
theorem find?_eq_some_of_nodup {α : Type} {name : α → String} {xs : List α}
    (h : (xs.map name).Nodup) {x : α} (hx : x ∈ xs) :
    xs.find? (name · == name x) = some x :=
  find?_eq_some_of_unique hx (beq_self_eq_true _) fun _ hy hyx =>
    eq_of_map_eq h hy hx (beq_iff_eq.1 hyx)

/-- The encoding of an enum has integers for its elements, its values have names and literals of
their own, and the name of the null value is no other's. -/
structure EnumLayout.Sound (e : EnumLayout) : Prop where
  encoding : e.encoding.IsInteger
  names : (e.values.map (·.name)).Nodup
  literals : e.values.Pairwise fun v w => ¬v.value.agrees w.value
  unreserved : nullName ∉ e.values.map (·.name)

/-- The value of an enum as it is read: the null value only if no other has its literal. -/
def EnumLayout.IsDecoded (e : EnumLayout) (x : Value) : Prop :=
  ∃ name, x = .enumeration e.typeName name ∧ (name ∈ e.values.map (·.name)
    ∨ name = nullName ∧ ∀ v ∈ e.values, ¬v.value.agrees e.nullValue)

theorem EnumLayout.Sound.eq_of_agrees {e : EnumLayout} (h : e.Sound) {v w : EnumValue}
    (hv : v ∈ e.values) (hw : w ∈ e.values) (ha : v.value.agrees w.value) : v = w := by
  by_contra hne
  have hpair : e.values.Pairwise fun v w =>
      ¬v.value.agrees w.value ∧ ¬w.value.agrees v.value := h.literals.imp fun h => ⟨h, by
    rwa [Literal.agrees_comm]⟩
  have : Std.Symm fun (v w : EnumValue) =>
      ¬v.value.agrees w.value ∧ ¬w.value.agrees v.value := ⟨fun _ _ h => h.symm⟩
  exact (hpair.forall hv hw hne).1 ha

/-- An integer that was written agrees with what its literal agrees with. -/
theorem Primitive.Keeps.agrees_congr {p : Primitive} (hp : p.IsInteger) {l l' : Literal}
    (h : p.Keeps l l') (m : Literal) : m.agrees l' = m.agrees l := by
  obtain ⟨w, hw, rfl⟩ := h
  obtain ⟨n, hl, hn⟩ := integer?_literalOf hp hw
  exact Literal.agrees_congr_right hn hl m

theorem Primitive.Keeps.agrees {p : Primitive} (hp : p.IsInteger) {l l' : Literal}
    (h : p.Keeps l l') : l.agrees l' := by
  obtain ⟨w, hw, rfl⟩ := h
  exact agrees_of_word? hp hw

theorem EnumLayout.value?_of_isDecoded {e : EnumLayout} (hs : e.Sound) {x : Value} {w : Bytes}
    (h : e.IsDecoded x) (hw : e.image? x = some w) : e.value? w = some x := by
  obtain ⟨name, rfl, h⟩ := h
  obtain ⟨_, raw, raw', hname, hraw, hkeeps, hval⟩ := value?_of_image? hw
  cases hname
  rw [hval]
  rcases h with hmem | ⟨rfl, hnull⟩
  · obtain ⟨v, hv, rfl⟩ := List.mem_map.1 hmem
    have hne : v.name ≠ nullName := fun h => hs.unreserved (h ▸ hmem)
    have hby : e.byName? v.name = some v := find?_eq_some_of_nodup hs.names hv
    rw [literalNamed?, if_neg hne, hby] at hraw
    cases hraw
    have hfind : e.byValue? raw' = some v := by
      refine find?_eq_some_of_unique hv (hkeeps.agrees hs.encoding) fun y hy h => ?_
      rw [hkeeps.agrees_congr hs.encoding] at h
      exact hs.eq_of_agrees hy hv h
    rw [hfind]
  · rw [literalNamed?, if_pos rfl] at hraw
    cases hraw
    have hfind : e.byValue? raw' = none := by
      rw [byValue?, List.find?_eq_none]
      intro v hv
      rw [hkeeps.agrees_congr hs.encoding]
      exact hnull v hv
    rw [hfind]
    dsimp only
    rw [if_pos]
    rw [Literal.agrees_comm]
    exact hkeeps.agrees hs.encoding

/-- The encoding of a set has naturals for its elements, and its choices have names and bits of
their own. -/
structure SetLayout.Sound (s : SetLayout) : Prop where
  encoding : s.encoding.IsNatural
  names : (s.choices.map (·.name)).Nodup
  bits : (s.choices.map (·.bit)).Nodup

/-- The value of a set as it is read, its choices in the order of the layout. -/
def SetLayout.IsDecoded (s : SetLayout) (x : Value) : Prop :=
  ∃ names, x = .set s.typeName names ∧ names.Sublist (s.choices.map (·.name))

/-- The elements whose names are in a part of all names have that part for names. -/
theorem map_filter_of_sublist {α : Type} (f : α → String) : ∀ {xs : List α} {names : List String},
    (xs.map f).Nodup → names.Sublist (xs.map f) → (xs.filter fun x => f x ∈ names).map f = names
  | [], names, _, h => by
    rw [List.sublist_nil.1 h]
    rfl
  | x :: xs, names, hn, h => by
    obtain ⟨hx, hn⟩ := List.nodup_cons.1 hn
    rw [List.map_cons] at h
    cases h with
    | cons _ h =>
      rw [List.filter_cons_of_neg (by simpa using fun hmem => hx (h.subset hmem)),
        map_filter_of_sublist f hn h]
    | cons_cons _ h =>
      rename_i names
      rw [List.filter_cons_of_pos (by simp), List.map_cons]
      refine congrArg (f x :: ·) (Eq.trans (congrArg _ (List.filter_congr fun y hy => ?_))
        (map_filter_of_sublist f hn h))
      have hne : f y ≠ f x := fun hyx => hx (hyx ▸ List.mem_map_of_mem hy)
      simp [hne]

/-- The bits of choices that come in the order of the layout are those of these choices alone. -/
theorem SetLayout.choicesOf_bits {s : SetLayout} (hl : s.Laid)
    (hnames : (s.choices.map (·.name)).Nodup) (hdistinct : (s.choices.map (·.bit)).Nodup)
    {names : List String} (hsub : names.Sublist (s.choices.map (·.name))) {bits : UInt64}
    (hbits : s.bits? names = some bits) : s.choicesOf bits.toNat = names := by
  rw [choicesOf]
  refine Eq.trans (congrArg _ (List.filter_congr fun c hc => ?_))
    (map_filter_of_sublist Choice.name hnames hsub)
  rw [Bool.eq_iff_iff, testBit_bits? hl hbits, decide_eq_true_eq]
  constructor
  · rintro ⟨name, hname, d, hd, hbit⟩
    cases eq_of_map_eq hdistinct (List.mem_of_find?_eq_some hd) hc hbit
    have hdn := List.find?_some hd
    rw [beq_iff_eq] at hdn
    rwa [hdn]
  · intro hmem
    exact ⟨c.name, hmem, c, find?_eq_some_of_nodup hnames hc, rfl⟩

theorem SetLayout.value_of_isDecoded {s : SetLayout} (hl : s.Laid) (hs : s.Sound) {x : Value}
    {w : Bytes} (h : s.IsDecoded x) (hw : s.image? x = some w) : s.value w = x := by
  obtain ⟨names, rfl, hsub⟩ := h
  obtain ⟨_, _, bits, raw, hx, hbits, ⟨word, hword, rfl⟩, hval⟩ := value_of_image? hw
  cases hx
  rw [hval, Primitive.literalOf_word?_uint hs.encoding hword, Literal.toNat?, Option.getD_some,
    choicesOf_bits hl hs.names hs.bits hsub hbits]

/-! ## Fields -/

/-- The enums and sets among kinds are sound. -/
def FieldKind.Sound : FieldKind → Prop
  | .enumeration e => e.Sound
  | .set s => s.Sound
  | _ => True

/-- The names that fields have are among `names`. -/
def Named (names : List String) (fs : Fields) : Prop := ∀ f ∈ fs, f.1 ∈ names

instance (names : List String) (fs : Fields) : Decidable (Named names fs) :=
  inferInstanceAs (Decidable (∀ f ∈ fs, f.1 ∈ names))

mutual

/-- The value of a field as it is read; constants have to be there if it is to be `full`. -/
def FieldKind.IsDecoded (full : Bool) (v : Option Value) : FieldKind → Prop
  | .primitive p => p.IsDecoded full v
  | .composite ⟨typeName, _, members, _⟩ => ∃ fs, v = some (.object typeName fs) ∧ Ordered fs
    ∧ Named (members.map (·.name)) fs ∧ fieldsDecoded full (.object typeName fs) members
  | .enumeration e => ∃ x, v = some x ∧ e.IsDecoded x
  | .set s => ∃ x, v = some x ∧ s.IsDecoded x

def fieldsDecoded (full : Bool) (v : Value) : List FieldLayout → Prop
  | [] => True
  | ⟨name, _, _, _, _, kind⟩ :: fields =>
    kind.IsDecoded full (v.field? name) ∧ fieldsDecoded full v fields

end

mutual

/-- The value of a field with its constants filled in. -/
def FieldKind.withConstants (v : Option Value) : FieldKind → Option Value
  | .primitive p => p.withConstant v
  | .composite ⟨typeName, _, members, _⟩ => v.map fun v =>
    .object typeName (fieldsWithConstants v [] members)
  | .enumeration _ => v
  | .set _ => v

/-- The fields of a value and the constants beside them, on top of `acc`. -/
def fieldsWithConstants (v : Value) (acc : Fields) : List FieldLayout → Fields
  | [] => acc
  | ⟨name, _, _, _, _, kind⟩ :: fields =>
    fieldsWithConstants v (addField name (kind.withConstants (v.field? name)) acc) fields

end

section Fields

variable {full : Bool}

mutual

theorem FieldKind.seen?_of_isDecoded {v : Option Value} {w : Bytes} : ∀ {k : FieldKind},
    k.Laid → (∀ k' ∈ k.parts, k'.Sound) → k.IsDecoded full v → k.image? v = some w →
    k.seen? v = some (k.withConstants v)
  | .primitive p, hk, _, hv, h => by
    rw [FieldKind.Laid] at hk
    rw [FieldKind.IsDecoded] at hv
    rw [FieldKind.image?] at h
    rw [FieldKind.seen?, FieldKind.withConstants, h, Option.bind_some, p.value?_of_isDecoded hk hv h]
  | .composite ⟨typeName, _, members, _⟩, hk, hs, hv, h => by
    rw [FieldKind.Laid] at hk
    rw [FieldKind.parts, List.forall_mem_cons] at hs
    rw [FieldKind.IsDecoded] at hv
    rw [FieldKind.image?] at h
    obtain ⟨fs, rfl, -, -, hfs⟩ := hv
    rw [Option.bind_some, Option.ite_none_right_eq_some] at h
    obtain ⟨w, hw, rfl⟩ := Option.map_eq_some_iff.1 h.2
    rw [FieldKind.seen?, FieldKind.withConstants, Option.bind_some,
      fieldsSeen?_of_isDecoded hk hs.2 hfs hw]
    rfl
  | .enumeration e, _, hs, hv, h => by
    rw [FieldKind.parts, List.forall_mem_singleton, FieldKind.Sound] at hs
    rw [FieldKind.IsDecoded] at hv
    rw [FieldKind.image?] at h
    obtain ⟨x, rfl, hx⟩ := hv
    rw [FieldKind.seen?, FieldKind.withConstants, h, Option.bind_some, e.value?_of_isDecoded hs hx h]
    rfl
  | .set s, hk, hs, hv, h => by
    rw [FieldKind.Laid] at hk
    rw [FieldKind.parts, List.forall_mem_singleton, FieldKind.Sound] at hs
    rw [FieldKind.IsDecoded] at hv
    rw [FieldKind.image?] at h
    obtain ⟨x, rfl, hx⟩ := hv
    rw [FieldKind.seen?, FieldKind.withConstants, h, Option.map_some,
      s.value_of_isDecoded hk hs hx h]

theorem fieldsSeen?_of_isDecoded {v : Value} {limit : Nat} :
    ∀ {fields : List FieldLayout} {cursor : Nat} {w : Bytes} {acc : Fields},
    fieldsLaid cursor limit fields → (∀ k' ∈ fieldsParts fields, k'.Sound) →
    fieldsDecoded full v fields → fieldsImage? cursor v fields = some w →
    fieldsSeen? v acc fields = some (fieldsWithConstants v acc fields)
  | [], _, _, _, _, _, _, _ => by rw [fieldsSeen?, fieldsWithConstants]
  | ⟨name, _, _, offset, _, kind⟩ :: fields, cursor, w, acc, hl, hs, hfs, h => by
    rw [fieldsLaid] at hl
    rw [fieldsParts, List.forall_mem_append] at hs
    rw [fieldsDecoded] at hfs
    obtain ⟨bs, rest, hb, hr, rfl⟩ := fieldsImage?_cons_eq_some_iff.1 h
    rw [fieldsSeen?, fieldsWithConstants, FieldKind.seen?_of_isDecoded hl.2.1 hs.1 hfs.1 hb,
      Option.bind_eq_bind, Option.bind_some, fieldsSeen?_of_isDecoded hl.2.2 hs.2 hfs.2 hr]

end

end Fields

/-! ## Bodies -/

/-- The value of var-data as it is read. -/
def VarDataLayout.IsDecoded (d : VarDataLayout) (x : Value) : Prop :=
  match d.characterEncoding with
  | some encoding => IsTextOf encoding x
  | none => ∃ bs, x = .bytes bs

theorem VarDataLayout.seen?_of_isDecoded {d : VarDataLayout} {x : Value} (h : d.IsDecoded x) :
    d.seen? (some x) = some x := by
  rw [IsDecoded] at h
  split at h
  · rename_i encoding he
    rw [IsTextOf] at h
    split at h
    · rename_i c hc
      obtain ⟨s, rfl, hs⟩ := h
      obtain ⟨bs, hbs⟩ := Option.isSome_iff_exists.1 hs
      rw [seen?, payload?, textImage?, he, Option.bind_some, hc]
      dsimp only
      rw [hbs, Option.bind_some, value?, he]
      exact textValue?_of_encode? hc hbs
    · rename_i hc
      obtain ⟨bs, rfl⟩ := h
      rw [seen?, payload?, Option.bind_some, value?, he]
      dsimp only
      rw [textValue?, hc]
  · rename_i he
    obtain ⟨bs, rfl⟩ := h
    rw [seen?, payload?, Option.bind_some, value?, he]

mutual

/-- The value of a body as it is read. -/
def BodyLayout.IsDecoded (full : Bool) : BodyLayout → (name : String) → Value → Prop
  | ⟨blockLength, fields, groups, varData⟩, name, v => ∃ fs, v = .object name fs ∧ Ordered fs
    ∧ Named ((BodyLayout.mk blockLength fields groups varData).elements.map (·.name)) fs
    ∧ fieldsDecoded full v fields ∧ groupsDecoded full groups v
    ∧ ∀ d ∈ varData, ∃ x, v.field? d.name = some x ∧ d.IsDecoded x

def groupsDecoded (full : Bool) : List GroupLayout → Value → Prop
  | [], _ => True
  | ⟨name, _, _, _, body, _⟩ :: groups, v =>
    (∃ items, v.field? name = some (.array items) ∧ ∀ x ∈ items, body.IsDecoded full name x)
      ∧ groupsDecoded full groups v

end

mutual

/-- The value of a body with the constants of every block filled in. -/
def BodyLayout.withConstants : BodyLayout → (name : String) → Value → Value
  | ⟨_, fields, groups, varData⟩, name, v =>
    let acc := groupsWithConstants groups v (fieldsWithConstants v [] fields)
    .object name (varData.foldl (fun acc d => addField d.name (v.field? d.name) acc) acc)

/-- The groups of a value with constants filled in, on top of `acc`. -/
def groupsWithConstants : List GroupLayout → Value → Fields → Fields
  | [], _, acc => acc
  | ⟨name, _, _, _, body, _⟩ :: groups, v, acc =>
    let items := (v.field? name).map fun x =>
      Value.array (x.asArray.map fun v => body.withConstants name v)
    groupsWithConstants groups v (addField name items acc)

end

end SimpleBinary
