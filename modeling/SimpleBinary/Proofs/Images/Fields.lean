import Mathlib
import SimpleBinary.Codec.Encode
import SimpleBinary.Proofs.Elements
import SimpleBinary.Proofs.Layouts
import SimpleBinary.Proofs.Texts

/-!
# The bytes of a field

The encoder reserves a block of zeros and puts elements over it.  In a layout whose elements lie apart
that comes to writing bytes one behind the other: `FieldKind.image?` are the bytes of a field, exactly
as many as the field is wide, and the encoder gives these and nothing else
(`toOption_encodeFields`).
-/

namespace SimpleBinary

/-! ## Runs of bytes -/

def zeros (n : Nat) : Bytes := List.replicate n 0

@[simp]
theorem length_zeros (n : Nat) : (zeros n).length = n := List.length_replicate

theorem zeros_add (m n : Nat) : zeros (m + n) = zeros m ++ zeros n :=
  List.replicate_add m n 0

theorem padTo_eq (n : Nat) (bs : Bytes) : padTo n bs = bs ++ zeros (n - bs.length) := rfl

theorem length_padTo {n : Nat} {bs : Bytes} (h : bs.length ≤ n) : (padTo n bs).length = n := by
  rw [padTo_eq, List.length_append, length_zeros]
  omega

theorem overwrite_append {pre mid bs : Bytes} (h : bs.length = mid.length) (post : Bytes) :
    overwrite pre.length bs (pre ++ mid ++ post) = pre ++ bs ++ post := by
  rw [overwrite, h, ← List.length_append, List.drop_left, List.append_assoc pre mid,
    List.take_left]

/-- A place behind a prefix is a place in what follows it. -/
theorem overwrite_append_right (pre : Bytes) (pos : Nat) (bs image : Bytes) :
    overwrite (pre.length + pos) bs (pre ++ image) = pre ++ overwrite pos bs image := by
  simp only [overwrite, List.take_length_add_append, Nat.add_assoc, List.drop_length_add_append,
    List.append_assoc]

/-- The bytes of several things, one behind the other. -/
def concat? {α : Type} (f : α → Option Bytes) : List α → Option Bytes
  | [] => some []
  | x :: xs => do return (← f x) ++ (← concat? f xs)

theorem concat?_cons {α : Type} (f : α → Option Bytes) (x : α) (xs : List α) :
    concat? f (x :: xs) = (f x).bind fun first => (concat? f xs).map (first ++ ·) := by
  rw [concat?]
  cases f x <;> cases concat? f xs <;> rfl

theorem concat?_cons_eq_some_iff {α : Type} {f : α → Option Bytes} {x : α} {xs : List α}
    {bs : Bytes} : concat? f (x :: xs) = some bs ↔
      ∃ first rest, f x = some first ∧ concat? f xs = some rest ∧ bs = first ++ rest := by
  simp only [concat?, Option.bind_eq_bind, Option.pure_def, Option.bind_eq_some_iff,
    Option.some.injEq]
  grind

theorem concat?_map {α β : Type} (f : β → Option Bytes) (g : α → β) :
    ∀ xs : List α, concat? f (xs.map g) = concat? (fun x => f (g x)) xs
  | [] => rfl
  | x :: xs => by rw [List.map_cons, concat?_cons, concat?_cons, concat?_map f g xs]

theorem concat?_congr {α : Type} {f g : α → Option Bytes} :
    ∀ {xs : List α}, (∀ x ∈ xs, f x = g x) → concat? f xs = concat? g xs
  | [], _ => rfl
  | x :: xs, heq => by
    obtain ⟨hx, hxs⟩ := List.forall_mem_cons.1 heq
    rw [concat?_cons, concat?_cons, hx, concat?_congr hxs]

section Put

variable {p : Primitive} {order : ByteOrder} {l : Literal} {bs pre mid : Bytes}

theorem length_encode? (h : p.encode? order l = some bs) : bs.length = p.size := by
  obtain ⟨w, -, rfl⟩ := Option.map_eq_some_iff.1 h
  exact order.length_bytes _ _

theorem putElement?_append (hmid : mid.length = p.size) (post : Bytes) :
    putElement? pre.length p order l (pre ++ mid ++ post)
      = (p.encode? order l).map fun bs => pre ++ bs ++ post := by
  rw [putElement?, if_neg (by simp only [List.length_append]; omega)]
  refine Option.map_congr fun bs hbs => overwrite_append ?_ post
  rw [length_encode? hbs, hmid]

theorem toOption_putLiteral (hmid : mid.length = p.size) (path : String) (post : Bytes) :
    (putLiteral p order pre.length path l (pre ++ mid ++ post)).toOption
      = (p.encode? order l).map fun bs => pre ++ bs ++ post := by
  rw [putLiteral, putElement?_append hmid]
  cases p.encode? order l <;> rfl

end Put

/-! ## Fields -/

namespace PrimitiveLayout

/-- The bytes of elements. -/
def elements? (p : PrimitiveLayout) : List Literal → Option Bytes :=
  concat? (p.primitive.encode? p.byteOrder)

/-- The bytes of a text or of a value given as bytes. -/
def text? (p : PrimitiveLayout) : Value → Option Bytes
  | .text s => textImage? p.characterEncoding s
  | .bytes bs => some bs
  | _ => none

/-- The elements of a value that is there; those of a text may be fewer than the array has. -/
def literals? (p : PrimitiveLayout) (v : Value) : Option (List Literal) :=
  if p.isText then
    ((p.text? v).filter (·.length ≤ p.arrayLength)).map (·.map fun b => .uint b.toUInt64)
  else if p.isArray then
    match v with
    | .array items => if items.length = p.arrayLength then items.mapM Value.toLiteral? else none
    | _ => none
  else v.toLiteral?.map ([·])

/-- The elements that are written, null values for what may be left out. -/
def written? (p : PrimitiveLayout) : Option Value → Option (List Literal)
  | some v => p.literals? v
  | none => if p.isOptional then some (List.replicate p.arrayLength p.nullValue) else none

/-- The bytes of a value, filled up with zeros. -/
def image? (p : PrimitiveLayout) (v : Option Value) : Option Bytes :=
  if p.isConstant then some []
  else ((p.written? v).bind p.elements?).map (padTo p.width)

variable {p : PrimitiveLayout}

theorem length_elements? : ∀ {ls : List Literal} {bs : Bytes}, p.elements? ls = some bs →
    bs.length = p.primitive.size * ls.length
  | [], bs, h => by
    cases h
    rfl
  | l :: ls, bs, h => by
    obtain ⟨first, rest, hf, hr, rfl⟩ := concat?_cons_eq_some_iff.1 h
    have hrest : rest.length = p.primitive.size * ls.length := length_elements? hr
    rw [List.length_append, length_encode? hf, hrest, List.length_cons, Nat.mul_succ]
    omega

theorem length_literals? (hp : p.Laid) {v : Value} {ls : List Literal}
    (h : p.literals? v = some ls) : ls.length ≤ p.arrayLength := by
  unfold literals? at h
  split at h
  · obtain ⟨bs, hbs, rfl⟩ := Option.map_eq_some_iff.1 h
    have := (Option.filter_eq_some_iff.1 hbs).2
    simpa using this
  · split at h
    · split at h
      · split at h
        · rename_i items hlen
          rw [← hlen, (mapM_eq_some_iff.1 h).length_eq]
        · simp at h
      · simp at h
    · obtain ⟨l, -, rfl⟩ := Option.map_eq_some_iff.1 h
      exact hp.1

theorem length_written? (hp : p.Laid) {v : Option Value} {ls : List Literal}
    (h : p.written? v = some ls) : ls.length ≤ p.arrayLength := by
  cases v with
  | some v => exact length_literals? hp h
  | none =>
    rw [written?] at h
    split at h
    · cases h
      rw [List.length_replicate]
    · simp at h

theorem length_image? (hp : p.Laid) {v : Option Value} {w : Bytes} (h : p.image? v = some w) :
    w.length = p.width := by
  rw [image?] at h
  split at h
  · rename_i hc
    cases h
    simp [width, hc]
  · rename_i hc
    obtain ⟨bs, hbs, rfl⟩ := Option.map_eq_some_iff.1 h
    obtain ⟨ls, hls, hbs⟩ := Option.bind_eq_some_iff.1 hbs
    refine length_padTo ?_
    rw [length_elements? hbs, width, if_neg hc]
    exact Nat.mul_le_mul_left _ (length_written? hp hls)

theorem toOption_putAll (path : String) : ∀ {ls : List Literal} {pre mid : Bytes},
    mid.length = p.primitive.size * ls.length → ∀ post,
    (p.putAll path pre.length ls (pre ++ mid ++ post)).toOption
      = (p.elements? ls).map fun bs => pre ++ bs ++ post
  | [], pre, mid, hmid, post => by
    have : mid = [] := List.length_eq_zero_iff.1 (by simpa using hmid)
    subst this
    rfl
  | l :: ls, pre, mid, hmid, post => by
    rw [List.length_cons, Nat.mul_succ] at hmid
    have hsplit : pre ++ mid ++ post = pre ++ mid.take p.primitive.size
        ++ (mid.drop p.primitive.size ++ post) := by
      rw [List.append_assoc, List.append_assoc, ← List.append_assoc (List.take _ _),
        List.take_append_drop]
    rw [putAll, hsplit, toOption_bind, put, toOption_putLiteral (by rw [List.length_take]; omega),
      elements?, concat?]
    cases hl : p.primitive.encode? p.byteOrder l with
    | none => rfl
    | some bs =>
      have hpos : pre.length + p.primitive.size = (pre ++ bs).length := by
        rw [List.length_append, length_encode? hl]
      simp only [Option.map_some, Option.bind_some, Option.bind_eq_bind, hpos,
        ← List.append_assoc (pre ++ bs)]
      rw [toOption_putAll path (by rw [List.length_drop]; omega), elements?]
      cases concat? (p.primitive.encode? p.byteOrder) ls <;> simp

theorem toOption_putItems (path : String) : ∀ {items : List Value} {index : Nat}
    {pre mid : Bytes}, mid.length = p.primitive.size * items.length → ∀ post,
    (p.putItems path index pre.length items (pre ++ mid ++ post)).toOption
      = ((items.mapM Value.toLiteral?).bind p.elements?).map fun bs => pre ++ bs ++ post
  | [], index, pre, mid, hmid, post => by
    have : mid = [] := List.length_eq_zero_iff.1 (by simpa using hmid)
    subst this
    rfl
  | v :: items, index, pre, mid, hmid, post => by
    rw [List.length_cons, Nat.mul_succ] at hmid
    have hsplit : pre ++ mid ++ post = pre ++ mid.take p.primitive.size
        ++ (mid.drop p.primitive.size ++ post) := by
      rw [List.append_assoc, List.append_assoc, ← List.append_assoc (List.take _ _),
        List.take_append_drop]
    rw [putItems, List.mapM_cons]
    cases v.toLiteral? with
    | none => rfl
    | some l =>
      simp only [Option.bind_some, Option.bind_eq_bind]
      rw [hsplit, toOption_bind, put, toOption_putLiteral (by rw [List.length_take]; omega)]
      cases hl : p.primitive.encode? p.byteOrder l with
      | none =>
        simp only [Option.map_none, Option.bind_none]
        cases items.mapM Value.toLiteral? <;> simp [elements?, concat?, hl]
      | some bs =>
        have hpos : pre.length + p.primitive.size = (pre ++ bs).length := by
          rw [List.length_append, length_encode? hl]
        simp only [Option.map_some, Option.bind_some, hpos, ← List.append_assoc (pre ++ bs)]
        rw [toOption_putItems path (by rw [List.length_drop]; omega)]
        cases items.mapM Value.toLiteral? with
        | none => rfl
        | some ls =>
          simp only [Option.bind_some, Option.pure_def, elements?]
          rw [concat?_cons, hl]
          cases concat? (p.primitive.encode? p.byteOrder) ls <;> simp

theorem toOption_textBytes (path : String) (v : Value) :
    (p.textBytes path v).toOption = p.text? v := by
  cases v <;> simp [textBytes, text?, toOption_encodeText]

/-- Elements put at the start of a run of zeros leave the rest of it. -/
theorem elements?_padTo (ls : List Literal) (n : Nat) (pre post : Bytes) :
    ((p.elements? ls).map fun bs => pre ++ bs ++ (zeros (n - p.primitive.size * ls.length) ++ post))
      = ((p.elements? ls).map (padTo n)).map fun w => pre ++ w ++ post := by
  rw [Option.map_map]
  refine Option.map_congr fun bs hbs => ?_
  rw [Function.comp_apply, padTo_eq, length_elements? hbs]
  simp only [List.append_assoc]

theorem zeros_split {m n : Nat} (h : m ≤ n) (pre post : Bytes) :
    pre ++ zeros n ++ post = pre ++ zeros m ++ (zeros (n - m) ++ post) := by
  rw [List.append_assoc, List.append_assoc, ← List.append_assoc (zeros m), ← zeros_add,
    Nat.add_sub_cancel' h]

theorem toOption_encodeValue (hp : p.Laid) (hc : ¬p.isConstant) (path : String) (v : Value)
    (pre post : Bytes) :
    (p.encodeValue pre.length path v (pre ++ zeros p.width ++ post)).toOption
      = (((p.literals? v).bind p.elements?).map (padTo p.width)).map fun w => pre ++ w ++ post := by
  have hw : p.width = p.primitive.size * p.arrayLength := by rw [width, if_neg hc]
  have hle : ∀ {n : Nat}, n ≤ p.arrayLength → p.primitive.size * n ≤ p.width := fun h => by
    rw [hw]
    exact Nat.mul_le_mul_left _ h
  unfold encodeValue literals?
  split
  · rw [toOption_bind, toOption_textBytes]
    cases p.text? v with
    | none => rfl
    | some bs =>
      simp only [Option.bind_some]
      by_cases hlen : bs.length ≤ p.arrayLength
      · rw [if_neg (not_lt.2 hlen), Option.filter_some_pos (by simpa using hlen), Option.map_some,
          Option.bind_some, ← elements?_padTo, zeros_split (hle hlen)]
        rw [toOption_putAll _ (by simp)]
        simp
      · rw [if_pos (not_le.1 hlen), Option.filter_some_neg (by simpa using hlen)]
        rfl
  · split
    · cases v with
      | array items =>
        by_cases hlen : items.length = p.arrayLength
        · dsimp only
          rw [if_neg (not_not.2 hlen), if_pos hlen, hw, ← hlen, toOption_putItems path (by simp)]
          cases hm : items.mapM Value.toLiteral? with
          | none => rfl
          | some ls =>
            have hls := (mapM_eq_some_iff.1 hm).length_eq
            rw [Option.bind_some, ← elements?_padTo, hls, Nat.sub_self]
            simp [zeros]
        · dsimp only
          rw [if_pos hlen, if_neg hlen]
          rfl
      | _ => rfl
    · cases v.toLiteral? with
      | none => rfl
      | some l =>
        have h1 : p.primitive.size ≤ p.width := by simpa using hle hp.1
        rw [Option.map_some, Option.bind_some, ← elements?_padTo, put,
          zeros_split h1, toOption_putLiteral (by simp)]
        cases h : p.primitive.encode? p.byteOrder l <;> simp [elements?, concat?, h]

theorem toOption_encode (hp : p.Laid) (path : String) (v : Option Value) (pre post : Bytes) :
    (p.encode pre.length path v (pre ++ zeros p.width ++ post)).toOption
      = (p.image? v).map fun w => pre ++ w ++ post := by
  unfold encode image?
  split
  · rename_i hc
    simp [width, hc, zeros]
  · rename_i hc
    cases v with
    | some v => exact toOption_encodeValue hp hc path v pre post
    | none =>
      simp only [written?]
      split
      · have hw : p.width = p.primitive.size * p.arrayLength := by rw [width, if_neg hc]
        rw [Option.bind_some, ← elements?_padTo,
          toOption_putAll _ (by simp [hw])]
        simp [hw, zeros]
      · rfl

end PrimitiveLayout

def EnumLayout.image? (e : EnumLayout) (v : Value) : Option Bytes :=
  (v.enumName?.bind e.literalNamed?).bind (e.encoding.encode? e.byteOrder)

theorem EnumLayout.toOption_encode (e : EnumLayout) (path : String) (v : Value)
    (pre post : Bytes) : (e.encode pre.length path v (pre ++ zeros e.width ++ post)).toOption
      = (e.image? v).map fun w => pre ++ w ++ post := by
  rw [encode, image?]
  cases v.enumName? with
  | none => rfl
  | some name =>
    rw [Option.bind_some]
    cases h : e.literalNamed? name with
    | none => simp [h]
    | some raw =>
      simp only [h]
      exact toOption_putLiteral (length_zeros _) path post

/-- The bits of choices. -/
def SetLayout.bits? (s : SetLayout) : List String → Option UInt64
  | [] => some 0
  | name :: names => do
    let c ← s.byName? name
    return UInt64.ofNat (2 ^ c.bit) ||| (← s.bits? names)

theorem SetLayout.toOption_bitsOf (s : SetLayout) (path : String) : ∀ names : List String,
    (s.bitsOf path names).toOption = s.bits? names
  | [] => rfl
  | name :: names => by
    rw [bitsOf, bits?]
    cases s.byName? name with
    | none => rfl
    | some c =>
      dsimp only
      rw [toOption_bind, toOption_bitsOf s path names]
      rfl

def SetLayout.image? (s : SetLayout) (v : Value) : Option Bytes :=
  match v with
  | .set _ names => (s.bits? names).bind fun bits => s.encoding.encode? s.byteOrder (.uint bits)
  | _ => none

theorem SetLayout.toOption_encode (s : SetLayout) (path : String) (v : Value)
    (pre post : Bytes) : (s.encode pre.length path v (pre ++ zeros s.width ++ post)).toOption
      = (s.image? v).map fun w => pre ++ w ++ post := by
  cases v with
  | set typeName names =>
    rw [encode, image?, toOption_bind, s.toOption_bitsOf]
    cases s.bits? names with
    | none => rfl
    | some bits => exact toOption_putLiteral (length_zeros _) path post
  | _ => rfl

mutual

/-- The bytes of a field's value, as many as the field is wide. -/
def FieldKind.image? (v : Option Value) : FieldKind → Option Bytes
  | .primitive p => p.image? v
  | .composite ⟨_, encodedLength, members, _⟩ => v.bind fun v =>
    if v.isObject then (fieldsImage? 0 v members).map (padTo encodedLength) else none
  | .enumeration e => v.bind e.image?
  | .set s => v.bind s.image?

/-- The bytes of fields from `cursor` on, with zeros between them. -/
def fieldsImage? (cursor : Nat) (v : Value) : List FieldLayout → Option Bytes
  | [] => some []
  | ⟨name, _, _, offset, _, kind⟩ :: fields => do
    let bs ← kind.image? (v.field? name)
    let rest ← fieldsImage? (offset + kind.width) v fields
    return zeros (offset - cursor) ++ bs ++ rest

end

theorem fieldsImage?_cons_eq_some_iff {cursor offset : Nat} {v : Value} {name : String}
    {id since : Int32} {description : Option String} {kind : FieldKind}
    {fields : List FieldLayout} {w : Bytes} :
    fieldsImage? cursor v (⟨name, id, since, offset, description, kind⟩ :: fields) = some w ↔
      ∃ bs rest, kind.image? (v.field? name) = some bs
        ∧ fieldsImage? (offset + kind.width) v fields = some rest
        ∧ w = zeros (offset - cursor) ++ bs ++ rest := by
  rw [fieldsImage?]
  simp only [Option.bind_eq_bind, Option.pure_def, Option.bind_eq_some_iff, Option.some.injEq]
  grind

mutual

theorem FieldKind.length_image? {v : Option Value} {w : Bytes} : ∀ {k : FieldKind}, k.Laid →
    k.image? v = some w → w.length = k.width
  | .primitive p, hk, h => by
    rw [FieldKind.Laid] at hk
    rw [FieldKind.image?] at h
    exact p.length_image? hk h
  | .composite ⟨_, encodedLength, members, _⟩, hk, h => by
    rw [FieldKind.Laid] at hk
    rw [FieldKind.image?] at h
    obtain ⟨v, -, h⟩ := Option.bind_eq_some_iff.1 h
    rw [Option.ite_none_right_eq_some] at h
    obtain ⟨w, hw, rfl⟩ := Option.map_eq_some_iff.1 h.2
    have := length_fieldsImage? hk hw
    exact length_padTo (by omega)
  | .enumeration e, _, h => by
    rw [FieldKind.image?] at h
    obtain ⟨v, -, h⟩ := Option.bind_eq_some_iff.1 h
    obtain ⟨l, -, h⟩ := Option.bind_eq_some_iff.1 h
    exact length_encode? h
  | .set s, _, h => by
    rw [FieldKind.image?] at h
    obtain ⟨v, -, h⟩ := Option.bind_eq_some_iff.1 h
    unfold SetLayout.image? at h
    split at h
    · obtain ⟨bits, -, h⟩ := Option.bind_eq_some_iff.1 h
      exact length_encode? h
    · simp at h

theorem length_fieldsImage? {v : Value} {limit : Nat} : ∀ {fields : List FieldLayout}
    {cursor : Nat} {w : Bytes}, fieldsLaid cursor limit fields →
    fieldsImage? cursor v fields = some w → cursor + w.length ≤ limit
  | [], cursor, w, hl, h => by
    rw [fieldsLaid] at hl
    rw [fieldsImage?] at h
    cases h
    exact hl
  | ⟨name, _, _, offset, _, kind⟩ :: fields, cursor, w, hl, h => by
    rw [fieldsLaid] at hl
    obtain ⟨bs, rest, hb, hr, rfl⟩ := fieldsImage?_cons_eq_some_iff.1 h
    have h1 := FieldKind.length_image? hl.2.1 hb
    have h2 := length_fieldsImage? hl.2.2 hr
    simp only [List.length_append, length_zeros]
    omega

end

/-- Filled up, the bytes of fields are as long as the room they are laid in. -/
theorem length_padTo_fieldsImage? {v : Value} {fields : List FieldLayout} {n : Nat} {block : Bytes}
    (hl : fieldsLaid 0 n fields) (h : fieldsImage? 0 v fields = some block) :
    (padTo n block).length = n := by
  have := length_fieldsImage? hl h
  exact length_padTo (by omega)

/-- Zeros behind what was written reach as far as before. -/
theorem padTo_append {bs rest : Bytes} {n : Nat} :
    bs ++ padTo (n - bs.length) rest = padTo n (bs ++ rest) := by
  rw [padTo_eq, padTo_eq, List.length_append, Nat.sub_sub, List.append_assoc]

mutual

/-- A field is put over the zeros that were reserved for it. -/
theorem FieldKind.toOption_encode (path : String) (v : Option Value) (pre post : Bytes) :
    ∀ {k : FieldKind}, k.Laid →
    (k.encode pre.length path v (pre ++ zeros k.width ++ post)).toOption
      = (k.image? v).map fun w => pre ++ w ++ post
  | .primitive p, hk => by
    rw [FieldKind.Laid] at hk
    rw [FieldKind.encode, FieldKind.image?]
    exact p.toOption_encode hk path v pre post
  | .composite ⟨_, encodedLength, members, _⟩, hk => by
    rw [FieldKind.Laid] at hk
    cases v with
    | none => rfl
    | some v =>
      rw [FieldKind.encode, FieldKind.image?, Option.bind_some]
      split
      · have h := toOption_encodeFields path v pre.length post hk rfl
        rw [Nat.sub_zero] at h
        rw [FieldKind.width, h, Option.map_map]
        rfl
      · rfl
  | .enumeration e, _ => by
    cases v with
    | none => rfl
    | some v =>
      rw [FieldKind.encode, FieldKind.image?]
      exact e.toOption_encode path v pre post
  | .set s, _ => by
    cases v with
    | none => rfl
    | some v =>
      rw [FieldKind.encode, FieldKind.image?]
      exact s.toOption_encode path v pre post

theorem toOption_encodeFields (path : String) (v : Value) {limit : Nat} (base : Nat)
    (post : Bytes) : ∀ {fields : List FieldLayout} {cursor : Nat} {pre : Bytes}, fieldsLaid cursor limit fields →
    pre.length = base + cursor →
    (encodeFields base path v (pre ++ zeros (limit - cursor) ++ post) fields).toOption
      = (fieldsImage? cursor v fields).map fun w => pre ++ padTo (limit - cursor) w ++ post
  | [], cursor, pre, _, _ => by
    rw [encodeFields, fieldsImage?]
    rfl
  | ⟨name, id, since, offset, description, kind⟩ :: fields, cursor, pre, hl, hpre => by
    rw [fieldsLaid] at hl
    obtain ⟨hcur, hk, hrest⟩ := hl
    have hle := fieldsLaid_le hrest
    have hpos : base + offset = (pre ++ zeros (offset - cursor)).length := by
      rw [List.length_append, length_zeros]
      omega
    have hsplit : pre ++ zeros (limit - cursor) ++ post = pre ++ zeros (offset - cursor)
        ++ zeros kind.width ++ (zeros (limit - (offset + kind.width)) ++ post) := by
      rw [show limit - cursor = (offset - cursor) + kind.width + (limit - (offset + kind.width)) from
        by omega, zeros_add, zeros_add]
      simp only [List.append_assoc]
    rw [encodeFields, fieldsImage?, hsplit, hpos, toOption_bind,
      FieldKind.toOption_encode _ _ _ _ hk]
    cases hb : kind.image? (v.field? name) with
    | none => rfl
    | some bs =>
      have hbs := FieldKind.length_image? hk hb
      simp only [Option.map_some, Option.bind_some, Option.bind_eq_bind]
      rw [← List.append_assoc, toOption_encodeFields path v base post hrest (by
        rw [List.length_append, hbs, ← hpos]
        omega)]
      cases fieldsImage? (offset + kind.width) v fields with
      | none => rfl
      | some rest =>
        have hsub : limit - (offset + kind.width)
            = limit - cursor - (zeros (offset - cursor) ++ bs).length := by
          rw [List.length_append, length_zeros, hbs]
          omega
        rw [hsub]
        simp only [Option.map_some, Option.bind_some, Option.pure_def]
        rw [← padTo_append (n := limit - cursor)]
        simp only [List.append_assoc]

end

end SimpleBinary
