import Mathlib
import SimpleBinary.Proofs.Seen

/-!
# What is read of a single field

The three shapes of a primitive field are read back apart: a text is the bytes up to the first zero
byte among those written (`PrimitiveLayout.value?_of_text`), an array and a single element are the
literals that were written, each as its type keeps it (`value?_of_array`, `value?_of_scalar`).  An
enum is read as the first of its values that agrees with what was written, a set as the choices
whose bits were.  A field has bytes at all if its literals lie in the range of its type
(`Primitive.Accepts`, in numbers `Primitive.accepts_iff_takes`), and a header if its slots can hold
what they are to say.
-/

namespace SimpleBinary

/-- Writing `l` and reading it back gives `l'`. -/
def Primitive.Keeps (p : Primitive) (l l' : Literal) : Prop :=
  ∃ w, p.word? l = some w ∧ l' = p.literalOf w

/-- A literal in the range of the type. -/
def Primitive.Accepts (p : Primitive) (l : Literal) : Prop := ∃ w, p.word? l = some w

instance (p : Primitive) (l : Literal) : Decidable (p.Accepts l) :=
  decidable_of_iff (p.word? l).isSome Option.isSome_iff_exists

namespace Primitive

/-- An integer in the type's range; for a float any number. -/
def Takes (p : Primitive) (l : Literal) : Prop :=
  match p.kind with
  | .char | .unsigned => ∃ n, l.integer? = some n ∧ 0 ≤ n ∧ n ≤ p.maxUnsigned
  | .signed => ∃ n, l.integer? = some n ∧ p.minSigned ≤ n ∧ n ≤ p.maxSigned
  | .float => ∃ x, l.toFloat? = some x

/-- A natural within the range of a type; a float takes every number. -/
def Holds (p : Primitive) (n : Nat) : Prop :=
  match p.kind with
  | .char | .unsigned => n ≤ p.maxUnsigned
  | .signed => (n : Int) ≤ p.maxSigned
  | .float => True

variable {p : Primitive} {l : Literal}

theorem accepts_natural_iff (hk : p.IsNatural) :
    p.Accepts l ↔ ∃ n, l.integer? = some n ∧ 0 ≤ n ∧ n ≤ p.maxUnsigned := by
  have hmax := p.maxUnsigned_eq
  have hpos : 0 < 256 ^ p.size := by positivity
  simp only [Accepts, word?_natural hk]
  constructor
  · rintro ⟨w, hw, hlt⟩
    exact ⟨w, Literal.toNat?_eq_some hw, Int.natCast_nonneg w, by omega⟩
  · rintro ⟨n, hn, hlo, hhi⟩
    exact ⟨n.toNat, by rw [Literal.toNat?_of_integer? hn, if_pos hlo], by omega⟩

theorem accepts_signed_iff (hk : p.kind = .signed) :
    p.Accepts l ↔ ∃ n, l.integer? = some n ∧ p.minSigned ≤ n ∧ n ≤ p.maxSigned := by
  obtain ⟨hmin, hmax⟩ := signed_bounds hk
  have hsize := p.pow_size_le
  simp only [Accepts, word?_signed hk]
  constructor
  · rintro ⟨w, n, hn, hlo, hhi, -⟩
    have heven : (256 ^ p.size : Nat) % 2 = 0 := by cases p <;> rfl
    exact ⟨n, Literal.toInt?_eq_some hn, by omega, by omega⟩
  · rintro ⟨n, hn, hlo, hhi⟩
    refine ⟨_, n, ?_, by omega, by omega, rfl⟩
    rw [Literal.toInt?_of_integer? hn, if_pos]
    rw [show Int64.maxValue.toInt = 2 ^ 63 - 1 from rfl]
    omega

theorem accepts_iff_takes : p.Accepts l ↔ p.Takes l := by
  unfold Takes
  cases hk : p.kind with
  | char => exact accepts_natural_iff (.inl hk)
  | unsigned => exact accepts_natural_iff (.inr hk)
  | signed => exact accepts_signed_iff hk
  | float => simp [Accepts, word?, hk]

theorem accepts_uint_iff {n : UInt64} : p.Accepts (.uint n) ↔ p.Holds n.toNat := by
  rw [accepts_iff_takes]
  unfold Takes Holds
  cases hk : p.kind with
  | char | unsigned => simp [Literal.integer?]
  | float => simp [Literal.toFloat?]
  | signed =>
    have hmin : p.minSigned ≤ 0 := by
      have hbound := (signed_bounds hk).1
      have hpow := Int.natCast_nonneg (256 ^ p.size)
      omega
    simp only [Literal.integer?, Option.some.injEq, exists_eq_left']
    exact and_iff_right (hmin.trans (Int.natCast_nonneg _))

end Primitive

theorem Primitive.Keeps.unique {p : Primitive} {l l' l'' : Literal} (h : p.Keeps l l')
    (h' : p.Keeps l l'') : l' = l'' := by
  obtain ⟨w, hw, rfl⟩ := h
  obtain ⟨w', hw', rfl⟩ := h'
  rw [hw] at hw'
  cases hw'
  rfl

/-- Elements that are kept as they are come back as they are. -/
theorem Primitive.eq_of_forall₂_keeps {p : Primitive} {ls ls' : List Literal}
    (h : List.Forall₂ p.Keeps ls ls') (hls : ∀ l ∈ ls, ∀ l', p.Keeps l l' → l' = l) :
    ls' = ls := by
  induction h with
  | nil => rfl
  | cons hl hrest ih =>
    obtain ⟨hd, hds⟩ := List.forall_mem_cons.1 hls
    rw [hd _ hl, ih hds]

theorem exists_concat? {α : Type} {f : α → Option Bytes} : ∀ {xs : List α},
    (∀ x ∈ xs, ∃ bs, f x = some bs) → ∃ bs, concat? f xs = some bs
  | [], _ => ⟨[], rfl⟩
  | x :: xs, h => by
    obtain ⟨⟨first, hf⟩, hxs⟩ := List.forall_mem_cons.1 h
    obtain ⟨rest, hr⟩ := exists_concat? hxs
    exact ⟨first ++ rest, concat?_cons_eq_some_iff.2 ⟨first, rest, hf, hr, rfl⟩⟩

/-- Each of several things has bytes if they have. -/
theorem exists_of_mem_concat? {α : Type} {f : α → Option Bytes} : ∀ {xs : List α} {bs : Bytes},
    concat? f xs = some bs → ∀ x ∈ xs, ∃ bs, f x = some bs
  | [], _, _, x, hx => absurd hx List.not_mem_nil
  | y :: ys, bs, h, x, hx => by
    obtain ⟨first, rest, hf, hr, rfl⟩ := concat?_cons_eq_some_iff.1 h
    rcases List.mem_cons.1 hx with rfl | hx
    · exact ⟨first, hf⟩
    · exact exists_of_mem_concat? hr x hx

theorem exists_encode? {p : Primitive} {l : Literal} (order : ByteOrder) (h : p.Accepts l) :
    ∃ bs, p.encode? order l = some bs := by
  obtain ⟨w, hw⟩ := h
  exact ⟨_, by rw [Primitive.encode?, hw, Option.map_some]⟩

theorem Primitive.Keeps.accepts {p : Primitive} {l l' : Literal} (h : p.Keeps l l') :
    p.Accepts l := by
  obtain ⟨w, hw, -⟩ := h
  exact ⟨w, hw⟩

/-- The literal read from any bytes of the type's width is kept. -/
theorem Primitive.keeps_literalOf_word (p : Primitive) (order : ByteOrder) {bs : Bytes}
    (h : bs.length ≤ p.size) :
    p.Keeps (p.literalOf (order.word bs)) (p.literalOf (order.word bs)) := by
  obtain ⟨w, hw, hl⟩ := Primitive.exists_word?_literalOf (order.word_lt_of_length h)
  exact ⟨w, hw, hl.symm⟩

namespace PrimitiveLayout

variable {p : PrimitiveLayout}

/-! ## Texts -/

theorem primitive_of_isText (h : p.isText) : p.primitive = .char := by
  rw [isText, Bool.and_eq_true, beq_iff_eq] at h
  exact h.1

/-- A character takes one byte. -/
theorem encode?_char {order : ByteOrder} {l : Literal} {w : Nat}
    (h : Primitive.char.word? l = some w) :
    Primitive.char.encode? order l = some [UInt8.ofNat w] := by
  have hw : w < 256 := Primitive.word?_lt h
  rw [Primitive.encode?, h, Option.map_some]
  cases order <;> simp [ByteOrder.bytes, Primitive.size, lowBytes, Nat.mod_eq_of_lt hw]

theorem word?_char_byte (b : UInt8) : Primitive.char.word? (.uint b.toUInt64) = some b.toNat := by
  refine (Primitive.word?_natural (.inl rfl)).2 ⟨?_, b.toNat_lt⟩
  rw [Literal.toNat?, UInt8.toNat_toUInt64]

theorem elements?_bytes (h : p.isText) : ∀ bs : Bytes,
    p.elements? (bs.map fun b => .uint b.toUInt64) = some bs
  | [] => rfl
  | b :: bs => by
    have ih := elements?_bytes h bs
    rw [elements?, primitive_of_isText h] at ih ⊢
    refine concat?_cons_eq_some_iff.2 ⟨[b], bs, ?_, ih, rfl⟩
    rw [encode?_char (word?_char_byte b), UInt8.ofNat_toNat]

theorem elements?_replicate (h : p.isText) {l : Literal} {w : Nat}
    (hw : Primitive.char.word? l = some w) : ∀ n : Nat,
    p.elements? (List.replicate n l) = some (List.replicate n (UInt8.ofNat w))
  | 0 => rfl
  | n + 1 => by
    have ih := elements?_replicate h hw n
    rw [elements?, primitive_of_isText h] at ih ⊢
    exact concat?_cons_eq_some_iff.2 ⟨_, _, encode?_char hw, ih, rfl⟩

/-- The bytes that are written for a text before the rest is left zero. -/
def textBytes? (p : PrimitiveLayout) : Option Value → Option Bytes
  | some v => p.text? v
  | none => (p.primitive.word? p.nullValue).map fun w =>
    List.replicate p.arrayLength (UInt8.ofNat w)

theorem takeWhile_append_zeros (bs : Bytes) (n : Nat) :
    (bs ++ zeros n).takeWhile (· != 0) = bs.takeWhile (· != 0) := by
  have hz : (zeros n).takeWhile (· != 0) = [] := by
    cases n <;> simp [zeros, List.replicate_succ]
  rw [List.takeWhile_append, hz]
  split
  · rename_i h
    rw [List.append_nil, (List.takeWhile_prefix _).eq_of_length h]
  · rfl

theorem takeWhile_of_zero_notMem {bs : Bytes} (h : 0 ∉ bs) : bs.takeWhile (· != 0) = bs := by
  rw [List.takeWhile_eq_self_iff]
  intro b hb
  exact bne_iff_ne.2 fun h0 => h (h0 ▸ hb)

theorem zero_notMem_takeWhile (bs : Bytes) : 0 ∉ bs.takeWhile (· != 0) := fun h =>
  absurd (List.mem_takeWhile_imp h) (by simp)

theorem length_takeWhile_le (bs : Bytes) : (bs.takeWhile (· != 0)).length ≤ bs.length :=
  (List.takeWhile_prefix _).length_le

theorem constant?_of_not (hc : ¬p.isConstant) : p.constant? = none := by
  rw [constant?, if_neg hc]

theorem value?_text (hc : ¬p.isConstant) (ht : p.isText) (bs : Bytes) :
    p.value? bs = (textValue? (p.characterEncoding.getD "US-ASCII")
      (bs.takeWhile (· != 0))).map some := by
  rw [value?, constant?_of_not hc]
  dsimp only
  rw [if_pos ht]

/-- A text is read as its bytes up to the first zero byte. -/
theorem value?_of_text (hp : p.Laid) (hc : ¬p.isConstant) (ht : p.isText) {v : Option Value}
    {w : Bytes} (h : p.image? v = some w) : ∃ bs, p.textBytes? v = some bs
      ∧ p.value? w = (textValue? (p.characterEncoding.getD "US-ASCII")
        (bs.takeWhile (· != 0))).map some := by
  rw [image?, if_neg hc] at h
  obtain ⟨bs, hbs, rfl⟩ := Option.map_eq_some_iff.1 h
  obtain ⟨ls, hls, hbs⟩ := Option.bind_eq_some_iff.1 hbs
  refine ⟨bs, ?_, by rw [value?_text hc ht, padTo_eq, takeWhile_append_zeros]⟩
  cases v with
  | some v =>
    rw [written?, literals?.eq_def, if_pos ht] at hls
    obtain ⟨bs', hbs', rfl⟩ := Option.map_eq_some_iff.1 hls
    rw [elements?_bytes ht] at hbs
    cases hbs
    exact (Option.filter_eq_some_iff.1 hbs').1
  | none =>
    rw [written?, Option.ite_none_right_eq_some] at hls
    obtain ⟨-, hls⟩ := hls
    cases hls
    obtain ⟨n, hn⟩ := Nat.exists_eq_add_of_le' hp.1
    rw [textBytes?, primitive_of_isText ht]
    cases hw : Primitive.char.word? p.nullValue with
    | none =>
      rw [hn, elements?, primitive_of_isText ht] at hbs
      obtain ⟨first, rest, hf, -, -⟩ := concat?_cons_eq_some_iff.1 hbs
      simp [Primitive.encode?, hw] at hf
    | some x =>
      rw [elements?_replicate ht hw] at hbs
      rw [Option.map_some, ← hbs]

/-! ## Arrays and single elements -/

theorem length_of_written? (hp : p.Laid) (ht : ¬p.isText) {v : Option Value} {ls : List Literal}
    (h : p.written? v = some ls) : ls.length = p.arrayLength := by
  cases v with
  | none =>
    rw [written?, Option.ite_none_right_eq_some] at h
    obtain ⟨-, h⟩ := h
    cases h
    exact List.length_replicate
  | some v =>
    rw [written?, literals?.eq_def, if_neg ht] at h
    split at h
    · split at h
      · rw [Option.ite_none_right_eq_some] at h
        rw [← h.1, (mapM_eq_some_iff.1 h.2).length_eq]
      · simp at h
    · rename_i ha
      obtain ⟨l, -, rfl⟩ := Option.map_eq_some_iff.1 h
      rw [arrayLength_eq_one hp ha]
      rfl

/-- The elements of a field are read as each was kept. -/
theorem forall₂_of_image? (hp : p.Laid) (hc : ¬p.isConstant) (ht : ¬p.isText) {v : Option Value}
    {w : Bytes} (h : p.image? v = some w) : ∃ ls, p.written? v = some ls
      ∧ List.Forall₂ p.primitive.Keeps ls
        (literalsIn p.primitive p.byteOrder p.arrayLength w) := by
  rw [image?, if_neg hc] at h
  obtain ⟨bs, hbs, rfl⟩ := Option.map_eq_some_iff.1 h
  obtain ⟨ls, hls, hbs⟩ := Option.bind_eq_some_iff.1 hbs
  have hlen := length_of_written? hp ht hls
  refine ⟨ls, hls, ?_⟩
  rw [padTo_eq, ← hlen]
  exact forall₂_literalsIn hbs _

theorem value?_array (hc : ¬p.isConstant) (ht : ¬p.isText) (ha : p.isArray) (bs : Bytes) :
    p.value? bs = some (some (.array
      ((literalsIn p.primitive p.byteOrder p.arrayLength bs).map .ofLiteral))) := by
  rw [value?, constant?_of_not hc]
  dsimp only
  rw [if_neg ht, if_pos ha]

theorem value?_of_array (hp : p.Laid) (hc : ¬p.isConstant) (ht : ¬p.isText) (ha : p.isArray)
    {v : Option Value} {w : Bytes} (h : p.image? v = some w) : ∃ ls ls', p.written? v = some ls
      ∧ List.Forall₂ p.primitive.Keeps ls ls'
      ∧ p.value? w = some (some (.array (ls'.map .ofLiteral))) := by
  obtain ⟨ls, hls, hkeeps⟩ := forall₂_of_image? hp hc ht h
  exact ⟨ls, _, hls, hkeeps, value?_array hc ht ha w⟩

theorem value?_scalar (hc : ¬p.isConstant) (ht : ¬p.isText) (ha : ¬p.isArray) (bs : Bytes) :
    p.value? bs = some
      (if p.isOptional && (p.primitive.literalOf
          (p.byteOrder.word (bs.take p.primitive.size))).agrees p.nullValue then none
      else some (.ofLiteral (p.primitive.literalOf
        (p.byteOrder.word (bs.take p.primitive.size))))) := by
  rw [value?, constant?_of_not hc]
  dsimp only
  rw [if_neg ht, if_neg ha]

theorem value?_of_scalar (hp : p.Laid) (hc : ¬p.isConstant) (ht : ¬p.isText) (ha : ¬p.isArray)
    {v : Option Value} {w : Bytes} (h : p.image? v = some w) : ∃ l l', p.written? v = some [l]
      ∧ p.primitive.Keeps l l' ∧ p.value? w = some
        (if p.isOptional && l'.agrees p.nullValue then none else some (.ofLiteral l')) := by
  obtain ⟨ls, hls, hkeeps⟩ := forall₂_of_image? hp hc ht h
  rw [arrayLength_eq_one hp ha] at hkeeps
  rw [literalsIn, literalsIn] at hkeeps
  cases hkeeps with
  | cons hl hrest =>
    cases hrest
    exact ⟨_, _, hls, hl, value?_scalar hc ht ha w⟩

/-- A value has bytes if its elements are kept. -/
theorem exists_image? (hc : ¬p.isConstant) {v : Option Value} {ls : List Literal}
    (h : p.written? v = some ls) (hls : ∀ l ∈ ls, p.primitive.Accepts l) :
    ∃ w, p.image? v = some w := by
  obtain ⟨bs, hbs⟩ := exists_concat? (f := p.primitive.encode? p.byteOrder) fun l hl =>
    exists_encode? p.byteOrder (hls l hl)
  refine ⟨padTo p.width bs, ?_⟩
  rw [image?, if_neg hc, h, Option.bind_some, elements?, hbs, Option.map_some]

/-- A text has bytes if its own are not too many. -/
theorem exists_image?_of_text? (hc : ¬p.isConstant) (ht : p.isText) {x : Value} {bs : Bytes}
    (h : p.text? x = some bs) (hlen : bs.length ≤ p.arrayLength) :
    ∃ w, p.image? (some x) = some w := by
  have hwritten : p.written? (some x) = some (bs.map fun b => .uint b.toUInt64) := by
    rw [written?, literals?.eq_def, if_pos ht, h, Option.filter_some_pos (by simpa using hlen),
      Option.map_some]
  refine exists_image? hc hwritten fun l hl => ?_
  obtain ⟨b, -, rfl⟩ := List.mem_map.1 hl
  rw [primitive_of_isText ht]
  exact ⟨_, word?_char_byte b⟩

end PrimitiveLayout

/-! ## Enums and sets -/

/-- An enum is read from what is kept of its value's literal. -/
theorem EnumLayout.value?_of_image? {e : EnumLayout} {v : Value} {w : Bytes}
    (h : e.image? v = some w) : ∃ name raw raw', v.enumName? = some name
      ∧ e.literalNamed? name = some raw ∧ e.encoding.Keeps raw raw'
      ∧ e.value? w = match e.byValue? raw' with
        | some v => some (.enumeration e.typeName v.name)
        | none =>
          if raw'.agrees e.nullValue then some (.enumeration e.typeName nullName) else none := by
  obtain ⟨raw, hraw, h⟩ := Option.bind_eq_some_iff.1 h
  obtain ⟨name, hname, hraw⟩ := Option.bind_eq_some_iff.1 hraw
  obtain ⟨x, hx, hword⟩ := literalOf_word_of_encode? h
  refine ⟨name, raw, _, hname, hraw, ⟨x, hx, rfl⟩, ?_⟩
  rw [← hword]
  rfl

/-- A set is read from what is kept of its bits. -/
theorem SetLayout.value_of_image? {s : SetLayout} {v : Value} {w : Bytes}
    (h : s.image? v = some w) : ∃ typeName names bits raw, v = .set typeName names
      ∧ s.bits? names = some bits ∧ s.encoding.Keeps (.uint bits) raw
      ∧ s.value w = .set s.typeName (s.choicesOf (raw.toNat?.getD 0)) := by
  cases v with
  | set typeName names =>
    obtain ⟨bits, hbits, h⟩ := Option.bind_eq_some_iff.1 h
    obtain ⟨x, hx, hword⟩ := literalOf_word_of_encode? h
    refine ⟨typeName, names, bits, _, rfl, hbits, ⟨x, hx, rfl⟩, ?_⟩
    rw [value, hword]
  | _ => simp [image?] at h

theorem UInt64.toNat_ofNat_two_pow {n : Nat} (h : n < 64) :
    (UInt64.ofNat (2 ^ n)).toNat = 2 ^ n :=
  UInt64.toNat_ofNat_of_lt' (Nat.pow_lt_pow_right (by norm_num) h)

/-- A bit is set when a choice of it is named. -/
theorem SetLayout.testBit_bits? {s : SetLayout} (hs : s.Laid) : ∀ {names : List String}
    {bits : UInt64}, s.bits? names = some bits → ∀ i,
    bits.toNat.testBit i ↔ ∃ name ∈ names, ∃ c, s.byName? name = some c ∧ c.bit = i
  | [], bits, h, i => by
    cases h
    simp
  | name :: names, bits, h, i => by
    rw [bits?] at h
    obtain ⟨c, hc, h⟩ := Option.bind_eq_some_iff.1 h
    obtain ⟨rest, hr, h⟩ := Option.bind_eq_some_iff.1 h
    cases h
    have hbit := hs c (List.mem_of_find?_eq_some hc)
    have h64 : c.bit < 64 := by
      have := s.encoding.size_le
      omega
    rw [UInt64.toNat_or, UInt64.toNat_ofNat_two_pow h64, Nat.testBit_lor, Bool.or_eq_true,
      testBit_bits? hs hr i, Nat.testBit_two_pow, decide_eq_true_eq]
    constructor
    · rintro (rfl | ⟨n, hn, d, hd, rfl⟩)
      · exact ⟨name, List.mem_cons_self, c, hc, rfl⟩
      · exact ⟨n, List.mem_cons_of_mem _ hn, d, hd, rfl⟩
    · rintro ⟨n, hn, d, hd, rfl⟩
      rcases List.mem_cons.1 hn with rfl | hn
      · rw [hc] at hd
        cases hd
        exact .inl rfl
      · exact .inr ⟨n, hn, d, hd, rfl⟩

theorem SetLayout.bits?_lt {s : SetLayout} (hs : s.Laid) {names : List String} {bits : UInt64}
    (h : s.bits? names = some bits) : bits.toNat < 256 ^ s.encoding.size := by
  rw [show 256 = 2 ^ 8 from rfl, ← pow_mul]
  refine Nat.lt_pow_two_of_testBit _ fun i hi => ?_
  rw [Bool.eq_false_iff, Ne, testBit_bits? hs h i]
  rintro ⟨name, -, c, hc, rfl⟩
  have := hs c (List.mem_of_find?_eq_some hc)
  omega

theorem SetLayout.exists_bits? {s : SetLayout} : ∀ {names : List String},
    names ⊆ s.choices.map (·.name) → ∃ bits, s.bits? names = some bits
  | [], _ => ⟨0, rfl⟩
  | name :: names, h => by
    obtain ⟨hname, hnames⟩ := List.cons_subset.1 h
    obtain ⟨d, hd, rfl⟩ := List.mem_map.1 hname
    obtain ⟨c, hc⟩ : ∃ c, s.byName? d.name = some c :=
      Option.isSome_iff_exists.1 (List.find?_isSome.2 ⟨d, hd, beq_self_eq_true _⟩)
    obtain ⟨bits, hbits⟩ := exists_bits? hnames
    refine ⟨UInt64.ofNat (2 ^ c.bit) ||| bits, ?_⟩
    rw [bits?, hc, hbits]
    rfl

/-! ## Headers and var-data -/

/-- A number that the slot can hold. -/
def HeaderSlot.Accepts (s : HeaderSlot) (n : Nat) : Prop :=
  n < UInt64.size ∧ s.primitive.Accepts (.uint (UInt64.ofNat n))

theorem HeaderSlot.exists_image?_iff {s : HeaderSlot} {n : Nat} :
    (∃ bs, s.image? n = some bs) ↔ s.Accepts n := by
  rw [image?, Accepts]
  by_cases hn : n < UInt64.size
  · simp [hn, Primitive.encode?, Primitive.Accepts]
  · simp [hn]

theorem HeaderSlot.accepts_iff {s : HeaderSlot} {n : Nat} (hn : n < UInt64.size) :
    s.Accepts n ↔ s.primitive.Holds n := by
  rw [Accepts, Primitive.accepts_uint_iff, UInt64.toNat_ofNat_of_lt' hn]
  exact and_iff_right hn

theorem DimensionLayout.exists_image? {d : DimensionLayout} {blockLength count : Nat}
    (hl : d.blockLength.Accepts blockLength) (hn : d.numInGroup.Accepts count) :
    ∃ bs, d.image? blockLength count = some bs := by
  obtain ⟨length, hl⟩ := HeaderSlot.exists_image?_iff.2 hl
  obtain ⟨number, hn⟩ := HeaderSlot.exists_image?_iff.2 hn
  rw [image?, hl, hn]
  exact ⟨_, rfl⟩

theorem VarDataLayout.exists_image? {d : VarDataLayout} {v : Option Value} {payload : Bytes}
    (hp : d.payload? v = some payload) (h : d.length.Accepts payload.length) :
    ∃ bs, d.image? v = some bs := by
  obtain ⟨length, hl⟩ := HeaderSlot.exists_image?_iff.2 h
  rw [image?, hp, Option.bind_eq_bind, Option.bind_some, hl]
  exact ⟨_, rfl⟩

end SimpleBinary
