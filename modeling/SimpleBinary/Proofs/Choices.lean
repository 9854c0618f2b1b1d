import Mathlib
import SimpleBinary.Definition.Tokens
import SimpleBinary.Proofs.Decoded

/-!
# Sets in encodings of every kind

A set is written as the number whose bits are its choices' and read as the choices whose bits the
number has.  The number goes through the encoding: a natural is kept as it is; an integer is in
range only if its sign bit is clear, and one below zero is read as no choice at all; a float is
the number's value and not its bits, and is never read.  `SetLayout.decode_eq` says what any bytes
are read as, and `SetLayout.encode_decode_iff` which sets come back.
-/

namespace SimpleBinary

/-! ## The sign bit -/

theorem testBit_top_iff {n w : Nat} (h : w < 2 ^ (n + 1)) : w.testBit n ↔ 2 ^ n ≤ w :=
  ⟨Nat.ge_two_pow_of_testBit, fun hle => Nat.testBit_of_two_pow_le_and_two_pow_add_one_gt hle h⟩

namespace Primitive

variable {p : Primitive} {w : Nat}

/-- Half of the words of a type have the sign bit clear. -/
theorem two_mul_lt_iff (hw : w < 256 ^ p.size) :
    2 * w < 256 ^ p.size ↔ ¬w.testBit (8 * p.size - 1) := by
  have hpow : 256 ^ p.size = 2 ^ (8 * p.size - 1 + 1) := by cases p <;> rfl
  rw [hpow] at hw ⊢
  rw [testBit_top_iff hw, pow_succ]
  omega

/-- An integer that is not negative is read as a natural. -/
theorem toNat?_literalOf_signed (hk : p.kind = .signed) (hw : w < 256 ^ p.size) :
    (p.literalOf w).toNat? = if 2 * w < 256 ^ p.size then some w else none := by
  have hb := signedWord_bounds p.size w
  have hsize := p.pow_size_le
  rw [literalOf_signed hk, Literal.toNat?, Int64.toInt_ofInt_of_le (by omega) (by omega)]
  by_cases hlt : 2 * w < 256 ^ p.size
  · have hsame : signedWord p.size w = w := by
      simp only [signedWord, Nat.pow_eq]
      exact Int.bmod_eq_of_le_mul_two (by omega) (by omega)
    rw [if_pos hlt, hsame, if_pos (Int.natCast_nonneg w), Int.toNat_natCast]
  · rw [if_neg hlt, if_neg]
    intro h0
    -- a word that stands for a natural is that natural
    have hword := wordOfInt_signedWord hw
    have hlow : wordOfInt p.size (signedWord p.size w) = (signedWord p.size w).toNat := by
      rw [wordOfInt, Nat.pow_eq, Int.emod_eq_of_lt h0 (by omega)]
    omega

theorem toNat?_literalOf_float (hk : p.kind = .float) (w : Nat) :
    (p.literalOf w).toNat? = none := by
  obtain rfl | rfl := eq_float_or_double hk <;> rfl

end Primitive

/-! ## What is read -/

namespace SetLayout

variable {s : SetLayout}

/-- The bits of a word are seen: in a natural always, in an integer if it is not negative. -/
def Shows (s : SetLayout) (word : Nat) : Prop :=
  s.encoding.IsNatural ∨ s.encoding.kind = .signed ∧ ¬word.testBit (8 * s.encoding.size - 1)

instance (word : Nat) : Decidable (s.Shows word) :=
  inferInstanceAs (Decidable (s.encoding.IsNatural
    ∨ s.encoding.kind = .signed ∧ ¬word.testBit (8 * s.encoding.size - 1)))

theorem choicesOf_zero : s.choicesOf 0 = [] := by simp [choicesOf]

theorem choicesOf_literalOf {word : Nat} (hw : word < 256 ^ s.encoding.size) :
    s.choicesOf ((s.encoding.literalOf word).toNat?.getD 0)
      = if s.Shows word then s.choicesOf word else [] := by
  have h64 : word < 2 ^ 64 := lt_of_lt_of_le hw s.encoding.pow_size_le
  by_cases hn : s.encoding.IsNatural
  · rw [Primitive.literalOf_natural hn hw, Literal.toNat?, Option.getD_some,
      UInt64.toNat_ofNat_of_lt' h64, if_pos (.inl hn)]
  by_cases hs : s.encoding.kind = .signed
  · have hiff : s.Shows word ↔ 2 * word < 256 ^ s.encoding.size := by
      rw [Primitive.two_mul_lt_iff hw, Shows]
      simp [hn, hs]
    rw [Primitive.toNat?_literalOf_signed hs hw]
    by_cases hlt : 2 * word < 256 ^ s.encoding.size
    · rw [if_pos hlt, if_pos (hiff.2 hlt), Option.getD_some]
    · rw [if_neg hlt, if_neg (hiff.not.2 hlt), Option.getD_none, choicesOf_zero]
  · have hf : s.encoding.kind = .float := by
      cases hk : s.encoding.kind <;> simp_all [Primitive.IsNatural]
    rw [Primitive.toNat?_literalOf_float hf, Option.getD_none, choicesOf_zero, if_neg]
    simp [Shows, hn, hs]

/-- Any bytes in the place of a set are read as the choices whose bits they show. -/
theorem decode_eq {pos : Nat} {path : String} {c : Cursor} (h : pos + s.width ≤ c.data.length) :
    ∃ c', s.decode pos path c = .ok (.set s.typeName
      (let word := s.byteOrder.word ((c.data.drop pos).take s.width)
       if s.Shows word then s.choicesOf word else []), c') := by
  have hword : s.byteOrder.word ((c.data.drop pos).take s.width) < 256 ^ s.encoding.size :=
    s.byteOrder.word_lt_of_length (List.length_take_le _ _)
  rcases (s.reads_decode path pos c).cases h with ⟨-, h⟩ | ⟨x, c', hok, -, hx⟩
  · cases h
  · cases hx
    exact ⟨c', by rw [hok, value, choicesOf_literalOf hword]⟩

/-! ## What comes back -/

/-- The choices named come back: any as a natural, as an integer those apart from the sign bit, as a
float none. -/
def Keeps (s : SetLayout) (names : List String) : Prop :=
  s.encoding.IsNatural ∨ names = [] ∨ s.encoding.kind = .signed
    ∧ ∀ c ∈ s.choices, c.name ∈ names → c.bit ≠ 8 * s.encoding.size - 1

theorem encode_eq_ok_iff {typeName path : String} {pos : Nat} {names : List String} {bits : UInt64}
    {image image' : Bytes} (hbits : s.bits? names = some bits) (h : pos + s.width ≤ image.length) :
    s.encode pos path (.set typeName names) image = .ok image'
      ↔ ∃ bs, s.encoding.encode? s.byteOrder (.uint bits) = some bs
        ∧ image' = overwrite pos bs image := by
  rw [← toOption_eq_some_iff, encode, toOption_bind, s.toOption_bitsOf, hbits, Option.bind_some,
    putLiteral, putElement?, if_neg (by rw [width] at h; omega)]
  cases s.encoding.encode? s.byteOrder (.uint bits) <;> simp [eq_comm]

/-- A set that was written over bytes is read as what its own bytes say. -/
theorem decode_overwrite (path : String) {pos : Nat} (index : Nat) {bs image : Bytes}
    (hlen : bs.length = s.width) (h : pos + s.width ≤ image.length) :
    ∃ c, s.decode pos path ⟨overwrite pos bs image, index⟩ = .ok (s.value bs, c) := by
  have hroom : pos + s.width ≤ (overwrite pos bs image).length := by
    rw [length_overwrite (by omega)]
    exact h
  have hself : ((overwrite pos bs image).drop pos).take s.width = bs := by
    rw [← hlen]
    exact take_drop_overwrite_self (by omega)
  rcases (s.reads_decode path pos ⟨overwrite pos bs image, index⟩).cases hroom with
    ⟨-, h⟩ | ⟨x, c, hok, -, hx⟩
  · cases h
  · cases hx
    rw [hself] at hok
    exact ⟨c, hok⟩

/-- The number of a set that is kept lies in the range of the encoding. -/
theorem accepts_of_keeps (hl : s.Laid) {names : List String} {bits : UInt64}
    (hbits : s.bits? names = some bits) (hk : s.Keeps names) :
    s.encoding.Accepts (.uint bits) := by
  have hlt := bits?_lt hl hbits
  rw [Primitive.accepts_uint_iff, Primitive.Holds]
  rcases hk with hn | rfl | ⟨hs, htop⟩
  · have hle : bits.toNat ≤ s.encoding.maxUnsigned := by
      rw [Primitive.maxUnsigned_eq]
      omega
    rcases hn with hn | hn <;> simpa [hn] using hle
  · cases hbits
    cases s.encoding <;> simp [Primitive.kind, Primitive.maxSigned, Primitive.size]
  · have hclear : ¬bits.toNat.testBit (8 * s.encoding.size - 1) := by
      rw [testBit_bits? hl hbits]
      rintro ⟨name, hname, c, hc, hbit⟩
      have hcn := List.find?_some hc
      rw [beq_iff_eq] at hcn
      exact htop c (List.mem_of_find?_eq_some hc) (hcn ▸ hname) hbit
    rw [← Primitive.two_mul_lt_iff hlt] at hclear
    have := (Primitive.signed_bounds hs).2
    rw [hs]
    dsimp only
    omega

/-- A number in the range of an integer has none of its choices at the sign bit. -/
theorem bit_ne_of_accepts (hl : s.Laid) (hnames : (s.choices.map (·.name)).Nodup)
    (hs : s.encoding.kind = .signed) {names : List String} {bits : UInt64}
    (hbits : s.bits? names = some bits) (ha : s.encoding.Accepts (.uint bits)) :
    ∀ c ∈ s.choices, c.name ∈ names → c.bit ≠ 8 * s.encoding.size - 1 := by
  rw [Primitive.accepts_uint_iff, Primitive.Holds, hs] at ha
  dsimp only at ha
  have := (Primitive.signed_bounds hs).2
  have hclear := (Primitive.two_mul_lt_iff (bits?_lt hl hbits)).1 (by omega)
  rw [testBit_bits? hl hbits] at hclear
  intro c hc hname hbit
  have hfind : s.byName? c.name = some c := find?_eq_some_of_nodup hnames hc
  exact hclear ⟨c.name, hname, c, hfind, hbit⟩

theorem value_of_keeps (hl : s.Laid) (hnames : (s.choices.map (·.name)).Nodup)
    (hdistinct : (s.choices.map (·.bit)).Nodup) {names : List String}
    (hsub : names.Sublist (s.choices.map (·.name))) {bits : UInt64}
    (hbits : s.bits? names = some bits) (hk : s.Keeps names) {bs : Bytes}
    (hbs : s.encoding.encode? s.byteOrder (.uint bits) = some bs) :
    s.value bs = .set s.typeName names := by
  obtain ⟨w, hw, hword⟩ := literalOf_word_of_encode? hbs
  rw [value, hword]
  by_cases hi : s.encoding.IsInteger
  · rw [Primitive.toNat?_literalOf hi hw, Option.getD_some,
      choicesOf_bits hl hnames hdistinct hsub hbits]
  · have hf : s.encoding.kind = .float := not_not.1 hi
    have hnil : names = [] := by
      rcases hk with hn | hnil | ⟨hs, -⟩
      · rcases hn with hn | hn <;> simp [hf] at hn
      · exact hnil
      · simp [hf] at hs
    rw [Primitive.toNat?_literalOf_float hf, Option.getD_none, choicesOf_zero, hnil]

/-- In every encoding that a set may have, the choices that come back as they were written are those
that the encoding keeps, and any bytes in the set's place are read as the choices whose bits are set
in the stored word, or as none if the word is a negative integer or a float. -/
theorem encode_decode_iff {tokens : List Token} {span : Span} (h : setAt tokens span = .ok s)
    (hnames : (s.choices.map (·.name)).Nodup) (hdistinct : (s.choices.map (·.bit)).Nodup) :
    (∀ names, names.Sublist (s.choices.map (·.name)) → ∀ typeName path pos index image,
      pos + s.width ≤ image.length →
      ((∃ image' c, s.encode pos path (.set typeName names) image = .ok image'
        ∧ s.decode pos path ⟨image', index⟩ = .ok (.set s.typeName names, c)) ↔ s.Keeps names))
    ∧ ∀ path pos (c : Cursor), pos + s.width ≤ c.data.length →
      ∃ c', s.decode pos path c = .ok (.set s.typeName
        (let word := s.byteOrder.word ((c.data.drop pos).take s.width)
         if s.Shows word then s.choicesOf word else []), c') := by
  have hl := laid_of_setAt h
  refine ⟨fun names hsub typeName path pos index image hroom => ?_, fun path pos c => decode_eq⟩
  obtain ⟨bits, hbits⟩ := exists_bits? hsub.subset
  simp only [encode_eq_ok_iff hbits hroom]
  constructor
  · rintro ⟨image', c, ⟨bs, hbs, rfl⟩, hread⟩
    obtain ⟨w, hw, hword⟩ := literalOf_word_of_encode? hbs
    obtain ⟨c', hread'⟩ := decode_overwrite path index (length_encode? hbs) hroom
    rcases hk : s.encoding.kind with _ | _ | _ | _
    · exact .inl (.inl hk)
    · exact .inr (.inr ⟨hk, bit_ne_of_accepts hl hnames hk hbits ⟨w, hw⟩⟩)
    · exact .inl (.inr hk)
    · refine .inr (.inl ?_)
      rw [hread', value, Primitive.toNat?_literalOf_float hk, Option.getD_none, choicesOf_zero]
        at hread
      simpa using (congrArg (·.toOption.map (·.1)) hread).symm
  · intro hk
    obtain ⟨bs, hbs⟩ := exists_encode? s.byteOrder (accepts_of_keeps hl hbits hk)
    obtain ⟨c, hc⟩ := decode_overwrite path index (length_encode? hbs) hroom
    rw [value_of_keeps hl hnames hdistinct hsub hbits hk hbs] at hc
    exact ⟨_, c, ⟨bs, hbs, rfl⟩, hc⟩

end SetLayout

/-! ## A set of two choices -/

namespace Flags

/-- A set in a byte with a sign, one of its choices at the sign bit. -/
def definition : TypeDef := .set "Flags" .int8 [("low", 0), ("top", 7)]

def layout : SetLayout := ⟨"Flags", .int8, .littleEndian, [⟨"low", 0⟩, ⟨"top", 7⟩], none⟩

theorem setAt_definition : setAt (definition.tokens .littleEndian 0) ⟨0, 4⟩ = .ok layout := rfl

/-- The lower choice comes back, the one at the sign bit does not, and a byte that has the bits of
both is read as none. -/
theorem encode_decode_layout :
    (∃ image c, layout.encode 0 "flags" (.set "Flags" ["low"]) [0] = .ok image
      ∧ layout.decode 0 "flags" ⟨image, 0⟩ = .ok (.set "Flags" ["low"], c))
    ∧ (¬∃ image c, layout.encode 0 "flags" (.set "Flags" ["top"]) [0] = .ok image
      ∧ layout.decode 0 "flags" ⟨image, 0⟩ = .ok (.set "Flags" ["top"], c))
    ∧ ∃ c, layout.decode 0 "flags" ⟨[129], 0⟩ = .ok (.set "Flags" [], c) := by
  obtain ⟨hback, hread⟩ := SetLayout.encode_decode_iff setAt_definition (by decide) (by decide)
  refine ⟨(hback ["low"] (by decide) "Flags" "flags" 0 0 [0] (by decide)).2 ?_,
    (hback ["top"] (by decide) "Flags" "flags" 0 0 [0] (by decide)).not.2 ?_,
    hread "flags" 0 ⟨[129], 0⟩ (by decide)⟩
  · exact .inr (.inr (by decide))
  · unfold SetLayout.Keeps
    decide

end Flags

end SimpleBinary
