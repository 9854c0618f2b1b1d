import Mathlib
import SimpleBinary.Number
import SimpleBinary.Proofs.Rounding
import SimpleBinary.Proofs.Words

/-!
# Elements that are written and read back

An element is written as a word and read back as the literal of that word, `literalOf`.  A literal
of the type's own kind comes back as it is (`literalOf_word?_uint`, `literalOf_word?_int`,
`literalOf_word?_float`), and so does one that was read (`exists_word?_literalOf`); an integer
comes back as one that agrees with it (`agrees_of_word?`).  A literal that agrees with one that was
read comes back as one that agrees with the same literals (`agrees_literalOf`), which is what makes
enums and null values stable.
-/

namespace SimpleBinary

namespace Binary64

theorem ofWord_word (x : Binary64) : Binary64.ofWord x.word = x := by
  simp [ofWord, word]

theorem isNaN_of_magnitude_zero {x : Binary64} (h : x.magnitude = 0) : x.isNaN = false := by
  simp [isNaN, h]

theorem numEq_iff {x y : Binary64} : x.numEq y ↔
    x.isNaN = false ∧ y.isNaN = false ∧ (x = y ∨ x.magnitude = 0 ∧ y.magnitude = 0) := by
  cases x
  cases y
  simp [numEq, and_assoc]

theorem numEq_comm (x y : Binary64) : x.numEq y = y.numEq x := by
  rw [Bool.eq_iff_iff, numEq_iff, numEq_iff]
  grind

/-- Numbers that are equal are equal to the same numbers. -/
theorem numEq_congr {x y : Binary64} (h : x.numEq y) (z : Binary64) : x.numEq z = y.numEq z := by
  rw [Bool.eq_iff_iff, numEq_iff, numEq_iff]
  obtain ⟨hx, hy, rfl | ⟨hx0, hy0⟩⟩ := numEq_iff.1 h
  · rfl
  · grind

theorem magnitude_narrow {x : Binary64} (h : x.magnitude = 0) : x.narrow.widen.magnitude = 0 := by
  have hs : FloatFormat.double.signWord = 9223372036854775808 := rfl
  have hx : x.word < 2 ^ 64 := x.bits.toNat_lt
  simp only [magnitude, hs] at h
  have hcases : x.word = 0 ∨ x.word = 9223372036854775808 := by omega
  rw [← ofWord_word x]
  rcases hcases with h | h
  · rw [h]
    decide +kernel
  · rw [h]
    decide +kernel

theorem not_numEq_of_isNaN {x : Binary64} (h : x.isNaN) (y : Binary64) : x.numEq y = false := by
  simp [numEq, h]

/-- A double that equals a single is rounded to one that equals it. -/
theorem numEq_narrow {x : Binary64} {y : Binary32} (h : x.numEq y.widen) :
    x.narrow.widen.numEq y.widen := by
  obtain ⟨hx, hy, rfl | ⟨hx0, hy0⟩⟩ := numEq_iff.1 h
  · rw [Binary32.widen_narrow_widen]
    exact h
  · have h0 := magnitude_narrow hx0
    exact numEq_iff.2 ⟨isNaN_of_magnitude_zero h0, hy, .inr ⟨h0, hy0⟩⟩

/-- Whether two doubles have one value, all NaNs being one. -/
def same (x y : Binary64) : Bool := x.isNaN && y.isNaN || x.numEq y

theorem same_iff {x y : Binary64} : x.same y ↔ x.isNaN ∧ y.isNaN ∨ x.numEq y := by
  rw [same, Bool.or_eq_true, Bool.and_eq_true]

theorem same_narrow {x : Binary64} {y : Binary32} (h : y.widen.same x) :
    y.widen.same x.narrow.widen := by
  rw [same_iff] at h ⊢
  rcases h with ⟨hy, hx⟩ | h
  · exact .inl ⟨hy, isNaN_narrow hx⟩
  · rw [numEq_comm] at h ⊢
    exact .inr (numEq_narrow h)

end Binary64

namespace Literal

/-- The integer of a literal, whether it is kept signed or unsigned. -/
def integer? : Literal → Option Int
  | .int v => some v.toInt
  | .uint v => some v.toNat
  | _ => none

theorem toInt?_eq_some {l : Literal} {n : Int} (h : l.toInt? = some n) : l.integer? = some n := by
  cases l <;> simp_all [toInt?, integer?]

theorem toNat?_eq_some {l : Literal} {n : Nat} (h : l.toNat? = some n) :
    l.integer? = some (n : Int) := by
  cases l with
  | int v =>
    simp only [toNat?, Option.ite_none_right_eq_some, Option.some.injEq] at h
    obtain ⟨h0, rfl⟩ := h
    rw [integer?, Int.toNat_of_nonneg h0]
  | uint v => simp_all [toNat?, integer?]
  | float v => simp [toNat?] at h
  | bytes bs => simp [toNat?] at h

theorem toInt?_of_integer? {l : Literal} {n : Int} (h : l.integer? = some n) :
    l.toInt? = if n ≤ Int64.maxValue.toInt then some n else none := by
  cases l with
  | int v =>
    have := v.toInt_le
    simp_all [toInt?, integer?]
  | uint v => simp_all [toInt?, integer?]
  | float v => simp [integer?] at h
  | bytes bs => simp [integer?] at h

theorem toNat?_of_integer? {l : Literal} {n : Int} (h : l.integer? = some n) :
    l.toNat? = if 0 ≤ n then some n.toNat else none := by
  cases l with
  | int v => simp_all [toNat?, integer?]
  | uint v =>
    simp only [integer?, Option.some.injEq] at h
    subst h
    simp [toNat?]
  | float v => simp [integer?] at h
  | bytes bs => simp [integer?] at h

theorem toFloat?_of_integer? {l : Literal} {n : Int} (h : l.integer? = some n) :
    l.toFloat? = some (Binary64.ofInt n) := by
  cases l <;> simp_all [toFloat?, integer?]

theorem agrees_comm (l m : Literal) : l.agrees m = m.agrees l := by
  cases l with
  | float x =>
    cases m with
    | float y =>
      simp only [agrees, Binary64.numEq_comm x y, Bool.or_comm x.isNaN, Bool.and_comm x.isNaN]
    | int n | uint n | bytes bs => rfl
  | bytes bs =>
    cases m with
    | bytes bs' => simp only [agrees, Bool.beq_comm]
    | float y => rfl
    | int n | uint n =>
      simp only [agrees]
      grind [toInt?, toNat?]
  | int n | uint n =>
    cases m with
    | float y => rfl
    | int n' | uint n' | bytes bs =>
      simp only [agrees]
      grind

/-- Agreement with an integer looks at the integer only. -/
theorem agrees_congr_right {l m : Literal} {n : Int} (hl : l.integer? = some n)
    (hm : m.integer? = some n) (k : Literal) : k.agrees l = k.agrees m := by
  have hi : l.toInt? = m.toInt? := by rw [toInt?_of_integer? hl, toInt?_of_integer? hm]
  have hn : l.toNat? = m.toNat? := by rw [toNat?_of_integer? hl, toNat?_of_integer? hm]
  have hf : l.toFloat? = m.toFloat? := by rw [toFloat?_of_integer? hl, toFloat?_of_integer? hm]
  cases l <;> cases m <;> simp only [integer?, reduceCtorEq] at hl hm <;>
    cases k <;> simp only [agrees, hi, hn, hf]

theorem agrees_self_of_integer? {l : Literal} {n : Int} (h : l.integer? = some n) :
    l.agrees l := by
  cases l with
  | int v => simp [agrees, toInt?]
  | uint v =>
    by_cases hv : (v.toNat : Int) ≤ Int64.maxValue.toInt <;> simp [agrees, toInt?, toNat?, hv]
  | float v => simp [integer?] at h
  | bytes bs => simp [integer?] at h

theorem agrees_self (l : Literal) : l.agrees l := by
  cases l with
  | int v => exact agrees_self_of_integer? rfl
  | uint v => exact agrees_self_of_integer? rfl
  | float x =>
    cases h : x.isNaN with
    | true => simp [agrees, h]
    | false => simp [agrees, h, Binary64.numEq]
  | bytes bs => exact beq_self_eq_true bs

/-- Integers agree only with themselves. -/
theorem integer?_eq_of_agrees {l m : Literal} {x y : Int} (hl : l.integer? = some x)
    (hm : m.integer? = some y) (h : l.agrees m) : x = y := by
  have hi := toInt?_of_integer? hl
  have hi' := toInt?_of_integer? hm
  have hn := toNat?_of_integer? hl
  have hn' := toNat?_of_integer? hm
  cases l <;> cases m <;> simp only [integer?, reduceCtorEq] at hl hm <;>
    simp only [agrees, hi, hi', hn, hn'] at h <;> grind

/-- Agreement with a double looks at its value only. -/
theorem agrees_congr_of_same {x y : Binary64} (h : x.same y) (m : Literal) :
    (Literal.float x).agrees m = (Literal.float y).agrees m := by
  rcases Binary64.same_iff.1 h with ⟨hx, hy⟩ | h
  · cases m <;> simp [agrees, toFloat?, hx, hy, Binary64.numEq_comm _ x, Binary64.numEq_comm _ y,
      Binary64.not_numEq_of_isNaN]
  · obtain ⟨hx, hy, -⟩ := Binary64.numEq_iff.1 h
    cases m <;> simp [agrees, toFloat?, hx, hy, Binary64.numEq_comm _ x, Binary64.numEq_comm _ y,
      Binary64.numEq_congr h]

theorem same_of_agrees {x y : Binary64} {l : Literal} (h : (Literal.float x).agrees l)
    (hl : l.toFloat? = some y) : x.same y := by
  cases l with
  | float z =>
    simp only [toFloat?, Option.some.injEq] at hl
    subst hl
    simp only [agrees] at h
    grind [Binary64.same]
  | int n | uint n =>
    simp only [agrees, hl, Option.any_some, Binary64.numEq_comm y] at h
    simp [Binary64.same, h]
  | bytes bs => simp [toFloat?] at hl

end Literal

namespace Primitive

/-- The literal that a word of the type stands for. -/
def literalOf (p : Primitive) (w : Nat) : Literal := (Number.ofWord p w).literal

/-- Characters and naturals. -/
def IsNatural (p : Primitive) : Prop := p.kind = .char ∨ p.kind = .unsigned

/-- Characters, naturals and integers. -/
def IsInteger (p : Primitive) : Prop := p.kind ≠ .float

instance (p : Primitive) : Decidable p.IsNatural :=
  inferInstanceAs (Decidable (p.kind = .char ∨ p.kind = .unsigned))

instance (p : Primitive) : Decidable p.IsInteger := inferInstanceAs (Decidable (p.kind ≠ .float))

theorem size_le (p : Primitive) : p.size ≤ 8 := by cases p <;> decide

theorem maxUnsigned_eq (p : Primitive) : p.maxUnsigned = 256 ^ p.size - 1 := by
  cases p <;> rfl

theorem signed_bounds {p : Primitive} (hk : p.kind = .signed) :
    2 * p.minSigned = -(256 ^ p.size : Nat) ∧ 2 * p.maxSigned = (256 ^ p.size : Nat) - 2 := by
  cases p <;> first | (simp [kind] at hk; done) | (constructor <;> rfl)

theorem pow_size_le (p : Primitive) : 256 ^ p.size ≤ 2 ^ 64 := by
  cases p <;> norm_num [size]

/-- The literal of a natural's word is the natural. -/
theorem literalOf_natural {p : Primitive} (hk : p.IsNatural) {w : Nat} (hw : w < 256 ^ p.size) :
    p.literalOf w = .uint (UInt64.ofNat w) := by
  cases p with
  | char | uint8 | uint16 | uint32 =>
    simp only [size] at hw
    simp only [literalOf, Number.ofWord, Number.literal, Literal.uint.injEq]
    apply UInt64.toNat_inj.1
    simp only [UInt8.toNat_toUInt64, UInt16.toNat_toUInt64, UInt32.toNat_toUInt64,
      UInt8.toNat_ofNat', UInt16.toNat_ofNat', UInt32.toNat_ofNat', UInt64.toNat_ofNat']
    omega
  | uint64 => rfl
  | int8 | int16 | int32 | int64 | float | double => simp [IsNatural, kind] at hk

/-- The literal of an integer's word is the word read in two's complement. -/
theorem literalOf_signed {p : Primitive} (hk : p.kind = .signed) (w : Nat) :
    p.literalOf w = .int (Int64.ofInt (signedWord p.size w)) := by
  have hb := signedWord_bounds p.size w
  cases p with
  | int8 | int16 | int32 | int64 =>
    simp only [size] at hb
    simp only [literalOf, Number.ofWord, Number.literal, Literal.int.injEq]
    apply Int64.toInt_inj.1
    rw [Int64.toInt_ofInt_of_le (by simp only [size]; omega) (by simp only [size]; omega)]
    simp [signedWord, size]
  | char | uint8 | uint16 | uint32 | uint64 | float | double => simp [kind] at hk

theorem literalOf_double (w : Nat) : double.literalOf w = .float (Binary64.ofWord w) := rfl

theorem literalOf_float (w : Nat) : float.literalOf w = .float (Binary32.ofWord w).widen := rfl

section Written

variable {p : Primitive} {l : Literal} {w : Nat}

/-- A natural is written as itself. -/
theorem word?_natural (hk : p.IsNatural) :
    p.word? l = some w ↔ l.toNat? = some w ∧ w < 256 ^ p.size := by
  have hm : w ≤ p.maxUnsigned ↔ w < 256 ^ p.size := by
    have : 0 < 256 ^ p.size := by positivity
    rw [maxUnsigned_eq]
    omega
  rw [← hm]
  rcases hk with hk | hk <;> simp [word?, hk, Option.filter_eq_some_iff]

/-- An integer of the type's range is written in two's complement. -/
theorem word?_signed (hk : p.kind = .signed) :
    p.word? l = some w ↔ ∃ n, l.toInt? = some n ∧ -(256 ^ p.size : Nat) ≤ 2 * n
      ∧ 2 * n < (256 ^ p.size : Nat) ∧ w = wordOfInt p.size n := by
  obtain ⟨hlo, hhi⟩ := signed_bounds hk
  simp only [word?, hk, Option.map_eq_some_iff, Option.filter_eq_some_iff, Bool.and_eq_true,
    decide_eq_true_eq]
  constructor
  · rintro ⟨n, ⟨hn, h1, h2⟩, rfl⟩
    exact ⟨n, hn, by omega, by omega, rfl⟩
  · rintro ⟨n, hn, h1, h2, rfl⟩
    have heven : (256 ^ p.size : Nat) % 2 = 0 := by cases p <;> rfl
    exact ⟨n, ⟨hn, by omega, by omega⟩, rfl⟩

theorem word?_double : double.word? l = some w ↔ ∃ x, l.toFloat? = some x ∧ w = x.word := by
  simp [word?, kind, eq_comm]

theorem word?_float :
    float.word? l = some w ↔ ∃ x, l.toFloat? = some x ∧ w = x.narrow.word := by
  simp [word?, kind, eq_comm]

theorem kind_cases (p : Primitive) :
    p.IsNatural ∨ p.kind = .signed ∨ p = .float ∨ p = .double := by
  cases p <;> simp [IsNatural, kind]

theorem eq_float_or_double (hk : p.kind = .float) : p = .float ∨ p = .double := by
  cases p <;> simp [kind] at hk ⊢

/-- What is written fits the width. -/
theorem word?_lt (h : p.word? l = some w) : w < 256 ^ p.size := by
  rcases p.kind_cases with hk | hk | rfl | rfl
  · exact ((word?_natural hk).1 h).2
  · obtain ⟨n, -, -, -, rfl⟩ := (word?_signed hk).1 h
    exact wordOfInt_lt _ _
  · obtain ⟨x, -, rfl⟩ := word?_float.1 h
    exact x.narrow.bits.toNat_lt
  · obtain ⟨x, -, rfl⟩ := word?_double.1 h
    exact x.bits.toNat_lt

/-- An integer that was written is read as the same integer. -/
theorem integer?_literalOf (hp : p.IsInteger) (h : p.word? l = some w) :
    ∃ n, l.integer? = some n ∧ (p.literalOf w).integer? = some n := by
  have hw := word?_lt h
  rcases p.kind_cases with hk | hk | rfl | rfl
  · have h64 : w < 2 ^ 64 := lt_of_lt_of_le hw p.pow_size_le
    refine ⟨w, Literal.toNat?_eq_some ((word?_natural hk).1 h).1, ?_⟩
    rw [literalOf_natural hk hw, Literal.integer?, UInt64.toNat_ofNat_of_lt' h64]
  · obtain ⟨n, hn, hlo, hhi, rfl⟩ := (word?_signed hk).1 h
    have hsize := p.pow_size_le
    refine ⟨n, Literal.toInt?_eq_some hn, ?_⟩
    rw [literalOf_signed hk, signedWord_wordOfInt hlo hhi, Literal.integer?,
      Int64.toInt_ofInt_of_le (by omega) (by omega)]
  · exact absurd rfl hp
  · exact absurd rfl hp

/-- An integer that was written is read as one that agrees with it. -/
theorem agrees_of_word? (hp : p.IsInteger) (h : p.word? l = some w) :
    l.agrees (p.literalOf w) := by
  obtain ⟨n, hl, hw⟩ := integer?_literalOf hp h
  rw [← Literal.agrees_congr_right hl hw]
  exact Literal.agrees_self_of_integer? hl

/-- A natural that was written to an integer is read as the same natural. -/
theorem toNat?_literalOf {v : UInt64} (hp : p.IsInteger) (h : p.word? (.uint v) = some w) :
    (p.literalOf w).toNat? = some v.toNat := by
  obtain ⟨n, hl, hw⟩ := integer?_literalOf hp h
  cases hl
  rw [Literal.toNat?_of_integer? hw, if_pos (Int.natCast_nonneg _), Int.toNat_natCast]

theorem literalOf_word?_uint {v : UInt64} (hk : p.IsNatural) (h : p.word? (.uint v) = some w) :
    p.literalOf w = .uint v := by
  obtain ⟨hv, hw⟩ := (word?_natural hk).1 h
  cases hv
  rw [literalOf_natural hk hw, UInt64.ofNat_toNat]

theorem literalOf_word?_int {v : Int64} (hk : p.kind = .signed) (h : p.word? (.int v) = some w) :
    p.literalOf w = .int v := by
  obtain ⟨n, hn, hlo, hhi, rfl⟩ := (word?_signed hk).1 h
  cases hn
  rw [literalOf_signed hk, signedWord_wordOfInt hlo hhi, Int64.ofInt_toInt]

theorem literalOf_word?_float {x : Binary64} (hk : p.kind = .float)
    (hx : p = .float → x.narrow.widen = x) (h : p.word? (.float x) = some w) :
    p.literalOf w = .float x := by
  obtain rfl | rfl := eq_float_or_double hk
  · obtain ⟨y, hy, rfl⟩ := word?_float.1 h
    cases hy
    rw [literalOf_float, Binary32.ofWord_word, hx rfl]
  · obtain ⟨y, hy, rfl⟩ := word?_double.1 h
    cases hy
    rw [literalOf_double, Binary64.ofWord_word]

/-- A literal that was read is written so that it is read again. -/
theorem exists_word?_literalOf (hw : w < 256 ^ p.size) :
    ∃ w', p.word? (p.literalOf w) = some w' ∧ p.literalOf w' = p.literalOf w := by
  rcases p.kind_cases with hk | hk | rfl | rfl
  · have h64 : w < 2 ^ 64 := lt_of_lt_of_le hw p.pow_size_le
    refine ⟨w, (word?_natural hk).2 ⟨?_, hw⟩, rfl⟩
    rw [literalOf_natural hk hw, Literal.toNat?, UInt64.toNat_ofNat_of_lt' h64]
  · have hb := signedWord_bounds p.size w
    have hsize := p.pow_size_le
    refine ⟨w, (word?_signed hk).2 ⟨signedWord p.size w, ?_, hb.1, hb.2, ?_⟩, rfl⟩
    · rw [literalOf_signed hk, Literal.toInt?, Int64.toInt_ofInt_of_le (by omega) (by omega)]
    · rw [wordOfInt_signedWord hw]
  · refine ⟨_, word?_float.2 ⟨_, rfl, rfl⟩, ?_⟩
    rw [literalOf_float, literalOf_float, Binary32.ofWord_word, Binary32.widen_narrow_widen]
  · exact ⟨w, word?_double.2 ⟨_, rfl, (Binary64.word_ofWord hw).symm⟩, rfl⟩

/-- What agrees with an element that was read is written as one that agrees with the same
literals. -/
theorem agrees_literalOf {w' : Nat} (hw : w < 256 ^ p.size) (ha : (p.literalOf w).agrees l)
    (h : p.word? l = some w') (m : Literal) :
    m.agrees (p.literalOf w') = m.agrees (p.literalOf w) := by
  by_cases hp : p.IsInteger
  · obtain ⟨v, hv, -⟩ := exists_word?_literalOf hw
    obtain ⟨x, hx, -⟩ := integer?_literalOf hp hv
    obtain ⟨y, hy, hy'⟩ := integer?_literalOf hp h
    cases Literal.integer?_eq_of_agrees hx hy ha
    exact Literal.agrees_congr_right hy' hx m
  · rw [Literal.agrees_comm m, Literal.agrees_comm m]
    obtain rfl | rfl := eq_float_or_double (not_not.1 hp)
    · obtain ⟨y, hy, rfl⟩ := word?_float.1 h
      rw [literalOf_float, literalOf_float, Binary32.ofWord_word]
      have hs := Binary64.same_narrow (Literal.same_of_agrees ha hy)
      exact (Literal.agrees_congr_of_same hs m).symm
    · obtain ⟨y, hy, rfl⟩ := word?_double.1 h
      rw [literalOf_double, literalOf_double, Binary64.ofWord_word]
      exact (Literal.agrees_congr_of_same (Literal.same_of_agrees ha hy) m).symm

end Written

end Primitive

end SimpleBinary
