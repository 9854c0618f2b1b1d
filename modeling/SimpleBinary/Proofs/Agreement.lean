import Mathlib
import SimpleBinary.Proofs.Elements

/-!
# Agreement of literals

Literals agree when they have one value, an integer and a float being compared as doubles.  A double
holds every integer below `2 ^ 53` in magnitude to the last unit, and no other integer is rounded to
it (`Binary64.eq_of_numEq_ofInt`); further out integers share their doubles.  So agreement is
reflexive and symmetric, and on integers it is equality, but it passes over a float only if the two
integers at its ends are one (`Literal.agrees_refl_symm_trans_iff`).
-/

namespace SimpleBinary

/-! ## Integers as doubles -/

theorem le_roundDiv (num den : Nat) : num / den ≤ roundDiv num den := by
  unfold roundDiv
  dsimp only
  split
  · omega
  · split <;> omega

namespace FloatFormat

variable {n : Nat}

theorem floorLog2_one (h0 : 0 < n) : floorLog2 n 1 = n.log2 := by
  rw [floorLog2_eq h0 Nat.one_pos, Nat.cast_one, div_one, Int.log_natCast, Nat.log2_eq_log_two]

/-- The word of a natural that a double holds to the last unit. -/
theorem ofRatio_of_lt (h0 : 0 < n) (h : n < 2 ^ 53) :
    double.ofRatio n 1 = (n.log2 + 1022) * 2 ^ 52 + n * 2 ^ (52 - n.log2)
      ∧ 2 ^ 52 ≤ n * 2 ^ (52 - n.log2) ∧ n * 2 ^ (52 - n.log2) < 2 ^ 53 := by
  have hlog : n.log2 ≤ 52 := Nat.lt_succ_iff.1 ((Nat.log2_lt h0.ne').2 h)
  obtain ⟨s, hs⟩ : ∃ s, s + n.log2 = 52 := ⟨52 - n.log2, by omega⟩
  have hsub : 52 - n.log2 = s := by omega
  have hlo : 2 ^ 52 ≤ n * 2 ^ s := by
    calc 2 ^ 52 = 2 ^ n.log2 * 2 ^ s := by rw [← pow_add, Nat.add_comm, hs]
      _ ≤ n * 2 ^ s := Nat.mul_le_mul_right _ (Nat.log2_self_le h0.ne')
  have hhi : n * 2 ^ s < 2 ^ 53 := by
    calc n * 2 ^ s < 2 ^ (n.log2 + 1) * 2 ^ s :=
          Nat.mul_lt_mul_of_pos_right Nat.lt_log2_self (by positivity)
      _ = 2 ^ 53 := by rw [← pow_add]; congr 1; omega
  have hnormal : double.Normal (n * 2 ^ s) (-s) := by
    refine ⟨hhi, ?_, .inl hlo⟩
    rw [show double.minExponent = -1074 from rfl]
    omega
  have hvalue : (n : ℚ) / (1 : Nat) = (n * 2 ^ s : Nat) * 2 ^ (-(s : Int)) := by
    rw [zpow_neg, zpow_natCast]
    push_cast
    field_simp
  rw [hsub]
  refine ⟨?_, hlo, hhi⟩
  rw [ofRatio_of_normal hnormal Nat.one_pos hvalue, magnitudeOf,
    show double.minExponent = -1074 from rfl, show double.fractionUnit = 2 ^ 52 from rfl,
    show double.infinityWord = 2047 * 2 ^ 52 from rfl,
    show (-(s : Int) - -1074).toNat = n.log2 + 1022 by omega]
  exact min_eq_left (by omega)

/-- Naturals beyond are rounded to no less than the word of `2 ^ 53`. -/
theorem le_ofRatio (h : 2 ^ 53 ≤ n) : 1076 * 2 ^ 52 ≤ double.ofRatio n 1 := by
  have h0 : 0 < n := lt_of_lt_of_le (by norm_num) h
  have hlog : 53 ≤ n.log2 := (Nat.le_log2 h0.ne').2 h
  obtain ⟨e, he⟩ : ∃ e, n.log2 = e + 52 := ⟨n.log2 - 52, by omega⟩
  have hexp : max (floorLog2 n 1 - double.fractionBits) double.minExponent = e := by
    rw [floorLog2_one h0, he, show double.minExponent = -1074 from rfl,
      show double.fractionBits = 52 from rfl]
    omega
  have hscale : scaleRatio n 1 (-e) = (n, 2 ^ e) := by
    rw [scaleRatio, if_neg (by omega), neg_neg, Int.toNat_natCast, one_mul]
    rfl
  have hquotient : 2 ^ 52 ≤ roundDiv n (2 ^ e) := by
    refine le_trans ((Nat.le_div_iff_mul_le (by positivity)).2 ?_) (le_roundDiv _ _)
    rw [← pow_add, Nat.add_comm, ← he]
    exact Nat.log2_self_le h0.ne'
  simp only [ofRatio, if_neg h0.ne', hexp, hscale]
  rw [show double.minExponent = -1074 from rfl, show double.fractionUnit = 2 ^ 52 from rfl,
    show double.infinityWord = 2047 * 2 ^ 52 from rfl,
    show ((e : Int) - -1074).toNat = e + 1074 by omega]
  exact le_min (by omega) (by norm_num)

theorem ofRatio_zero : double.ofRatio 0 1 = 0 := rfl

theorem ofRatio_pos (h0 : 0 < n) : 0 < double.ofRatio n 1 := by
  rcases Nat.lt_or_ge n (2 ^ 53) with h | h
  · have := (ofRatio_of_lt h0 h).1
    omega
  · have := le_ofRatio h
    omega

/-- A natural below `2 ^ 53` shares its word with no other. -/
theorem eq_of_ofRatio_eq {m : Nat} (hm : m < 2 ^ 53)
    (h : double.ofRatio m 1 = double.ofRatio n 1) : m = n := by
  rcases Nat.eq_zero_or_pos m with rfl | hm0
  · rcases Nat.eq_zero_or_pos n with rfl | hn0
    · rfl
    · have := ofRatio_pos hn0
      rw [← h, ofRatio_zero] at this
      omega
  obtain ⟨hword, hlo, hhi⟩ := ofRatio_of_lt hm0 hm
  have hlog : m.log2 ≤ 52 := Nat.lt_succ_iff.1 ((Nat.log2_lt hm0.ne').2 hm)
  rcases Nat.eq_zero_or_pos n with rfl | hn0
  · have := ofRatio_pos hm0
    rw [h, ofRatio_zero] at this
    omega
  rcases Nat.lt_or_ge n (2 ^ 53) with hn | hn
  · obtain ⟨hword', hlo', hhi'⟩ := ofRatio_of_lt hn0 hn
    rw [hword, hword'] at h
    have hlogs : m.log2 = n.log2 := by omega
    rw [hlogs] at h
    exact Nat.eq_of_mul_eq_mul_right (Nat.two_pow_pos _) (Nat.add_left_cancel h)
  · have := le_ofRatio hn
    omega

theorem ofRatio_le (num den : Nat) : double.ofRatio num den ≤ double.infinityWord := by
  unfold ofRatio
  split
  · exact Nat.zero_le _
  · exact min_le_right _ _

theorem ofRatio_lt_signWord (num den : Nat) : double.ofRatio num den < double.signWord :=
  (ofRatio_le num den).trans_lt (by decide)

end FloatFormat

namespace Binary64

open FloatFormat

theorem word_ofInt (n : Int) :
    (ofInt n).word = double.signed (n < 0) (double.ofRatio n.natAbs 1) :=
  word_ofWord_signed (ofRatio_lt_signWord n.natAbs 1) _

theorem magnitude_ofInt (n : Int) : (ofInt n).magnitude = double.ofRatio n.natAbs 1 := by
  rw [magnitude, word_ofInt, signed_mod_signWord (ofRatio_lt_signWord n.natAbs 1)]

theorem isNaN_ofInt (n : Int) : (ofInt n).isNaN = false := by
  rw [isNaN, magnitude_ofInt, decide_eq_false_iff_not, not_lt]
  exact ofRatio_le _ _

/-- An integer below `2 ^ 53` in magnitude shares its double with no other. -/
theorem eq_of_numEq_ofInt {x y : Int} (hx : x.natAbs < 2 ^ 53) (h : (ofInt x).numEq (ofInt y)) :
    x = y := by
  obtain ⟨-, -, h⟩ := numEq_iff.1 h
  have habs : x.natAbs = y.natAbs := by
    apply eq_of_ofRatio_eq hx
    rw [← magnitude_ofInt, ← magnitude_ofInt]
    rcases h with h | ⟨h, h'⟩
    · rw [h]
    · rw [h, h']
  rcases Nat.eq_zero_or_pos x.natAbs with h0 | h0
  · omega
  have hpos := ofRatio_pos h0
  have hword : (ofInt x).word = (ofInt y).word := by
    rcases h with h | ⟨h, -⟩
    · rw [h]
    · rw [magnitude_ofInt] at h
      omega
  -- The words have one magnitude, so they have one sign.
  have hlt := ofRatio_lt_signWord x.natAbs 1
  have hsign : decide (x < 0) = decide (y < 0) := by
    rw [← negative_signed hlt (x < 0), ← negative_signed hlt (y < 0), ← word_ofInt, hword,
      word_ofInt, habs]
  rw [decide_eq_decide] at hsign
  omega

/-! ## One value -/

theorem same_self (x : Binary64) : x.same x := by
  rw [same_iff]
  cases h : x.isNaN with
  | true => exact .inl ⟨rfl, rfl⟩
  | false => exact .inr (numEq_iff.2 ⟨h, h, .inl rfl⟩)

theorem same_comm (x y : Binary64) : x.same y = y.same x := by
  rw [same, same, numEq_comm, Bool.and_comm]

theorem same_trans {x y z : Binary64} (h : x.same y) (h' : y.same z) : x.same z := by
  rw [same_iff] at h h' ⊢
  rcases h with ⟨hx, hy⟩ | h
  · rcases h' with ⟨-, hz⟩ | h'
    · exact .inl ⟨hx, hz⟩
    · rw [not_numEq_of_isNaN hy] at h'
      cases h'
  · rcases h' with ⟨hy, -⟩ | h'
    · rw [numEq_comm, not_numEq_of_isNaN hy] at h
      cases h
    · rw [numEq_congr h]
      exact .inr h'

end Binary64

namespace Literal

variable {l m n : Literal}

/-- Integers agree just if they are the same. -/
theorem agrees_iff_eq {x y : Int} (hl : l.integer? = some x) (hm : m.integer? = some y) :
    l.agrees m ↔ x = y := by
  refine ⟨integer?_eq_of_agrees hl hm, ?_⟩
  rintro rfl
  rw [agrees_congr_right hm hl]
  exact agrees_self_of_integer? hl

/-- Bytes agree with themselves alone. -/
theorem bytes_agrees_iff {bs : Bytes} : (Literal.bytes bs).agrees m ↔ m = .bytes bs := by
  cases m with
  | bytes bs' => rw [agrees, beq_iff_eq, bytes.injEq, eq_comm]
  | float y => simp [agrees, toFloat?]
  | int v | uint v => simp [agrees, toInt?, toNat?]

/-- A float agrees with what has the same double. -/
theorem float_agrees_iff {x : Binary64} :
    (Literal.float x).agrees m ↔ ∃ y, m.toFloat? = some y ∧ x.same y := by
  constructor
  · intro h
    cases hm : m.toFloat? with
    | some y => exact ⟨y, rfl, same_of_agrees h hm⟩
    | none =>
      cases m with
      | bytes bs => simp [agrees, toFloat?] at h
      | int v | uint v | float y => cases hm
  · rintro ⟨y, hy, h⟩
    rw [agrees_congr_of_same h]
    cases m with
    | float z =>
      cases hy
      exact agrees_self _
    | int v | uint v =>
      cases hy
      exact Binary64.numEq_iff.2 ⟨Binary64.isNaN_ofInt _, Binary64.isNaN_ofInt _, .inl rfl⟩
    | bytes bs => cases hy

/-- Literals that agree have the same double, if they have one. -/
theorem exists_same_of_agrees {x : Binary64} (h : l.agrees m) (hl : l.toFloat? = some x) :
    ∃ y, m.toFloat? = some y ∧ x.same y := by
  cases l with
  | float z =>
    cases hl
    exact float_agrees_iff.1 h
  | int v | uint v =>
    cases m with
    | float y =>
      rw [agrees_comm, float_agrees_iff] at h
      obtain ⟨x', hx', hsame⟩ := h
      rw [hl] at hx'
      cases hx'
      exact ⟨y, rfl, by rwa [Binary64.same_comm]⟩
    | int w | uint w =>
      have heq := integer?_eq_of_agrees rfl rfl h
      cases hl
      refine ⟨_, rfl, ?_⟩
      rw [heq]
      exact Binary64.same_self _
    | bytes bs =>
      rw [agrees_comm, bytes_agrees_iff] at h
      cases h
  | bytes bs => cases hl

/-- Agreement passes on where one of the ends is no integer. -/
theorem agrees_trans_of_integer?_eq_none (hl : l.integer? = none) (hlm : l.agrees m)
    (hmn : m.agrees n) : l.agrees n := by
  cases l with
  | int v | uint v => cases hl
  | float x =>
    obtain ⟨y, hy, hxy⟩ := float_agrees_iff.1 hlm
    obtain ⟨z, hz, hyz⟩ := exists_same_of_agrees hmn hy
    exact float_agrees_iff.2 ⟨z, hz, Binary64.same_trans hxy hyz⟩
  | bytes bs =>
    rw [bytes_agrees_iff] at hlm
    rwa [hlm] at hmn

/-- Agreement passes on just where the ends are not two different integers. -/
theorem agrees_trans_iff (hlm : l.agrees m) (hmn : m.agrees n) :
    l.agrees n ↔ ∀ x y, l.integer? = some x → n.integer? = some y → x = y := by
  constructor
  · exact fun h x y hx hy => integer?_eq_of_agrees hx hy h
  · intro h
    cases hl : l.integer? with
    | none => exact agrees_trans_of_integer?_eq_none hl hlm hmn
    | some x =>
      cases hn : n.integer? with
      | none =>
        rw [agrees_comm] at hlm hmn ⊢
        exact agrees_trans_of_integer?_eq_none hn hmn hlm
      | some y => exact (agrees_iff_eq hl hn).2 (h x y hl hn)

/-- Literals that agree with one float are the same integer if one of them is small. -/
theorem eq_of_agrees_agrees {x y : Int} (hl : l.integer? = some x) (hn : n.integer? = some y)
    (hx : x.natAbs < 2 ^ 53) (hlm : l.agrees m) (hmn : m.agrees n) : x = y := by
  obtain ⟨a, ha, hxa⟩ := exists_same_of_agrees hlm (toFloat?_of_integer? hl)
  obtain ⟨b, hb, hab⟩ := exists_same_of_agrees hmn ha
  rw [toFloat?_of_integer? hn] at hb
  cases hb
  refine Binary64.eq_of_numEq_ofInt hx ?_
  rcases Binary64.same_iff.1 (Binary64.same_trans hxa hab) with ⟨hnan, -⟩ | h
  · rw [Binary64.isNaN_ofInt] at hnan
    cases hnan
  · exact h

/-- Agreement is reflexive and symmetric, and on integers it is equality.  It passes on except from
an integer over a float to another integer, and there too if the first is below `2 ^ 53` in
magnitude. -/
theorem agrees_refl_symm_trans_iff (l m n : Literal) :
    l.agrees l ∧ l.agrees m = m.agrees l
      ∧ (∀ x y, l.integer? = some x → m.integer? = some y → (l.agrees m ↔ x = y))
      ∧ (l.agrees m → m.agrees n →
        (l.agrees n ↔ ∀ x y, l.integer? = some x → n.integer? = some y → x = y)
          ∧ ((∀ x, l.integer? = some x → x.natAbs < 2 ^ 53) → l.agrees n)) := by
  refine ⟨agrees_self l, agrees_comm l m, fun x y => agrees_iff_eq, fun hlm hmn => ?_⟩
  refine ⟨agrees_trans_iff hlm hmn, fun hsmall => (agrees_trans_iff hlm hmn).2 ?_⟩
  exact fun x y hx hy => eq_of_agrees_agrees hx hy (hsmall x hx) hlm hmn

/-- The double `2 ^ 53` agrees with two integers, which do not agree. -/
theorem not_agrees_over_float :
    (Literal.int 9007199254740993).agrees (.float (.ofWord 0x4340000000000000))
      ∧ (Literal.float (.ofWord 0x4340000000000000)).agrees (.int 9007199254740992)
      ∧ ¬ (Literal.int 9007199254740993).agrees (.int 9007199254740992) := by
  have hlm : (Literal.int 9007199254740993).agrees (.float (.ofWord 0x4340000000000000)) := by
    decide +kernel
  have hmn : (Literal.float (.ofWord 0x4340000000000000)).agrees (.int 9007199254740992) := by
    decide +kernel
  refine ⟨hlm, hmn, fun h => ?_⟩
  have heq := ((agrees_refl_symm_trans_iff _ _ _).2.2.2 hlm hmn).1.1 h _ _ rfl rfl
  exact absurd heq (by decide)

end Literal

end SimpleBinary
