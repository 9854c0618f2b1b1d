import Mathlib
import SimpleBinary.Float.Binary64

/-!
# Numbers that a format holds exactly

A quotient that a format holds is rounded to the word that holds it (`ofRatio_of_normal`), and a
word is read as the sign and the parts that it is put together from (`decode_signed`).  So a single
carried to a double and back is the same single unless it is a NaN (`narrow_widen`); a NaN stays one
(`isNaN_narrow`), and its double comes back whatever it is (`widen_narrow_widen`).
-/

namespace SimpleBinary

theorem scaleRatio_ratio (num den : Nat) (e : Int) :
    ((scaleRatio num den e).1 : ℚ) / (scaleRatio num den e).2 = num / den * 2 ^ e := by
  unfold scaleRatio
  split
  · rename_i he
    obtain ⟨k, rfl⟩ := Int.eq_ofNat_of_zero_le he
    simp only [Int.toNat_natCast, Nat.pow_eq, zpow_natCast]
    push_cast
    ring
  · rename_i he
    obtain ⟨k, rfl⟩ : ∃ k : Nat, e = -(k : Int) := ⟨(-e).toNat, by omega⟩
    simp only [neg_neg, Int.toNat_natCast, Nat.pow_eq, zpow_neg, zpow_natCast]
    push_cast
    rw [div_mul_eq_div_div, div_eq_mul_inv (_ / _)]

theorem scaleRatio_den_pos {num den : Nat} (e : Int) (h : 0 < den) :
    0 < (scaleRatio num den e).2 := by
  unfold scaleRatio
  split
  · exact h
  · exact Nat.mul_pos h (Nat.pow_pos (by norm_num))

theorem roundDiv_mul {m den : Nat} (h : 0 < den) : roundDiv (m * den) den = m := by
  simp [roundDiv, h, h.ne]

/-- A quotient lies within a factor of two of the power of two that its parts' logarithms give. -/
theorem ratio_log2_bounds {num den : Nat} (hn : 0 < num) (hd : 0 < den) :
    (2 : ℚ) ^ ((num.log2 : Int) - den.log2 - 1) < num / den
      ∧ (num : ℚ) / den < 2 ^ ((num.log2 : Int) - den.log2 + 1) := by
  have hd' : (0 : ℚ) < den := by exact_mod_cast hd
  have n1 : ((2 : ℚ) ^ num.log2) ≤ num := by
    exact_mod_cast Nat.log2_self_le hn.ne'
  have n2 : (num : ℚ) < 2 ^ (num.log2 + 1) := by exact_mod_cast Nat.lt_log2_self
  have d1 : ((2 : ℚ) ^ den.log2) ≤ den := by
    exact_mod_cast Nat.log2_self_le hd.ne'
  have d2 : (den : ℚ) < 2 ^ (den.log2 + 1) := by exact_mod_cast Nat.lt_log2_self
  constructor
  · rw [lt_div_iff₀ hd', sub_sub, zpow_sub₀ (by norm_num), zpow_natCast,
      show (den.log2 : Int) + 1 = ((den.log2 + 1 : Nat) : Int) by push_cast; rfl, zpow_natCast]
    calc (2 : ℚ) ^ num.log2 / 2 ^ (den.log2 + 1) * den
        < 2 ^ num.log2 / 2 ^ (den.log2 + 1) * 2 ^ (den.log2 + 1) := by gcongr
      _ = 2 ^ num.log2 := div_mul_cancel₀ _ (by positivity)
      _ ≤ num := n1
  · rw [div_lt_iff₀ hd', show (num.log2 : Int) - den.log2 + 1 = (num.log2 + 1 : Nat) - den.log2 by
      push_cast; ring, zpow_sub₀ (by norm_num), zpow_natCast, zpow_natCast]
    calc (num : ℚ) < 2 ^ (num.log2 + 1) := n2
      _ = 2 ^ (num.log2 + 1) / 2 ^ den.log2 * 2 ^ den.log2 :=
        (div_mul_cancel₀ _ (by positivity)).symm
      _ ≤ 2 ^ (num.log2 + 1) / 2 ^ den.log2 * den := by gcongr

theorem floorLog2_eq {num den : Nat} (hn : 0 < num) (hd : 0 < den) :
    floorLog2 num den = Int.log 2 ((num : ℚ) / den) := by
  set k : Int := (num.log2 : Int) - den.log2 with hk
  obtain ⟨h1, h2⟩ := ratio_log2_bounds hn hd
  rw [← hk] at h1 h2
  have hpos : (0 : ℚ) < num / den := by positivity
  have hlo : k - 1 ≤ Int.log 2 ((num : ℚ) / den) :=
    (Int.zpow_le_iff_le_log (by norm_num) hpos).1 (by exact_mod_cast h1.le)
  have hhi : Int.log 2 ((num : ℚ) / den) < k + 1 :=
    (Int.lt_zpow_iff_log_lt (by norm_num) hpos).1 (by exact_mod_cast h2)
  have hden : (0 : ℚ) < (scaleRatio num den (-k)).2 := by
    exact_mod_cast scaleRatio_den_pos (-k) hd
  -- The scaled quotient tells which of the two powers the logarithms leave open it is.
  have hlt : (scaleRatio num den (-k)).1 < (scaleRatio num den (-k)).2
      ↔ Int.log 2 ((num : ℚ) / den) < k := by
    rw [← Int.lt_zpow_iff_log_lt (by norm_num) hpos, ← Nat.cast_lt (α := ℚ), ← div_lt_one hden,
      scaleRatio_ratio, zpow_neg, ← div_eq_mul_inv, div_lt_one (by positivity)]
    norm_cast
  have hunfold : floorLog2 num den
      = if (scaleRatio num den (-k)).1 < (scaleRatio num den (-k)).2 then k - 1 else k := rfl
  rw [hunfold]
  split
  · rename_i h
    have := hlt.1 h
    omega
  · rename_i h
    have := mt hlt.2 h
    omega

namespace FloatFormat

/-- The parts `m` and `e` of a finite magnitude: the leading bit is set unless the exponent is the
least. -/
def Normal (f : FloatFormat) (m : Nat) (e : Int) : Prop :=
  m < 2 * f.fractionUnit ∧ f.minExponent ≤ e ∧ (f.fractionUnit ≤ m ∨ e = f.minExponent)

/-- The magnitude with parts `m` and `e`. -/
def magnitudeOf (f : FloatFormat) (m : Nat) (e : Int) : Nat :=
  (e - f.minExponent).toNat * f.fractionUnit + m

theorem log_of_normal {f : FloatFormat} {m : Nat} {e : Int} (h : f.Normal m e) (hm : 0 < m) :
    max (Int.log 2 ((m : ℚ) * 2 ^ e) - f.fractionBits) f.minExponent = e := by
  obtain ⟨hlt, hmin, hlead⟩ := h
  have hlog : Int.log 2 ((m : ℚ) * 2 ^ e) = Nat.log 2 m + e := by
    have hpos : (0 : ℚ) < m * 2 ^ e := by positivity
    apply le_antisymm
    · have h1 : (m : ℚ) < 2 ^ (Nat.log 2 m + 1) := by
        exact_mod_cast Nat.lt_pow_succ_log_self (by norm_num) m
      refine Int.lt_add_one_iff.1 ((Int.lt_zpow_iff_log_lt (by norm_num) hpos).1 ?_)
      rw [show (Nat.log 2 m : Int) + e + 1 = (Nat.log 2 m + 1 : Nat) + e by push_cast; ring,
        zpow_add₀ (by norm_num), zpow_natCast]
      push_cast
      gcongr
    · refine (Int.zpow_le_iff_le_log (by norm_num) hpos).1 ?_
      have h1 : (2 : ℚ) ^ Nat.log 2 m ≤ m := by exact_mod_cast Nat.pow_log_le_self 2 hm.ne'
      rw [zpow_add₀ (by norm_num), zpow_natCast]
      push_cast
      gcongr
  have hup : Nat.log 2 m < f.fractionBits + 1 := by
    refine Nat.log_lt_of_lt_pow hm.ne' ?_
    rw [pow_succ, mul_comm]
    exact hlt
  rw [hlog]
  rcases hlead with hlead | rfl
  · have : f.fractionBits ≤ Nat.log 2 m := Nat.le_log_of_pow_le (by norm_num) hlead
    omega
  · omega

/-- A quotient that the format holds is rounded to the word that holds it. -/
theorem ofRatio_of_normal {f : FloatFormat} {m : Nat} {e : Int} (h : f.Normal m e)
    {num den : Nat} (hd : 0 < den) (hv : (num : ℚ) / den = m * 2 ^ e) :
    f.ofRatio num den = min (f.magnitudeOf m e) f.infinityWord := by
  have hd' : (0 : ℚ) < den := by exact_mod_cast hd
  rcases Nat.eq_zero_or_pos m with rfl | hm
  · have hnum : num = 0 := by simpa [hd.ne'] using hv
    have hu : 0 < f.fractionUnit := Nat.pow_pos (by norm_num)
    have he : e = f.minExponent := by
      rcases h.2.2 with h | h
      · omega
      · exact h
    simp [ofRatio, hnum, magnitudeOf, he]
  · have hnum : 0 < num := by
      rcases Nat.eq_zero_or_pos num with rfl | h0
      · have : (0 : ℚ) < m * 2 ^ e := by positivity
        rw [← hv] at this
        simp at this
      · exact h0
    have he : max (floorLog2 num den - f.fractionBits) f.minExponent = e := by
      rw [floorLog2_eq hnum hd, hv, log_of_normal h hm]
    have hpos : 0 < (scaleRatio num den (-e)).2 := scaleRatio_den_pos (-e) hd
    have hq : (scaleRatio num den (-e)).1 = m * (scaleRatio num den (-e)).2 := by
      have hr := scaleRatio_ratio num den (-e)
      rw [hv, mul_assoc, ← zpow_add₀ (by norm_num : (2 : ℚ) ≠ 0), add_neg_cancel, zpow_zero,
        mul_one, div_eq_iff (by exact_mod_cast hpos.ne')] at hr
      exact_mod_cast hr
    simp only [ofRatio, if_neg hnum.ne', he, hq, roundDiv_mul hpos, magnitudeOf]

theorem ofScaled_of_normal {f : FloatFormat} {m : Nat} {e : Int} (h : f.Normal m e) {n : Nat}
    {g : Int} (hv : (n : ℚ) * 2 ^ g = m * 2 ^ e) :
    f.ofScaled n g = min (f.magnitudeOf m e) f.infinityWord := by
  have hr : ((scaleRatio n 1 g).1 : ℚ) / (scaleRatio n 1 g).2 = m * 2 ^ e := by
    rw [scaleRatio_ratio, ← hv]
    simp
  exact ofRatio_of_normal h (scaleRatio_den_pos g Nat.one_pos) hr

/-! ## Words of a sign and a magnitude -/

section Words

variable {f : FloatFormat} {k w : Nat}

theorem fractionUnit_pos : 0 < f.fractionUnit := Nat.pow_pos (by norm_num)

theorem signWord_eq : f.signWord = Nat.pow 2 f.exponentBits * f.fractionUnit :=
  Nat.pow_add 2 f.exponentBits f.fractionBits

theorem infinityWord_add_fractionUnit : f.infinityWord + f.fractionUnit = f.signWord := by
  have hpos : 0 < Nat.pow 2 f.exponentBits := Nat.pow_pos (by norm_num)
  rw [signWord_eq, infinityWord, exponentLimit, ← Nat.succ_mul, Nat.succ_eq_add_one,
    Nat.sub_add_cancel hpos]

theorem infinityWord_le_signWord : f.infinityWord ≤ f.signWord := by
  rw [← infinityWord_add_fractionUnit]
  exact Nat.le_add_right _ _

theorem signed_lt (h : k < f.signWord) (negative : Bool) :
    f.signed negative k < 2 * f.signWord := by
  unfold signed signOf
  split <;> omega

/-- Every word has a sign and a magnitude. -/
theorem exists_eq_signed (h : w < 2 * f.signWord) :
    ∃ negative k, k < f.signWord ∧ w = f.signed negative k := by
  rcases Nat.lt_or_ge w f.signWord with hlt | hge
  · exact ⟨false, w, hlt, by simp [signed, signOf]⟩
  · refine ⟨true, w - f.signWord, by omega, ?_⟩
    simp only [signed, signOf, if_true]
    omega

theorem signed_mod_signWord (h : k < f.signWord) (negative : Bool) :
    f.signed negative k % f.signWord = k := by
  unfold signed signOf
  split
  · rw [Nat.add_mod_left, Nat.mod_eq_of_lt h]
  · rw [Nat.zero_add, Nat.mod_eq_of_lt h]

theorem negative_signed (h : k < f.signWord) (negative : Bool) :
    f.negative (f.signed negative k) = negative := by
  unfold FloatFormat.negative signed signOf
  cases negative with
  | false => simp [Nat.div_eq_of_lt h]
  | true => simp [Nat.add_div_left k (Nat.zero_lt_of_lt h), Nat.div_eq_of_lt h]

theorem exponentField_signed (h : k < f.signWord) (negative : Bool) :
    f.exponentField (f.signed negative k) = k / f.fractionUnit := by
  have hlt : k / f.fractionUnit < Nat.pow 2 f.exponentBits :=
    Nat.div_lt_of_lt_mul (by rwa [Nat.mul_comm, ← signWord_eq])
  unfold exponentField signed signOf
  split
  · rw [signWord_eq, Nat.add_comm, Nat.add_mul_div_right _ _ fractionUnit_pos, Nat.add_mod_right,
      Nat.mod_eq_of_lt hlt]
  · rw [Nat.zero_add, Nat.mod_eq_of_lt hlt]

theorem fractionField_signed (negative : Bool) :
    f.fractionField (f.signed negative k) = k % f.fractionUnit := by
  unfold fractionField signed signOf
  split
  · rw [signWord_eq, Nat.mul_add_mod']
  · rw [Nat.zero_add]

theorem decode_signed (h : k < f.signWord) (negative : Bool) : f.decode (f.signed negative k)
    = if k / f.fractionUnit = f.exponentLimit then
        if k % f.fractionUnit = 0 then .infinite negative else .nan negative (k % f.fractionUnit)
      else if k / f.fractionUnit = 0 then .finite negative (k % f.fractionUnit) f.minExponent
      else .finite negative (f.fractionUnit + k % f.fractionUnit)
        (f.minExponent + (k / f.fractionUnit - 1 : Nat)) := by
  simp only [decode, exponentField_signed h, fractionField_signed, negative_signed h]

/-- A finite word has the parts that it is put together from. -/
theorem decode_of_normal {m : Nat} {e : Int} (h : f.Normal m e)
    (hlt : f.magnitudeOf m e < f.infinityWord) (negative : Bool) :
    f.decode (f.signed negative (f.magnitudeOf m e)) = .finite negative m e := by
  obtain ⟨hm, hmin, hlead⟩ := h
  rw [decode_signed (hlt.trans_le infinityWord_le_signWord)]
  rw [if_neg (Nat.div_lt_of_lt_mul (by rwa [Nat.mul_comm])).ne]
  rcases Nat.lt_or_ge m f.fractionUnit with hlow | hhigh
  · obtain rfl : e = f.minExponent := hlead.resolve_left hlow.not_ge
    simp [magnitudeOf, Nat.div_eq_of_lt hlow, Nat.mod_eq_of_lt hlow]
  · obtain ⟨j, rfl⟩ : ∃ j : Nat, e = f.minExponent + j :=
      ⟨(e - f.minExponent).toNat, by omega⟩
    obtain ⟨r, rfl⟩ := Nat.exists_eq_add_of_le hhigh
    have hr : r < f.fractionUnit := by omega
    have hk : f.magnitudeOf (f.fractionUnit + r) (f.minExponent + j)
        = r + (j + 1) * f.fractionUnit := by
      rw [magnitudeOf, add_sub_cancel_left, Int.toNat_natCast, Nat.succ_mul]
      omega
    rw [hk, Nat.add_mul_div_right _ _ fractionUnit_pos, Nat.add_mul_mod_self_right,
      Nat.div_eq_of_lt hr, Nat.mod_eq_of_lt hr, Nat.zero_add, if_neg (Nat.succ_ne_zero j),
      Nat.add_sub_cancel]

/-- A finite word is put together from its parts. -/
theorem eq_signed_of_decode (hw : w < 2 * f.signWord) {negative : Bool} {m : Nat} {e : Int}
    (h : f.decode w = .finite negative m e) :
    f.Normal m e ∧ f.magnitudeOf m e < f.infinityWord
      ∧ w = f.signed negative (f.magnitudeOf m e) := by
  obtain ⟨sign, k, hk, rfl⟩ := exists_eq_signed hw
  have hfraction : k % f.fractionUnit < f.fractionUnit := Nat.mod_lt _ fractionUnit_pos
  have hparts : k / f.fractionUnit * f.fractionUnit + k % f.fractionUnit = k :=
    Nat.div_add_mod' k f.fractionUnit
  rw [decode_signed hk] at h
  split at h
  · split at h <;> cases h
  rename_i hlimit
  have hfinite : k < f.infinityWord := by
    refine (Nat.div_lt_iff_lt_mul fractionUnit_pos).1 (lt_of_le_of_ne ?_ hlimit)
    rw [signWord_eq, ← Nat.div_lt_iff_lt_mul fractionUnit_pos] at hk
    exact Nat.le_sub_one_of_lt hk
  split at h
  · rename_i hzero
    cases h
    rw [hzero, Nat.zero_mul, Nat.zero_add] at hparts
    have hmagnitude : f.magnitudeOf (k % f.fractionUnit) f.minExponent = k := by
      simp [magnitudeOf, hparts]
    rw [hmagnitude]
    exact ⟨⟨by omega, le_rfl, .inr rfl⟩, hfinite, rfl⟩
  · rename_i hzero
    cases h
    obtain ⟨j, hj⟩ := Nat.exists_eq_succ_of_ne_zero hzero
    rw [hj, Nat.succ_mul] at hparts
    have hmagnitude : f.magnitudeOf (f.fractionUnit + k % f.fractionUnit)
        (f.minExponent + (k / f.fractionUnit - 1 : Nat)) = k := by
      rw [magnitudeOf, add_sub_cancel_left, Int.toNat_natCast, hj, Nat.succ_sub_one]
      omega
    rw [hmagnitude]
    exact ⟨⟨by omega, by omega, .inl (Nat.le_add_right _ _)⟩, hfinite, rfl⟩

theorem infinityWord_add_lt (h : k < f.fractionUnit) : f.infinityWord + k < f.signWord := by
  rw [← infinityWord_add_fractionUnit]
  exact Nat.add_lt_add_left h _

theorem decode_top (negative : Bool) {payload : Nat} (h : payload < f.fractionUnit) :
    f.decode (f.signed negative (f.infinityWord + payload))
      = if payload = 0 then .infinite negative else .nan negative payload := by
  rw [decode_signed (infinityWord_add_lt h), infinityWord, Nat.add_comm,
    Nat.add_mul_div_right _ _ fractionUnit_pos, Nat.add_mul_mod_self_right, Nat.div_eq_of_lt h,
    Nat.mod_eq_of_lt h, Nat.zero_add, if_pos rfl]

/-- A word that is not finite is put together from its sign and payload. -/
theorem exists_eq_top (hw : w < 2 * f.signWord)
    (h : ∀ negative m e, f.decode w ≠ .finite negative m e) :
    ∃ negative payload, payload < f.fractionUnit
      ∧ w = f.signed negative (f.infinityWord + payload) := by
  obtain ⟨negative, k, hk, rfl⟩ := exists_eq_signed hw
  have hlimit : k / f.fractionUnit = f.exponentLimit := by
    by_contra hne
    rw [decode_signed hk, if_neg hne] at h
    split at h
    · exact h _ _ _ rfl
    · exact h _ _ _ rfl
  refine ⟨negative, k % f.fractionUnit, Nat.mod_lt _ fractionUnit_pos, ?_⟩
  rw [infinityWord, ← hlimit, Nat.div_add_mod']

end Words

/-- A double holds every finite single. -/
theorem exists_normal_double {m : Nat} {e : Int} (h : single.Normal m e)
    (hlt : single.magnitudeOf m e < single.infinityWord) :
    ∃ n g, double.Normal n g ∧ double.magnitudeOf n g < double.infinityWord
      ∧ (m : ℚ) * 2 ^ e = n * 2 ^ g := by
  obtain ⟨h1, h2, h3⟩ := h
  have hu : single.fractionUnit = 8388608 := rfl
  have hm : single.minExponent = -149 := rfl
  have hi : single.infinityWord = 2139095040 := rfl
  have hu' : double.fractionUnit = 4503599627370496 := rfl
  have hm' : double.minExponent = -1074 := rfl
  have hi' : double.infinityWord = 9218868437227405312 := rfl
  rw [hu] at h1
  rw [hm] at h2
  simp only [magnitudeOf, hu, hm, hi] at hlt
  simp only [Normal, magnitudeOf, hu', hm', hi']
  rcases Nat.eq_zero_or_pos m with rfl | hpos
  · exact ⟨0, -1074, by omega, by norm_num, by simp⟩
  -- The mantissa is shifted up to the double's leading bit.
  have hlog : m.log2 < 24 := (Nat.log2_lt hpos.ne').2 (by omega)
  obtain ⟨s, hs⟩ : ∃ s, s + m.log2 = 52 := ⟨52 - m.log2, by omega⟩
  have hlo : 4503599627370496 ≤ m * 2 ^ s := by
    calc 4503599627370496 = 2 ^ m.log2 * 2 ^ s := by
          rw [← pow_add, Nat.add_comm, hs]
          norm_num
      _ ≤ m * 2 ^ s := Nat.mul_le_mul_right _ (Nat.log2_self_le hpos.ne')
  have hhi : m * 2 ^ s < 9007199254740992 := by
    calc m * 2 ^ s < 2 ^ (m.log2 + 1) * 2 ^ s :=
          Nat.mul_lt_mul_of_pos_right Nat.lt_log2_self (by positivity)
      _ = 9007199254740992 := by
        rw [← pow_add, show m.log2 + 1 + s = 53 by omega]
        norm_num
  have hexp : (e - s - -1074).toNat ≤ 1180 := by omega
  have hmag : (e - s - -1074).toNat * 4503599627370496 ≤ 1180 * 4503599627370496 :=
    Nat.mul_le_mul_right _ hexp
  refine ⟨m * 2 ^ s, e - s, ⟨hhi, by omega, .inl hlo⟩, by linarith, ?_⟩
  rw [zpow_sub₀ (by norm_num), zpow_natCast]
  push_cast
  field_simp

/-- The double of a NaN is a quiet NaN whose payload leads with the single's. -/
theorem double_quietNaN (negative : Bool) {payload : Nat} (h : payload < 8388608) :
    double.quietNaN negative payload single.fractionBits
      = double.signed negative (double.infinityWord
          + (payload % 4194304 + 4194304) * 536870912) := by
  have hp : payload * double.fractionUnit / Nat.pow 2 single.fractionBits
      = payload * 536870912 := by
    rw [show double.fractionUnit = 4503599627370496 from rfl,
      show Nat.pow 2 single.fractionBits = 8388608 from rfl]
    omega
  simp only [quietNaN, hp, show Nat.pow 2 (double.fractionBits - 1) = 2251799813685248 from rfl]
  congr 2
  split <;> omega

/-- The single of a NaN is a quiet NaN that keeps the leading half of the payload's bits. -/
theorem single_quietNaN (negative : Bool) {payload : Nat} (h : payload < 4503599627370496) :
    single.quietNaN negative payload double.fractionBits
      = single.signed negative (single.infinityWord
          + (payload / 536870912 % 4194304 + 4194304)) := by
  have hp : payload * single.fractionUnit / Nat.pow 2 double.fractionBits
      = payload / 536870912 := by
    rw [show single.fractionUnit = 8388608 from rfl,
      show Nat.pow 2 double.fractionBits = 4503599627370496 from rfl]
    omega
  simp only [quietNaN, hp, show Nat.pow 2 (single.fractionBits - 1) = 4194304 from rfl]
  congr 2
  split <;> omega

end FloatFormat

open FloatFormat

theorem Binary64.word_ofWord {w : Nat} (h : w < 2 ^ 64) : (Binary64.ofWord w).word = w := by
  simp only [ofWord, word, UInt64.toNat_ofNat']
  exact Nat.mod_eq_of_lt h

theorem Binary64.word_ofWord_signed {k : Nat} (h : k < double.signWord) (negative : Bool) :
    (Binary64.ofWord (double.signed negative k)).word = double.signed negative k :=
  word_ofWord (signed_lt h negative)

theorem Binary32.word_ofWord {w : Nat} (h : w < 2 ^ 32) : (Binary32.ofWord w).word = w := by
  simp only [ofWord, word, UInt32.toNat_ofNat']
  exact Nat.mod_eq_of_lt h

theorem Binary32.word_ofWord_signed {k : Nat} (h : k < single.signWord) (negative : Bool) :
    (Binary32.ofWord (single.signed negative k)).word = single.signed negative k :=
  word_ofWord (signed_lt h negative)

namespace Binary32

/-- The double of a single that is not finite has the same sign, and the payload made quiet. -/
theorem widen_top (negative : Bool) {payload : Nat} (h : payload < 8388608) :
    (Binary32.ofWord (single.signed negative (single.infinityWord + payload))).widen
      = Binary64.ofWord (double.signed negative (double.infinityWord
          + if payload = 0 then 0 else (payload % 4194304 + 4194304) * 536870912)) := by
  rw [widen, word_ofWord_signed (infinityWord_add_lt h), convert, decode_top negative h]
  by_cases h0 : payload = 0
  · simp [h0]
  · simp only [if_neg h0, double_quietNaN negative h]

/-- The single of a double that is not finite has the same sign, and the payload's leading bits
made quiet. -/
theorem narrow_top (negative : Bool) {payload : Nat} (h : payload < 4503599627370496) :
    (Binary64.ofWord (double.signed negative (double.infinityWord + payload))).narrow
      = Binary32.ofWord (single.signed negative (single.infinityWord
          + if payload = 0 then 0 else payload / 536870912 % 4194304 + 4194304)) := by
  rw [Binary64.narrow, Binary64.word_ofWord_signed (infinityWord_add_lt h), convert,
    decode_top negative h]
  by_cases h0 : payload = 0
  · simp [h0]
  · simp only [if_neg h0, single_quietNaN negative h]

theorem ofWord_word (y : Binary32) : Binary32.ofWord y.word = y := by
  simp [ofWord, word]

theorem word_lt (y : Binary32) : y.word < 2 * single.signWord := y.bits.toNat_lt

/-- A finite single is the single of its double. -/
theorem narrow_widen {y : Binary32} {negative : Bool} {m : Nat} {e : Int}
    (h : single.decode y.word = .finite negative m e) : y.widen.narrow = y := by
  obtain ⟨hn, hlt, hw⟩ := eq_signed_of_decode y.word_lt h
  obtain ⟨n, g, hN, hLt, hv⟩ := exists_normal_double hn hlt
  have hwide : double.convert single y.word = double.signed negative (double.magnitudeOf n g) := by
    simp only [convert, h]
    rw [ofScaled_of_normal hN hv, min_eq_left hLt.le]
  rw [Binary64.narrow, widen, hwide,
    Binary64.word_ofWord_signed (hLt.trans_le infinityWord_le_signWord), convert,
    decode_of_normal hN hLt]
  simp only []
  rw [ofScaled_of_normal hn hv.symm, min_eq_left hlt.le, ← hw, ofWord_word]

/-- The double of a single is the double of the single it is rounded to. -/
theorem widen_narrow_widen (y : Binary32) : y.widen.narrow.widen = y.widen := by
  by_cases hf : ∃ negative m e, single.decode y.word = .finite negative m e
  · obtain ⟨negative, m, e, h⟩ := hf
    rw [narrow_widen h]
  · push Not at hf
    obtain ⟨negative, payload, (hp : payload < 8388608), hw⟩ := exists_eq_top y.word_lt hf
    rw [← ofWord_word y, hw, widen_top negative hp]
    by_cases h0 : payload = 0
    · subst h0
      rw [if_pos rfl, narrow_top negative (by norm_num), if_pos rfl, widen_top negative hp,
        if_pos rfl]
    · set q := payload % 4194304 + 4194304 with hq
      have hkeep : (q * 536870912 / 536870912 % 4194304 + 4194304) % 4194304 + 4194304 = q := by
        omega
      rw [if_neg h0, narrow_top negative (by omega), if_neg (by omega),
        widen_top negative (by omega), if_neg (by omega), hkeep]

end Binary32

namespace Binary64

theorem isNaN_top (negative : Bool) {payload : Nat} (h : payload < 4503599627370496)
    (h0 : 0 < payload) :
    (Binary64.ofWord (double.signed negative (double.infinityWord + payload))).isNaN := by
  have hlt : double.infinityWord + payload < double.signWord := infinityWord_add_lt h
  rw [isNaN, magnitude, word_ofWord_signed hlt, signed_mod_signWord hlt, decide_eq_true_eq]
  exact Nat.lt_add_of_pos_right h0

/-- A NaN is put together from its sign and payload. -/
theorem eq_top_of_isNaN {x : Binary64} (h : x.isNaN) : ∃ negative payload,
    payload < 4503599627370496 ∧ 0 < payload
      ∧ x = Binary64.ofWord (double.signed negative (double.infinityWord + payload)) := by
  have hx : x.word < 2 * double.signWord := x.bits.toNat_lt
  obtain ⟨negative, k, hk, hword⟩ := exists_eq_signed hx
  rw [isNaN, magnitude, hword, signed_mod_signWord hk, decide_eq_true_eq] at h
  obtain ⟨payload, rfl⟩ := Nat.exists_eq_add_of_lt h
  rw [← infinityWord_add_fractionUnit, Nat.add_assoc, Nat.add_lt_add_iff_left] at hk
  refine ⟨negative, payload + 1, hk, Nat.succ_pos payload, ?_⟩
  rw [← Nat.add_assoc, ← hword]
  simp [ofWord, word]

/-- The single of a NaN is a NaN. -/
theorem isNaN_narrow {x : Binary64} (h : x.isNaN) : x.narrow.widen.isNaN := by
  obtain ⟨negative, payload, hp, h0, rfl⟩ := eq_top_of_isNaN h
  rw [Binary32.narrow_top negative hp, if_neg (by omega), Binary32.widen_top negative (by omega),
    if_neg (by omega)]
  exact isNaN_top negative (by omega) (by omega)

end Binary64

end SimpleBinary
