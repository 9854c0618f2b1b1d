import Mathlib
import SimpleBinary.Word

/-!
# Words and their bytes

The bytes of a word in either order give back its low part (`word_bytes`), and bytes give back
themselves (`bytes_word`): within `256 ^ width` the two are inverse.  A word read in two's
complement comes from the integer it stands for (`wordOfInt_signedWord`), and an integer that fits
the width comes back (`signedWord_wordOfInt`).
-/

namespace SimpleBinary

theorem ofLowBytes_lowBytes : ∀ width n : Nat, ofLowBytes (lowBytes width n) = n % 256 ^ width
  | 0, n => by simp [lowBytes, ofLowBytes, Nat.mod_one]
  | width + 1, n => by
    have hb : (UInt8.ofNat (n % 256)).toNat = n % 256 := by simp
    rw [lowBytes, ofLowBytes, ofLowBytes_lowBytes width, hb, pow_succ', ← Nat.mod_mul]

theorem ofLowBytes_lt : ∀ bs : Bytes, ofLowBytes bs < 256 ^ bs.length
  | [] => by simp [ofLowBytes]
  | b :: bs => by
    have ih := ofLowBytes_lt bs
    have hb := b.toNat_lt
    rw [ofLowBytes, List.length_cons, pow_succ]
    omega

theorem lowBytes_ofLowBytes : ∀ bs : Bytes, lowBytes bs.length (ofLowBytes bs) = bs
  | [] => rfl
  | b :: bs => by
    have hb : b.toNat < 256 := b.toNat_lt
    rw [List.length_cons, lowBytes, ofLowBytes, Nat.add_mul_mod_self_left, Nat.mod_eq_of_lt hb,
      Nat.add_mul_div_left _ _ (by omega), Nat.div_eq_of_lt hb, Nat.zero_add,
      lowBytes_ofLowBytes bs]
    simp

namespace ByteOrder

theorem word_bytes (order : ByteOrder) (width n : Nat) :
    order.word (order.bytes width n) = n % 256 ^ width := by
  cases order <;> simp [word, bytes, ofLowBytes_lowBytes]

theorem word_bytes_of_lt (order : ByteOrder) {width n : Nat} (h : n < 256 ^ width) :
    order.word (order.bytes width n) = n := by
  rw [word_bytes, Nat.mod_eq_of_lt h]

theorem word_lt (order : ByteOrder) (bs : Bytes) : order.word bs < 256 ^ bs.length := by
  cases order with
  | littleEndian => exact ofLowBytes_lt bs
  | bigEndian => simpa [word] using ofLowBytes_lt bs.reverse

theorem word_lt_of_length (order : ByteOrder) {bs : Bytes} {n : Nat} (h : bs.length ≤ n) :
    order.word bs < 256 ^ n :=
  lt_of_lt_of_le (order.word_lt bs) (Nat.pow_le_pow_right (by norm_num) h)

theorem bytes_word (order : ByteOrder) (bs : Bytes) :
    order.bytes bs.length (order.word bs) = bs := by
  cases order with
  | littleEndian => exact lowBytes_ofLowBytes bs
  | bigEndian =>
    have h := lowBytes_ofLowBytes bs.reverse
    rw [List.length_reverse] at h
    simp [word, bytes, h]

end ByteOrder

theorem wordOfInt_lt (width : Nat) (n : Int) : wordOfInt width n < 256 ^ width := by
  have hpos : (0 : Int) < (256 ^ width : Nat) := by positivity
  have h1 := Int.emod_nonneg n hpos.ne'
  have h2 := Int.emod_lt_of_pos n hpos
  simp only [wordOfInt, Nat.pow_eq]
  omega

theorem signedWord_bounds (width n : Nat) : -(256 ^ width : Nat) ≤ 2 * signedWord width n
    ∧ 2 * signedWord width n < (256 ^ width : Nat) := by
  have hpos : 0 < 256 ^ width := by positivity
  have h1 := Int.le_bmod (x := (n : Int)) hpos
  have h2 := Int.bmod_lt (x := (n : Int)) hpos
  simp only [signedWord, Nat.pow_eq]
  omega

/-- An integer of the width's range is read back from its word. -/
theorem signedWord_wordOfInt {width : Nat} {n : Int} (hlo : -(256 ^ width : Nat) ≤ 2 * n)
    (hhi : 2 * n < (256 ^ width : Nat)) : signedWord width (wordOfInt width n) = n := by
  have hpos : (0 : Int) < (256 ^ width : Nat) := by positivity
  have h1 := Int.emod_nonneg n hpos.ne'
  simp only [signedWord, wordOfInt, Nat.pow_eq, Int.toNat_of_nonneg h1, Int.emod_bmod]
  exact Int.bmod_eq_of_le_mul_two (by omega) (by omega)

theorem wordOfInt_signedWord {width n : Nat} (h : n < 256 ^ width) :
    wordOfInt width (signedWord width n) = n := by
  have hn : ((n : Int) % (256 ^ width : Nat)) = n :=
    Int.emod_eq_of_lt (Int.natCast_nonneg n) (by exact_mod_cast h)
  simp only [signedWord, wordOfInt, Nat.pow_eq, Int.bmod_emod, hn, Int.toNat_natCast]

end SimpleBinary
