import Mathlib
import SimpleBinary.Buffer.Cursor
import SimpleBinary.Buffer.InPlace
import SimpleBinary.Proofs.Leaves

/-!
# Elements in their slots

A buffer that is kept gets the bytes that an image gets (`putInPlace_eq`, `pushInPlace_eq`): the low
bytes of an element's 64 bits are the bytes of its word, and put in one by one from the last they
are the word with its greatest byte first (`fillSlot_eq`).  So an element fits just if its slot lies
in the buffer and its value in the type's range; it changes its slot and nothing else, and is read
back there; what does not fit leaves no trace (`putInPlace_framed`).  Appended, a number leaves the
bytes that it has as a number of its own type (`pushInPlace_literal`).
-/

namespace SimpleBinary

/-! ## Low bytes -/

theorem lowBytes_mod (width n : Nat) : lowBytes width (n % 256 ^ width) = lowBytes width n := by
  have h := lowBytes_ofLowBytes (lowBytes width n)
  rwa [length_lowBytes, ofLowBytes_lowBytes] at h

theorem take_lowBytes : ∀ {k width : Nat}, k ≤ width → ∀ n, (lowBytes width n).take k = lowBytes k n
  | 0, _, _, _ => rfl
  | k + 1, width + 1, h, n => by
    rw [lowBytes, lowBytes, List.take_succ_cons, take_lowBytes (Nat.le_of_succ_le_succ h)]

theorem ByteOrder.bytes_mod (order : ByteOrder) (width n : Nat) :
    order.bytes width (n % 256 ^ width) = order.bytes width n := by
  cases order <;> simp only [bytes, lowBytes_mod]

/-! ## Filling a slot -/

/-- The next byte of a slot. -/
theorem set_overwrite {pos : Nat} {bs buffer : Bytes} (h : pos + bs.length < buffer.length)
    (b : UInt8) :
    (overwrite pos bs buffer).set (pos + bs.length) b = overwrite pos (bs ++ [b]) buffer := by
  have hlength : (buffer.take pos ++ bs).length = pos + bs.length := by
    rw [List.length_append, List.length_take_of_le (by omega)]
  rw [overwrite, List.set_append_right _ _ hlength.le, hlength, Nat.sub_self,
    List.drop_eq_getElem_cons h, List.set_cons_zero, overwrite, List.length_append,
    List.length_singleton]
  simp only [List.append_assoc, List.singleton_append, Nat.add_assoc]

/-- Bytes put into a slot one by one are put into it. -/
theorem foldl_set_eq_overwrite {pos : Nat} {buffer : Bytes} (f : Nat → UInt8) : ∀ {size : Nat},
    pos + size ≤ buffer.length →
      (List.range size).foldl (fun buffer i => buffer.set (pos + i) (f i)) buffer
        = overwrite pos ((List.range size).map f) buffer
  | 0, _ => by simp [overwrite]
  | size + 1, h => by
    have hlength : ((List.range size).map f).length = size := by
      rw [List.length_map, List.length_range]
    have hnext := set_overwrite (show pos + ((List.range size).map f).length < buffer.length by
      omega) (f size)
    rw [hlength] at hnext
    rw [List.range_succ, List.foldl_append, foldl_set_eq_overwrite f (by omega), List.map_append]
    exact hnext

theorem map_getD_reverse {bs : Bytes} {size : Nat} (h : bs.length = size) :
    (List.range size).map (fun i => bs.getD (size - 1 - i) 0) = bs.reverse := by
  subst h
  refine List.ext_getElem (by simp) fun i hi _ => ?_
  simp only [List.length_map, List.length_range] at hi
  rw [List.getElem_map, List.getElem_range, List.getElem_reverse, List.getD_eq_getElem _ _ (by omega)]

theorem fillSlot_eq (order : ByteOrder) {size pos : Nat} (bits : UInt64) {buffer : Bytes}
    (hsize : size ≤ 8) (h : pos + size ≤ buffer.length) :
    fillSlot order size pos bits buffer = overwrite pos (order.bytes size bits.toNat) buffer := by
  cases order with
  | littleEndian => rw [fillSlot, take_lowBytes hsize, ByteOrder.bytes]
  | bigEndian =>
    have hlow : ∀ i, i < size → (lowBytes 8 bits.toNat).getD (size - 1 - i) 0
        = (lowBytes size bits.toNat).getD (size - 1 - i) 0 := by
      intro i hi
      rw [← take_lowBytes hsize, List.getD_eq_getElem?_getD, List.getD_eq_getElem?_getD,
        List.getElem?_take_of_lt (by omega)]
    rw [fillSlot, foldl_set_eq_overwrite _ h, ByteOrder.bytes, ← map_getD_reverse (length_lowBytes _ _)]
    congr 1
    exact List.map_congr_left fun i hi => hlow i (List.mem_range.1 hi)

/-! ## The bits of an element -/

namespace Primitive

variable {p : Primitive} {l : Literal}

theorem toNat_toUInt64_ofInt (n : Int) :
    (Int64.ofInt n).toUInt64.toNat = (n % (2 ^ 64 : Nat)).toNat := by
  change (Int64.ofInt n).toBitVec.toNat = _
  rw [Int64.toBitVec_ofInt, BitVec.toNat_ofInt]

/-- The low bytes of an integer's 64 bits are its word. -/
theorem wordOfInt_eq_mod (p : Primitive) (n : Int) :
    wordOfInt p.size n = (Int64.ofInt n).toUInt64.toNat % 256 ^ p.size := by
  have hpos : (0 : Int) ≤ n % (2 ^ 64 : Nat) := Int.emod_nonneg _ (by norm_num)
  have hdvd : ((256 ^ p.size : Nat) : Int) ∣ (2 ^ 64 : Nat) := by
    cases p <;> norm_num [size]
  zify
  rw [toNat_toUInt64_ofInt, wordOfInt, Nat.pow_eq, Int.toNat_of_nonneg hpos,
    Int.toNat_of_nonneg (Int.emod_nonneg _ (by positivity))]
  push_cast at hdvd ⊢
  rw [Int.emod_emod_of_dvd _ hdvd]

/-- The low bytes of an element's 64 bits are its word. -/
theorem word?_eq_bits? (p : Primitive) (l : Literal) :
    p.word? l = (p.bits? l).map fun bits => bits.toNat % 256 ^ p.size := by
  have hsize := p.pow_size_le
  unfold word? bits?
  cases hk : p.kind with
  | char | unsigned =>
    cases l.toNat? with
    | none => rfl
    | some n =>
      have hmax := p.maxUnsigned_eq
      have hpos : 0 < 256 ^ p.size := by positivity
      simp only [Option.bind_eq_bind, Option.bind_some]
      by_cases h : n ≤ p.maxUnsigned
      · rw [Option.filter_some_pos (by simpa using h), if_neg (not_lt.2 h), Option.map_some,
          UInt64.toNat_ofNat_of_lt' (show n < 2 ^ 64 by omega), Nat.mod_eq_of_lt (by omega)]
      · rw [Option.filter_some_neg (by simpa using h), if_pos (not_le.1 h), Option.map_none]
  | signed =>
    cases l.toInt? with
    | none => rfl
    | some n =>
      simp only [Option.bind_eq_bind, Option.bind_some]
      by_cases h : p.minSigned ≤ n ∧ n ≤ p.maxSigned
      · rw [Option.filter_some_pos (by simpa using h), if_neg (by omega), Option.map_some,
          Option.map_some, p.wordOfInt_eq_mod n]
      · rw [Option.filter_some_neg (by simpa using h), if_pos (by omega), Option.map_none,
          Option.map_none]
  | float =>
    cases l.toFloat? with
    | none => rfl
    | some x =>
      obtain rfl | rfl := eq_float_or_double hk
      · have hx := x.narrow.bits.toNat_lt
        simp [size, Binary32.word, Nat.mod_eq_of_lt hx]
      · simp [size, Binary64.word, UInt64.toNat_mod_size]

theorem encode?_eq_bits? (p : Primitive) (order : ByteOrder) (l : Literal) :
    p.encode? order l = (p.bits? l).map fun bits => order.bytes p.size bits.toNat := by
  rw [encode?, word?_eq_bits?, Option.map_map]
  exact Option.map_congr fun bits _ => order.bytes_mod _ _

/-! ## Rounding -/

/-- A double rounded to the width of a float. -/
def rounded (p : Primitive) (x : Binary64) : Binary64 :=
  if p = .float then x.narrow.widen else x

/-- What is read of an element that was written from `l`: the same integer, or the literal's
double rounded to the width. -/
def Returns (p : Primitive) (l l' : Literal) : Prop :=
  if p.IsInteger then ∃ n, l.integer? = some n ∧ l'.integer? = some n
  else ∃ x, l.toFloat? = some x ∧ l' = .float (p.rounded x)

theorem Keeps.returns {l' : Literal} (h : p.Keeps l l') : p.Returns l l' := by
  obtain ⟨w, hw, rfl⟩ := h
  unfold Returns
  split_ifs with hp
  · exact integer?_literalOf hp hw
  · obtain rfl | rfl := eq_float_or_double (not_not.1 hp)
    · obtain ⟨x, hx, rfl⟩ := word?_float.1 hw
      exact ⟨x, hx, by rw [literalOf_float, Binary32.ofWord_word, rounded, if_pos rfl]⟩
    · obtain ⟨x, hx, rfl⟩ := word?_double.1 hw
      exact ⟨x, hx, by rw [literalOf_double, Binary64.ofWord_word, rounded, if_neg (by decide)]⟩

end Primitive

/-! ## Elements in place -/

section InPlace

variable {p : Primitive} {order : ByteOrder} {l : Literal} {buffer : Bytes} {pos : Nat}

/-- Whether there is an image, and the buffer that is kept: the image, or what it was. -/
def keeping (buffer : Bytes) : Option Bytes → Bool × Bytes
  | some after => (true, after)
  | none => (false, buffer)

theorem keeping_eq_true_iff {image : Option Bytes} {after : Bytes} :
    keeping buffer image = (true, after) ↔ image = some after := by
  cases image <;> simp [keeping]

theorem eq_of_keeping_eq_false {image : Option Bytes} {after : Bytes}
    (h : keeping buffer image = (false, after)) : after = buffer := by
  cases image with
  | some image => cases h
  | none =>
    cases h
    rfl

theorem fst_keeping {image : Option Bytes} :
    (keeping buffer image).1 ↔ ∃ after, image = some after := by
  cases image <;> simp [keeping]

/-- An element that is put in place is put into the image. -/
theorem putInPlace_eq :
    putInPlace pos p order l buffer = keeping buffer (putElement? pos p order l buffer) := by
  unfold putInPlace putElement?
  split
  · rfl
  · rename_i h
    rw [Primitive.encode?_eq_bits?]
    cases p.bits? l with
    | none => rfl
    | some bits =>
      simp only [Option.map_some, keeping]
      rw [fillSlot_eq order bits p.size_le (by omega)]

theorem appendElement?_eq :
    appendElement? p order l buffer = (p.encode? order l).map (buffer ++ ·) := by
  have h : putElement? buffer.length p order l (buffer ++ zeros p.size ++ [])
      = (p.encode? order l).map fun bs => buffer ++ bs ++ [] :=
    putElement?_append (length_zeros p.size) []
  rw [appendElement?, padTo_eq, Nat.add_sub_cancel_left]
  simpa only [List.append_nil] using h

/-- An element that is appended in place is appended to the image; a slot that was reserved for
nothing is given up. -/
theorem pushInPlace_eq :
    pushInPlace p order l buffer = keeping buffer (appendElement? p order l buffer) := by
  rw [pushInPlace, putInPlace_eq, ← appendElement?]
  cases appendElement? p order l buffer with
  | some after => rfl
  | none => simp [keeping, padTo_eq]

theorem getElem?_overwrite_of_apart {bs image : Bytes} {i : Nat}
    (h : pos + bs.length ≤ image.length) (hi : i < pos ∨ pos + bs.length ≤ i) :
    (overwrite pos bs image)[i]? = image[i]? := by
  have hapart : ((overwrite pos bs image).drop i).take 1 = (image.drop i).take 1 :=
    take_drop_overwrite_of_apart h (by omega)
  have hat := congrArg (·[0]?) hapart
  rwa [List.getElem?_take_of_lt Nat.one_pos, List.getElem?_take_of_lt Nat.one_pos,
    List.getElem?_drop, List.getElem?_drop, Nat.add_zero] at hat

theorem putElement?_eq_some_iff {after : Bytes} : putElement? pos p order l buffer = some after ↔
    pos + p.size ≤ buffer.length
      ∧ ∃ w, p.word? l = some w ∧ overwrite pos (order.bytes p.size w) buffer = after := by
  unfold putElement? Primitive.encode?
  split
  · simp only [reduceCtorEq, false_iff]
    rintro ⟨h, -⟩
    omega
  · simp only [Option.map_map, Option.map_eq_some_iff, Function.comp_apply]
    exact ⟨fun h => ⟨by omega, h⟩, fun h => h.2⟩

/-- An element fits where its slot lies in the image and its value in the type's range. -/
theorem exists_putElement?_iff : (∃ after, putElement? pos p order l buffer = some after)
    ↔ pos + p.size ≤ buffer.length ∧ p.Takes l := by
  simp only [putElement?_eq_some_iff, ← Primitive.accepts_iff_takes]
  constructor
  · rintro ⟨after, hslot, w, hw, -⟩
    exact ⟨hslot, w, hw⟩
  · rintro ⟨hslot, w, hw⟩
    exact ⟨_, hslot, w, hw, rfl⟩

/-- An element that was put is read where it was put. -/
theorem readLiteral_overwrite {w : Nat} (h : pos + p.size ≤ buffer.length)
    (hw : p.word? l = some w) :
    Cursor.readLiteral ⟨overwrite pos (order.bytes p.size w) buffer, pos⟩ p order
      = .ok (p.literalOf w, ⟨overwrite pos (order.bytes p.size w) buffer, pos + p.size⟩) := by
  have hlength := order.length_bytes p.size w
  have hslot : ((overwrite pos (order.bytes p.size w) buffer).drop pos).take
      (order.bytes p.size w).length = order.bytes p.size w := take_drop_overwrite_self (by omega)
  rw [hlength] at hslot
  simp only [Cursor.readLiteral, Cursor.readNumber, Cursor.readBytes]
  rw [if_neg (by rw [length_overwrite (by omega)]; omega), hslot]
  simp only [Except.map, order.word_bytes_of_lt (Primitive.word?_lt hw)]
  rfl

end InPlace

/-- An element fits just if its slot lies in the buffer and its value in the type's range.  Then its
slot alone is changed and is read back as the value; otherwise the buffer stays as it is, also where
the slot was to be appended. -/
theorem putInPlace_framed (pos : Nat) (p : Primitive) (order : ByteOrder) (l : Literal)
    (buffer : Bytes) :
    ((putInPlace pos p order l buffer).1 ↔ pos + p.size ≤ buffer.length ∧ p.Takes l)
      ∧ (∀ after, putInPlace pos p order l buffer = (true, after) →
        after.length = buffer.length
          ∧ (∀ i, i < pos ∨ pos + p.size ≤ i → after[i]? = buffer[i]?)
          ∧ ∃ l', Cursor.readLiteral ⟨after, pos⟩ p order = .ok (l', ⟨after, pos + p.size⟩)
            ∧ p.Returns l l')
      ∧ (∀ after, putInPlace pos p order l buffer = (false, after) → after = buffer)
      ∧ ∀ after, pushInPlace p order l buffer = (false, after) → after = buffer := by
  rw [putInPlace_eq, pushInPlace_eq]
  refine ⟨fst_keeping.trans exists_putElement?_iff, fun after h => ?_,
    fun after => eq_of_keeping_eq_false, fun after => eq_of_keeping_eq_false⟩
  obtain ⟨hslot, w, hw, rfl⟩ := putElement?_eq_some_iff.1 (keeping_eq_true_iff.1 h)
  have hlength := order.length_bytes p.size w
  refine ⟨length_overwrite (by omega), fun i hi => ?_, _, readLiteral_overwrite hslot hw,
    Primitive.Keeps.returns ⟨w, hw, rfl⟩⟩
  exact getElem?_overwrite_of_apart (by omega) (by omega)

/-- The integer -2 put into the middle of four bytes, the greatest byte first. -/
theorem putInPlace_framed_int16 :
    putInPlace 1 .int16 .bigEndian (.int (-2)) [1, 2, 3, 4] = (true, [1, 255, 254, 4])
      ∧ ∃ l', Cursor.readLiteral ⟨[1, 255, 254, 4], 1⟩ .int16 .bigEndian
          = .ok (l', ⟨[1, 255, 254, 4], 3⟩) ∧ l'.integer? = some (-2) := by
  have hput : putInPlace 1 .int16 .bigEndian (.int (-2)) [1, 2, 3, 4]
      = (true, [1, 255, 254, 4]) := by decide
  obtain ⟨-, hread, -, -⟩ := putInPlace_framed 1 .int16 .bigEndian (.int (-2)) [1, 2, 3, 4]
  obtain ⟨-, -, l', hl', n, hn, hn'⟩ := hread _ hput
  cases hn
  exact ⟨hput, l', hl', hn'⟩

/-! ## Numbers of their own types -/

/-- The word of an integer is the bits that it has in a type of its width. -/
theorem wordOfInt_toInt {bits width : Nat} (v : BitVec bits) (h : 256 ^ width = 2 ^ bits) :
    wordOfInt width v.toInt = v.toNat := by
  have hsigned : v.toInt = signedWord width v.toNat := by
    rw [signedWord, Nat.pow_eq, h, BitVec.toInt_eq_toNat_bmod]
  rw [hsigned, wordOfInt_signedWord]
  rw [h]
  exact v.isLt

namespace Binary32

open FloatFormat

/-- A NaN has all exponent bits and a payload. -/
def isNaN (x : Binary32) : Bool := single.infinityWord < x.word % single.signWord

theorem isNaN_top (negative : Bool) {payload : Nat} (h : payload < 8388608) (h0 : 0 < payload) :
    (Binary32.ofWord (single.signed negative (single.infinityWord + payload))).isNaN := by
  have hlt : single.infinityWord + payload < single.signWord := infinityWord_add_lt h
  rw [isNaN, word_ofWord_signed hlt, signed_mod_signWord hlt, decide_eq_true_eq]
  exact Nat.lt_add_of_pos_right h0

/-- A single is the single of its double, unless both are NaNs. -/
theorem narrow_widen_or_isNaN (y : Binary32) :
    y.widen.narrow = y ∨ y.isNaN ∧ y.widen.narrow.isNaN := by
  by_cases hf : ∃ negative m e, single.decode y.word = .finite negative m e
  · obtain ⟨negative, m, e, h⟩ := hf
    exact .inl (narrow_widen h)
  · push Not at hf
    obtain ⟨negative, payload, (hp : payload < 8388608), hw⟩ := exists_eq_top y.word_lt hf
    rw [← ofWord_word y, hw, widen_top negative hp]
    by_cases h0 : payload = 0
    · subst h0
      left
      rw [if_pos rfl, narrow_top negative (by norm_num), if_pos rfl]
    · refine .inr ⟨isNaN_top negative hp (by omega), ?_⟩
      rw [if_neg h0, narrow_top negative (by omega), if_neg (by omega)]
      exact isNaN_top negative (by omega) (by omega)

end Binary32

namespace Number

def isNaN : Number → Bool
  | .single v => v.isNaN
  | .double v => v.isNaN
  | _ => false

/-- A number's literal is written as its word; a NaN may be written as another NaN. -/
theorem exists_word?_literal (n : Number) : ∃ m : Number, m.primitive = n.primitive
    ∧ n.primitive.word? n.literal = some m.word ∧ (m = n ∨ m.isNaN ∧ n.isNaN) := by
  cases n with
  | uint8 v | uint16 v | uint32 v | uint64 v =>
    refine ⟨_, rfl, (Primitive.word?_natural (.inr rfl)).2 ⟨?_, v.toNat_lt⟩, .inl rfl⟩
    simp [literal, word, Literal.toNat?]
  | int8 v | int16 v | int32 v | int64 v =>
    have hlo := v.le_toInt
    have hhi := v.toInt_lt
    refine ⟨_, rfl, (Primitive.word?_signed rfl).2 ⟨v.toInt, ?_, ?_, ?_, ?_⟩, .inl rfl⟩
    · simp [literal, Literal.toInt?]
    · simp only [Primitive.size, primitive]
      omega
    · simp only [Primitive.size, primitive]
      omega
    · exact (wordOfInt_toInt v.toBitVec (by rfl)).symm
  | single v =>
    refine ⟨.single v.widen.narrow, rfl, Primitive.word?_float.2 ⟨_, rfl, rfl⟩, ?_⟩
    rcases v.narrow_widen_or_isNaN with h | ⟨h, h'⟩
    · rw [h]
      exact .inl rfl
    · exact .inr ⟨h', h⟩
  | double v => exact ⟨.double v, rfl, Primitive.word?_double.2 ⟨_, rfl, rfl⟩, .inl rfl⟩

end Number

/-- A number that is appended as its literal leaves the bytes that it has as a number of its own
type; a NaN leaves those of a NaN. -/
theorem pushInPlace_literal (order : ByteOrder) (n : Number) (buffer : Bytes) :
    ∃ m : Number, m.primitive = n.primitive
      ∧ pushInPlace n.primitive order n.literal buffer = (true, appendNumber order m buffer)
      ∧ (m = n ∨ m.isNaN ∧ n.isNaN) := by
  obtain ⟨m, hm, hword, hsame⟩ := n.exists_word?_literal
  refine ⟨m, hm, ?_, hsame⟩
  rw [pushInPlace_eq, appendElement?_eq, Primitive.encode?, hword, ← hm]
  rfl

end SimpleBinary
