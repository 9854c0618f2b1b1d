import Mathlib
import SimpleBinary.Proofs.Texts

/-!
# Transcoding

The bytes that stand for a text are told without a writer or a reader: in ASCII and Latin-1 its code
points, one byte each, and in UTF-8 the bytes that a string is made of (`Charset.Writes`).  An
encoding is interpreted under its names in any case of letters (`Charset.ofName?_eq_some_iff`), and
then writing and reading both keep to these bytes: a text is written as some bytes just if they are
read as it, and what one of the two refuses the other one does not produce
(`encodeText_eq_ok_iff_decodeText`).
-/

namespace SimpleBinary

/-! ## UTF-8 -/

namespace Utf8

/-- The bytes of a character are those that it has in a string. -/
theorem encodeChar_eq_utf8EncodeChar (c : Char) : encodeChar c = String.utf8EncodeChar c := by
  have hv := Char.isValid c
  have hn : c.val.toNat = c.toNat := rfl
  have h7 : c.toNat ≤ 0x7F ↔ c.toNat < 0x80 := Nat.lt_succ_iff.symm
  have h11 : c.toNat ≤ 0x7FF ↔ c.toNat < 0x800 := Nat.lt_succ_iff.symm
  have h16 : c.toNat ≤ 0xFFFF ↔ c.toNat < 0x10000 := Nat.lt_succ_iff.symm
  simp only [encodeChar, String.utf8EncodeChar, tail, hn, h7, h11, h16]
  -- the payload of a first byte is small enough as it is
  split_ifs with h₁ h₂ h₃
  · rfl
  · rw [Nat.mod_eq_of_lt (a := c.toNat / 64) (by omega)]
    simp only [Nat.add_comm]
  · rw [Nat.mod_eq_of_lt (a := c.toNat / 4096) (by omega)]
    simp only [Nat.add_comm]
  · rw [Nat.mod_eq_of_lt (a := c.toNat / 262144) (by omega)]
    simp only [Nat.add_comm]

theorem toByteArray_utf8 (s : String) : (utf8 s).toByteArray = s.toUTF8 := by
  have hchars : encodeChar = String.utf8EncodeChar := funext encodeChar_eq_utf8EncodeChar
  rw [utf8, encode, hchars, String.toUTF8_eq_toByteArray]
  conv_rhs => rw [← String.ofList_toList (s := s)]
  exact String.toByteArray_ofList.symm

end Utf8

theorem toByteArray_inj {bs bs' : Bytes} : bs.toByteArray = bs'.toByteArray ↔ bs = bs' := by
  refine ⟨fun h => ?_, fun h => h ▸ rfl⟩
  rw [← List.toList_data_toByteArray (l := bs), h, List.toList_data_toByteArray]

namespace Charset

/-! ## The bytes that stand for a text -/

/-- Each character is the byte of its code point, which is below `limit`. -/
def OneByteEach (limit : Nat) (s : String) (bs : Bytes) : Prop :=
  List.Forall₂ (fun c b => c.toNat = b.toNat ∧ b.toNat < limit) s.toList bs

/-- What bytes stand for a text in an encoding. -/
def Writes (c : Charset) (s : String) (bs : Bytes) : Prop :=
  match c with
  | .ascii => OneByteEach 128 s bs
  | .latin1 => OneByteEach 256 s bs
  | .utf8 => s.toUTF8 = bs.toByteArray

theorem encodeBelow_eq_some_iff {limit : Nat} (hl : limit ≤ 256) {s : String} {bs : Bytes} :
    encodeBelow limit s.toList = some bs ↔ OneByteEach limit s bs := by
  have hbyte : ∀ (c : Char) (b : UInt8), c.toNat < limit ∧ UInt8.ofNat c.toNat = b
      ↔ c.toNat = b.toNat ∧ b.toNat < limit := by
    intro c b
    rw [← UInt8.toNat_inj]
    constructor
    · rintro ⟨hc, hb⟩
      rw [toNat_byte (by omega)] at hb
      exact ⟨hb, hb ▸ hc⟩
    · rintro ⟨hcb, hb⟩
      rw [hcb, toNat_byte (by omega)]
      exact ⟨hb, rfl⟩
  simp only [encodeBelow, mapM_eq_some_iff, Option.ite_none_right_eq_some, Option.some.injEq, hbyte,
    OneByteEach]

theorem encode?_eq_some_iff {c : Charset} {s : String} {bs : Bytes} :
    c.encode? s.toList = some bs ↔ c.Writes s bs := by
  cases c with
  | ascii => exact encodeBelow_eq_some_iff (by norm_num)
  | latin1 => exact encodeBelow_eq_some_iff (by norm_num)
  | utf8 =>
    rw [encode?, Option.some.injEq, Writes, ← Utf8.toByteArray_utf8, toByteArray_inj,
      SimpleBinary.utf8]

/-! ## Names -/

/-- The names of an encoding. -/
def names : Charset → List String
  | .ascii => ["ASCII", "US-ASCII"]
  | .latin1 => ["ISO-8859-1", "latin1"]
  | .utf8 => ["UTF-8", "UTF8"]

/-- One of the names of an encoding in any case of ASCII letters. -/
def IsNamed (c : Charset) (encoding : String) : Prop :=
  ∃ name ∈ c.names, encoding.toList.map Char.toLower = name.toList.map Char.toLower

theorem lower_eq_toLower (c : Char) : lower c = c.toLower := by
  by_cases h : 'A' ≤ c ∧ c ≤ 'Z'
  · have hle : c.toNat ≤ 90 := h.2
    have hupper : c.toLower = ⟨c.val + 32, _⟩ := dif_pos h
    rw [lower, if_pos h, hupper]
    refine Char.toNat_inj.1 ?_
    rw [Char.toNat_ofNat_of_valid (by omega)]
    show c.toNat + 32 = (c.toNat + 32) % _
    omega
  · have hother : c.toLower = c := dif_neg h
    rw [lower, if_neg h, hother]

theorem fold_eq (name : String) : fold name = name.toList.map Char.toLower := by
  rw [fold, funext lower_eq_toLower]

/-- What is interpreted as an encoding are its names. -/
theorem ofName?_eq_some_iff {c : Charset} {encoding : String} :
    ofName? encoding = some c ↔ c.IsNamed encoding := by
  have hself : ∀ c : Charset, ∀ name ∈ c.names, ofName? name = some c := by
    intro c
    cases c <;> decide
  simp only [IsNamed, ← fold_eq]
  constructor
  · intro h
    unfold ofName? at h
    dsimp only at h
    split_ifs at h with hascii hlatin hutf
    · cases h
      exact hascii.elim (fun h => ⟨"ASCII", by decide, h⟩) fun h => ⟨"US-ASCII", by decide, h⟩
    · cases h
      exact hlatin.elim (fun h => ⟨"ISO-8859-1", by decide, h⟩) fun h => ⟨"latin1", by decide, h⟩
    · cases h
      exact hutf.elim (fun h => ⟨"UTF-8", by decide, h⟩) fun h => ⟨"UTF8", by decide, h⟩
  · rintro ⟨name, hname, hfold⟩
    rw [← hself c name hname, ofName?, ofName?, hfold]

end Charset

/-! ## Texts of a message -/

section Message

variable {c : Charset} {path encoding s : String} {bs : Bytes}

theorem encodeText_eq_ok_iff (hc : Charset.ofName? encoding = some c) :
    encodeText path (some encoding) s = .ok bs ↔ c.encode? s.toList = some bs := by
  simp only [encodeText, hc]
  cases c.encode? s.toList <;> simp

theorem encodeText_eq_error_iff (hc : Charset.ofName? encoding = some c) :
    encodeText path (some encoding) s = .error (.invalidText path encoding)
      ↔ c.encode? s.toList = none := by
  simp only [encodeText, hc]
  cases c.encode? s.toList <;> simp

theorem decodeText_eq_ok_iff (hc : Charset.ofName? encoding = some c) :
    decodeText path encoding bs = .ok (some s) ↔ c.decode? bs = some s.toList := by
  simp only [decodeText, hc]
  cases c.decode? bs with
  | none => simp
  | some cs =>
    simp only [Except.ok.injEq, Option.some.injEq]
    exact ⟨fun h => h ▸ String.toList_ofList.symm, fun h => h ▸ String.ofList_toList⟩

theorem decodeText_eq_error_iff (hc : Charset.ofName? encoding = some c) :
    decodeText path encoding bs = .error (.invalidText path encoding) ↔ c.decode? bs = none := by
  simp only [decodeText, hc]
  cases c.decode? bs <;> simp

end Message

/-- Under a name of an encoding a text is written as the bytes that stand for it, and is read from
just these.  It is refused when it is written just if it is read from no bytes, and bytes are
refused when they are read just if no text is written as them. -/
theorem encodeText_eq_ok_iff_decodeText {c : Charset} {encoding : String} (h : c.IsNamed encoding)
    (path path' : String) :
    (∀ s bs, (encodeText path (some encoding) s = .ok bs ↔ c.Writes s bs)
        ∧ (encodeText path (some encoding) s = .ok bs
          ↔ decodeText path' encoding bs = .ok (some s)))
      ∧ (∀ s, encodeText path (some encoding) s = .error (.invalidText path encoding)
        ↔ ∀ bs, decodeText path' encoding bs ≠ .ok (some s))
      ∧ ∀ bs, decodeText path' encoding bs = .error (.invalidText path' encoding)
        ↔ ∀ s, encodeText path (some encoding) s ≠ .ok bs := by
  have hc := Charset.ofName?_eq_some_iff.2 h
  simp only [ne_eq, encodeText_eq_ok_iff hc, encodeText_eq_error_iff hc, decodeText_eq_ok_iff hc,
    decodeText_eq_error_iff hc]
  refine ⟨fun s bs => ⟨Charset.encode?_eq_some_iff, Charset.decode?_eq_some_iff.symm⟩,
    fun s => ?_, fun bs => ?_⟩
  · simp only [Charset.decode?_eq_some_iff]
    exact Option.eq_none_iff_forall_ne_some
  · rw [Option.eq_none_iff_forall_ne_some]
    constructor
    · exact fun hnone s hs => hnone _ (Charset.decode?_eq_some_iff.2 hs)
    · intro hnone cs hcs
      refine hnone (String.ofList cs) ?_
      rw [String.toList_ofList]
      exact Charset.decode?_eq_some_iff.1 hcs

/-- An accented letter is one byte in Latin-1, which has no euro sign, and no text in ASCII. -/
theorem encodeText_eq_ok_iff_decodeText_accent :
    Charset.latin1.IsNamed "Latin1" ∧ Charset.ascii.IsNamed "us-ascii"
      ∧ encodeText "Order.note" (some "Latin1") "é" = .ok [0xE9]
      ∧ decodeText "Order.note" "Latin1" [0xE9] = .ok (some "é")
      ∧ (∀ bs, decodeText "Order.note" "Latin1" bs ≠ .ok (some "€"))
      ∧ ∀ s, encodeText "Order.note" (some "us-ascii") s ≠ .ok [0xE9] := by
  have hlatin : Charset.latin1.IsNamed "Latin1" := ⟨"latin1", by decide, by decide⟩
  have hascii : Charset.ascii.IsNamed "us-ascii" := ⟨"US-ASCII", by decide, by decide⟩
  obtain ⟨hok, htexts, -⟩ := encodeText_eq_ok_iff_decodeText hlatin "Order.note" "Order.note"
  obtain ⟨-, -, hbytes⟩ := encodeText_eq_ok_iff_decodeText hascii "Order.note" "Order.note"
  have hbyte : Charset.latin1.Writes "é" [0xE9] := .cons ⟨rfl, by decide⟩ .nil
  have hwritten := (hok _ _).1.2 hbyte
  exact ⟨hlatin, hascii, hwritten, (hok _ _).2.1 hwritten, (htexts _).1 rfl, (hbytes _).1 rfl⟩

end SimpleBinary
