import Mathlib
import SimpleBinary.Proofs.Outcomes
import SimpleBinary.Codec.Text
import SimpleBinary.Value

/-!
# Texts that are written and read back

The bytes of a character are read back as that character (`step_encodeChar`), and what is read as a
character are its bytes (`encodeChar_of_step`).  So in each of the three interpreted encodings
reading and writing are inverse, `Charset.decode?_eq_some_iff`: no bytes stand for a text but those
that the text is written as.  A text without the null character has no zero byte
(`Charset.zero_notMem_encode?`), which is how a text that is shorter than its array is told from
its padding.
-/

namespace SimpleBinary

theorem Char.isValid (c : Char) : c.toNat < 0xD800 ∨ 0xDFFF < c.toNat ∧ c.toNat < 0x110000 :=
  c.valid

theorem Char.toNat_ofNat_of_valid {n : Nat} (h : n < 0xD800 ∨ 0xDFFF < n ∧ n < 0x110000) :
    (Char.ofNat n).toNat = n := by
  have hv : n.isValidChar := h
  simp [Char.ofNat, hv, Char.ofNatAux, Char.toNat]

theorem toNat_byte {n : Nat} (h : n < 256) : (UInt8.ofNat n).toNat = n := by
  rw [UInt8.toNat_ofNat', Nat.mod_eq_of_lt h]

namespace Utf8

theorem toNat_tail (n : Nat) : (tail n).toNat = 0x80 + n % 64 := toNat_byte (by omega)

theorem tail_eq {b : UInt8} {n : Nat} (h : b.toNat = 0x80 + n % 64) : tail n = b := by
  rw [tail, ← h, UInt8.ofNat_toNat]

/-! ## The forms of a first byte -/

theorem lead?_two {k : Nat} (h : 2 ≤ k) (hk : k < 32) :
    lead? (0xC0 + k) = some ⟨k, 0x80, 0xBF, 0⟩ := by
  rw [lead?, if_neg (by omega), if_pos (by omega), Nat.add_sub_cancel_left]

/-- Three bytes reach from U+0800 to U+FFFF, the surrogates left out. -/
theorem lead?_three {n : Nat} (h : 0x800 ≤ n) (hv : n < 0xD800 ∨ 0xDFFF < n ∧ n < 0x10000) :
    ∃ low high, lead? (0xE0 + n / 4096) = some ⟨n / 4096, low, high, 1⟩
      ∧ low ≤ 0x80 + n / 64 % 64 ∧ 0x80 + n / 64 % 64 ≤ high := by
  rcases eq_or_ne (n / 4096) 0 with h0 | h0
  · exact ⟨0xA0, 0xBF, by rw [h0]; rfl, by omega, by omega⟩
  · rcases eq_or_ne (n / 4096) 0xD with hd | hd
    · exact ⟨0x80, 0x9F, by rw [hd]; rfl, by omega, by omega⟩
    · refine ⟨0x80, 0xBF, ?_, by omega, by omega⟩
      rw [lead?, if_neg (by omega), if_neg (by omega), if_neg (by omega), if_neg (by omega),
        if_pos (by omega), Nat.add_sub_cancel_left]

/-- Four bytes reach from U+10000 to U+10FFFF. -/
theorem lead?_four {n : Nat} (h : 0x10000 ≤ n) (hv : n < 0x110000) :
    ∃ low high, lead? (0xF0 + n / 262144) = some ⟨n / 262144, low, high, 2⟩
      ∧ low ≤ 0x80 + n / 4096 % 64 ∧ 0x80 + n / 4096 % 64 ≤ high := by
  rcases eq_or_ne (n / 262144) 0 with h0 | h0
  · exact ⟨0x90, 0xBF, by rw [h0]; rfl, by omega, by omega⟩
  · rcases eq_or_ne (n / 262144) 4 with h4 | h4
    · exact ⟨0x80, 0x8F, by rw [h4]; rfl, by omega, by omega⟩
    · refine ⟨0x80, 0xBF, ?_, by omega, by omega⟩
      rw [lead?, if_neg (by omega), if_neg (by omega), if_neg (by omega), if_neg (by omega),
        if_neg (by omega), if_neg (by omega), if_pos (by omega), Nat.add_sub_cancel_left]

/-- The three forms that a first byte can announce, with what keeps their characters apart. -/
theorem lead?_cases {b : Nat} {l : Lead} (h : lead? b = some l) :
    0x80 ≤ l.low ∧ l.high ≤ 0xBF ∧
      (l.more = 0 ∧ b = 0xC0 + l.bits ∧ 2 ≤ l.bits ∧ l.bits < 32
      ∨ l.more = 1 ∧ b = 0xE0 + l.bits ∧ l.bits < 16 ∧ (l.bits = 0 → l.low = 0xA0)
        ∧ (l.bits = 0xD → l.high = 0x9F)
      ∨ l.more = 2 ∧ b = 0xF0 + l.bits ∧ l.bits < 5 ∧ (l.bits = 0 → l.low = 0x90)
        ∧ (l.bits = 4 → l.high = 0x8F)) := by
  unfold lead? at h
  split_ifs at h
  all_goals
    simp only [Option.some.injEq] at h
    subst h
    dsimp only
    omega

/-! ## Characters -/

theorem continue?_tail (more acc n : Nat) (bs : Bytes) :
    continue? (more + 1) acc (tail n :: bs) = continue? more (acc * 64 + n % 64) bs := by
  have hn : n % 64 < 64 := Nat.mod_lt _ (by norm_num)
  rw [continue?, toNat_tail, if_pos (by omega), Nat.add_sub_cancel_left]

/-- More than one byte is read by the form of the first. -/
theorem step_of_lead {b c : UInt8} {bs : Bytes} {l : Lead} (hb : 0x80 ≤ b.toNat)
    (hl : lead? b.toNat = some l) (hc : l.low ≤ c.toNat ∧ c.toNat ≤ l.high) :
    step b (c :: bs) = ((continue? l.more (l.bits * 64 + (c.toNat - 0x80)) bs).1.map Char.ofNat,
      (continue? l.more (l.bits * 64 + (c.toNat - 0x80)) bs).2) := by
  unfold step
  rw [if_neg (by omega)]
  simp only [hl, hc, and_self, if_true]

/-- The bytes of a character are read as it. -/
theorem step_encodeChar (c : Char) (bs : Bytes) :
    ∃ b rest, encodeChar c = b :: rest ∧ step b (rest ++ bs) = (some c, bs) := by
  have hv := Char.isValid c
  obtain ⟨n, hn⟩ : ∃ n, c.toNat = n := ⟨_, rfl⟩
  have hc : Char.ofNat n = c := by rw [← hn, Char.ofNat_toNat]
  rw [hn] at hv
  simp only [encodeChar, hn]
  split
  · refine ⟨_, _, rfl, ?_⟩
    unfold step
    rw [toNat_byte (by omega), if_pos (by omega), hc]
    rfl
  · split
    · refine ⟨_, _, rfl, ?_⟩
      have hb : (UInt8.ofNat (0xC0 + n / 64)).toNat = 0xC0 + n / 64 := toNat_byte (by omega)
      have hl : lead? (UInt8.ofNat (0xC0 + n / 64)).toNat = some ⟨n / 64, 0x80, 0xBF, 0⟩ := by
        rw [hb, lead?_two (by omega) (by omega)]
      rw [List.singleton_append, step_of_lead (by omega) hl (by rw [toNat_tail]; simp only; omega),
        toNat_tail, Nat.add_sub_cancel_left]
      simp only [continue?, Option.map_some, Nat.div_add_mod', hc]
    · split
      · refine ⟨_, _, rfl, ?_⟩
        have hb : (UInt8.ofNat (0xE0 + n / 4096)).toNat = 0xE0 + n / 4096 := toNat_byte (by omega)
        obtain ⟨low, high, hl, hlow, hhigh⟩ := lead?_three (n := n) (by omega) (by omega)
        rw [← hb] at hl
        rw [List.cons_append, List.singleton_append,
          step_of_lead (by omega) hl (by rw [toNat_tail]; exact ⟨hlow, hhigh⟩), toNat_tail,
          Nat.add_sub_cancel_left, continue?_tail]
        have hsum : (n / 4096 * 64 + n / 64 % 64) * 64 + n % 64 = n := by omega
        simp only [continue?, Option.map_some, hsum, hc]
      · refine ⟨_, _, rfl, ?_⟩
        have hb : (UInt8.ofNat (0xF0 + n / 262144)).toNat = 0xF0 + n / 262144 :=
          toNat_byte (by omega)
        obtain ⟨low, high, hl, hlow, hhigh⟩ := lead?_four (n := n) (by omega) (by omega)
        rw [← hb] at hl
        rw [List.cons_append, List.cons_append, List.singleton_append,
          step_of_lead (by omega) hl (by rw [toNat_tail]; exact ⟨hlow, hhigh⟩), toNat_tail,
          Nat.add_sub_cancel_left, continue?_tail, continue?_tail]
        have hsum : ((n / 262144 * 64 + n / 4096 % 64) * 64 + n / 64 % 64) * 64 + n % 64 = n := by
          omega
        simp only [continue?, Option.map_some, hsum, hc]

/-- Continuing bytes are the tails of the number that they make. -/
theorem continue?_cons {more acc n : Nat} {bs rest : Bytes}
    (h : continue? (more + 1) acc bs = (some n, rest)) :
    ∃ k < 64, ∃ bs', bs = tail k :: bs' ∧ continue? more (acc * 64 + k) bs' = (some n, rest) := by
  cases bs with
  | nil => simp [continue?] at h
  | cons b bs =>
    rw [continue?] at h
    split at h
    · rename_i hb
      have hk : b.toNat - 0x80 < 64 := by omega
      refine ⟨_, hk, bs, ?_, h⟩
      rw [tail_eq (b := b) (by rw [Nat.mod_eq_of_lt hk]; omega)]
    · simp at h

theorem tail_congr {m n : Nat} (h : m % 64 = n % 64) : tail m = tail n := by
  rw [tail, tail, h]

/-- What is read as a character are the bytes of it. -/
theorem encodeChar_of_step {b : UInt8} {bs rest : Bytes} {c : Char}
    (h : step b bs = (some c, rest)) : b :: bs = encodeChar c ++ rest := by
  unfold step at h
  split at h
  · rename_i hb
    cases h
    have hn : (Char.ofNat b.toNat).toNat = b.toNat := Char.toNat_ofNat_of_valid (by omega)
    simp [encodeChar, hn, hb]
  · split at h
    · rename_i l c₂ bs hl
      split at h
      · rename_i hc
        obtain ⟨k, hk⟩ : ∃ k, c₂.toNat - 0x80 = k := ⟨_, rfl⟩
        obtain ⟨hlow, hhigh, hform⟩ := lead?_cases hl
        have hc₂ : c₂ = tail k := (tail_eq (by omega)).symm
        rw [hk] at h
        simp only [Prod.mk.injEq, Option.map_eq_some_iff] at h
        obtain ⟨⟨n, hn, rfl⟩, hrest⟩ := h
        have hcont := Prod.ext (x := continue? l.more (l.bits * 64 + k) bs)
          (y := (some n, rest)) hn hrest
        rcases hform with ⟨hm, hb, hbits⟩ | ⟨hm, hb, hbits⟩ | ⟨hm, hb, hbits⟩
        · rw [hm, continue?] at hcont
          cases hcont
          have hN : (Char.ofNat (l.bits * 64 + k)).toNat = l.bits * 64 + k :=
            Char.toNat_ofNat_of_valid (by omega)
          have hd : (l.bits * 64 + k) / 64 = l.bits := by omega
          simp only [encodeChar, hN, hd]
          rw [if_neg (by omega), if_pos (by omega), ← hb, UInt8.ofNat_toNat, hc₂,
            tail_congr (m := l.bits * 64 + k) (n := k) (by omega)]
          rfl
        · rw [hm] at hcont
          obtain ⟨k₃, hk₃, bs₃, rfl, hcont₃⟩ := continue?_cons hcont
          cases hcont₃
          have hN : (Char.ofNat ((l.bits * 64 + k) * 64 + k₃)).toNat
              = (l.bits * 64 + k) * 64 + k₃ := Char.toNat_ofNat_of_valid (by omega)
          have hd : ((l.bits * 64 + k) * 64 + k₃) / 4096 = l.bits := by omega
          simp only [encodeChar, hN, hd]
          rw [if_neg (by omega), if_neg (by omega), if_pos (by omega), ← hb, UInt8.ofNat_toNat,
            hc₂, tail_congr (m := ((l.bits * 64 + k) * 64 + k₃) / 64) (n := k) (by omega),
            tail_congr (m := (l.bits * 64 + k) * 64 + k₃) (n := k₃) (by omega)]
          rfl
        · rw [hm] at hcont
          obtain ⟨k₃, hk₃, bs₃, rfl, hcont₃⟩ := continue?_cons hcont
          obtain ⟨k₄, hk₄, bs₄, rfl, hcont₄⟩ := continue?_cons hcont₃
          cases hcont₄
          have hN : (Char.ofNat (((l.bits * 64 + k) * 64 + k₃) * 64 + k₄)).toNat
              = ((l.bits * 64 + k) * 64 + k₃) * 64 + k₄ := Char.toNat_ofNat_of_valid (by omega)
          have hd : (((l.bits * 64 + k) * 64 + k₃) * 64 + k₄) / 262144 = l.bits := by omega
          simp only [encodeChar, hN, hd]
          rw [if_neg (by omega), if_neg (by omega), if_neg (by omega), ← hb, UInt8.ofNat_toNat,
            hc₂, tail_congr (m := (((l.bits * 64 + k) * 64 + k₃) * 64 + k₄) / 4096) (n := k)
              (by omega),
            tail_congr (m := (((l.bits * 64 + k) * 64 + k₃) * 64 + k₄) / 64) (n := k₃) (by omega),
            tail_congr (m := ((l.bits * 64 + k) * 64 + k₃) * 64 + k₄) (n := k₄) (by omega)]
          rfl
      · simp at h
    · simp at h

/-! ## Texts -/

theorem scan_encode (cs : List Char) : scan (encode cs) = cs.map some := by
  induction cs with
  | nil => rw [encode, List.flatMap_nil, scan, List.map_nil]
  | cons c cs ih =>
    obtain ⟨b, rest, hc, hs⟩ := step_encodeChar c (encode cs)
    rw [encode, List.flatMap_cons, hc, List.cons_append, scan]
    simp only [encode] at hs ih ⊢
    rw [hs, ih, List.map_cons]

theorem encode_of_scan : ∀ (bs : Bytes) (cs : List Char), scan bs = cs.map some → encode cs = bs
  | [], cs, h => by
    rw [scan] at h
    rw [List.map_eq_nil_iff.1 h.symm]
    rfl
  | b :: bs, cs, h => by
    rw [scan] at h
    cases cs with
    | nil => simp at h
    | cons c cs =>
      rw [List.map_cons, List.cons.injEq] at h
      have hlen := length_step b bs
      rw [encodeChar_of_step (Prod.ext (x := step b bs) (y := (some c, (step b bs).2)) h.1 rfl),
        ← encode_of_scan (step b bs).2 cs h.2]
      rfl
termination_by bs => bs.length

theorem mapM_id_eq_some_iff {α : Type} {os : List (Option α)} {xs : List α} :
    os.mapM id = some xs ↔ os = xs.map some := by
  rw [mapM_eq_some_iff, ← List.forall₂_eq_eq_eq, List.forall₂_map_right_iff]
  rfl

theorem decode?_eq_some_iff {bs : Bytes} {cs : List Char} :
    decode? bs = some cs ↔ encode cs = bs := by
  rw [decode?, mapM_id_eq_some_iff]
  constructor
  · exact encode_of_scan bs cs
  · rintro rfl
    exact scan_encode cs

/-- Only the null character has a zero byte. -/
theorem eq_null_of_zero_mem {c : Char} (h : 0 ∈ encodeChar c) : c = '\x00' := by
  have htail : ∀ n, (0 : UInt8) ≠ tail n := by
    intro n h0
    have := toNat_tail n
    rw [← h0] at this
    simp at this
    omega
  have hlead : ∀ n, 0x80 ≤ n → n < 256 → (0 : UInt8) ≠ UInt8.ofNat n := by
    intro n hn hn' h0
    have := toNat_byte hn'
    rw [← h0] at this
    simp at this
    omega
  have hv := Char.isValid c
  simp only [encodeChar] at h
  split at h
  · rename_i hn
    rw [List.mem_singleton] at h
    have hz := toNat_byte (n := c.toNat) (by omega)
    rw [← h] at hz
    rw [← Char.ofNat_toNat c, ← hz]
    rfl
  · exfalso
    split at h
    · have h1 := hlead (0xC0 + c.toNat / 64) (by omega) (by omega)
      simp only [List.mem_cons, List.not_mem_nil, htail, h1, or_self] at h
    · split at h
      · have h1 := hlead (0xE0 + c.toNat / 4096) (by omega) (by omega)
        simp only [List.mem_cons, List.not_mem_nil, htail, h1, or_self] at h
      · have h1 := hlead (0xF0 + c.toNat / 262144) (by omega) (by omega)
        simp only [List.mem_cons, List.not_mem_nil, htail, h1, or_self] at h

end Utf8

namespace Charset

/-- One byte a character: each direction undoes the other. -/
theorem decodeBelow_eq_some_iff {limit : Nat} (hl : limit ≤ 256) {bs : Bytes} {cs : List Char} :
    decodeBelow limit bs = some cs ↔ encodeBelow limit cs = some bs := by
  have hbyte : ∀ (b : UInt8) (c : Char), b.toNat < limit ∧ Char.ofNat b.toNat = c ↔
      c.toNat < limit ∧ UInt8.ofNat c.toNat = b := by
    intro b c
    constructor
    · rintro ⟨hb, rfl⟩
      rw [Char.toNat_ofNat_of_valid (by omega)]
      exact ⟨hb, UInt8.ofNat_toNat⟩
    · rintro ⟨hc, rfl⟩
      rw [toNat_byte (by omega)]
      exact ⟨hc, Char.ofNat_toNat c⟩
  simp only [decodeBelow, encodeBelow, mapM_eq_some_iff, Option.ite_none_right_eq_some,
    Option.some.injEq, hbyte]
  exact ⟨List.Forall₂.flip, List.Forall₂.flip⟩

theorem decode?_eq_some_iff {c : Charset} {bs : Bytes} {cs : List Char} :
    c.decode? bs = some cs ↔ c.encode? cs = some bs := by
  cases c with
  | ascii => exact decodeBelow_eq_some_iff (by norm_num)
  | latin1 => exact decodeBelow_eq_some_iff (by norm_num)
  | utf8 => rw [decode?, encode?, Utf8.decode?_eq_some_iff, Option.some.injEq]

theorem zero_notMem_of_encodeBelow {limit : Nat} (hl : limit ≤ 256) {cs : List Char} {bs : Bytes}
    (h : encodeBelow limit cs = some bs) (hcs : '\x00' ∉ cs) : 0 ∉ bs := by
  rw [encodeBelow, mapM_eq_some_iff] at h
  induction h with
  | nil => simp
  | cons hcb hrest ih =>
    rename_i c b cs bs
    rw [List.mem_cons, not_or] at hcs ⊢
    refine ⟨fun h0 => hcs.1 ?_, ih hcs.2⟩
    rw [Option.ite_none_right_eq_some, ← h0, Option.some.injEq] at hcb
    have hz := toNat_byte (n := c.toNat) (by omega)
    rw [hcb.2] at hz
    rw [← Char.ofNat_toNat c, ← hz]
    rfl

/-- A text without the null character is written without a zero byte. -/
theorem zero_notMem_encode? {c : Charset} {cs : List Char} {bs : Bytes}
    (h : c.encode? cs = some bs) (hcs : '\x00' ∉ cs) : 0 ∉ bs := by
  cases c with
  | ascii => exact zero_notMem_of_encodeBelow (by norm_num) h hcs
  | latin1 => exact zero_notMem_of_encodeBelow (by norm_num) h hcs
  | utf8 =>
    cases h
    intro h0
    obtain ⟨c, hc, h0⟩ := List.mem_flatMap.1 h0
    exact hcs (Utf8.eq_null_of_zero_mem h0 ▸ hc)

/-- ASCII is UTF-8. -/
theorem utf8_of_ascii {cs : List Char} {bs : Bytes} (h : ascii.encode? cs = some bs) :
    Utf8.encode cs = bs := by
  rw [encode?, encodeBelow, mapM_eq_some_iff] at h
  induction h with
  | nil => rfl
  | cons hcb hrest ih =>
    rename_i c b cs bs
    rw [Option.ite_none_right_eq_some, Option.some.injEq] at hcb
    rw [Utf8.encode, List.flatMap_cons, Utf8.encodeChar, if_pos hcb.1, hcb.2]
    exact congrArg (b :: ·) ih

end Charset

/-! ## Texts of a message -/

/-- The bytes of a text under a declared encoding. -/
def textImage? (encoding : Option String) (s : String) : Option Bytes :=
  match encoding.bind Charset.ofName? with
  | none => some (utf8 s)
  | some c => c.encode? s.toList

theorem toOption_encodeText (path : String) (encoding : Option String) (s : String) :
    (encodeText path encoding s).toOption = textImage? encoding s := by
  cases encoding with
  | none => rfl
  | some name =>
    simp only [encodeText, textImage?, Option.bind_some]
    cases Charset.ofName? name with
    | none => rfl
    | some c => cases h : c.encode? s.toList <;> simp [h]

/-- The value of bytes that are a text, or bytes if the encoding is not interpreted. -/
def textValue? (encoding : String) (bs : Bytes) : Option Value :=
  match Charset.ofName? encoding with
  | none => some (.bytes bs)
  | some c => (c.decode? bs).map fun cs => .text (String.ofList cs)

theorem toOption_decodeText (path encoding : String) (bs : Bytes) :
    (decodeText path encoding bs).toOption.map (fun s? => s?.elim (.bytes bs) .text)
      = textValue? encoding bs := by
  simp only [decodeText, textValue?]
  cases Charset.ofName? encoding with
  | none => rfl
  | some c => cases h : c.decode? bs <;> simp [h]

/-- A text that was read is written as the bytes it was read from. -/
theorem textImage?_of_textValue? {encoding : Option String} {bs : Bytes} {s : String}
    (h : textValue? (encoding.getD "US-ASCII") bs = some (.text s)) :
    textImage? encoding s = some bs := by
  cases encoding with
  | none =>
    have hd : Charset.ascii.decode? bs = some s.toList := by
      simp only [textValue?, Option.getD_none, show Charset.ofName? "US-ASCII" = some .ascii from by
        decide, Option.map_eq_some_iff, Value.text.injEq] at h
      obtain ⟨cs, hcs, rfl⟩ := h
      rw [hcs, String.toList_ofList]
    rw [textImage?, Option.bind_none]
    exact congrArg some (Charset.utf8_of_ascii (Charset.decode?_eq_some_iff.1 hd))
  | some name =>
    simp only [textValue?, Option.getD_some] at h
    rw [textImage?, Option.bind_some]
    cases hn : Charset.ofName? name with
    | none => simp [hn] at h
    | some c =>
      simp only [hn, Option.map_eq_some_iff, Value.text.injEq] at h
      obtain ⟨cs, hcs, rfl⟩ := h
      simp only [String.toList_ofList]
      exact Charset.decode?_eq_some_iff.1 hcs

end SimpleBinary
