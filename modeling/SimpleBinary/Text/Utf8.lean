import SimpleBinary.Word

/-!
# UTF-8

`Utf8.encode` writes characters as one to four bytes. `Utf8.scan` reads bytes back as characters
and gaps: where no character starts, one gap stands for the longest run of bytes that could have
started one, or for a single byte. A text is valid when it has no gap; reading it lossily puts
U+FFFD in place of each.
-/

namespace SimpleBinary

namespace Utf8

/-- A byte that continues a character with these six bits. -/
def tail (bits : Nat) : UInt8 := UInt8.ofNat (0x80 + bits % 64)

def encodeChar (c : Char) : Bytes :=
  let n := c.toNat
  if n < 0x80 then [UInt8.ofNat n]
  else if n < 0x800 then [UInt8.ofNat (0xC0 + n / 64), tail n]
  else if n < 0x10000 then [UInt8.ofNat (0xE0 + n / 4096), tail (n / 64), tail n]
  else [UInt8.ofNat (0xF0 + n / 262144), tail (n / 4096), tail (n / 64), tail n]

def encode (cs : List Char) : Bytes := cs.flatMap encodeChar

/-- The form of a character of more than one byte: the payload of its first byte, the range of its
second, and how many bytes follow that one. -/
structure Lead where
  bits : Nat
  low : Nat
  high : Nat
  more : Nat

/-- The form that a first byte announces. -/
def lead? (b : Nat) : Option Lead :=
  if b < 0xC2 then none
  else if b < 0xE0 then some ⟨b - 0xC0, 0x80, 0xBF, 0⟩
  else if b = 0xE0 then some ⟨0, 0xA0, 0xBF, 1⟩
  else if b = 0xED then some ⟨0xD, 0x80, 0x9F, 1⟩
  else if b < 0xF0 then some ⟨b - 0xE0, 0x80, 0xBF, 1⟩
  else if b = 0xF0 then some ⟨0, 0x90, 0xBF, 2⟩
  else if b < 0xF4 then some ⟨b - 0xF0, 0x80, 0xBF, 2⟩
  else if b = 0xF4 then some ⟨4, 0x80, 0x8F, 2⟩
  else none

/-- Takes `more` continuing bytes onto `acc`: the code point, if all are there, and what is left. -/
def continue? : (more acc : Nat) → Bytes → Option Nat × Bytes
  | 0, acc, bs => (some acc, bs)
  | _ + 1, _, [] => (none, [])
  | more + 1, acc, b :: bs =>
    if 0x80 ≤ b.toNat ∧ b.toNat ≤ 0xBF then continue? more (acc * 64 + (b.toNat - 0x80)) bs
    else (none, b :: bs)

/-- The character that starts with `b`, or a gap, and what is left. -/
def step (b : UInt8) (bs : Bytes) : Option Char × Bytes :=
  if b.toNat < 0x80 then (some (Char.ofNat b.toNat), bs)
  else
    match lead? b.toNat, bs with
    | some l, c :: rest =>
      if l.low ≤ c.toNat ∧ c.toNat ≤ l.high then
        let (n, rest) := continue? l.more (l.bits * 64 + (c.toNat - 0x80)) rest
        (n.map Char.ofNat, rest)
      else (none, bs)
    | _, _ => (none, bs)

theorem length_continue? (more acc : Nat) (bs : Bytes) :
    (continue? more acc bs).2.length ≤ bs.length := by
  induction bs generalizing more acc with
  | nil => cases more <;> simp [continue?]
  | cons b bs ih =>
    cases more with
    | zero => simp [continue?]
    | succ more =>
      simp only [continue?]
      split
      · exact Nat.le_succ_of_le (ih _ _)
      · simp

theorem length_step (b : UInt8) (bs : Bytes) : (step b bs).2.length ≤ bs.length := by
  unfold step
  split
  · simp
  · split
    · split
      · exact Nat.le_succ_of_le (length_continue? _ _ _)
      · simp
    · simp

/-- Characters and gaps, in order. -/
def scan : Bytes → List (Option Char)
  | [] => []
  | b :: bs =>
    let r := step b bs
    r.1 :: scan r.2
termination_by bs => bs.length
decreasing_by
  have := length_step b bs
  simp only [List.length_cons]
  omega

/-- The text of bytes without a gap. -/
def decode? (bs : Bytes) : Option (List Char) := (scan bs).mapM id

/-- The text of any bytes, U+FFFD for each gap. -/
def decodeLossy (bs : Bytes) : List Char := (scan bs).map (·.getD '\uFFFD')

end Utf8

/-- The bytes of a text in UTF-8. -/
def utf8 (s : String) : Bytes := Utf8.encode s.toList

/-- The text of any bytes, U+FFFD in place of what is not UTF-8. -/
def lossyText (bs : Bytes) : String := String.ofList (Utf8.decodeLossy bs)

end SimpleBinary
