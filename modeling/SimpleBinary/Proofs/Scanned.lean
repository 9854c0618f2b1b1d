import Mathlib
import SimpleBinary.Json.Reader
import SimpleBinary.Json.Writer

/-!
# Numbers and texts are read as they are written

The reader takes a number or a text off the front of a text, whatever stands behind it, if only a
number is not carried on there (`Number.Ends`): an integer that fits is read from its digits
(`Number.read?_toString`), what is read of a number stays the same with a rest behind it
(`Number.read?_append`), and a text is read from its quoted form (`Reader.readText_quoted`).
-/

namespace SimpleBinary

namespace Json

/-! ## Numbers -/

namespace Number

theorem ofDigits_eq (ds : List Char) : ofDigits ds = Nat.ofDigitChars 10 ds 0 := by
  have hstep : (fun (n : Nat) (d : Char) => n * 10 + digitValue d)
      = fun n d => 10 * n + (d.toNat - '0'.toNat) := by
    funext n d
    rw [Nat.mul_comm]
    rfl
  rw [ofDigits, hstep, Nat.ofDigitChars]

theorem ofDigits_toDigits (n : Nat) : ofDigits (Nat.toDigits 10 n) = n := by
  rw [ofDigits_eq, Nat.ofDigitChars_toDigits (by decide) (by decide)]

/-- The digits of a number other than zero do not start with a zero. -/
theorem head?_toDigits_ne {n : Nat} (hn : 0 < n) : (Nat.toDigits 10 n).head? ≠ some '0' := by
  induction n using Nat.strong_induction_on with
  | _ n ih =>
    by_cases h : n < 10
    · rw [Nat.toDigits_of_lt_base h]
      interval_cases n <;> decide
    · rw [Nat.toDigits_of_base_le (by decide) (not_lt.1 h),
        List.head?_append_of_ne_nil _ Nat.toDigits_ne_nil]
      exact ih (n / 10) (by omega) (by omega)

/-- A text that does not carry a number on. -/
def Ends (rest : List Char) : Prop := ∀ c ∈ rest.head?, ¬isDigit c ∧ c ≠ '.' ∧ c ≠ 'e' ∧ c ≠ 'E'

theorem ends_nil : Ends [] := fun _ hc => by simp at hc

theorem ends_cons {c : Char} (h : ¬isDigit c ∧ c ≠ '.' ∧ c ≠ 'e' ∧ c ≠ 'E') (rest : List Char) :
    Ends (c :: rest) := fun d hd => by
  cases Option.some.inj hd
  exact h

section Append

variable {cs r rest : List Char}

theorem digits?_append {ds : List Char} (h : digits? cs = some (ds, r)) (hrest : Ends rest) :
    digits? (cs ++ rest) = some (ds, r ++ rest) := by
  have htake : rest.takeWhile isDigit = [] := by
    cases rest with
    | nil => rfl
    | cons c rest => exact List.takeWhile_cons_of_neg (hrest c rfl).1
  have hdrop : rest.dropWhile isDigit = rest := by
    cases rest with
    | nil => rfl
    | cons c rest => exact List.dropWhile_cons_of_neg (hrest c rfl).1
  have hspan : (cs ++ rest).span isDigit
      = (cs.takeWhile isDigit, cs.dropWhile isDigit ++ rest) := by
    rw [List.span_eq_takeWhile_dropWhile, List.takeWhile_append, List.dropWhile_append, htake, hdrop,
      List.append_nil]
    refine congrArg₂ Prod.mk ?_ ?_
    · split
      · rename_i hlength
        exact ((List.takeWhile_prefix isDigit).eq_of_length hlength).symm
      · rfl
    · split
      · rename_i hempty
        rw [List.isEmpty_iff.1 hempty, List.nil_append]
      · rfl
  unfold digits? at h ⊢
  rw [List.span_eq_takeWhile_dropWhile] at h
  rw [hspan]
  cases hds : cs.takeWhile isDigit with
  | nil =>
    rw [hds] at h
    cases h
  | cons d ds' =>
    rw [hds] at h
    cases h
    rfl

theorem digits?_eq {ds : List Char} (hds : ∀ c ∈ ds, isDigit c) (hne : ds ≠ []) :
    digits? ds = some (ds, []) := by
  unfold digits?
  rw [List.span_eq_takeWhile_dropWhile, List.takeWhile_eq_self_iff.2 hds,
    List.dropWhile_eq_nil_iff.2 hds]
  cases ds with
  | nil => exact absurd rfl hne
  | cons d ds => rfl

theorem whole?_append {ds : List Char} (h : whole? cs = some (ds, r)) (hrest : Ends rest) :
    whole? (cs ++ rest) = some (ds, r ++ rest) := by
  unfold whole? at h ⊢
  split at h
  · cases h
  · rename_i hne
    rw [digits?_append h hrest]
    split
    · rename_i heq
      cases heq
      exact absurd h (hne _ _ _)
    · rfl

/-- The fraction behind a whole part, if there is one. -/
def point? : List Char → Option (Option (List Char) × List Char)
  | '.' :: cs => (digits? cs).map fun (ds, rest) => (some ds, rest)
  | cs => some (none, cs)

/-- The exponent behind the digits, if there is one. -/
def power? : List Char → Option (Option Int × List Char)
  | 'e' :: cs | 'E' :: cs => (exponent? cs).map fun (n, rest) => (some n, rest)
  | cs => some (none, cs)

/-- The sign in front of a number. -/
def sign : List Char → Bool × List Char
  | '-' :: cs => (true, cs)
  | cs => (false, cs)

theorem point?_of_ne {ds : List Char} (h : ∀ cs, ds ≠ '.' :: cs) :
    point? ds = some (none, ds) := by
  unfold point?
  split
  · exact absurd rfl (h _)
  · rfl

theorem power?_of_ne {ds : List Char} (hlower : ∀ cs, ds ≠ 'e' :: cs)
    (hupper : ∀ cs, ds ≠ 'E' :: cs) : power? ds = some (none, ds) := by
  unfold power?
  split
  · exact absurd rfl (hlower _)
  · exact absurd rfl (hupper _)
  · rfl

/-- A text that a character does not start is not started by it with a rest behind either. -/
theorem append_ne_cons {c : Char} (hcs : ∀ ds, cs ≠ c :: ds) (hrest : ∀ ds, rest ≠ c :: ds)
    (ds : List Char) : cs ++ rest ≠ c :: ds := by
  cases cs with
  | nil => exact hrest ds
  | cons d cs =>
    intro heq
    exact hcs cs (congrArg (· :: cs) (List.cons.inj heq).1)

theorem Ends.ne_cons (h : Ends rest) {c : Char} (hc : c ∈ ['.', 'e', 'E']) (ds : List Char) :
    rest ≠ c :: ds := by
  rintro rfl
  obtain ⟨-, hpoint, hlower, hupper⟩ := h c rfl
  simp only [List.mem_cons, List.not_mem_nil, or_false] at hc
  rcases hc with rfl | rfl | rfl
  · exact hpoint rfl
  · exact hlower rfl
  · exact hupper rfl

theorem read?_eq (cs : List Char) : read? cs = (whole? (sign cs).2).bind fun w =>
    (point? w.2).bind fun p => (power? p.2).bind fun e =>
      some (ofParts (sign cs).1 w.1 p.1 e.1, e.2) := by
  unfold read?
  split
  rename_i negative cs' h
  have hsign : sign cs = (negative, cs') := h
  rw [hsign]
  refine Option.bind_congr fun w _ => ?_
  obtain ⟨whole, ds⟩ := w
  dsimp only
  split
  · refine Option.bind_congr fun p _ => ?_
    obtain ⟨frac, ds'⟩ := p
    dsimp only
    split
    · rfl
    · rfl
    · rename_i hlower hupper
      rw [power?_of_ne hlower hupper]
      rfl
  · rename_i hpoint
    rw [point?_of_ne hpoint]
    dsimp only [Option.bind_eq_bind, Option.bind_some]
    split
    · rfl
    · rfl
    · rename_i hlower hupper
      rw [power?_of_ne hlower hupper]
      rfl

theorem point?_append {frac : Option (List Char)} (h : point? cs = some (frac, r))
    (hrest : Ends rest) : point? (cs ++ rest) = some (frac, r ++ rest) := by
  unfold point? at h
  split at h
  · obtain ⟨⟨ds', r'⟩, hds, heq⟩ := Option.map_eq_some_iff.1 h
    cases heq
    rw [List.cons_append, point?, digits?_append hds hrest]
    rfl
  · rename_i hne
    cases h
    exact point?_of_ne (append_ne_cons hne (hrest.ne_cons (by decide)))

theorem exponent?_of_ne {ds : List Char} (hplus : ∀ cs, ds ≠ '+' :: cs)
    (hminus : ∀ cs, ds ≠ '-' :: cs) :
    exponent? ds = (digits? ds).map fun p => ((ofDigits p.1 : Int), p.2) := by
  unfold exponent?
  split
  · exact absurd rfl (hplus _)
  · exact absurd rfl (hminus _)
  · rfl

theorem exponent?_append {n : Int} (h : exponent? cs = some (n, r)) (hrest : Ends rest) :
    exponent? (cs ++ rest) = some (n, r ++ rest) := by
  unfold exponent? at h
  split at h
  · obtain ⟨⟨ds, r'⟩, hds, heq⟩ := Option.map_eq_some_iff.1 h
    cases heq
    rw [List.cons_append, exponent?, digits?_append hds hrest]
    rfl
  · obtain ⟨⟨ds, r'⟩, hds, heq⟩ := Option.map_eq_some_iff.1 h
    cases heq
    rw [List.cons_append, exponent?, digits?_append hds hrest]
    rfl
  · rename_i hplus hminus
    obtain ⟨⟨ds, r'⟩, hds, heq⟩ := Option.map_eq_some_iff.1 h
    cases heq
    cases cs with
    | nil => cases hds
    | cons c cs =>
      have hne : ∀ d, (∀ ds, c :: cs ≠ d :: ds) → ∀ ds, c :: cs ++ rest ≠ d :: ds := fun d hd ds heq =>
        hd cs (congrArg (· :: cs) (List.cons.inj heq).1)
      rw [exponent?_of_ne (hne _ hplus) (hne _ hminus), digits?_append hds hrest]
      rfl

theorem power?_append {e : Option Int} (h : power? cs = some (e, r)) (hrest : Ends rest) :
    power? (cs ++ rest) = some (e, r ++ rest) := by
  unfold power? at h
  split at h
  · obtain ⟨⟨n, r'⟩, hn, heq⟩ := Option.map_eq_some_iff.1 h
    cases heq
    rw [List.cons_append, power?, exponent?_append hn hrest]
    rfl
  · obtain ⟨⟨n, r'⟩, hn, heq⟩ := Option.map_eq_some_iff.1 h
    cases heq
    rw [List.cons_append, power?, exponent?_append hn hrest]
    rfl
  · rename_i hlower hupper
    cases h
    exact power?_of_ne (append_ne_cons hlower (hrest.ne_cons (by decide)))
      (append_ne_cons hupper (hrest.ne_cons (by decide)))

theorem sign_of_ne {ds : List Char} (h : ∀ cs, ds ≠ '-' :: cs) : sign ds = (false, ds) := by
  unfold sign
  split
  · exact absurd rfl (h _)
  · rfl

/-- A number starts with a minus or with a digit. -/
theorem exists_cons_of_read? {j : Json} (h : read? cs = some (j, r)) :
    ∃ c cs', cs = c :: cs' ∧ (c = '-' ∨ isDigit c) := by
  rw [read?_eq] at h
  obtain ⟨⟨whole, r'⟩, hwhole, -⟩ := Option.bind_eq_some_iff.1 h
  cases cs with
  | nil => cases hwhole
  | cons c cs =>
    refine ⟨c, cs, rfl, ?_⟩
    by_contra hnot
    obtain ⟨hc, hdigit⟩ := not_or.1 hnot
    have hnone : digits? (c :: cs) = none := by
      unfold digits?
      rw [List.span_eq_takeWhile_dropWhile, List.takeWhile_cons_of_neg hdigit]
    rw [sign_of_ne fun _ heq => hc (List.cons.inj heq).1] at hwhole
    unfold whole? at hwhole
    rw [hnone] at hwhole
    cases hwhole

/-- What is read of a number does not depend on what stands behind it. -/
theorem read?_append {j : Json} (h : read? cs = some (j, r)) (hrest : Ends rest) :
    read? (cs ++ rest) = some (j, r ++ rest) := by
  obtain ⟨c, cs, rfl, -⟩ := exists_cons_of_read? h
  have hsign : sign (c :: cs ++ rest) = ((sign (c :: cs)).1, (sign (c :: cs)).2 ++ rest) := by
    by_cases hc : c = '-'
    · rw [hc]
      rfl
    · have hne : ∀ cs, sign (c :: cs) = (false, c :: cs) := fun cs =>
        sign_of_ne fun _ heq => hc (List.cons.inj heq).1
      rw [List.cons_append, hne, hne]
      rfl
  rw [read?_eq] at h ⊢
  obtain ⟨⟨whole, r₁⟩, hwhole, h⟩ := Option.bind_eq_some_iff.1 h
  obtain ⟨⟨frac, r₂⟩, hfrac, h⟩ := Option.bind_eq_some_iff.1 h
  obtain ⟨⟨e, r₃⟩, he, h⟩ := Option.bind_eq_some_iff.1 h
  cases h
  simp only [hsign, whole?_append hwhole hrest, Option.bind_some, point?_append hfrac hrest,
    power?_append he hrest]

end Append

/-- An integer of 64 bits, with or without sign. -/
def Fits (n : Int) : Prop := Int64.minValue.toInt ≤ n ∧ n < UInt64.size

theorem whole?_toDigits (n : Nat) : whole? (Nat.toDigits 10 n) = some (Nat.toDigits 10 n, []) := by
  have hdigits : digits? (Nat.toDigits 10 n) = some (Nat.toDigits 10 n, []) :=
    digits?_eq (fun c hc => Nat.isDigit_of_mem_toDigits (by decide) (by decide) hc)
      Nat.toDigits_ne_nil
  unfold whole?
  rw [hdigits]
  split
  · rename_i c cs r heq
    obtain ⟨hds, -⟩ := Prod.mk.inj (Option.some.inj heq)
    rcases Nat.eq_zero_or_pos n with rfl | hn
    · cases hds
    · exact absurd (by rw [hds]; rfl) (head?_toDigits_ne hn)
  · rfl

theorem read?_toString {n : Int} (h : Fits n) : read? (toString n).toList = some (.int n, []) := by
  cases n with
  | ofNat m =>
    have htext : (toString (Int.ofNat m)).toList = Nat.toDigits 10 m := Nat.toList_repr
    have hsign : sign (Nat.toDigits 10 m) = (false, Nat.toDigits 10 m) := sign_of_ne fun cs heq =>
      have hminus : '-' ∈ Nat.toDigits 10 m := heq ▸ List.mem_cons_self
      absurd (Nat.isDigit_of_mem_toDigits (by decide) (by decide) hminus) (by decide)
    rw [htext, read?_eq, hsign, whole?_toDigits]
    have hparts : ofParts false (Nat.toDigits 10 m) none none = .int m := by
      unfold ofParts
      simp only [ofDigits_toDigits]
      exact if_pos ⟨trivial, trivial, h.1, h.2, rfl⟩
    exact congrArg (fun j => some (j, [])) hparts
  | negSucc m =>
    have htext : (toString (Int.negSucc m)).toList = '-' :: Nat.toDigits 10 (m + 1) := by
      have hrepr : toString (Int.negSucc m) = "-" ++ (m + 1).repr := rfl
      rw [hrepr, String.toList_append, Nat.toList_repr]
      rfl
    have hparts : ofParts true (Nat.toDigits 10 (m + 1)) none none = .int (Int.negSucc m) := by
      unfold ofParts
      simp only [ofDigits_toDigits]
      exact if_pos ⟨trivial, trivial, h.1, h.2, rfl⟩
    rw [htext, read?_eq]
    have hsign : sign ('-' :: Nat.toDigits 10 (m + 1)) = (true, Nat.toDigits 10 (m + 1)) := rfl
    rw [hsign, whole?_toDigits]
    exact congrArg (fun j => some (j, [])) hparts

end Number

/-! ## Texts -/

namespace Reader

theorem hexValue?_hexDigit : ∀ n < 16, hexValue? (hexDigit n) = some n := by decide

theorem hex4?_hex4 {n : Nat} (h : n < 65536) (rest : List Char) :
    hex4? (hex4 n ++ rest) = some (n, rest) := by
  have hdigit : ∀ k, hexValue? (hexDigit (n / k % 16)) = some (n / k % 16) :=
    fun k => hexValue?_hexDigit _ (Nat.mod_lt _ (by decide))
  have hlast : hexValue? (hexDigit (n % 16)) = some (n % 16) :=
    hexValue?_hexDigit _ (Nat.mod_lt _ (by decide))
  have hsum : ((n / 4096 % 16 * 16 + n / 256 % 16) * 16 + n / 16 % 16) * 16 + n % 16 = n := by omega
  simp only [hex4, List.cons_append, List.nil_append, hex4?, hdigit, hlast, Option.bind_eq_bind,
    Option.bind_some, hsum, Option.pure_def]

/-- A character is read from what it is written as. -/
theorem readText_quotedChar (readable : Bool) (acc : List Char) (c : Char) (fuel : Nat)
    (rest : List Char) : readText readable acc (fuel + 1) (quotedChar c ++ rest)
      = readText readable (c :: acc) fuel rest := by
  unfold quotedChar
  split_ifs with hquote hback hnewline htab hreturn hb hf hcontrol
  · rw [hquote]; rfl
  · rw [hback]; rfl
  · rw [hnewline]; rfl
  · rw [htab]; rfl
  · rw [hreturn]; rfl
  · rw [hb]; rfl
  · rw [hf]; rfl
  · have hhex := hex4?_hex4 (n := c.toNat) (by omega) rest
    have hlead : isLeadSurrogate c.toNat = false := by
      simp only [isLeadSurrogate, Bool.and_eq_false_iff, decide_eq_false_iff_not]
      omega
    have htrail : isTrailSurrogate c.toNat = false := by
      simp only [isTrailSurrogate, Bool.and_eq_false_iff, decide_eq_false_iff_not]
      omega
    rw [List.cons_append, List.cons_append, readText, hhex]
    simp only [hlead, htrail, Bool.false_eq_true, if_false, Char.ofNat_toNat]
  · rw [List.singleton_append, readText]
    · rw [if_neg (not_or.2 ⟨hback, hcontrol⟩)]
    · exact fun h => hquote h
    · exact fun _ h _ => hback h
    · exact fun _ _ h _ => hback h

theorem readText_flatMap (readable : Bool) : ∀ (cs acc : List Char) (fuel : Nat) (rest : List Char),
    cs.length < fuel → readText readable acc fuel (cs.flatMap quotedChar ++ '"' :: rest)
      = some (if readable then some (String.ofList (acc.reverse ++ cs)) else none, rest)
  | [], acc, fuel + 1, rest, _ => by
    rw [List.flatMap_nil, List.nil_append, readText, List.append_nil]
  | c :: cs, acc, fuel + 1, rest, h => by
    rw [List.flatMap_cons, List.append_assoc, readText_quotedChar,
      readText_flatMap readable cs (c :: acc) fuel rest (Nat.lt_of_succ_lt_succ h),
      List.reverse_cons, List.append_assoc, List.singleton_append]

theorem length_le_flatMap_quotedChar : ∀ cs : List Char, cs.length ≤ (cs.flatMap quotedChar).length
  | [] => le_rfl
  | c :: cs => by
    have hchar : 1 ≤ (quotedChar c).length := by
      unfold quotedChar
      split_ifs <;> simp
    have ih := length_le_flatMap_quotedChar cs
    rw [List.flatMap_cons, List.length_append, List.length_cons]
    omega

/-- A text between quotes is read up to its closing quote. -/
theorem readText_quoted (s : String) (rest : List Char) :
    readText true [] ((s.toList.flatMap quotedChar ++ '"' :: rest).length + 1)
      (s.toList.flatMap quotedChar ++ '"' :: rest) = some (some s, rest) := by
  have hlength := length_le_flatMap_quotedChar s.toList
  rw [readText_flatMap]
  · rw [List.reverse_nil, List.nil_append, String.ofList_toList]
    rfl
  · rw [List.length_append]
    omega

end Reader

end Json

end SimpleBinary
