import Mathlib
import SimpleBinary.Proofs.Scopes

/-!
# Numerals in sources

A line gives a name to a number where it declares a constant, where it makes a member null, and in
the arms of a match on both sides (`Language.number?`).  What is read there is a signed decimal
numeral, in Rust and Python also the one that a list repeats.
-/

namespace SimpleBinary

/-! ## Numerals -/

/-- The numeral that a text starts with; with a point behind its digits it is no natural. -/
def leadingNat? (cs : List Char) : Option Nat :=
  match cs.takeWhile Char.isDigit, cs.dropWhile Char.isDigit with
  | [], _ => none
  | _, '.' :: _ => none
  | ds, _ => some (Nat.ofDigitChars 10 ds 0)

def leadingInt? : List Char → Option Int
  | '-' :: cs => (leadingNat? cs).map fun n => -n
  | cs => (leadingNat? cs).map fun n => n

/-- The integer of a text, behind blanks and the bracket that opens a list. -/
def numeral? (cs : List Char) : Option Int :=
  match cs.dropWhile (· == ' ') with
  | '[' :: cs => leadingInt? cs
  | cs => leadingInt? cs

/-- What ends a numeral: neither a digit nor a point. -/
def EndsNumeral (cs : List Char) : Prop := ∀ c ∈ cs.head?, ¬ c.isDigit ∧ c ≠ '.'

theorem endsNumeral_mark {c : Char} {cs : List Char} (h : ¬ c.isDigit ∧ c ≠ '.') :
    EndsNumeral (c :: cs) := by
  intro d hd
  cases hd
  exact h

theorem endsNumeral_nil : EndsNumeral [] := fun _ h => by cases h

section

variable {cs rest : List Char}

theorem leadingNat?_toDigits (n : Nat) (h : EndsNumeral rest) :
    leadingNat? (Nat.toDigits 10 n ++ rest) = some n := by
  have hdigits : ∀ c ∈ Nat.toDigits 10 n, c.isDigit :=
    fun c hc => Nat.isDigit_of_mem_toDigits (by decide) (by decide) hc
  have htake : (Nat.toDigits 10 n ++ rest).takeWhile Char.isDigit = Nat.toDigits 10 n := by
    rw [List.takeWhile_append_of_pos hdigits]
    cases rest with
    | nil => simp
    | cons c cs => rw [List.takeWhile_cons_of_neg (h c rfl).1, List.append_nil]
  have hdrop : (Nat.toDigits 10 n ++ rest).dropWhile Char.isDigit = rest := by
    rw [List.dropWhile_append_of_pos hdigits]
    cases rest with
    | nil => rfl
    | cons c cs => rw [List.dropWhile_cons_of_neg (h c rfl).1]
  unfold leadingNat?
  rw [htake, hdrop]
  split
  · rename_i hnil
    exact absurd hnil Nat.toDigits_ne_nil
  · exact absurd rfl (h '.' rfl).2
  · rw [Nat.ofDigitChars_toDigits (by decide) (by decide)]

theorem toList_toString_nat (n : Nat) : (toString n).toList = Nat.toDigits 10 n := Nat.toList_repr

/-- A number that is written is read again. -/
theorem leadingInt?_toString (i : Int) (h : EndsNumeral rest) :
    leadingInt? ((toString i).toList ++ rest) = some i := by
  cases i with
  | ofNat n =>
    have htext : (toString (Int.ofNat n)).toList = Nat.toDigits 10 n := toList_toString_nat n
    rw [htext]
    have hread := leadingNat?_toDigits n h
    cases hd : Nat.toDigits 10 n with
    | nil => exact absurd hd Nat.toDigits_ne_nil
    | cons d ds =>
      have hne : d ≠ '-' := by
        rintro rfl
        exact absurd (Nat.isDigit_of_mem_toDigits (by decide) (by decide)
          (hd ▸ List.mem_cons_self)) (by decide)
      rw [hd] at hread
      rw [List.cons_append, leadingInt?]
      · rw [← List.cons_append, hread]
        rfl
      · exact fun cs hcs => hne (List.cons.inj hcs).1
  | negSucc n =>
    have htext : (toString (Int.negSucc n)).toList = '-' :: Nat.toDigits 10 (n + 1) := by
      show ("-" ++ toString (n + 1)).toList = _
      rw [String.toList_append, toList_toString_nat]
      rfl
    rw [htext, List.cons_append, leadingInt?, leadingNat?_toDigits _ h]
    rfl

theorem exists_head_toString (i : Int) :
    ∃ c cs, (toString i).toList = c :: cs ∧ c ≠ ' ' ∧ c ≠ '[' := by
  cases i with
  | ofNat n =>
    have htext : (toString (Int.ofNat n)).toList = Nat.toDigits 10 n := toList_toString_nat n
    rw [htext]
    obtain ⟨d, ds, hd⟩ := List.exists_cons_of_ne_nil (Nat.toDigits_ne_nil (b := 10) (n := n))
    have hdigit : d.isDigit :=
      Nat.isDigit_of_mem_toDigits (by decide) (by decide) (hd ▸ List.mem_cons_self)
    refine ⟨d, ds, hd, ?_, ?_⟩ <;> rintro rfl <;> exact absurd hdigit (by decide)
  | negSucc n =>
    refine ⟨'-', (toString (n + 1)).toList, ?_, by decide, by decide⟩
    show ("-" ++ toString (n + 1)).toList = _
    rw [String.toList_append]
    rfl

theorem notMem_toString_int {c : Char} (h : ¬ c.isDigit ∧ c ≠ '-') (i : Int) :
    c ∉ (toString i).toList := by
  cases i with
  | ofNat n => exact notMem_toString h.1 n
  | negSucc n =>
    show c ∉ ("-" ++ toString (n + 1)).toList
    rw [String.toList_append, List.mem_append]
    exact not_or.2 ⟨fun hc => h.2 (List.mem_singleton.1 hc), notMem_toString h.1 (n + 1)⟩

theorem numeral?_blank (cs : List Char) : numeral? (' ' :: cs) = numeral? cs := rfl

theorem numeral?_toString (i : Int) (h : EndsNumeral rest) :
    numeral? ((toString i).toList ++ rest) = some i := by
  obtain ⟨c, cs, hcs, hblank, hbracket⟩ := exists_head_toString i
  have hread := leadingInt?_toString i h
  rw [hcs, List.cons_append] at hread ⊢
  rw [numeral?, List.dropWhile_cons_of_neg (by simpa using hblank)]
  split
  · rename_i ds hds
    exact absurd (List.cons.inj hds).1 hbracket
  · exact hread

theorem numeral?_bracket (i : Int) (h : EndsNumeral rest) :
    numeral? ('[' :: ((toString i).toList ++ rest)) = some i := leadingInt?_toString i h

end

/-! ## Lines -/

/-- Where a line gives a name to a number: in a constant, in what makes a member null, and in a
match in the arm that reads the number or the one that writes it. -/
inductive NumberPlace where
  | constant
  | null
  | read
  | written
deriving DecidableEq

namespace Language

/-- The name and the number on a line. -/
def number? (language : Language) (place : NumberPlace) (line : String) : Option (String × Int) :=
  let cs := line.toList.dropWhile (· == ' ')
  match place with
  | .constant => do
    let name ← declaredName? line
    let (_, text) ← marked? '=' line.toList
    return (name, ← numeral? text)
  | .null => do
    let (name, text) ← marked? (if language = .python then '=' else ':') cs
    return (String.ofList name, ← numeral? text)
  | .read => do
    let (number, arm) ← marked? '=' cs
    let name ← arm.dropPrefix? ['>', ' ', 'S', 'e', 'l', 'f', ':', ':']
    return (String.ofList (name.takeWhile isIdentifierRest), ← numeral? number)
  | .written => do
    let (arm, number) ← marked? '=' cs
    let name ← arm.dropPrefix? ['S', 'e', 'l', 'f', ':', ':']
    return (String.ofList (name.takeWhile isIdentifierRest), ← numeral? (number.drop 1))

variable {language : Language} {line name : String}

theorem isEmpty_of_number? {place : NumberPlace} {p : String × Int}
    (h : language.number? place line = some p) : line.isEmpty = false := by
  rw [Bool.eq_false_iff, ne_eq, String.isEmpty_iff]
  rintro rfl
  cases place <;> simp [number?, marked?, declaredName?] at h

/-- A line that declares a name declares it and no other. -/
theorem declaredName?_of_names (h : language.names [line] = [name]) :
    declaredName? line = some name := by
  rw [names, Lines.outer, List.filter_cons] at h
  split at h
  · cases hd : declaredName? line with
    | none => simp [hd] at h
    | some name' =>
      rw [List.filterMap_cons_some hd] at h
      rw [(List.cons.inj h).1]
  · simp at h

theorem number?_constant {front tail : String} {i : Int} (hname : language.names [line] = [name])
    (hline : line = front ++ " = " ++ toString i ++ tail) (hfront : '=' ∉ front.toList)
    (htail : EndsNumeral tail.toList) : language.number? .constant line = some (name, i) := by
  have hmark : marked? '=' line.toList
      = some (front.toList ++ [' '], ' ' :: ((toString i).toList ++ tail.toList)) := by
    have hblank : '=' ∉ front.toList ++ [' '] := by simp [hfront]
    rw [← marked?_append hblank, hline]
    simp
  simp only [number?, declaredName?_of_names hname, hmark, numeral?_blank,
    numeral?_toString i htail, Option.bind_eq_bind, Option.bind_some]
  rfl

/-- Blanks in front of a line are none of it. -/
theorem number?_blanks {place : NumberPlace} (hplace : place ≠ .constant) (width : Nat) :
    language.number? place (String.ofList (List.replicate width ' ') ++ line)
      = language.number? place line := by
  have hblanks : (String.ofList (List.replicate width ' ') ++ line).toList.dropWhile (· == ' ')
      = line.toList.dropWhile (· == ' ') := by
    rw [String.toList_append, String.toList_ofList, List.dropWhile_append_of_pos]
    intro c hc
    rw [List.eq_of_mem_replicate hc]
    rfl
  cases place with
  | constant => exact absurd rfl hplace
  | null | read | written => simp only [number?, hblanks]

/-- A name and what stands behind a mark. -/
theorem number?_null {rest : List Char} {i : Int} {mark : Char}
    (hmark : mark = if language = .python then '=' else ':') (hname : IsPlain name)
    (hline : line.toList = name.toList ++ mark :: rest) (hrest : numeral? rest = some i) :
    language.number? .null line = some (name, i) := by
  have hmarks : mark ≠ ' ' ∧ ¬ isIdentifierRest mark := by
    rw [hmark]
    split <;> decide
  have hdrop : line.toList.dropWhile (· == ' ') = name.toList ++ mark :: rest := by
    rw [hline]
    cases hn : name.toList with
    | nil => exact List.dropWhile_cons_of_neg (by simpa using hmarks.1)
    | cons c cs =>
      have hc : c ≠ ' ' := by
        rintro rfl
        exact absurd (hname ' ' (hn ▸ List.mem_cons_self)) (by decide)
      exact List.dropWhile_cons_of_neg (by simpa using hc)
  simp only [number?, hdrop, ← hmark, marked?_append (hname.notMem hmarks.2), hrest,
    Option.bind_eq_bind, Option.bind_some, String.ofList_toList]
  rfl

/-- The arm of a match that a number is read by. -/
theorem number?_read (hname : IsPlain name) (i : Int) :
    language.number? .read s!"{i} => Self::{name}," = some (name, i) := by
  have hline : (s!"{i} => Self::{name},").toList = ((toString i).toList ++ [' '])
      ++ '=' :: (['>', ' ', 'S', 'e', 'l', 'f', ':', ':'] ++ (name.toList ++ [','])) := by
    simp [toString]
  have hdrop : (s!"{i} => Self::{name},").toList.dropWhile (· == ' ')
      = (s!"{i} => Self::{name},").toList := by
    obtain ⟨c, cs, hcs, hblank, -⟩ := exists_head_toString i
    rw [hline, hcs]
    exact List.dropWhile_cons_of_neg (by simpa using hblank)
  have hmark : '=' ∉ (toString i).toList ++ [' '] := fun hmem =>
    (List.mem_append.1 hmem).elim (notMem_toString_int (by decide) i) (by simp)
  have hnumber : numeral? ((toString i).toList ++ [' ']) = some i :=
    numeral?_toString i (endsNumeral_mark (by decide))
  have hword : (name.toList ++ [',']).takeWhile isIdentifierRest = name.toList := by
    rw [List.takeWhile_append_of_pos hname, List.takeWhile_cons_of_neg (by decide), List.append_nil]
  simp only [number?, hdrop]
  rw [hline]
  simp only [marked?_append hmark, dropPrefix?_append, hword, hnumber, Option.bind_eq_bind,
    Option.bind_some, String.ofList_toList]
  rfl

/-- The arm of a match that a number is written by. -/
theorem number?_written (hname : IsPlain name) (i : Int) :
    language.number? .written s!"Self::{name} => {i}," = some (name, i) := by
  have hline : (s!"Self::{name} => {i},").toList
      = (['S', 'e', 'l', 'f', ':', ':'] ++ (name.toList ++ [' ']))
        ++ '=' :: '>' :: ' ' :: ((toString i).toList ++ [',']) := by
    simp [toString]
  have hdrop : (s!"Self::{name} => {i},").toList.dropWhile (· == ' ')
      = (s!"Self::{name} => {i},").toList := by
    rw [hline]
    exact List.dropWhile_cons_of_neg (by decide)
  have hmark : '=' ∉ ['S', 'e', 'l', 'f', ':', ':'] ++ (name.toList ++ [' ']) := by
    have hmember := hname.notMem (c := '=') (by decide)
    simp [hmember]
  have hnumber : numeral? ((toString i).toList ++ [',']) = some i :=
    numeral?_toString i (endsNumeral_mark (by decide))
  have hword : (name.toList ++ [' ']).takeWhile isIdentifierRest = name.toList := by
    rw [List.takeWhile_append_of_pos hname, List.takeWhile_cons_of_neg (by decide), List.append_nil]
  simp only [number?, hdrop]
  rw [hline]
  simp only [marked?_append hmark, dropPrefix?_append, hword, List.drop_succ_cons, List.drop_zero,
    numeral?_blank, hnumber, Option.bind_eq_bind, Option.bind_some, String.ofList_toList]
  rfl

/-- Lines of which one gives a name to a number. -/
def HasNumber (language : Language) (lines : Lines) (place : NumberPlace) (p : String × Int) : Prop :=
  ∃ line ∈ lines, language.number? place line = some p

namespace HasNumber

variable {lines lines' : Lines} {place : NumberPlace} {p : String × Int}

theorem mono (h : language.HasNumber lines place p) (hsub : lines ⊆ lines') :
    language.HasNumber lines' place p := by
  obtain ⟨line, hline, hp⟩ := h
  exact ⟨line, hsub hline, hp⟩

theorem append_left (h : language.HasNumber lines place p) (lines' : Lines) :
    language.HasNumber (lines ++ lines') place p := h.mono (List.subset_append_left _ _)

theorem append_right (h : language.HasNumber lines' place p) (lines : Lines) :
    language.HasNumber (lines ++ lines') place p := h.mono (List.subset_append_right _ _)

theorem filter (h : language.HasNumber lines place p) :
    language.HasNumber (lines.filter (!·.isEmpty)) place p := by
  obtain ⟨line, hline, hp⟩ := h
  exact ⟨line, List.mem_filter.2 ⟨hline, by rw [isEmpty_of_number? hp]; rfl⟩, hp⟩

theorem indent (h : language.HasNumber lines place p) (hplace : place ≠ .constant) (width : Nat) :
    language.HasNumber (Lines.indent width lines) place p := by
  obtain ⟨line, hline, hp⟩ := h
  refine ⟨_, List.mem_map_of_mem hline, ?_⟩
  rw [isEmpty_of_number? hp]
  exact (number?_blanks hplace width).trans hp

theorem braced (h : language.HasNumber lines place p) (hplace : place ≠ .constant) (width : Nat)
    (head tail : String) : language.HasNumber (Lines.braced width head lines tail) place p :=
  ((h.indent hplace width).mono (List.subset_cons_self _ _)).append_left _

end HasNumber

end Language

/-! ## Literals -/

/-- An integer is written in digits. -/
theorem Literal.sourceNumber_eq_toString {p : Primitive} (h : p.kind ≠ .float) (v : Literal)
    (names : FloatNames) : v.sourceNumber names p = toString (v.sourceInt p.kind) := by
  unfold sourceNumber
  split
  · rename_i hkind
    exact absurd hkind h
  · rfl

end SimpleBinary
