import Mathlib
import SimpleBinary.Proofs.Numerals

/-!
# What of a source is code

A source of Rust or TypeScript is read character by character, and what is not code is left out:
comments, and what stands between the quotes of a literal (`Slashed.codeOf`).  Text that leads from
code back to code is read on its own (`Slashed.read_append`), so sources put together of lines that
have the same code have the same code (`Slashed.codeOf_joinLines`).
-/

namespace SimpleBinary

/-- The languages whose comments start with a slash. -/
inductive Slashed where
  | rust
  | typeScript
deriving DecidableEq, Repr

/-- What the next character of a source belongs to. -/
inductive Place where
  | code
  /-- Code behind a slash, which may be the first one of a comment. -/
  | slash
  | line
  | block (depth : Nat)
  /-- A block comment behind a star, which may be the first one of its end. -/
  | star (depth : Nat)
  /-- A block comment behind a slash, which may be the first one of a comment inside. -/
  | inner (depth : Nat)
  | literal (quote : Char)
  /-- A literal behind a backslash. -/
  | escape (quote : Char)
  | template
  /-- A template behind a backslash. -/
  | templateEscape
deriving DecidableEq, Repr

namespace Slashed

def language : Slashed → Language
  | .rust => .rust
  | .typeScript => .typeScript

/-- Whether a character is a quote of literals.  What is written in Rust has single quotes in front
of lifetimes only. -/
def isQuote : Slashed → Char → Bool
  | .rust, c => c == '"'
  | .typeScript, c => c == '"' || c == '\''

/-- Whether a character ends a comment that started with two slashes. -/
def endsLine : Slashed → Char → Bool
  | .rust, c => c == '\n'
  | .typeScript, c => c == '\n' || c == '\r' || c == '\u2028' || c == '\u2029'

/-- Whether a character ends a literal that is not closed before it. -/
def breaksLiteral : Slashed → Char → Bool
  | .rust, _ => false
  | .typeScript, c => c == '\n' || c == '\r'

variable (x : Slashed)

/-- What a character of code is followed by, and what is kept of it. -/
def stepCode (c : Char) : Place × List Char :=
  if c = '/' then (.slash, [])
  else if x.isQuote c then (.literal c, [c])
  else if c = '\x60' ∧ x = .typeScript then (.template, [c])
  else (.code, [c])

/-- What a character is followed by, and what is kept of it.  A blank stands for a block comment;
what is in a template is kept, because there may be code in it. -/
def step : Place → Char → Place × List Char
  | .code, c => x.stepCode c
  | .slash, c =>
    if c = '/' then (.line, [])
    else if c = '*' then (.block 0, [' '])
    else ((x.stepCode c).1, '/' :: (x.stepCode c).2)
  | .line, c => if x.endsLine c then (.code, [c]) else (.line, [])
  | .block depth, c =>
    if c = '*' then (.star depth, [])
    else if c = '/' ∧ x = .rust then (.inner depth, [])
    else (.block depth, [])
  | .star depth, c =>
    if c = '/' then (if depth = 0 then .code else .block (depth - 1), [])
    else if c = '*' then (.star depth, [])
    else (.block depth, [])
  | .inner depth, c =>
    if c = '*' then (.block (depth + 1), [])
    else if c = '/' then (.inner depth, [])
    else (.block depth, [])
  | .literal quote, c =>
    if c = quote then (.code, [c])
    else if c = '\\' then (.escape quote, [])
    else if x.breaksLiteral c then (.code, [c])
    else (.literal quote, [])
  | .escape quote, _ => (.literal quote, [])
  | .template, c =>
    if c = '\x60' then (.code, [c])
    else if c = '\\' then (.templateEscape, [c])
    else (.template, [c])
  | .templateEscape, c => (.template, [c])

/-- Where a text ends that starts at a place, and what is kept of it. -/
def read : Place → List Char → Place × List Char
  | p, [] => (p, [])
  | p, c :: cs => ((read (x.step p c).1 cs).1, (x.step p c).2 ++ (read (x.step p c).1 cs).2)

/-- A source without its comments, and with nothing between the quotes of its literals. -/
def codeOf (s : String) : String :=
  let (p, kept) := x.read .code s.toList
  String.ofList (if p = .slash then kept ++ ['/'] else kept)

theorem read_append (ds : List Char) : ∀ (p : Place) (cs : List Char), x.read p (cs ++ ds)
    = ((x.read (x.read p cs).1 ds).1, (x.read p cs).2 ++ (x.read (x.read p cs).1 ds).2)
  | _, [] => rfl
  | p, c :: cs => by
    have ih := read_append ds (x.step p c).1 cs
    rw [List.cons_append, read, ih, read, List.append_assoc]

/-- A text that leads from one place to another. -/
def Leads (p : Place) (s : String) (q : Place) : Prop := (x.read p s.toList).1 = q

/-- Two texts that lead from code back to code, and of which the same is kept. -/
def Alike (s t : String) : Prop :=
  ∃ kept, x.read .code s.toList = (.code, kept) ∧ x.read .code t.toList = (.code, kept)

/-- Lines that lead from code back to code, and of which the same is kept: none is empty for a line
that is not. -/
def AlikeLines (lines lines' : Lines) : Prop :=
  List.Forall₂ (fun s t => x.Alike (s ++ "\n") (t ++ "\n") ∧ (s = "" ↔ t = "")) lines lines'

/-- Lines of which those behind some that are alike are the same. -/
def SameCode (lines lines' : Lines) : Prop :=
  ∃ front front' rest, lines = front ++ rest ∧ lines' = front' ++ rest ∧ rest ≠ []
    ∧ x.AlikeLines front front'

variable {x} {p q r : Place} {s s' t t' : String} {lines lines' front front' : Lines}

/-! ## Texts -/

namespace Leads

theorem append (h : x.Leads p s q) (h' : x.Leads q t r) : x.Leads p (s ++ t) r := by
  unfold Leads at *
  rw [String.toList_append, read_append, h]
  exact h'

/-- A fixed text, by its characters: to take a text apart is slow. -/
theorem fixed {cs : List Char} (h : (x.read p cs).1 = q) : x.Leads p (String.ofList cs) q := by
  rwa [Leads, String.toList_ofList]

theorem stays (h : ∀ c ∈ s.toList, (x.step p c).1 = p) : x.Leads p s p := by
  unfold Leads
  generalize s.toList = cs at h
  induction cs with
  | nil => rfl
  | cons c cs ih =>
    obtain ⟨hc, hcs⟩ := List.forall_mem_cons.1 h
    rw [read, hc]
    exact ih hcs

theorem alike (h : x.Leads .code s .code) : x.Alike s s :=
  have hread : x.read .code s.toList = (.code, (x.read .code s.toList).2) := Prod.ext h rfl
  ⟨_, hread, hread⟩

end Leads

theorem Alike.append (h : x.Alike s t) (h' : x.Alike s' t') : x.Alike (s ++ s') (t ++ t') := by
  obtain ⟨kept, hs, ht⟩ := h
  obtain ⟨kept', hs', ht'⟩ := h'
  refine ⟨kept ++ kept', ?_, ?_⟩
  · rw [String.toList_append, read_append, hs, hs']
  · rw [String.toList_append, read_append, ht, ht']

/-- What leads from code back to code can be read on its own. -/
theorem codeOf_append {kept : List Char} (h : x.read .code s.toList = (.code, kept)) (t : String) :
    x.codeOf (s ++ t) = String.ofList kept ++ x.codeOf t := by
  unfold codeOf
  rw [String.toList_append, read_append, h]
  dsimp only
  split <;> simp [← String.ofList_append]

theorem leads_blanks (width : Nat) :
    x.Leads .code (String.ofList (List.replicate width ' ')) .code := by
  refine .stays fun c hc => ?_
  rw [String.toList_ofList] at hc
  rw [List.eq_of_mem_replicate hc]
  cases x <;> rfl

theorem leads_newline : x.Leads .code "\n" .code := by cases x <;> exact .fixed rfl

/-- A line that ends in a comment is over at its end. -/
theorem Leads.alike_comment (h : x.Leads .code s .line) : x.Alike (s ++ "\n") (s ++ "\n") := by
  have hend : x.Leads .line "\n" .code := by cases x <;> exact .fixed rfl
  exact (h.append hend).alike

/-! ## Lines -/

namespace AlikeLines

theorem nil : x.AlikeLines [] [] := List.Forall₂.nil

theorem cons (h : x.Alike (s ++ "\n") (t ++ "\n")) (hempty : s = "" ↔ t = "")
    (hlines : x.AlikeLines lines lines') : x.AlikeLines (s :: lines) (t :: lines') :=
  List.Forall₂.cons ⟨h, hempty⟩ hlines

theorem append (h : x.AlikeLines lines lines') (h' : x.AlikeLines front front') :
    x.AlikeLines (lines ++ front) (lines' ++ front') := List.rel_append h h'

theorem refl (h : ∀ line ∈ lines, x.Leads .code line .code) : x.AlikeLines lines lines := by
  induction lines with
  | nil => exact nil
  | cons line lines ih =>
    obtain ⟨hline, hlines⟩ := List.forall_mem_cons.1 h
    exact cons (hline.append leads_newline).alike .rfl (ih hlines)

theorem flatMap {α : Type} {as : List α} {f g : α → Lines}
    (h : ∀ a ∈ as, x.AlikeLines (f a) (g a)) : x.AlikeLines (as.flatMap f) (as.flatMap g) := by
  induction as with
  | nil => exact nil
  | cons a as ih =>
    obtain ⟨ha, has⟩ := List.forall_mem_cons.1 h
    exact append ha (ih has)

theorem indent (h : x.AlikeLines lines lines') (width : Nat) :
    x.AlikeLines (lines.indent width) (lines'.indent width) := by
  unfold AlikeLines Lines.indent
  rw [List.forall₂_map_left_iff, List.forall₂_map_right_iff]
  refine h.imp fun s t ⟨halike, hempty⟩ => ?_
  simp only [String.isEmpty_iff]
  by_cases hs : s = ""
  · rw [if_pos hs, if_pos (hempty.1 hs)]
    exact ⟨halike, hempty⟩
  · rw [if_neg hs, if_neg (mt hempty.2 hs), String.append_assoc, String.append_assoc]
    exact ⟨(leads_blanks width).alike.append halike, by simp [hempty]⟩

theorem braced {head tail : String} (hhead : x.Leads .code head .code)
    (htail : x.Leads .code tail .code) (h : x.AlikeLines lines lines') (width : Nat) :
    x.AlikeLines (Lines.braced width head lines tail) (Lines.braced width head lines' tail) := by
  have hopen : x.Leads .code " \x7b" .code := by cases x <;> exact .fixed rfl
  have hclose : x.Leads .code "\x7d" .code := by cases x <;> exact .fixed rfl
  exact append (cons ((hhead.append hopen).append leads_newline).alike .rfl (h.indent width))
    (cons ((hclose.append htail).append leads_newline).alike .rfl nil)

end AlikeLines

namespace SameCode

theorem of_alike (h : x.AlikeLines front front') {rest : Lines} (hrest : rest ≠ []) :
    x.SameCode (front ++ rest) (front' ++ rest) := ⟨_, _, _, rfl, rfl, hrest, h⟩

theorem append_right (h : x.SameCode lines lines') (rest : Lines) :
    x.SameCode (lines ++ rest) (lines' ++ rest) := by
  obtain ⟨front, front', back, rfl, rfl, hback, h⟩ := h
  rw [List.append_assoc, List.append_assoc]
  exact of_alike h (by simp [hback])

theorem append_left (h : x.AlikeLines front front') (hlines : x.SameCode lines lines') :
    x.SameCode (front ++ lines) (front' ++ lines') := by
  obtain ⟨front₂, front₂', back, rfl, rfl, hback, h₂⟩ := hlines
  rw [← List.append_assoc, ← List.append_assoc]
  exact of_alike (h.append h₂) hback

end SameCode

theorem joinLines_cons (line : String) {rest : Lines} (h : rest ≠ []) :
    joinLines (line :: rest) = line ++ "\n" ++ joinLines rest := by
  obtain ⟨next, rest, rfl⟩ := List.exists_cons_of_ne_nil h
  exact String.intercalate_cons_cons

/-- What lines in front have for code is the same whatever is behind them. -/
theorem AlikeLines.exists_kept (h : x.AlikeLines front front') :
    ∃ kept, ∀ {rest : Lines}, rest ≠ [] →
      x.codeOf (joinLines (front ++ rest)) = kept ++ x.codeOf (joinLines rest)
      ∧ x.codeOf (joinLines (front' ++ rest)) = kept ++ x.codeOf (joinLines rest) := by
  induction h with
  | nil => exact ⟨"", fun _ => by simp⟩
  | cons hline _ ih =>
    obtain ⟨⟨kept, hs, ht⟩, -⟩ := hline
    obtain ⟨others, hothers⟩ := ih
    refine ⟨String.ofList kept ++ others, fun hrest => ?_⟩
    rw [List.cons_append, List.cons_append, joinLines_cons _ (by simp [hrest]),
      joinLines_cons _ (by simp [hrest]), codeOf_append hs, codeOf_append ht, (hothers hrest).1,
      (hothers hrest).2, String.append_assoc]
    exact ⟨rfl, rfl⟩

theorem codeOf_joinLines (h : x.SameCode lines lines') :
    x.codeOf (joinLines lines) = x.codeOf (joinLines lines') := by
  obtain ⟨front, front', rest, rfl, rfl, hrest, halike⟩ := h
  obtain ⟨kept, hkept⟩ := halike.exists_kept
  rw [(hkept hrest).1, (hkept hrest).2]

end Slashed

/-! ## Bland texts -/

/-- The characters of which one may start something else than code. -/
def marks : List Char := ['/', '"', '\'', '\x60']

theorem of_mem_marks {c : Char} (h : c ∈ marks) :
    ¬ isIdentifierRest c ∧ ¬ c.isDigit ∧ c ∉ ['.', 'e', '-'] := by
  simp only [marks, List.mem_cons, List.not_mem_nil, or_false] at h
  rcases h with rfl | rfl | rfl | rfl <;> decide

/-- A text that is code whatever is around it. -/
def Bland (s : String) : Prop := ∀ c ∈ marks, c ∉ s.toList

namespace Bland

variable {s t : String}

theorem append (hs : Bland s) (ht : Bland t) : Bland (s ++ t) :=
  fun c hc => notMem_append (hs c hc) (ht c hc)

theorem fixed {cs : List Char} (h : cs.all fun c => !marks.contains c) :
    Bland (String.ofList cs) := by
  intro c hc hmem
  rw [String.toList_ofList] at hmem
  have hother := List.all_eq_true.1 h c hmem
  simp [hc] at hother

theorem of_plain (h : IsPlain s) : Bland s := fun _ hc => h.notMem (of_mem_marks hc).1

theorem nat (n : Nat) : Bland (toString n) := fun _ hc => notMem_toString (of_mem_marks hc).2.1 n

theorem int (i : Int) : Bland (toString i) := fun c hc =>
  notMem_toString_int ⟨(of_mem_marks hc).2.1, fun he => (of_mem_marks hc).2.2 (by simp [he])⟩ i

theorem place (h : Bland s) (n : Nat) : Bland (placeText s n) := by
  unfold placeText
  split
  · exact nat n
  · split
    · exact h
    · exact (h.append (.fixed rfl)).append (nat n)

end Bland

theorem Decimal.isDigit_of_mem_toDigits {c : Char} {k : Nat} (hc : c ∈ Nat.toDigits 10 k) :
    c.isDigit :=
  Nat.isDigit_of_mem_toDigits (by decide) (by decide) hc

theorem Decimal.isDigit_of_mem_zeros {c : Char} {k : Nat} (hc : c ∈ List.replicate k '0') :
    c.isDigit := by
  rw [List.eq_of_mem_replicate hc]
  decide

theorem Decimal.of_mem_positional {d : Decimal} {c : Char}
    (h : c ∈ d.positional) : c.isDigit ∨ c ∈ ['.', 'e', '-'] := by
  unfold positional at h
  split at h
  · simp only [List.mem_append, List.mem_cons, List.not_mem_nil, or_false] at h
    rcases h with (h | h) | rfl | rfl
    · exact .inl (isDigit_of_mem_toDigits h)
    · exact .inl (isDigit_of_mem_zeros h)
    · exact .inr (by decide)
    · exact .inl (by decide)
  · dsimp only at h
    split at h
    · simp only [List.mem_append, List.mem_cons] at h
      rcases h with h | rfl | h
      · exact .inl (isDigit_of_mem_toDigits (List.mem_of_mem_take h))
      · exact .inr (by decide)
      · exact .inl (isDigit_of_mem_toDigits (List.mem_of_mem_drop h))
    · simp only [List.cons_append, List.mem_append, List.mem_cons] at h
      rcases h with rfl | rfl | h | h
      · exact .inl (by decide)
      · exact .inr (by decide)
      · exact .inl (isDigit_of_mem_zeros h)
      · exact .inl (isDigit_of_mem_toDigits h)

theorem Decimal.of_mem_scientific {d : Decimal} {c : Char}
    (h : c ∈ d.scientific) : c.isDigit ∨ c ∈ ['.', 'e', '-'] := by
  have hexponent : c ∈ (toString d.leading).toList → c.isDigit ∨ c ∈ ['.', 'e', '-'] := by
    intro hc
    by_contra hother
    rw [not_or] at hother
    exact notMem_toString_int ⟨hother.1, fun he => hother.2 (by simp [he])⟩ _ hc
  have hmantissa : ∀ {c : Char}, c ∈ Nat.toDigits 10 d.digits → c.isDigit :=
    isDigit_of_mem_toDigits
  unfold scientific at h
  split at h
  · exact absurd h List.not_mem_nil
  · rename_i first hds
    rw [hds] at hmantissa
    simp only [List.mem_cons] at h
    rcases h with rfl | rfl | h
    · exact .inl (hmantissa List.mem_cons_self)
    · exact .inr (by decide)
    · exact hexponent h
  · rename_i first others hds
    rw [hds] at hmantissa
    simp only [List.cons_append, List.mem_append, List.mem_cons] at h
    rcases h with rfl | rfl | h | rfl | h
    · exact .inl (hmantissa List.mem_cons_self)
    · exact .inr (by decide)
    · exact .inl (hmantissa (List.mem_cons_of_mem _ h))
    · exact .inr (by decide)
    · exact hexponent h

/-- A decimal is written in digits, with a point, and with an exponent behind a letter. -/
theorem Decimal.of_mem_render {n : FloatNotation} {d : Decimal} {c : Char} (h : c ∈ d.render n) :
    c.isDigit ∨ c ∈ ['.', 'e', '-'] := by
  unfold render at h
  split at h
  · exact of_mem_positional h
  · exact of_mem_scientific h

theorem Bland.float {names : FloatNames} (hnan : Bland names.nan) (hinfinite : Bland names.infinite)
    (hnegative : Bland names.negativeInfinite) (x : Binary64) : Bland (names.text x) := by
  unfold FloatNames.text
  split
  · exact hnan
  · split
    · exact hnegative
    · exact hinfinite
  · rename_i negative m e hdatum
    intro c hc hmem
    have hother := (of_mem_marks hc).2
    have hdigits : ∀ d : Decimal, c ∉ if m = 0 then ['0', '.', '0'] else d.render .literal := by
      intro d hd
      split at hd
      · simp only [List.mem_cons, List.not_mem_nil, or_false] at hd
        rcases hd with rfl | rfl | rfl
        · exact hother.1 (by decide)
        · exact hother.2 (by decide)
        · exact hother.1 (by decide)
      · exact (Decimal.of_mem_render hd).elim hother.1 hother.2
    unfold Binary64.render at hmem
    rw [hdatum] at hmem
    dsimp only at hmem
    rw [String.toList_ofList] at hmem
    split at hmem
    · rcases List.mem_cons.1 hmem with rfl | hmem
      · exact hother.2 (by decide)
      · exact hdigits _ hmem
    · exact hdigits _ hmem

/-- A literal is written as a bland text, if the names of floats are. -/
theorem Bland.number {names : FloatNames} (hnan : Bland names.nan)
    (hinfinite : Bland names.infinite) (hnegative : Bland names.negativeInfinite)
    (hzero : Bland names.zero) (v : Literal) (p : Primitive) : Bland (v.sourceNumber names p) := by
  unfold Literal.sourceNumber
  split
  · split
    · exact .float hnan hinfinite hnegative _
    · exact hzero
  · exact .int _

/-! ## Texts of free characters -/

/-- A text without a line end. -/
def IsLine (s : String) : Prop := '\n' ∉ s.toList ∧ '\r' ∉ s.toList

theorem isLine_fixed {cs : List Char} (h : cs.all fun c => c != '\n' && c != '\r') :
    IsLine (String.ofList cs) := by
  rw [List.all_eq_true] at h
  constructor <;>
    · rw [String.toList_ofList]
      exact fun hmem => absurd (h _ hmem) (by decide)

theorem isLine_empty : IsLine "" := isLine_fixed rfl

theorem IsLine.int (i : Int) : IsLine (toString i) :=
  ⟨notMem_toString_int (by decide) i, notMem_toString_int (by decide) i⟩

theorem IsLine.of_plain {s : String} (h : IsPlain s) : IsLine s :=
  ⟨h.notMem (by decide), h.notMem (by decide)⟩

theorem IsLine.append {s t : String} (hs : IsLine s) (ht : IsLine t) : IsLine (s ++ t) :=
  ⟨notMem_append hs.1 ht.1, notMem_append hs.2 ht.2⟩

namespace Slashed

variable {x : Slashed} {p : Place} {s t : String} {quote : Char}

theorem Leads.bland (h : Bland s) : x.Leads .code s .code := by
  refine .stays fun c hc => ?_
  have hmark : ∀ d ∈ marks, c ≠ d := fun d hd he => h d hd (he ▸ hc)
  simp only [marks, List.forall_mem_cons] at hmark
  obtain ⟨hslash, hdouble, hsingle, htemplate, -⟩ := hmark
  cases x <;> simp [step, stepCode, isQuote, hslash, hdouble, hsingle, htemplate]

theorem Leads.plain_literal (h : IsPlain s) (hquote : ¬ isIdentifierRest quote) :
    x.Leads (.literal quote) s (.literal quote) := by
  refine .stays fun c hc => ?_
  have hother : ∀ d, ¬ isIdentifierRest d → c ≠ d := fun d hd he => hd (he ▸ h c hc)
  have hbreak : x.breaksLiteral c = false := by
    cases x <;> simp [breaksLiteral, hother '\n' (by decide), hother '\r' (by decide)]
  simp [step, hother quote hquote, hother '\\' (by decide), hbreak]

theorem Leads.plain_template (h : IsPlain s) : x.Leads .template s .template := by
  refine .stays fun c hc => ?_
  have hother : ∀ d, ¬ isIdentifierRest d → c ≠ d := fun d hd he => hd (he ▸ h c hc)
  simp [step, hother '\x60' (by decide), hother '\\' (by decide)]

/-! ## Literals -/

theorem read_flatMap {f : Char → List Char} : ∀ {cs : List Char},
    (∀ c ∈ cs, x.read p (f c) = (p, [])) → x.read p (cs.flatMap f) = (p, [])
  | [], _ => rfl
  | c :: cs, h => by
    obtain ⟨hc, hcs⟩ := List.forall_mem_cons.1 h
    rw [List.flatMap_cons, read_append, hc, read_flatMap hcs]
    rfl

theorem step_literal {c : Char} (hquote : c ≠ quote) (hescape : c ≠ '\\')
    (hbreak : x.breaksLiteral c = false) : x.step (.literal quote) c = (.literal quote, []) := by
  simp [step, hquote, hescape, hbreak]

theorem breaksLiteral_eq_false {c : Char} (hfeed : c ≠ '\n') (hreturn : c ≠ '\r') :
    x.breaksLiteral c = false := by
  cases x <;> simp [breaksLiteral, hfeed, hreturn]

/-- Between single quotes a text without line ends is part of the literal. -/
theorem read_singleQuoted (h : IsLine s) :
    typeScript.read .code (TypeScript.singleQuoted s).toList = (.code, ['\'', '\'']) := by
  unfold TypeScript.singleQuoted
  rw [String.toList_ofList, List.cons_append, read, read_append, read_flatMap]
  · rfl
  · intro c hc
    split
    · rfl
    · rename_i hother
      rw [not_or] at hother
      have hbreak : typeScript.breaksLiteral c = false :=
        breaksLiteral_eq_false (fun he => h.1 (he ▸ hc)) fun he => h.2 (he ▸ hc)
      show typeScript.read (.literal '\'') [c] = _
      rw [read, step_literal hother.2 hother.1 hbreak]
      rfl

theorem alike_singleQuoted (hs : IsLine s) (ht : IsLine t) :
    typeScript.Alike (TypeScript.singleQuoted s) (TypeScript.singleQuoted t) :=
  ⟨_, read_singleQuoted hs, read_singleQuoted ht⟩

theorem leads_singleQuoted (h : IsLine s) :
    typeScript.Leads .code (TypeScript.singleQuoted s) .code :=
  congrArg Prod.fst (read_singleQuoted h)

/-- A character between double quotes is part of the literal in the form that it is written in. -/
theorem read_quotedChar (c : Char) :
    typeScript.read (.literal '"') (quotedChar c) = (.literal '"', []) := by
  have hhex : ∀ n, typeScript.step (.literal '"') (hexDigit (n % 16)) = (.literal '"', []) := by
    intro n
    have hdigit : ∀ m < 16, hexDigit m ≠ '"' ∧ hexDigit m ≠ '\\' ∧ hexDigit m ≠ '\n'
        ∧ hexDigit m ≠ '\r' := by decide +kernel
    obtain ⟨hquote, hescape, hfeed, hreturn⟩ := hdigit (n % 16) (Nat.mod_lt _ (by decide))
    exact step_literal hquote hescape (breaksLiteral_eq_false hfeed hreturn)
  have hfour : typeScript.read (.literal '"') (hex4 c.toNat) = (.literal '"', []) := by
    simp [hex4, read, hhex]
  unfold quotedChar
  split_ifs with hquote hescape hfeed _ hreturn
  all_goals first
    | rfl
    | exact hfour
    | rw [read, step_literal hquote hescape (breaksLiteral_eq_false hfeed hreturn)]; rfl

theorem leads_quoted (s : String) : typeScript.Leads .code (quoted s) .code := by
  unfold Leads quoted
  rw [String.toList_ofList, List.cons_append, read, read_append, read_flatMap]
  · rfl
  · exact fun c _ => read_quotedChar c

/-! ## Comments -/

theorem read_line {cs : List Char} (h : ∀ c ∈ cs, x.endsLine c = false) :
    x.read .line cs = (.line, []) := by
  induction cs with
  | nil => rfl
  | cons c cs ih =>
    obtain ⟨hc, hcs⟩ := List.forall_mem_cons.1 h
    rw [read, step, hc, if_neg Bool.false_ne_true, ih hcs]
    rfl

/-- Behind the slashes of a comment, and in front of the line end, a text without one is part of
the comment. -/
theorem read_comment {front back : String} {kept : List Char}
    (hfront : x.read .code front.toList = (.line, []))
    (hback : x.read .line back.toList = (.code, kept)) (hs : ∀ c ∈ s.toList, x.endsLine c = false) :
    x.read .code (front ++ s ++ back).toList = (.code, kept) := by
  simp [String.toList_append, read_append, hfront, hback, read_line hs]

/-- Inside of a comment a text that does not end it leads nowhere else, but for a star at its
end. -/
theorem read_block : ∀ {cs : List Char},
    (¬ ['*', '/'] <:+: cs → typeScript.read (.block 0) cs = (.block 0, [])
      ∨ typeScript.read (.block 0) cs = (.star 0, []))
    ∧ (¬ ['*', '/'] <:+: '*' :: cs → typeScript.read (.star 0) cs = (.block 0, [])
      ∨ typeScript.read (.star 0) cs = (.star 0, []))
  | [] => ⟨fun _ => .inl rfl, fun _ => .inr rfl⟩
  | c :: cs => by
    obtain ⟨ihBlock, ihStar⟩ := @read_block cs
    by_cases hstar : c = '*'
    · subst hstar
      refine ⟨fun h => ?_, fun h => ?_⟩
      · exact ihStar h
      · exact ihStar fun hcs => h (hcs.trans (List.suffix_cons _ _).isInfix)
    · have hrest : ¬ ['*', '/'] <:+: c :: cs → ¬ ['*', '/'] <:+: cs :=
        fun h hcs => h (hcs.trans (List.suffix_cons _ _).isInfix)
      refine ⟨fun h => ?_, fun h => ?_⟩
      · have hstep : typeScript.step (.block 0) c = (.block 0, []) := by simp [step, hstar]
        rw [read, hstep]
        exact ihBlock (hrest h)
      · have hslash : c ≠ '/' := by
          rintro rfl
          exact h ⟨[], cs, rfl⟩
        have hstep : typeScript.step (.star 0) c = (.block 0, []) := by
          simp [step, hstar, hslash]
        rw [read, hstep]
        exact ihBlock (hrest fun hcs => h (hcs.trans (List.suffix_cons _ _).isInfix))

/-- A block comment is left out up to its end. -/
theorem read_blockComment {back : String} {kept : List Char} (hs : ¬ ['*', '/'] <:+: s.toList)
    (hback : ∀ p ∈ [Place.block 0, .star 0], typeScript.read p back.toList = (.code, kept)) :
    typeScript.read .code ("/** " ++ s ++ back).toList = (.code, ' ' :: kept) := by
  have hfront : typeScript.read .code "/** ".toList = (.block 0, [' ']) := by decide
  rw [String.toList_append, String.toList_append, read_append, read_append, hfront]
  rcases read_block.1 hs with hread | hread
  · dsimp only
    rw [hread, hback (.block 0) (by simp)]
    rfl
  · dsimp only
    rw [hread, hback (.star 0) (by simp)]
    rfl

end Slashed

end SimpleBinary
