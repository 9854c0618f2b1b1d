import Mathlib
import SimpleBinary.Proofs.Initializers

/-!
# Scopes of sources

A struct, an interface, a class, an enum and an implementation is a line that is not indented with
the lines inside it behind it, and what it declares stands at the first indentation
(`Language.scopes`, `Scope.names`).
-/

namespace SimpleBinary

/-! ## Blocks -/

namespace Lines

/-- A line that is not indented and the lines behind it that are, without their first
indentation. -/
structure Block where
  head : String
  body : Lines

/-- Whether a line is indented. -/
def isInner (width : Nat) (line : String) : Bool :=
  (List.replicate width ' ').isPrefixOf line.toList

/-- The blocks of lines, behind the indented lines that come before the first one. -/
def blocks (width : Nat) : Lines → Lines × List Block
  | [] => ([], [])
  | line :: lines =>
    let (front, rest) := blocks width lines
    if line.isEmpty then (front, rest)
    else if isInner width line then (String.ofList (line.toList.drop width) :: front, rest)
    else ([], ⟨line, front⟩ :: rest)

/-- The lines that are not indented and not empty. -/
def outer (width : Nat) (lines : Lines) : Lines :=
  lines.filter fun line => !line.isEmpty && !isInner width line

variable {width : Nat} {line : String} {lines lines' : Lines} {bs bs' : List Block}

/-- A line that is not indented, neither empty. -/
structure IsOuter (width : Nat) (line : String) : Prop where
  isEmpty : line.isEmpty = false
  isInner : isInner width line = false

theorem isOuter_of_head? {c : Char} (h : line.toList.head? = some c) (hc : c ≠ ' ')
    (hwidth : 0 < width) : IsOuter width line := by
  obtain ⟨w, rfl⟩ := Nat.exists_eq_succ_of_ne_zero hwidth.ne'
  obtain ⟨cs, hcs⟩ : ∃ cs, line.toList = c :: cs := by
    cases hline : line.toList with
    | nil => simp [hline] at h
    | cons d ds => exact ⟨ds, by simpa [hline] using h⟩
  constructor
  · rw [Bool.eq_false_iff, ne_eq, String.isEmpty_iff]
    rintro rfl
    cases hcs
  · rw [isInner, hcs, List.replicate_succ, List.isPrefixOf_cons_cons, beq_false_of_ne hc.symm,
      Bool.false_and]

theorem blocks_cons (h : IsOuter width line) (lines : Lines) : blocks width (line :: lines)
    = ([], ⟨line, (blocks width lines).1⟩ :: (blocks width lines).2) := by
  simp [blocks, h.isEmpty, h.isInner]

theorem blocks_indent (rest : Lines) : ∀ body : Lines, blocks width (indent width body ++ rest)
    = (body.filter (!·.isEmpty) ++ (blocks width rest).1, (blocks width rest).2)
  | [] => rfl
  | line :: body => by
    have ih := blocks_indent rest body
    by_cases hline : line.isEmpty
    · have hempty : line = "" := String.isEmpty_iff.1 hline
      subst hempty
      have hlines : indent width ("" :: body) ++ rest = "" :: (indent width body ++ rest) := rfl
      rw [hlines, blocks]
      simp [ih]
    · rw [Bool.not_eq_true] at hline
      rw [indent_cons width hline, List.cons_append, blocks]
      have hinner : isInner width (String.ofList (List.replicate width ' ') ++ line) = true := by
        simp [isInner]
      have hne : line ≠ "" := fun h => by simp [h] at hline
      simp [ih, hinner, hline, hne]

theorem blocks_append (h : (blocks width lines').1 = []) : ∀ lines : Lines,
    blocks width (lines ++ lines')
      = ((blocks width lines).1, (blocks width lines).2 ++ (blocks width lines').2)
  | [] => Prod.ext h rfl
  | line :: lines => by
    rw [List.cons_append, blocks, blocks, blocks_append h lines]
    dsimp only
    split
    · rfl
    · split <;> rfl

/-- Lines that are blocks, none of them indented before the first one. -/
def Cuts (width : Nat) (lines : Lines) (bs : List Block) : Prop := blocks width lines = ([], bs)

namespace Cuts

theorem nil : Cuts width [] [] := rfl

theorem append (h : Cuts width lines bs) (h' : Cuts width lines' bs') :
    Cuts width (lines ++ lines') (bs ++ bs') := by
  unfold Cuts at *
  rw [blocks_append (by rw [h']), h, h']

/-- An empty line belongs to no block. -/
theorem blank : Cuts width [""] [] := by simp [Cuts, blocks]

theorem singleton (h : IsOuter width line) : Cuts width [line] [⟨line, []⟩] :=
  blocks_cons h []

theorem headed (h : IsOuter width line) (body : Lines) :
    Cuts width (line :: indent width body) [⟨line, body.filter (!·.isEmpty)⟩] := by
  have hbody : blocks width (indent width body ++ []) = _ := blocks_indent [] body
  rw [List.append_nil] at hbody
  rw [Cuts, blocks_cons h, hbody]
  simp [blocks]

theorem braced {head tail : String} (h : IsOuter width (head ++ " \x7b")) (hwidth : 0 < width)
    (body : Lines) : Cuts width (Lines.braced width head body tail)
      [⟨head ++ " \x7b", body.filter (!·.isEmpty)⟩, ⟨"\x7d" ++ tail, []⟩] := by
  have hclose : IsOuter width ("\x7d" ++ tail) :=
    isOuter_of_head? (c := '\x7d') (by simp) (by decide) hwidth
  exact (headed h body).append (singleton hclose)

end Cuts

theorem outer_append (width : Nat) (lines lines' : Lines) :
    outer width (lines ++ lines') = outer width lines ++ outer width lines' := List.filter_append ..

theorem outer_cons (h : IsOuter width line) (lines : Lines) :
    outer width (line :: lines) = line :: outer width lines :=
  List.filter_cons_of_pos (by simp [h.isEmpty, h.isInner])

theorem outer_blank (width : Nat) (lines : Lines) :
    outer width ("" :: lines) = outer width lines := List.filter_cons_of_neg (by simp)

/-- Indented lines are none of those outside. -/
theorem outer_indent (width : Nat) (lines : Lines) : outer width (indent width lines) = [] := by
  rw [outer, indent, List.filter_eq_nil_iff, List.forall_mem_map]
  intro line _
  by_cases hline : line.isEmpty
  · simp [hline]
  · simp [hline, isInner]

theorem outer_filter (width : Nat) (lines : Lines) :
    outer width (lines.filter (!·.isEmpty)) = outer width lines := by
  rw [outer, outer, List.filter_filter]
  exact List.filter_congr fun line _ => by cases line.isEmpty <;> simp

end Lines

/-! ## Names -/

/-- Characters that a text starts with. -/
def Leads (cs : List Char) (text : String) : Prop := cs <+: text.toList

namespace Leads

variable {cs front more : List Char} {c : Char} {name text : String}

theorem append (h : Leads cs text) (rest : String) : Leads cs (text ++ rest) := by
  rw [Leads, String.toList_append]
  exact h.trans (List.prefix_append _ _)

theorem fixed : Leads cs (String.ofList cs) := by
  rw [Leads, String.toList_ofList]

theorem first : Leads [c] (String.ofList (c :: more)) := by
  rw [Leads, String.toList_ofList]
  exact ⟨more, rfl⟩

theorem of_isPrefixOf (h : Leads front text) (hcs : cs.isPrefixOf front) : Leads cs text :=
  (List.isPrefixOf_iff_prefix.1 hcs).trans h

theorem name_first : Leads (name.toList ++ [c]) (name ++ String.ofList (c :: more)) := by
  rw [Leads, String.toList_append, String.toList_ofList]
  exact ⟨more, by simp⟩

theorem name_between : Leads (front ++ (name.toList ++ [c]))
    (String.ofList front ++ name ++ String.ofList (c :: more)) := by
  rw [Leads, String.toList_append, String.toList_append, String.toList_ofList,
    String.toList_ofList]
  exact ⟨more, by simp⟩

theorem equals_first :
    Leads (name.toList ++ [' ', '=']) (name ++ String.ofList (' ' :: '=' :: more)) := by
  rw [Leads, String.toList_append, String.toList_ofList]
  exact ⟨more, by simp⟩

theorem equals_between : Leads (front ++ (name.toList ++ [' ', '=']))
    (String.ofList front ++ name ++ String.ofList (' ' :: '=' :: more)) := by
  rw [Leads, String.toList_append, String.toList_append, String.toList_ofList,
    String.toList_ofList]
  exact ⟨more, by simp⟩

theorem head? (h : Leads [c] text) : text.toList.head? = some c := by
  obtain ⟨rest, hrest⟩ := h
  rw [← hrest]
  rfl

end Leads

/-- What may stand behind a name that is declared. -/
def isMark (c : Char) : Bool := c == ':' || c == '(' || c == '=' || c == ',' || c == '\x7b'

/-- The name that a line declares: the last word in front of its first mark, from which an equals
sign and a brace keep a blank away.  Comments and texts declare nothing. -/
def declaredName? (line : String) : Option String :=
  let cs := line.toList
  if cs.head? = some '/' ∨ cs.head? = some '"' then none
  else
    match cs.dropWhile (!isMark ·) with
    | [] => none
    | mark :: _ =>
      let front := cs.takeWhile (!isMark ·)
      let front := if mark = '=' ∨ mark = '\x7b' then front.dropLast else front
      some (String.ofList (front.reverse.takeWhile (· != ' ')).reverse)

/-- What may stand in front of a name that is declared. -/
def isLead (front : List Char) : Bool :=
  front.all (!isMark ·) && front.getLast?.all (· == ' ')
    && front.head?.all fun c => c != ' ' && c != '/' && c != '"'

theorem IsPlain.ofList {cs : List Char} (h : cs.all isIdentifierRest) :
    IsPlain (String.ofList cs) := by
  rw [IsPlain, String.toList_ofList]
  exact List.all_eq_true.1 h

theorem isMark_eq_false {c : Char} (h : isIdentifierRest c) : isMark c = false := by
  unfold isMark
  rw [Bool.eq_false_iff]
  intro hmark
  simp only [Bool.or_eq_true, beq_iff_eq] at hmark
  rcases hmark with (((rfl | rfl) | rfl) | rfl) | rfl <;> exact absurd h (by decide)

section

variable {line : String} {front tail rest : List Char} {name : String} {mark : Char}
  (hline : line.toList = front ++ (name.toList ++ (tail ++ mark :: rest)))
  (hlead : isLead front) (hname : IsPlain name) (hmark : isMark mark)
  (htail : tail = if mark = '=' ∨ mark = '\x7b' then [' '] else [])

include hline hlead hname hmark htail

/-- A line that declares a name starts with no blank, or with one in front of its mark. -/
theorem exists_head_of_declares : ∃ c cs, line.toList = c :: cs ∧ c ≠ '/' ∧ c ≠ '"'
    ∧ (c = ' ' → cs.head? ≠ some ' ') := by
  have hmarks : mark ≠ '/' ∧ mark ≠ '"' ∧ mark ≠ ' ' := by
    refine ⟨?_, ?_, ?_⟩ <;> rintro rfl <;> exact absurd hmark (by decide)
  simp only [isLead, Bool.and_eq_true] at hlead
  cases hf : front with
  | cons c cs =>
    rw [hf] at hline hlead
    have hc : c ≠ ' ' ∧ c ≠ '/' ∧ c ≠ '"' := by simpa [and_assoc] using hlead.2
    exact ⟨c, _, hline, hc.2.1, hc.2.2, fun h => absurd h hc.1⟩
  | nil =>
    rw [hf, List.nil_append] at hline
    cases hn : name.toList with
    | cons c cs =>
      rw [hn] at hline
      have hc : ∀ d, ¬ isIdentifierRest d → c ≠ d := fun d hd he =>
        hd (he ▸ hname c (hn ▸ List.mem_cons_self))
      exact ⟨c, _, hline, hc _ (by decide), hc _ (by decide), fun h => absurd h (hc _ (by decide))⟩
    | nil =>
      rw [hn, List.nil_append, htail] at hline
      split at hline
      · exact ⟨' ', mark :: rest, hline, by decide, by decide, by simpa using hmarks.2.2⟩
      · exact ⟨mark, rest, hline, hmarks.1, hmarks.2.1, fun h => absurd h hmarks.2.2⟩

theorem isOuter_of_declares {width : Nat} (hwidth : 2 ≤ width) : Lines.IsOuter width line := by
  obtain ⟨c, cs, hcs, -, -, hblank⟩ := exists_head_of_declares hline hlead hname hmark htail
  obtain ⟨w, rfl⟩ := Nat.exists_eq_add_of_le' hwidth
  refine ⟨?_, ?_⟩
  · rw [Bool.eq_false_iff, ne_eq, String.isEmpty_iff]
    rintro rfl
    cases hcs
  · rw [Lines.isInner, hcs, List.replicate_succ, List.replicate_succ, Bool.eq_false_iff]
    intro hinner
    rw [List.isPrefixOf_cons_cons, Bool.and_eq_true, beq_iff_eq] at hinner
    cases hcs' : cs with
    | nil => simp [hcs'] at hinner
    | cons d ds =>
      rw [hcs', List.isPrefixOf_cons_cons, Bool.and_eq_true, beq_iff_eq] at hinner
      exact hblank hinner.1.symm (by rw [hcs', hinner.2.1, List.head?_cons])

theorem declaredName?_eq : declaredName? line = some name := by
  obtain ⟨c, cs, hcs, hslash, hquote, -⟩ := exists_head_of_declares hline hlead hname hmark htail
  have hstart : ¬ (line.toList.head? = some '/' ∨ line.toList.head? = some '"') := by
    rw [hcs, List.head?_cons, Option.some.injEq, Option.some.injEq]
    exact not_or.2 ⟨hslash, hquote⟩
  simp only [isLead, Bool.and_eq_true] at hlead
  obtain ⟨⟨hfront, hlast⟩, -⟩ := hlead
  have htailMark : ∀ c ∈ tail, !isMark c := by
    rw [htail]
    split
    · exact List.forall_mem_singleton.2 rfl
    · exact List.forall_mem_nil _
  have hall : ∀ c ∈ front ++ (name.toList ++ tail), !isMark c := by
    refine List.forall_mem_append.2 ⟨List.all_eq_true.1 hfront,
      List.forall_mem_append.2 ⟨fun c hc => ?_, htailMark⟩⟩
    rw [isMark_eq_false (hname c hc)]
    rfl
  have hsplit : line.toList = (front ++ (name.toList ++ tail)) ++ mark :: rest := by
    rw [hline]
    simp
  have hdrop : line.toList.dropWhile (!isMark ·) = mark :: rest := by
    rw [hsplit, List.dropWhile_append_of_pos hall, List.dropWhile_cons_of_neg (by simp [hmark])]
  have htake : line.toList.takeWhile (!isMark ·) = front ++ (name.toList ++ tail) := by
    rw [hsplit, List.takeWhile_append_of_pos hall, List.takeWhile_cons_of_neg (by simp [hmark]),
      List.append_nil]
  have hcut : (if mark = '=' ∨ mark = '\x7b' then (front ++ (name.toList ++ tail)).dropLast
      else front ++ (name.toList ++ tail)) = front ++ name.toList := by
    rw [htail]
    split
    · rw [← List.append_assoc, List.dropLast_concat]
    · rw [List.append_nil]
  have hblank : ∀ c ∈ name.toList.reverse, c != ' ' := by
    intro c hc
    have hne : c ≠ ' ' := fun he => hname.notMem (c := ' ') (by decide) (he ▸ List.mem_reverse.1 hc)
    simpa using hne
  have hword : ((front ++ name.toList).reverse.takeWhile (· != ' ')).reverse = name.toList := by
    rw [List.reverse_append, List.takeWhile_append_of_pos hblank]
    cases hrev : front.reverse with
    | nil => simp
    | cons c cs =>
      have hc : front.getLast? = some c := by rw [← List.head?_reverse, hrev, List.head?_cons]
      rw [hc] at hlast
      rw [List.takeWhile_cons_of_neg (by simpa using hlast), List.append_nil, List.reverse_reverse]
  unfold declaredName?
  simp only [if_neg hstart, hdrop, htake, hcut, hword, String.ofList_toList]

end

namespace Language

/-- The names that lines declare at their own indentation. -/
def names (language : Language) (lines : Lines) : List String :=
  (Lines.outer language.indentation lines).filterMap declaredName?

variable {language : Language} {line name : String} {lines lines' : Lines}

theorem two_le_indentation (language : Language) : 2 ≤ language.indentation := by
  cases language <;> decide

@[simp]
theorem names_nil : language.names [] = [] := rfl

theorem names_append (language : Language) (lines lines' : Lines) :
    language.names (lines ++ lines') = language.names lines ++ language.names lines' := by
  rw [names, Lines.outer_append, List.filterMap_append, names, names]

theorem names_cons (language : Language) (line : String) (lines : Lines) :
    language.names (line :: lines) = language.names [line] ++ language.names lines :=
  names_append language [line] lines

@[simp]
theorem names_blank (lines : Lines) : language.names ("" :: lines) = language.names lines := by
  rw [names, Lines.outer_blank, names]

theorem names_filter (language : Language) (lines : Lines) :
    language.names (lines.filter (!·.isEmpty)) = language.names lines := by
  rw [names, Lines.outer_filter, names]

@[simp]
theorem names_indent (language : Language) (lines : Lines) :
    language.names (Lines.indent language.indentation lines) = [] := by
  rw [names, Lines.outer_indent, List.filterMap_nil]

theorem names_flatMap {α : Type} (language : Language) (f : α → Lines) (as : List α) :
    language.names (as.flatMap f) = as.flatMap fun a => language.names (f a) := by
  rw [names, Lines.outer, List.filter_flatMap, List.filterMap_flatMap]
  rfl

theorem names_map {α : Type} {f : α → String} {g : α → String} {as : List α}
    (h : ∀ a ∈ as, language.names [f a] = [g a]) : language.names (as.map f) = as.map g := by
  rw [List.map_eq_flatMap, names_flatMap, List.map_eq_flatMap]
  exact List.flatMap_congr h

theorem names_eq_nil (h : declaredName? line = none) : language.names [line] = [] := by
  rw [names, Lines.outer, List.filter_cons, List.filter_nil]
  split
  · rw [List.filterMap_cons, h, List.filterMap_nil]
  · rfl

theorem names_append_eq (names names' : List String) (h : language.names lines = names)
    (h' : language.names lines' = names') :
    language.names (lines ++ lines') = names ++ names' := by
  rw [names_append, h, h']

/-- Lines with others behind them that declare nothing. -/
theorem names_append_left {names : List String} (h : language.names lines = names)
    (h' : language.names lines' = []) : language.names (lines ++ lines') = names := by
  rw [names_append, h, h', List.append_nil]

theorem names_cons_eq (names names' : List String) (h : language.names [line] = names)
    (h' : language.names lines = names') : language.names (line :: lines) = names ++ names' :=
  names_append_eq names names' h h'

/-- Comments and texts declare nothing. -/
theorem names_comment {c : Char} (hc : c = '/' ∨ c = '"') (h : Leads [c] line) :
    language.names [line] = [] := by
  refine names_eq_nil ?_
  rw [declaredName?, if_pos]
  rw [h.head?, Option.some.injEq, Option.some.injEq]
  exact hc

/-- A line that declares a name with a mark right behind it. -/
theorem names_of_prefix (front : List Char) {mark : Char}
    (h : Leads (front ++ (name.toList ++ [mark])) line) (hlead : isLead front)
    (hname : IsPlain name) (hmark : isMark mark) (hopen : mark ≠ '=' ∧ mark ≠ '\x7b') :
    language.names [line] = [name] := by
  obtain ⟨rest, hrest⟩ := h
  have hline : line.toList = front ++ (name.toList ++ ([] ++ mark :: rest)) := by
    rw [← hrest]
    simp
  have htail : ([] : List Char) = if mark = '=' ∨ mark = '\x7b' then [' '] else [] := by
    rw [if_neg (not_or.2 hopen)]
  rw [names, Lines.outer_cons
    (isOuter_of_declares hline hlead hname hmark htail language.two_le_indentation)]
  show [line].filterMap declaredName? = _
  rw [List.filterMap_cons, declaredName?_eq hline hlead hname hmark htail, List.filterMap_nil]

/-- A line that declares a name with an equals sign behind a blank. -/
theorem names_of_equals (front : List Char)
    (h : Leads (front ++ (name.toList ++ [' ', '='])) line) (hlead : isLead front)
    (hname : IsPlain name) : language.names [line] = [name] := by
  obtain ⟨rest, hrest⟩ := h
  have hline : line.toList = front ++ (name.toList ++ ([' '] ++ '=' :: rest)) := by
    rw [← hrest]
    simp
  rw [names, Lines.outer_cons
    (isOuter_of_declares hline hlead hname rfl rfl language.two_le_indentation)]
  show [line].filterMap declaredName? = _
  rw [List.filterMap_cons, declaredName?_eq hline hlead hname rfl rfl, List.filterMap_nil]

/-- A line that declares a name of its own. -/
theorem names_fixed (front : List Char) {mark : Char} {cs whole : List Char} (h : Leads whole line)
    (hwhole : (front ++ (cs ++ [mark])).isPrefixOf whole) (hlead : isLead front)
    (hcs : cs.all isIdentifierRest) (hmark : isMark mark) (hopen : mark ≠ '=' ∧ mark ≠ '\x7b') :
    language.names [line] = [String.ofList cs] := by
  refine names_of_prefix front ?_ hlead (.ofList hcs) hmark hopen
  rw [String.toList_ofList]
  exact h.of_isPrefixOf hwhole

theorem names_fixed_equals (front : List Char) {cs whole : List Char} (h : Leads whole line)
    (hwhole : (front ++ (cs ++ [' ', '='])).isPrefixOf whole) (hlead : isLead front)
    (hcs : cs.all isIdentifierRest) : language.names [line] = [String.ofList cs] := by
  refine names_of_equals front ?_ hlead (.ofList hcs)
  rw [String.toList_ofList]
  exact h.of_isPrefixOf hwhole

end Language

/-! ## Scopes -/

/-- What opens a scope, the type it is for, and the lines inside it. -/
structure Scope where
  word : String
  type : String
  lines : Lines

/-- Whether a scope declares its type; an implementation is for one that is declared elsewhere. -/
def Scope.isType (s : Scope) : Bool := s.word != "impl "

namespace Language

/-- What a line that opens a scope starts with. -/
def scopeWords : Language → List String
  | .rust => ["pub struct ", "pub enum ", "impl "]
  | .typeScript => ["export interface ", "export class ", "export enum "]
  | .python => ["class "]

/-- What a line opens a scope with, and the type that this is for. -/
def scopeHead? (language : Language) (head : String) : Option (String × String) :=
  language.scopeWords.findSome? fun word =>
    (head.toList.dropPrefix? word.toList).map fun rest =>
      (word, String.ofList (rest.takeWhile isIdentifierRest))

section

variable {language : Language} {head word type : String} {front : List Char}

theorem scopeHead?_eq_none (h : ∀ w ∈ language.scopeWords, ¬ w.toList <+: head.toList) :
    language.scopeHead? head = none := by
  rw [scopeHead?, List.findSome?_eq_none_iff]
  intro w hw
  rw [Option.map_eq_none_iff, Option.eq_none_iff_forall_ne_some]
  intro rest hrest
  obtain ⟨front, hfront, hsame⟩ := List.dropPrefix?_eq_some_iff.1 hrest
  rw [beq_iff_eq] at hsame
  exact h w hw ⟨rest, by rw [hfront, hsame]⟩

theorem scopeHead?_eq_none_of_head {c : Char} (hc : head.toList.head? = some c)
    (h : ∀ w ∈ language.scopeWords, w.toList.head? ≠ some c) : language.scopeHead? head = none := by
  refine scopeHead?_eq_none fun w hw hprefix => h w hw ?_
  have hne : w.toList ≠ [] := by
    have hall : ∀ w ∈ language.scopeWords, w.toList ≠ [] := by cases language <;> decide
    exact hall w hw
  obtain ⟨d, ds, hd⟩ := List.exists_cons_of_ne_nil hne
  obtain ⟨rest, hrest⟩ := hprefix
  rw [← hrest, hd, List.cons_append, List.head?_cons] at hc
  rw [hd, List.head?_cons, hc]

/-- No line starts with two of the words. -/
theorem eq_of_prefix {w : String} (hw : w ∈ language.scopeWords)
    (hword : word ∈ language.scopeWords) {cs : List Char} (hcs : w.toList <+: cs)
    (hcs' : word.toList <+: cs) : w = word := by
  have hfree : ∀ w ∈ language.scopeWords, ∀ w' ∈ language.scopeWords,
      w.toList.isPrefixOf w'.toList → w = w' := by
    cases language <;> decide +kernel
  rcases List.prefix_or_prefix_of_prefix hcs hcs' with hprefix | hprefix
  · exact hfree w hw word hword (List.isPrefixOf_iff_prefix.2 hprefix)
  · exact (hfree word hword w hw (List.isPrefixOf_iff_prefix.2 hprefix)).symm

theorem scopeHead?_eq {c : Char} (hword : String.ofList front ∈ language.scopeWords)
    (h : Leads (front ++ (type.toList ++ [c])) head) (htype : IsPlain type)
    (hc : ¬ isIdentifierRest c) :
    language.scopeHead? head = some (String.ofList front, type) := by
  have hprefix : (String.ofList front).toList <+: head.toList := by
    rw [String.toList_ofList]
    exact (List.prefix_append _ _).trans h
  obtain ⟨rest, hrest⟩ := h
  have hfound : (head.toList.dropPrefix? (String.ofList front).toList).map (fun rest =>
      (String.ofList front, String.ofList (rest.takeWhile isIdentifierRest)))
      = some (String.ofList front, type) := by
    rw [← hrest, String.toList_ofList, List.append_assoc, dropPrefix?_append, Option.map_some,
      List.append_assoc,
      List.takeWhile_append_of_pos htype, List.singleton_append, List.takeWhile_cons_of_neg hc,
      List.append_nil, String.ofList_toList]
  cases hsome : language.scopeHead? head with
  | none =>
    rw [scopeHead?, List.findSome?_eq_none_iff] at hsome
    exact absurd (hfound.symm.trans (hsome _ hword)) (by simp)
  | some p =>
    obtain ⟨w, hw, hp⟩ := List.exists_of_findSome?_eq_some hsome
    obtain ⟨rest', hrest', rfl⟩ := Option.map_eq_some_iff.1 hp
    obtain ⟨front, hfront, hsame⟩ := List.dropPrefix?_eq_some_iff.1 hrest'
    rw [beq_iff_eq] at hsame
    cases eq_of_prefix hw hword ⟨rest', by rw [hfront, hsame]⟩ hprefix
    exact hp.symm.trans hfound

theorem isOuter_of_word {cs : List Char} (hword : String.ofList front ∈ language.scopeWords)
    (h : Leads (front ++ cs) head) :
    Lines.IsOuter language.indentation head := by
  have hfirst : ∀ w ∈ language.scopeWords, ∃ c, w.toList.head? = some c ∧ c ≠ ' ' := by
    intro w hw
    cases language with
    | rust =>
      simp only [scopeWords, List.mem_cons, List.not_mem_nil, or_false] at hw
      rcases hw with rfl | rfl | rfl
      exacts [⟨'p', rfl, by decide⟩, ⟨'p', rfl, by decide⟩, ⟨'i', rfl, by decide⟩]
    | typeScript =>
      simp only [scopeWords, List.mem_cons, List.not_mem_nil, or_false] at hw
      rcases hw with rfl | rfl | rfl <;> exact ⟨'e', rfl, by decide⟩
    | python =>
      rw [List.mem_singleton.1 hw]
      exact ⟨'c', rfl, by decide⟩
  obtain ⟨c, hc, hblank⟩ := hfirst _ hword
  rw [String.toList_ofList] at hc
  obtain ⟨rest, hrest⟩ := h
  refine Lines.isOuter_of_head? (c := c) ?_ hblank (by cases language <;> decide)
  rw [← hrest, List.append_assoc, List.head?_append, hc, Option.some_or]

end

/-- The scopes that blocks open. -/
def scopesOf (language : Language) (bs : List Lines.Block) : List Scope :=
  bs.filterMap fun b => (language.scopeHead? b.head).map fun p => ⟨p.1, p.2, b.body⟩

/-- The scopes in lines. -/
def scopes (language : Language) (lines : Lines) : List Scope :=
  language.scopesOf (Lines.blocks language.indentation lines).2

/-- Lines that are blocks, and the scopes among these. -/
def Opens (language : Language) (lines : Lines) (scopes : List Scope) : Prop :=
  ∃ bs, Lines.Cuts language.indentation lines bs ∧ language.scopesOf bs = scopes

namespace Opens

variable {language : Language} {lines lines' : Lines} {ss ss' : List Scope}

theorem scopes_eq (h : language.Opens lines ss) : language.scopes lines = ss := by
  obtain ⟨bs, hbs, rfl⟩ := h
  rw [scopes, hbs]

theorem nil : language.Opens [] [] := ⟨[], .nil, rfl⟩

theorem append (h : language.Opens lines ss) (h' : language.Opens lines' ss') :
    language.Opens (lines ++ lines') (ss ++ ss') := by
  obtain ⟨bs, hbs, rfl⟩ := h
  obtain ⟨bs', hbs', rfl⟩ := h'
  exact ⟨bs ++ bs', hbs.append hbs', List.filterMap_append⟩

theorem blank : language.Opens [""] [] := ⟨[], .blank, rfl⟩

/-- A line that opens no scope. -/
theorem silent {line : String} (h : Lines.IsOuter language.indentation line)
    (hhead : language.scopeHead? line = none) : language.Opens [line] [] :=
  ⟨_, .singleton h, by simp [scopesOf, hhead]⟩

theorem silent_of_head {line : String} {c : Char} (h : Leads [c] line)
    (hc : c ≠ ' ' ∧ ∀ w ∈ language.scopeWords, w.toList.head? ≠ some c) :
    language.Opens [line] [] :=
  .silent (Lines.isOuter_of_head? h.head? hc.1 (by cases language <;> decide))
    (scopeHead?_eq_none_of_head h.head? hc.2)

/-- Lines between braces that are a scope. -/
theorem braced {front : List Char} {head tail type : String} (body : Lines)
    (hword : String.ofList front ∈ language.scopeWords)
    (h : Leads (front ++ (type.toList ++ [' '])) (head ++ " \x7b")) (htype : IsPlain type) :
    language.Opens (Lines.braced language.indentation head body tail)
      [⟨String.ofList front, type, body.filter (!·.isEmpty)⟩] := by
  have hhead := scopeHead?_eq hword h htype (by decide)
  have hclose : language.scopeHead? ("\x7d" ++ tail) = none :=
    scopeHead?_eq_none_of_head (c := '\x7d') (by simp) (by cases language <;> decide)
  have houter := isOuter_of_word hword h
  exact ⟨_, .braced houter (by cases language <;> decide) body, by simp [scopesOf, hhead, hclose]⟩

/-- Indented lines that are a scope. -/
theorem headed {front : List Char} {head type : String} {c : Char} (body : Lines)
    (hword : String.ofList front ∈ language.scopeWords)
    (h : Leads (front ++ (type.toList ++ [c])) head) (htype : IsPlain type)
    (hc : ¬ isIdentifierRest c) : language.Opens (head :: Lines.indent language.indentation body)
      [⟨String.ofList front, type, body.filter (!·.isEmpty)⟩] := by
  have hhead := scopeHead?_eq hword h htype hc
  have houter := isOuter_of_word hword h
  exact ⟨_, .headed houter body, by simp [scopesOf, hhead]⟩

end Opens

end Language

end SimpleBinary
