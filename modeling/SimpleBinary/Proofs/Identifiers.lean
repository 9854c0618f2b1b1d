import Mathlib
import SimpleBinary.Name.Namer

/-!
# Identifiers

An identifier is made of ASCII letters, digits and underscores, and stays so in every casing.  What
a casing may lose is the underscore a name starts with: a name put together from words starts with
its first word, which may begin with a digit, or there may be no word at all
(`respells_pascalCase`).  What an appended token may do is complete another reserved word
(`Language.append_mem_keywords_iff`).  Nothing else keeps an identifier that was handed out from
being usable (`Namer.usable_iff`).
-/

namespace SimpleBinary

/-! ## Characters -/

theorem isIdentifierStart_eq (c : Char) : isIdentifierStart c = (c.isAlpha || c == '_') := by
  rw [isIdentifierStart, Char.isAlpha, Char.isUpper, Char.isLower, Bool.or_comm (_ && _),
    Bool.decide_and]
  rfl

theorem isIdentifierRest_eq (c : Char) : isIdentifierRest c = (c.isAlphanum || c == '_') := by
  rw [isIdentifierRest, isIdentifierStart_eq, Char.isAlphanum, Char.isDigit, Bool.or_right_comm]
  rfl

theorem isIdentifierRest_of_start {c : Char} (h : isIdentifierStart c) : isIdentifierRest c := by
  simp [isIdentifierRest, h]

theorem lt_of_isIdentifierRest {c : Char} (h : isIdentifierRest c) : c.toNat < 0x80 := by
  rw [isIdentifierRest_eq, Bool.or_eq_true, beq_iff_eq] at h
  rcases h with h | rfl
  · simp [Char.isAlphanum, Char.isAlpha, Char.isUpper, Char.isLower, Char.isDigit,
      UInt32.le_iff_toNat_le] at h
    omega
  · decide

@[simp]
theorem isIdentifierStart_toUpper (c : Char) :
    isIdentifierStart c.toUpper = isIdentifierStart c := by
  by_cases h : c.isLower
  · simp [isIdentifierStart_eq, Char.isAlpha, h]
  · rw [Char.toUpper_eq_of_not_isLower h]

@[simp]
theorem isIdentifierRest_toUpper (c : Char) :
    isIdentifierRest c.toUpper = isIdentifierRest c := by
  by_cases h : c.isLower
  · simp [isIdentifierRest_eq, Char.isAlphanum, Char.isAlpha, h]
  · rw [Char.toUpper_eq_of_not_isLower h]

@[simp]
theorem isIdentifierStart_toLower (c : Char) :
    isIdentifierStart c.toLower = isIdentifierStart c := by
  by_cases h : c.isUpper
  · simp [isIdentifierStart_eq, Char.isAlpha, h]
  · rw [Char.toLower_eq_of_not_isUpper h]

@[simp]
theorem isIdentifierRest_toLower (c : Char) :
    isIdentifierRest c.toLower = isIdentifierRest c := by
  by_cases h : c.isUpper
  · simp [isIdentifierRest_eq, Char.isAlphanum, Char.isAlpha, h]
  · rw [Char.toLower_eq_of_not_isUpper h]

theorem upperChars_of_rest {c : Char} (h : isIdentifierRest c) : upperChars c = [c.toUpper] :=
  if_pos (lt_of_isIdentifierRest h)

theorem lowerChars_of_rest {c : Char} (h : isIdentifierRest c) : lowerChars c = [c.toLower] :=
  if_pos (lt_of_isIdentifierRest h)

/-! ## Casings -/

theorem isIdentifier_iff {cs : List Char} : isIdentifier cs
    ↔ cs.head?.any isIdentifierStart ∧ ∀ c ∈ cs, isIdentifierRest c := by
  cases cs with
  | nil => simp [isIdentifier]
  | cons c cs =>
    simp only [isIdentifier, Bool.and_eq_true, List.all_eq_true, List.head?_cons, Option.any_some,
      List.forall_mem_cons]
    exact ⟨fun h => ⟨h.1, isIdentifierRest_of_start h.1, h.2⟩, fun h => ⟨h.1, h.2.2⟩⟩

theorem isIdentifier_append {cs ds : List Char} (h : isIdentifier cs)
    (hd : ∀ d ∈ ds, isIdentifierRest d) : isIdentifier (cs ++ ds) := by
  rw [isIdentifier_iff] at h ⊢
  refine ⟨?_, List.forall_mem_append.2 ⟨h.2, hd⟩⟩
  cases cs with
  | nil => simp at h
  | cons c cs => exact h.1

/-- A text of an identifier's characters that can start an identifier just if another one can. -/
structure Respells (cs ds : List Char) : Prop where
  rest : ∀ d ∈ ds, isIdentifierRest d
  start : ds.head?.any isIdentifierStart = cs.head?.any isIdentifierStart

namespace Respells

variable {cs ds es : List Char}

theorem refl (h : ∀ c ∈ cs, isIdentifierRest c) : Respells cs cs := ⟨h, rfl⟩

theorem trans (h : Respells cs ds) (h' : Respells ds es) : Respells cs es :=
  ⟨h'.rest, h'.start.trans h.start⟩

theorem isIdentifier (h : Respells cs ds) (hc : ∀ c ∈ cs, isIdentifierRest c) :
    isIdentifier ds ↔ SimpleBinary.isIdentifier cs := by
  rw [isIdentifier_iff, isIdentifier_iff, h.start]
  exact and_congr_right fun _ => iff_of_true h.rest hc

end Respells

section Casing

variable {cs : List Char} (h : ∀ c ∈ cs, isIdentifierRest c)

include h

theorem respells_capitalize : Respells cs (capitalize cs) := by
  cases cs with
  | nil => exact .refl h
  | cons c cs =>
    rw [List.forall_mem_cons] at h
    rw [capitalize, upperChars_of_rest h.1]
    exact ⟨by simpa using h, by simp⟩

theorem lowerFrom_of_rest (before : List Char) :
    Case.lowerFrom before cs = cs.map Char.toLower := by
  induction cs generalizing before with
  | nil => rfl
  | cons c cs ih =>
    rw [List.forall_mem_cons] at h
    have hsigma : c ≠ 'Σ' := fun he => absurd (he ▸ h.1) (by decide)
    rw [Case.lowerFrom, ih h.2, lowerChars_of_rest h.1]
    simp [hsigma]

theorem respells_lowerText : Respells cs (lowerText cs) := by
  rw [lowerText, lowerFrom_of_rest h]
  exact ⟨by simpa using h, by cases cs <;> simp⟩

theorem upperText_of_rest : upperText cs = cs.map Char.toUpper := by
  rw [upperText, List.map_eq_flatMap]
  exact List.flatMap_congr fun c hc => upperChars_of_rest (h c hc)

theorem respells_upperText : Respells cs (upperText cs) := by
  rw [upperText_of_rest h]
  exact ⟨by simpa using h, by cases cs <;> simp⟩

theorem snakeFrom_rest (before : Option Char) : ∀ d ∈ snakeFrom before cs, isIdentifierRest d := by
  induction cs generalizing before with
  | nil => simp [snakeFrom]
  | cons c cs ih =>
    rw [List.forall_mem_cons] at h
    have hrest := ih h.2 (some c)
    simp only [snakeFrom, lowerChars_of_rest h.1]
    split
    · split
      · simpa [h.1] using ⟨by decide, hrest⟩
      · simpa [h.1] using hrest
    · simpa [h.1] using hrest

theorem respells_snakeCase : Respells cs (snakeCase cs) := by
  refine ⟨snakeFrom_rest h none, ?_⟩
  cases cs with
  | nil => rfl
  | cons c cs =>
    -- no word starts before the first character, so no underscore is put there
    simp only [snakeCase, snakeFrom, startsWord, lowerChars_of_rest (h c List.mem_cons_self)]
    split <;> simp

theorem respells_upperSnakeCase : Respells cs (upperSnakeCase cs) :=
  have hsnake := respells_snakeCase h
  hsnake.trans (respells_upperText hsnake.rest)

end Casing

/-! ## Words -/

theorem mem_of_mem_pieces {separator c : Char} : ∀ {cs p : List Char}, p ∈ pieces separator cs →
    c ∈ p → c ∈ cs
  | [], p, hp, hc => by
    rw [pieces, List.mem_singleton] at hp
    exact hp ▸ hc
  | d :: cs, p, hp, hc => by
    rw [pieces] at hp
    split at hp
    · rcases List.mem_cons.1 hp with rfl | hp
      · simp at hc
      · exact List.mem_cons_of_mem _ (mem_of_mem_pieces hp hc)
    · split at hp
      · rw [List.mem_singleton.1 hp] at hc
        exact List.mem_cons.2 (.inl (List.mem_singleton.1 hc))
      · rename_i q qs hq
        rcases List.mem_cons.1 hp with rfl | hp
        · rcases List.mem_cons.1 hc with rfl | hc
          · exact List.mem_cons_self
          · exact List.mem_cons_of_mem _ (mem_of_mem_pieces (hq ▸ List.mem_cons_self) hc)
        · exact List.mem_cons_of_mem _ (mem_of_mem_pieces (hq ▸ List.mem_cons_of_mem _ hp) hc)

/-- The words of a name are those behind the underscores it starts with. -/
theorem words_dropWhile : ∀ cs : List Char,
    (pieces '_' (cs.dropWhile (· == '_'))).filter (!·.isEmpty)
      = (pieces '_' cs).filter (!·.isEmpty)
  | [] => rfl
  | c :: cs => by
    by_cases hc : c = '_'
    · subst hc
      simpa [pieces] using words_dropWhile cs
    · simp [hc]

theorem exists_pieces_cons {c : Char} (hc : c ≠ '_') (cs : List Char) :
    ∃ p ps, pieces '_' (c :: cs) = (c :: p) :: ps := by
  rw [pieces, if_neg hc]
  split
  · exact ⟨_, _, rfl⟩
  · exact ⟨_, _, rfl⟩

/-- A name put together from words starts with the first of them. -/
theorem respells_pascalCase {cs : List Char} (h : ∀ c ∈ cs, isIdentifierRest c) :
    Respells (cs.dropWhile (· == '_')) (pascalCase cs) := by
  have hword : ∀ {p : List Char}, p ∈ pieces '_' cs → Respells p (capitalize (lowerText p)) := by
    intro p hp
    have hlower := respells_lowerText fun c hc => h c (mem_of_mem_pieces hp hc)
    exact hlower.trans (respells_capitalize hlower.rest)
  unfold pascalCase
  split
  · refine ⟨fun d hd => ?_, ?_⟩
    · obtain ⟨p, hp, hd⟩ := List.mem_flatMap.1 hd
      exact (hword (List.mem_filter.1 hp).1).rest d hd
    · rw [← words_dropWhile]
      cases hd : cs.dropWhile (· == '_') with
      | nil => simp [pieces]
      | cons c ds =>
        have hc : c ≠ '_' := by
          have hnot := List.head?_dropWhile_not (· == '_') cs
          rw [hd] at hnot
          simpa using hnot
        obtain ⟨p, ps, hp⟩ := exists_pieces_cons hc ds
        have hfirst : c :: p ∈ pieces '_' cs := by
          have hmem : c :: p ∈ (pieces '_' (cs.dropWhile (· == '_'))).filter (!·.isEmpty) := by
            simp [hd, hp]
          rw [words_dropWhile] at hmem
          exact (List.mem_filter.1 hmem).1
        have hrest : ∀ d ∈ c :: p, isIdentifierRest d := fun d hd =>
          h d (mem_of_mem_pieces hfirst hd)
        have hhead := upperChars_of_rest (c := c.toLower)
          (by simpa using hrest c List.mem_cons_self)
        simp [hp, lowerText, lowerFrom_of_rest hrest, capitalize, hhead]
  · rename_i hnone
    have hself : cs.dropWhile (· == '_') = cs := by
      cases cs with
      | nil => rfl
      | cons c cs =>
        have hc : c ≠ '_' := by rintro rfl; simp at hnone
        simp [hc]
    rw [hself]
    split
    · have hlower := respells_lowerText h
      exact hlower.trans (respells_capitalize hlower.rest)
    · exact respells_capitalize h

theorem respells_camelCase {cs : List Char} (h : ∀ c ∈ cs, isIdentifierRest c) :
    Respells (cs.dropWhile (· == '_')) (camelCase cs) := by
  have hpascal := respells_pascalCase h
  unfold camelCase
  split
  · rename_i hp
    rwa [hp] at hpascal
  · rename_i c ds hp
    rw [hp] at hpascal
    obtain ⟨hrest, hstart⟩ := hpascal
    rw [List.forall_mem_cons] at hrest
    rw [lowerChars_of_rest hrest.1]
    exact ⟨by simpa using hrest, by simpa using hstart⟩

/-! ## Reserved words -/

namespace Language

/-- The reserved words that begin with another one, cut behind it. -/
def completions : Language → List (String × String)
  | .rust => [("as", "ync"), ("type", "of")]
  | .typeScript => [("in", "stanceof"), ("in", "terface"), ("type", "of")]
  | .python => [("as", "sert"), ("as", "ync"), ("encode", "_body"), ("decode", "_body")]

theorem isIdentifier_of_mem_keywords {l : Language} {name : String} (h : name ∈ l.keywords) :
    isIdentifier name.toList := by
  have hall : ∀ name ∈ l.keywords, isIdentifier name.toList := by cases l <;> decide +kernel
  exact hall name h

/-- A token completes a reserved word to another one only in few ways. -/
theorem append_mem_keywords_iff {l : Language} {name : String} (h : name ∈ l.keywords)
    (token : String) : name ++ token ∈ l.keywords ↔ token = "" ∨ (name, token) ∈ l.completions := by
  have hcut : ∀ name ∈ l.keywords, ∀ word ∈ l.keywords, name.toList.isPrefixOf word.toList →
      word = name ∨ ∃ p ∈ l.completions, p.1 = name ∧ name ++ p.2 = word := by
    cases l <;> decide +kernel
  have hword : ∀ p ∈ l.completions, p.1 ++ p.2 ∈ l.keywords := by
    cases l <;> decide +kernel
  constructor
  · intro hmem
    have hprefix : name.toList.isPrefixOf (name ++ token).toList := by simp
    rcases hcut name h _ hmem hprefix with heq | ⟨⟨_, rest⟩, hp, rfl, heq⟩
    · exact .inl (by simpa using heq)
    · rw [String.append_right_inj] at heq
      exact .inr (heq ▸ hp)
  · rintro (rfl | hp)
    · simpa using h
    · exact hword _ hp

/-- What may stand for a name in sources: an identifier that is not reserved. -/
def Usable (l : Language) (name : String) : Prop :=
  isIdentifier name.toList ∧ name ∉ l.keywords

end Language

theorem KeywordPolicy.apply_eq_ok_iff {policy : KeywordPolicy} {l : Language} {name s : String} :
    policy.apply l name = .ok s ↔ (name ∉ l.keywords ∧ s = name)
      ∨ name ∈ l.keywords ∧ ∃ token, policy.appendToken = some token
        ∧ token.toList.all isIdentifierRest ∧ s = name ++ token := by
  unfold apply
  by_cases h : name ∈ l.keywords
  · rw [if_pos (List.contains_iff_mem.2 h)]
    cases policy.appendToken with
    | none => simp [h]
    | some token =>
      by_cases htoken : token.toList.all isIdentifierRest
      · simp only [h, htoken, if_true, Except.ok.injEq, Option.some.injEq, not_true, false_and,
          true_and, false_or, exists_eq_left']
        exact eq_comm
      · dsimp only
        rw [if_neg htoken]
        refine iff_of_false (by simp) ?_
        rintro (⟨hfree, -⟩ | ⟨-, t, ht, hrest, -⟩)
        · exact hfree h
        · exact htoken (Option.some.inj ht ▸ hrest)
  · rw [if_neg (by simpa using h), Except.ok.injEq]
    simp only [h, not_false_eq_true, true_and, false_and, or_false]
    exact eq_comm

/-! ## Namers -/

/-- What a name is given to. -/
inductive NameRole where
  | type
  | member
  | constant
  | variant
  | moduleName
deriving DecidableEq, Repr

namespace Namer

variable {n : Namer} {role : NameRole} {raw s : String}

def identifier (n : Namer) : NameRole → String → Except NameError String
  | .type => n.type
  | .member => n.member
  | .constant => n.constant
  | .variant => n.variant
  | .moduleName => n.moduleName

/-- Whether names of a role are put together from words, without the underscores between them. -/
def joinsWords (n : Namer) : NameRole → Bool
  | .type => true
  | .member | .moduleName => n.language == .typeScript
  | .constant => false
  | .variant => n.language == .rust

/-- The casing of names of a role. -/
def casing (n : Namer) : NameRole → List Char → List Char
  | .type => pascalCase
  | .member => if n.language = .typeScript then camelCase else snakeCase
  | .constant => upperSnakeCase
  | .variant => if n.language = .rust then pascalCase else fun cs => cs
  | .moduleName => if n.language = .typeScript then pascalCase else snakeCase

theorem identifier_eq_spell (n : Namer) (role : NameRole) :
    n.identifier role = n.spell (n.casing role) := by
  obtain ⟨language, policy⟩ := n
  cases role <;> cases language <;> rfl

/-- The spelling of a name in a role, before it is kept clear of reserved words. -/
def spelling (n : Namer) (role : NameRole) (raw : String) : String :=
  String.ofList (n.casing role raw.toList)

theorem identifier_eq_ok_iff : n.identifier role raw = .ok s
    ↔ isIdentifier raw.toList ∧ n.policy.apply n.language (n.spelling role raw) = .ok s := by
  rw [identifier_eq_spell, spell, spelling]
  split
  · rename_i h
    simp [h]
  · rename_i h
    simp [h]

theorem respells_casing (n : Namer) (role : NameRole) {cs : List Char}
    (h : ∀ c ∈ cs, isIdentifierRest c) :
    Respells (if n.joinsWords role then cs.dropWhile (· == '_') else cs) (n.casing role cs) := by
  obtain ⟨language, policy⟩ := n
  cases role with
  | type => exact respells_pascalCase h
  | member =>
    cases language with
    | typeScript => exact respells_camelCase h
    | rust | python => exact respells_snakeCase h
  | constant => exact respells_upperSnakeCase h
  | variant =>
    cases language with
    | rust => exact respells_pascalCase h
    | typeScript | python => exact .refl h
  | moduleName =>
    cases language with
    | typeScript => exact respells_pascalCase h
    | rust | python => exact respells_snakeCase h

/-- An identifier that was handed out holds nothing but an identifier's characters. -/
theorem rest_of_identifier (h : n.identifier role raw = .ok s) :
    ∀ c ∈ s.toList, isIdentifierRest c := by
  obtain ⟨hraw, happly⟩ := identifier_eq_ok_iff.1 h
  have hcased : ∀ c ∈ (n.spelling role raw).toList, isIdentifierRest c := by
    rw [spelling, String.toList_ofList]
    exact (respells_casing n role (isIdentifier_iff.1 hraw).2).rest
  rcases KeywordPolicy.apply_eq_ok_iff.1 happly with ⟨-, rfl⟩ | ⟨-, token, -, htoken, rfl⟩
  · exact hcased
  · rw [String.toList_append]
    rw [List.all_eq_true] at htoken
    exact List.forall_mem_append.2 ⟨hcased, htoken⟩

/-- What is handed out is usable unless it was put together from words and these start with a digit,
or there are none, or a token was appended that is empty or completes another reserved word. -/
theorem usable_iff (h : n.identifier role raw = .ok s) : n.language.Usable s
    ↔ (n.joinsWords role → isIdentifier (raw.toList.dropWhile (· == '_')))
      ∧ (n.spelling role raw ∈ n.language.keywords → ∀ token, n.policy.appendToken = some token →
        token ≠ "" ∧ (n.spelling role raw, token) ∉ n.language.completions) := by
  obtain ⟨hraw, happly⟩ := identifier_eq_ok_iff.1 h
  have hrest := (isIdentifier_iff.1 hraw).2
  have hcased : isIdentifier (n.spelling role raw).toList
      ↔ (n.joinsWords role → isIdentifier (raw.toList.dropWhile (· == '_'))) := by
    have hstart := respells_casing n role hrest
    rw [spelling, String.toList_ofList]
    by_cases hjoins : n.joinsWords role
    · rw [if_pos hjoins] at hstart
      simp only [hjoins, true_implies]
      exact hstart.isIdentifier fun c hc => hrest c (List.dropWhile_subset _ hc)
    · rw [if_neg hjoins] at hstart
      exact iff_of_true ((hstart.isIdentifier hrest).2 hraw) fun h => absurd h hjoins
  rcases KeywordPolicy.apply_eq_ok_iff.1 happly with ⟨hfree, rfl⟩ | ⟨hword, token, ht, htoken, rfl⟩
  · simp [Language.Usable, hfree, hcased]
  · have hkeyword := Language.isIdentifier_of_mem_keywords hword
    have hlong : isIdentifier (n.spelling role raw ++ token).toList := by
      rw [String.toList_append]
      exact isIdentifier_append hkeyword (List.all_eq_true.1 htoken)
    rw [Language.Usable, Language.append_mem_keywords_iff hword, ← hcased]
    simp only [hlong, hkeyword, hword, ht, not_or, true_and, true_implies, Option.some.injEq,
      forall_eq']

/-- A type of no name, a type whose name is a digit, and a member whose name is reserved by the
token that was to keep it clear. -/
theorem not_usable_handedOut :
    (identifier ⟨.rust, ⟨none⟩⟩ .type "_" = .ok "" ∧ ¬ Language.rust.Usable "")
    ∧ (identifier ⟨.typeScript, ⟨none⟩⟩ .type "_1" = .ok "1" ∧ ¬ Language.typeScript.Usable "1")
    ∧ (identifier ⟨.python, ⟨some "_body"⟩⟩ .member "encode" = .ok "encode_body"
      ∧ ¬ Language.python.Usable "encode_body") := by
  have hempty : identifier ⟨.rust, ⟨none⟩⟩ .type "_" = .ok "" := by decide +kernel
  have hdigit : identifier ⟨.typeScript, ⟨none⟩⟩ .type "_1" = .ok "1" := by decide +kernel
  have hbody : identifier ⟨.python, ⟨some "_body"⟩⟩ .member "encode" = .ok "encode_body" := by
    decide +kernel
  refine ⟨⟨hempty, fun h => ?_⟩, ⟨hdigit, fun h => ?_⟩, hbody, fun h => ?_⟩
  · exact absurd (((usable_iff hempty).1 h).1 rfl) (by decide +kernel)
  · exact absurd (((usable_iff hdigit).1 h).1 rfl) (by decide +kernel)
  · exact (((usable_iff hbody).1 h).2 (by decide +kernel) "_body" rfl).2 (by decide +kernel)

end Namer

end SimpleBinary
