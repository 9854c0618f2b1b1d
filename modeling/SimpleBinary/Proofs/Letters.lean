import Mathlib
import SimpleBinary.Proofs.Identifiers

/-!
# Letters of names

The letters of a name are its characters without underscores and without case.  A casing changes
only what they leave out (`Namer.letters_casing`), and so does a namer if the token that it appends
to reserved words has no letters (`Namer.letters_of_identifier`).
-/

namespace SimpleBinary

/-- The characters of a name without underscores, capitals as small letters. -/
def letters (cs : List Char) : List Char := (cs.filter (· != '_')).map Char.toLower

@[simp]
theorem letters_nil : letters [] = [] := rfl

@[simp]
theorem letters_append (cs ds : List Char) : letters (cs ++ ds) = letters cs ++ letters ds := by
  rw [letters, List.filter_append, List.map_append, letters, letters]

theorem letters_cons (c : Char) (cs : List Char) : letters (c :: cs) = letters [c] ++ letters cs :=
  letters_append [c] cs

@[simp]
theorem letters_underscore (cs : List Char) : letters ('_' :: cs) = letters cs := rfl

/-- Letters that are changed to capitals or to small letters one by one. -/
theorem letters_map {f : Char → Char} (hf : ∀ c, f c = '_' ↔ c = '_')
    (hlower : ∀ c, (f c).toLower = c.toLower) (cs : List Char) :
    letters (cs.map f) = letters cs := by
  have hkept : ((· != '_') ∘ f) = (· != '_') := by
    funext c
    simp [bne, hf c]
  rw [letters, List.filter_map, List.map_map, hkept, letters]
  exact List.map_congr_left fun c _ => hlower c

theorem toUpper_eq_underscore_iff (c : Char) : c.toUpper = '_' ↔ c = '_' := by
  by_cases h : c.isLower
  · have hupper : c.toUpper.isUpper := by simp [Char.isAlpha, h]
    refine iff_of_false (fun hc => ?_) (fun hc => ?_)
    · exact absurd (hc ▸ hupper) (by decide)
    · exact absurd (hc ▸ h) (by decide)
  · rw [Char.toUpper_eq_of_not_isLower h]

theorem toLower_eq_underscore_iff (c : Char) : c.toLower = '_' ↔ c = '_' := by
  by_cases h : c.isUpper
  · have hlower : c.toLower.isLower := by simp [Char.isAlpha, h]
    refine iff_of_false (fun hc => ?_) (fun hc => ?_)
    · exact absurd (hc ▸ hlower) (by decide)
    · exact absurd (hc ▸ h) (by decide)
  · rw [Char.toLower_eq_of_not_isUpper h]

@[simp]
theorem letters_map_toUpper (cs : List Char) : letters (cs.map Char.toUpper) = letters cs :=
  letters_map toUpper_eq_underscore_iff (by simp) cs

@[simp]
theorem letters_map_toLower (cs : List Char) : letters (cs.map Char.toLower) = letters cs :=
  letters_map toLower_eq_underscore_iff (by simp) cs

/-- Of a name cut at its underscores nothing else is lost. -/
theorem letters_pieces : ∀ cs : List Char,
    ((pieces '_' cs).filter (!·.isEmpty)).flatMap letters = letters cs
  | [] => rfl
  | c :: cs => by
    have ih := letters_pieces cs
    by_cases hc : c = '_'
    · subst hc
      simpa [pieces] using ih
    · rw [letters_cons, ← ih, pieces, if_neg hc]
      cases hp : pieces '_' cs with
      | nil => simp
      | cons p ps =>
        cases p with
        | nil => simp
        | cons d ds =>
          simp only [List.isEmpty_cons, Bool.not_false, List.filter_cons_of_pos,
            List.flatMap_cons, letters_cons c (d :: ds), List.append_assoc]

section Casing

variable {cs : List Char} (h : ∀ c ∈ cs, isIdentifierRest c)

include h

theorem letters_capitalize : letters (capitalize cs) = letters cs := by
  cases cs with
  | nil => rfl
  | cons c cs =>
    rw [capitalize, upperChars_of_rest (h c List.mem_cons_self), letters_append, letters_cons c]
    exact congrArg (· ++ letters cs) (letters_map_toUpper [c])

theorem letters_lowerText : letters (lowerText cs) = letters cs := by
  rw [lowerText, lowerFrom_of_rest h, letters_map_toLower]

theorem letters_snakeFrom (before : Option Char) : letters (snakeFrom before cs) = letters cs := by
  induction cs generalizing before with
  | nil => rfl
  | cons c cs ih =>
    rw [List.forall_mem_cons] at h
    have hlower : letters [c.toLower] = letters [c] := letters_map_toLower [c]
    rw [snakeFrom, letters_cons c cs]
    simp only [lowerChars_of_rest h.1]
    split
    · split
      · rw [List.cons_append, letters_underscore, letters_append, hlower, ih h.2]
      · rw [letters_append, hlower, ih h.2]
    · rw [letters_cons, ih h.2]

theorem letters_snakeCase : letters (snakeCase cs) = letters cs := letters_snakeFrom h none

theorem letters_upperSnakeCase : letters (upperSnakeCase cs) = letters cs := by
  rw [upperSnakeCase, upperText_of_rest (respells_snakeCase h).rest, letters_map_toUpper,
    letters_snakeCase h]

theorem letters_pascalCase : letters (pascalCase cs) = letters cs := by
  have hword : ∀ {p : List Char}, (∀ c ∈ p, isIdentifierRest c) →
      letters (capitalize (lowerText p)) = letters p := fun hp => by
    rw [letters_capitalize (respells_lowerText hp).rest, letters_lowerText hp]
  unfold pascalCase
  split
  · have hwords : ∀ words : List (List Char), (∀ p ∈ words, ∀ c ∈ p, isIdentifierRest c) →
        letters (words.flatMap fun word => capitalize (lowerText word))
          = words.flatMap letters := by
      intro words hwords
      induction words with
      | nil => rfl
      | cons p ps ih =>
        rw [List.forall_mem_cons] at hwords
        rw [List.flatMap_cons, letters_append, hword hwords.1, ih hwords.2, List.flatMap_cons]
    rw [hwords _ fun p hp c hc => h c (mem_of_mem_pieces (List.mem_filter.1 hp).1 hc),
      letters_pieces]
  · split
    · exact hword h
    · exact letters_capitalize h

theorem letters_camelCase : letters (camelCase cs) = letters cs := by
  have hrest := (respells_pascalCase h).rest
  rw [← letters_pascalCase h]
  unfold camelCase
  split
  · rename_i hp
    rw [hp]
  · rename_i c ds hp
    rw [hp, List.forall_mem_cons] at hrest
    rw [hp, lowerChars_of_rest hrest.1, letters_append, letters_cons c]
    exact congrArg (· ++ letters ds) (letters_map_toLower [c])

end Casing

namespace Namer

variable {n : Namer} {role : NameRole} {raw s : String}

theorem letters_casing (n : Namer) (role : NameRole) {cs : List Char}
    (h : ∀ c ∈ cs, isIdentifierRest c) : letters (n.casing role cs) = letters cs := by
  obtain ⟨language, policy⟩ := n
  cases role with
  | type => exact letters_pascalCase h
  | member =>
    cases language with
    | typeScript => exact letters_camelCase h
    | rust | python => exact letters_snakeCase h
  | constant => exact letters_upperSnakeCase h
  | variant =>
    cases language with
    | rust => exact letters_pascalCase h
    | typeScript | python => rfl
  | moduleName =>
    cases language with
    | typeScript => exact letters_pascalCase h
    | rust | python => exact letters_snakeCase h

theorem letters_spelling (n : Namer) (role : NameRole) (h : isIdentifier raw.toList) :
    letters (n.spelling role raw).toList = letters raw.toList := by
  rw [spelling, String.toList_ofList]
  exact letters_casing n role (isIdentifier_iff.1 h).2

/-- An identifier has the letters of its name, if no token with letters is appended. -/
theorem letters_of_identifier
    (htoken : ∀ token, n.policy.appendToken = some token → letters token.toList = [])
    (h : n.identifier role raw = .ok s) : letters s.toList = letters raw.toList := by
  obtain ⟨hraw, happly⟩ := identifier_eq_ok_iff.1 h
  have hcased := letters_spelling n role hraw
  rcases KeywordPolicy.apply_eq_ok_iff.1 happly with ⟨-, rfl⟩ | ⟨-, token, hsome, -, rfl⟩
  · exact hcased
  · rw [String.toList_append, letters_append, htoken token hsome, List.append_nil, hcased]

end Namer

end SimpleBinary
