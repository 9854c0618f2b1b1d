import Mathlib
import SimpleBinary.Proofs.Outcomes
import SimpleBinary.Proofs.Scanned

/-!
# Documents are read as they are written

A document that a text can hold (`Json.Writable`) is read back from its text, compact or pretty
(`Json.parse?_compact`, `Json.parse?_pretty`).  Both texts are one spread of the document's parts
(`Json.spread`), which differ in the blanks between them.
-/

namespace SimpleBinary

/-! ## Documents that a text can hold -/

/-- A double that is read from what it is printed as. -/
def Binary64.IsReadBack (x : Binary64) : Prop :=
  Json.Number.read? (x.render .document).toList = some (.float x, [])

namespace Json

mutual

/-- A document whose numbers a text can hold and that has no part that cannot be read. -/
def Writable : Json → Prop
  | .int n => Number.Fits n
  | .float x => x.isFinite ∧ x.IsReadBack
  | .unreadable => False
  | .array items => itemsWritable items
  | .object members => membersWritable members
  | _ => True

def itemsWritable : List Json → Prop
  | [] => True
  | j :: js => j.Writable ∧ itemsWritable js

def membersWritable : List (String × Json) → Prop
  | [] => True
  | (_, j) :: ms => j.Writable ∧ membersWritable ms

end

/-- Parts with commas between them and a gap before each. -/
def joined (before : List Char) (parts : List (List Char)) : List Char :=
  List.intercalate [','] (parts.map (before ++ ·))

theorem joined_singleton (before part : List Char) : joined before [part] = before ++ part :=
  List.intercalate_singleton

theorem joined_cons_cons (before part part' : List Char) (parts : List (List Char)) :
    joined before (part :: part' :: parts)
      = before ++ (part ++ ',' :: joined before (part' :: parts)) := by
  rw [joined, List.map_cons, List.map_cons, List.intercalate_cons_cons, ← List.map_cons,
    List.append_assoc, List.append_assoc, joined, List.singleton_append]

theorem joined_nil (parts : List (List Char)) : joined [] parts = List.intercalate [','] parts :=
  congrArg (List.intercalate [',']) (List.map_id parts)

theorem exists_joined_eq (before part : List Char) (parts : List (List Char)) :
    ∃ cs, joined before (part :: parts) = before ++ (part ++ cs) := by
  cases parts with
  | nil => exact ⟨[], by rw [joined_singleton, List.append_nil]⟩
  | cons part' parts => exact ⟨_, joined_cons_cons before part part' parts⟩

/-- Parts between two brackets, with a gap before the closing one. -/
def framed (opening closing : Char) (before last : List Char) : List (List Char) → List Char
  | [] => [opening, closing]
  | parts => opening :: (joined before parts ++ (last ++ [closing]))

theorem framed_cons (opening closing : Char) (before last part : List Char)
    (parts : List (List Char)) : framed opening closing before last (part :: parts)
      = opening :: (joined before (part :: parts) ++ (last ++ [closing])) := rfl

mutual

/-- A document spread over a text: the gaps depend on the depth, and a space follows the name of a
member. -/
def spread (gap : Nat → List Char) (space : List Char) (depth : Nat) : Json → List Char
  | .array items =>
    framed '[' ']' (gap (depth + 1)) (gap depth) (spreadItems gap space (depth + 1) items)
  | .object members =>
    framed '{' '}' (gap (depth + 1)) (gap depth) (spreadMembers gap space (depth + 1) members)
  | j => j.scalarText.toList

def spreadItems (gap : Nat → List Char) (space : List Char) (depth : Nat) :
    List Json → List (List Char)
  | [] => []
  | j :: js => j.spread gap space depth :: spreadItems gap space depth js

def spreadMembers (gap : Nat → List Char) (space : List Char) (depth : Nat) :
    List (String × Json) → List (List Char)
  | [] => []
  | (name, j) :: ms =>
    ((quoted name).toList ++ ':' :: (space ++ j.spread gap space depth))
      :: spreadMembers gap space depth ms

end

theorem spread_float {x : Binary64} (h : x.isFinite) (gap : Nat → List Char) (space : List Char)
    (depth : Nat) : (Json.float x).spread gap space depth = (x.render .document).toList :=
  congrArg String.toList (if_pos h)

/-! ## Blanks -/

namespace Reader

theorem isBlank_cases {c : Char} (h : isBlank c) : c = ' ' ∨ c = '\n' ∨ c = '\t' ∨ c = '\r' := by
  simpa only [isBlank, Bool.or_eq_true, beq_iff_eq, or_assoc] using h

theorem skipBlanks_append {gap : List Char} (hgap : ∀ c ∈ gap, isBlank c) (cs : List Char) :
    skipBlanks (gap ++ cs) = skipBlanks cs := List.dropWhile_append_of_pos hgap

theorem skipBlanks_cons {c : Char} (h : ¬isBlank c) (cs : List Char) :
    skipBlanks (c :: cs) = c :: cs := List.dropWhile_cons_of_neg h

theorem skipBlanks_skipBlanks (cs : List Char) : skipBlanks (skipBlanks cs) = skipBlanks cs :=
  List.dropWhile_idempotent (p := isBlank) cs

/-- The blanks in front of a value do not matter. -/
theorem readValue_congr {cs cs' : List Char} (h : skipBlanks cs = skipBlanks cs') (fuel : Nat) :
    readValue fuel cs = readValue fuel cs' := by
  cases fuel with
  | zero => rfl
  | succ fuel => rw [readValue, readValue, h]

theorem readItems_congr {cs cs' : List Char} (h : skipBlanks cs = skipBlanks cs')
    (acc : List Json) (fuel : Nat) : readItems acc fuel cs = readItems acc fuel cs' := by
  cases fuel with
  | zero => rfl
  | succ fuel => rw [readItems, readItems, readValue_congr h]

theorem readMembers_congr {cs cs' : List Char} (h : skipBlanks cs = skipBlanks cs')
    (acc : List (Option String × Json)) (fuel : Nat) :
    readMembers acc fuel cs = readMembers acc fuel cs' := by
  cases fuel with
  | zero => rfl
  | succ fuel => rw [readMembers, readMembers, h]

theorem readValue_append_blanks {gap : List Char} (hgap : ∀ c ∈ gap, isBlank c) (fuel : Nat)
    (cs : List Char) : readValue fuel (gap ++ cs) = readValue fuel cs :=
  readValue_congr (skipBlanks_append hgap cs) fuel

theorem ends_append_blanks {gap cs : List Char} (hgap : ∀ c ∈ gap, isBlank c)
    (h : Number.Ends cs) : Number.Ends (gap ++ cs) := by
  cases gap with
  | nil => exact h
  | cons c gap =>
    refine Number.ends_cons ?_ (gap ++ cs)
    rcases isBlank_cases (hgap c List.mem_cons_self) with rfl | rfl | rfl | rfl <;> decide

/-- A number does not start with a blank. -/
theorem not_isBlank_of_starts {c : Char} (h : c = '-' ∨ Number.isDigit c) : ¬isBlank c := by
  intro hblank
  rcases isBlank_cases hblank with rfl | rfl | rfl | rfl <;> exact absurd h (by decide)

end Reader

/-! ## Reading what is spread -/

open Reader

theorem toList_quoted_append (s : String) (rest : List Char) :
    (quoted s).toList ++ rest = '"' :: (s.toList.flatMap quotedChar ++ '"' :: rest) := by
  rw [quoted, String.toList_ofList, List.cons_append, List.cons_append, List.append_assoc,
    List.singleton_append]

theorem readValue_text (s : String) (fuel : Nat) (rest : List Char) :
    readValue (fuel + 1) ((quoted s).toList ++ rest) = some (.text s, rest) := by
  rw [toList_quoted_append, readValue, skipBlanks_cons (by decide)]
  simp only [readText_quoted, Option.map_some]

theorem readValue_number {cs rest : List Char} {j : Json} (h : Number.read? cs = some (j, []))
    (hrest : Number.Ends rest) (fuel : Nat) :
    readValue (fuel + 1) (cs ++ rest) = some (j, rest) := by
  have hread := Number.read?_append h hrest
  obtain ⟨c, cs, rfl, hc⟩ := Number.exists_cons_of_read? h
  have hstart : ∀ d ds, d ≠ '-' → ¬Number.isDigit d → c :: (cs ++ rest) ≠ d :: ds := by
    rintro d ds hminus hdigit heq
    cases (List.cons.inj heq).1
    exact hc.elim hminus hdigit
  rw [List.cons_append, readValue, skipBlanks_cons (not_isBlank_of_starts hc)]
  split
  case h_7 => exact hread
  -- Everything else starts with a character that no number starts with.
  all_goals
    rename_i heq
    exact absurd heq (hstart _ _ (by decide) (by decide))

theorem readValue_array {cs cs' : List Char} {c : Char} (h : skipBlanks cs = c :: cs')
    (hc : c ≠ ']') (fuel : Nat) : readValue (fuel + 1) ('[' :: cs) = readItems [] fuel cs := by
  rw [← readItems_congr (skipBlanks_skipBlanks cs), readValue, skipBlanks_cons (by decide)]
  simp only [h]
  split
  · rename_i heq
    exact absurd (List.cons.inj heq).1 hc
  · rfl

theorem readValue_object {cs cs' : List Char} {c : Char} (h : skipBlanks cs = c :: cs')
    (hc : c ≠ '}') (fuel : Nat) : readValue (fuel + 1) ('{' :: cs) = readMembers [] fuel cs := by
  rw [← readMembers_congr (skipBlanks_skipBlanks cs), readValue, skipBlanks_cons (by decide)]
  simp only [h]
  split
  · rename_i heq
    exact absurd (List.cons.inj heq).1 hc
  · rfl

theorem objectOf_reverse (members : List (String × Json)) :
    objectOf (members.map fun m => (some m.1, m.2)).reverse = .object members := by
  have hself : ∀ {f : String × Json → Option (String × Json)}, (∀ m, f m = some m) →
      members.mapM f = some members := fun hf =>
    (mapM_congr_of_mem fun m _ => hf m).trans (List.mapM_pure.trans (congrArg some (List.map_id _)))
  rw [objectOf, List.reverse_reverse, List.mapM_map, hself]
  exact fun _ => rfl

/-- What a document that can be written starts with. -/
theorem Writable.exists_cons {j : Json} (h : j.Writable) (gap : Nat → List Char)
    (space : List Char) (depth : Nat) :
    ∃ c cs, j.spread gap space depth = c :: cs ∧ ¬isBlank c ∧ c ≠ ']' := by
  have hframed : ∀ opening closing before last parts, ∃ cs,
      framed opening closing before last parts = opening :: cs := by
    intro opening closing before last parts
    cases parts with
    | nil => exact ⟨_, rfl⟩
    | cons part parts => exact ⟨_, rfl⟩
  have hnumber : ∀ {cs : List Char} {j : Json}, Number.read? cs = some (j, []) →
      ∃ c cs', cs = c :: cs' ∧ ¬isBlank c ∧ c ≠ ']' := by
    intro cs j hread
    obtain ⟨c, cs', rfl, hc⟩ := Number.exists_cons_of_read? hread
    refine ⟨c, cs', rfl, not_isBlank_of_starts hc, ?_⟩
    rintro rfl
    exact absurd hc (by decide)
  cases j with
  | null => exact ⟨_, _, rfl, by decide, by decide⟩
  | bool b => cases b <;> exact ⟨_, _, rfl, by decide, by decide⟩
  | int n => exact hnumber (Number.read?_toString h)
  | float x =>
    rw [spread_float h.1]
    exact hnumber h.2
  | text s =>
    have htext : (Json.text s).spread gap space depth
        = '"' :: (s.toList.flatMap quotedChar ++ ['"']) :=
      (List.append_nil _).symm.trans (toList_quoted_append s [])
    exact ⟨_, _, htext, by decide, by decide⟩
  | unreadable => exact h.elim
  | array items =>
    obtain ⟨cs, hcs⟩ := hframed '[' ']' (gap (depth + 1)) (gap depth)
      (spreadItems gap space (depth + 1) items)
    exact ⟨_, cs, hcs, by decide, by decide⟩
  | object members =>
    obtain ⟨cs, hcs⟩ := hframed '{' '}' (gap (depth + 1)) (gap depth)
      (spreadMembers gap space (depth + 1) members)
    exact ⟨_, cs, hcs, by decide, by decide⟩

section Spread

variable {gap : Nat → List Char} {space : List Char}

/-! Each reader has as much fuel as twice what is left of the text, and more: a value is read with
one call, and an item or member with one more. -/

variable (hblanks : (∀ d, ∀ c ∈ gap d, isBlank c) ∧ ∀ c ∈ space, isBlank c)
include hblanks

mutual

theorem readValue_spread : ∀ (j : Json), j.Writable → ∀ (depth fuel : Nat) (rest : List Char),
    Number.Ends rest → 2 * (j.spread gap space depth ++ rest).length < fuel →
    readValue fuel (j.spread gap space depth ++ rest) = some (j, rest)
  | .null, _, _, fuel + 1, rest, _, _ => rfl
  | .bool true, _, _, fuel + 1, rest, _, _ => rfl
  | .bool false, _, _, fuel + 1, rest, _, _ => rfl
  | .int n, h, _, fuel + 1, rest, hrest, _ => readValue_number (Number.read?_toString h) hrest fuel
  | .float x, h, depth, fuel + 1, rest, hrest, _ => by
    rw [spread_float h.1]
    exact readValue_number h.2 hrest fuel
  | .text s, _, _, fuel + 1, rest, _, _ => readValue_text s fuel rest
  | .unreadable, h, _, _, _, _, _ => h.elim
  | .array [], _, _, fuel + 1, rest, _, _ => rfl
  | .array (j :: js), h, depth, fuel + 1, rest, _, hfuel => by
    have htext : (Json.array (j :: js)).spread gap space depth ++ rest
        = '[' :: (joined (gap (depth + 1)) (spreadItems gap space (depth + 1) (j :: js))
          ++ (gap depth ++ ']' :: rest)) := by
      rw [spread, spreadItems, framed_cons, List.cons_append, List.append_assoc, List.append_assoc,
        List.singleton_append]
    obtain ⟨cs, hcs⟩ := exists_joined_eq (gap (depth + 1)) (j.spread gap space (depth + 1))
      (spreadItems gap space (depth + 1) js)
    obtain ⟨c, cs', hc, hblank, hne⟩ := Writable.exists_cons h.1 gap space (depth + 1)
    have hskip : skipBlanks (joined (gap (depth + 1)) (spreadItems gap space (depth + 1) (j :: js))
        ++ (gap depth ++ ']' :: rest)) = c :: (cs' ++ cs ++ (gap depth ++ ']' :: rest)) := by
      rw [spreadItems, hcs, List.append_assoc, skipBlanks_append (hblanks.1 _), hc, List.cons_append,
        List.cons_append, skipBlanks_cons hblank]
    rw [htext, List.length_cons] at hfuel
    rw [htext, readValue_array hskip hne]
    exact readItems_spread (j :: js) (List.cons_ne_nil j js) h [] (depth + 1) fuel (gap depth) rest
      (hblanks.1 depth) (by omega)
  | .object [], _, _, fuel + 1, rest, _, _ => rfl
  | .object ((name, j) :: ms), h, depth, fuel + 1, rest, _, hfuel => by
    have htext : (Json.object ((name, j) :: ms)).spread gap space depth ++ rest
        = '{' :: (joined (gap (depth + 1)) (spreadMembers gap space (depth + 1) ((name, j) :: ms))
          ++ (gap depth ++ '}' :: rest)) := by
      rw [spread, spreadMembers, framed_cons, List.cons_append, List.append_assoc,
        List.append_assoc, List.singleton_append]
    obtain ⟨cs, hcs⟩ := exists_joined_eq (gap (depth + 1))
      ((quoted name).toList ++ ':' :: (space ++ j.spread gap space (depth + 1)))
      (spreadMembers gap space (depth + 1) ms)
    have hskip : ∃ cs', skipBlanks (joined (gap (depth + 1))
        (spreadMembers gap space (depth + 1) ((name, j) :: ms)) ++ (gap depth ++ '}' :: rest))
          = '"' :: cs' := by
      rw [spreadMembers, hcs, List.append_assoc, skipBlanks_append (hblanks.1 _), List.append_assoc,
        List.append_assoc, toList_quoted_append, skipBlanks_cons (by decide)]
      exact ⟨_, rfl⟩
    obtain ⟨cs', hcs'⟩ := hskip
    rw [htext, List.length_cons] at hfuel
    rw [htext, readValue_object hcs' (by decide)]
    exact readMembers_spread ((name, j) :: ms) (List.cons_ne_nil _ ms) h [] (depth + 1) fuel
      (gap depth) rest (hblanks.1 depth) (by omega)

theorem readItems_spread : ∀ (js : List Json), js ≠ [] → itemsWritable js →
    ∀ (before : List Json) (depth fuel : Nat) (last rest : List Char), (∀ c ∈ last, isBlank c) →
    2 * (joined (gap depth) (spreadItems gap space depth js) ++ (last ++ ']' :: rest)).length + 1
      < fuel →
    readItems before.reverse fuel
        (joined (gap depth) (spreadItems gap space depth js) ++ (last ++ ']' :: rest))
      = some (.array (before ++ js), rest)
  | [], hne, _, _, _, _, _, _, _, _ => absurd rfl hne
  | [j], _, h, before, depth, fuel + 1, last, rest, hlast, hfuel => by
    have hends : Number.Ends (last ++ ']' :: rest) :=
      ends_append_blanks hlast (Number.ends_cons (by decide) rest)
    rw [spreadItems, spreadItems, joined_singleton, List.append_assoc] at hfuel ⊢
    rw [List.length_append] at hfuel
    rw [readItems, readValue_append_blanks (hblanks.1 depth),
      readValue_spread j h.1 depth fuel _ hends (by omega)]
    simp only [skipBlanks_append hlast, skipBlanks_cons (c := ']') (by decide)]
    rw [List.reverse_cons, List.reverse_reverse]
  | j :: j' :: js, _, h, before, depth, fuel + 1, last, rest, hlast, hfuel => by
    have hends : ∀ cs, Number.Ends (',' :: cs) := Number.ends_cons (by decide)
    have ih := readItems_spread (j' :: js) (List.cons_ne_nil j' js) h.2 (before ++ [j]) depth fuel
      last rest hlast
    rw [List.reverse_append, List.reverse_singleton, List.singleton_append, List.append_assoc,
      List.singleton_append] at ih
    rw [spreadItems, spreadItems, joined_cons_cons, List.append_assoc, List.append_assoc,
      List.cons_append, ← spreadItems] at hfuel ⊢
    rw [List.length_append, List.length_append, List.length_cons] at hfuel
    rw [readItems, readValue_append_blanks (hblanks.1 depth),
      readValue_spread j h.1 depth fuel _ (hends _) (by
        rw [List.length_append, List.length_cons]
        omega)]
    simp only [skipBlanks_cons (c := ',') (by decide)]
    exact ih (by omega)

theorem readMembers_spread : ∀ (ms : List (String × Json)), ms ≠ [] → membersWritable ms →
    ∀ (before : List (String × Json)) (depth fuel : Nat) (last rest : List Char),
    (∀ c ∈ last, isBlank c) →
    2 * (joined (gap depth) (spreadMembers gap space depth ms) ++ (last ++ '}' :: rest)).length + 1
      < fuel →
    readMembers (before.map fun m => (some m.1, m.2)).reverse fuel
        (joined (gap depth) (spreadMembers gap space depth ms) ++ (last ++ '}' :: rest))
      = some (.object (before ++ ms), rest)
  | [], hne, _, _, _, _, _, _, _, _ => absurd rfl hne
  | [(name, j)], _, h, before, depth, fuel + 1, last, rest, hlast, hfuel => by
    have hends : Number.Ends (last ++ '}' :: rest) :=
      ends_append_blanks hlast (Number.ends_cons (by decide) rest)
    rw [spreadMembers, spreadMembers, joined_singleton, List.append_assoc, List.append_assoc,
      List.cons_append, List.append_assoc] at hfuel ⊢
    rw [List.length_append, List.length_append, List.length_cons, List.length_append] at hfuel
    rw [readMembers, skipBlanks_append (hblanks.1 depth), toList_quoted_append,
      skipBlanks_cons (by decide)]
    simp only [readText_quoted, skipBlanks_cons (c := ':') (by decide)]
    rw [readValue_append_blanks hblanks.2, readValue_spread j h.1 depth fuel _ hends (by omega)]
    simp only [skipBlanks_append hlast, skipBlanks_cons (c := '}') (by decide)]
    have hobject := objectOf_reverse (before ++ [(name, j)])
    rw [List.map_append, List.reverse_append] at hobject
    exact congrArg (fun j => some (j, rest)) hobject
  | (name, j) :: (name', j') :: ms, _, h, before, depth, fuel + 1, last, rest, hlast, hfuel => by
    have hends : ∀ cs, Number.Ends (',' :: cs) := Number.ends_cons (by decide)
    have ih := readMembers_spread ((name', j') :: ms) (List.cons_ne_nil _ ms) h.2
      (before ++ [(name, j)]) depth fuel last rest hlast
    rw [List.map_append, List.reverse_append, List.append_assoc, List.singleton_append] at ih
    rw [spreadMembers, spreadMembers, joined_cons_cons, List.append_assoc, List.append_assoc,
      List.append_assoc, List.cons_append, List.append_assoc, List.cons_append, ← spreadMembers]
      at hfuel ⊢
    rw [List.length_append, List.length_append, List.length_cons, List.length_append,
      List.length_append, List.length_cons] at hfuel
    rw [readMembers, skipBlanks_append (hblanks.1 depth), toList_quoted_append,
      skipBlanks_cons (by decide)]
    simp only [readText_quoted, skipBlanks_cons (c := ':') (by decide)]
    rw [readValue_append_blanks hblanks.2, readValue_spread j h.1 depth fuel _ (hends _) (by
      rw [List.length_append, List.length_cons]
      omega)]
    simp only [skipBlanks_cons (c := ',') (by decide)]
    exact ih (by omega)

end

end Spread

/-! ## The two forms of a text -/

theorem toList_framed (opening closing : String) (o c : Char) (parts : List String)
    (ho : opening.toList = [o]) (hc : closing.toList = [c]) :
    (opening ++ String.intercalate "," parts ++ closing).toList
      = framed o c [] [] (parts.map String.toList) := by
  cases parts with
  | nil =>
    rw [String.toList_append, String.toList_append, ho, hc]
    rfl
  | cons part parts =>
    rw [String.toList_append, String.toList_append, String.toList_intercalate, ho, hc, List.map_cons,
      framed_cons, joined_nil]
    rfl

mutual

theorem toList_compact : ∀ (j : Json) (depth : Nat),
    j.compact.toList = j.spread (fun _ => []) [] depth
  | .array items, depth => by
    rw [compact, toList_framed _ _ '[' ']' _ rfl rfl, toList_compactItems items (depth + 1), spread]
  | .object members, depth => by
    rw [compact, toList_framed _ _ '{' '}' _ rfl rfl, toList_compactMembers members (depth + 1),
      spread]
  | .null, _ | .bool _, _ | .int _, _ | .float _, _ | .text _, _ | .unreadable, _ => rfl

theorem toList_compactItems : ∀ (js : List Json) (depth : Nat),
    (compactItems js).map String.toList = spreadItems (fun _ => []) [] depth js
  | [], _ => rfl
  | j :: js, depth => by
    rw [compactItems, List.map_cons, toList_compact j depth, toList_compactItems js depth,
      spreadItems]

theorem toList_compactMembers : ∀ (ms : List (String × Json)) (depth : Nat),
    (compactMembers ms).map String.toList = spreadMembers (fun _ => []) [] depth ms
  | [], _ => rfl
  | (name, j) :: ms, depth => by
    rw [compactMembers, List.map_cons, toList_compactMembers ms depth, spreadMembers,
      String.toList_append, String.toList_append, toList_compact j depth, List.append_assoc]
    rfl

end

/-- The blanks before a part on a line of its own. -/
def indent (depth : Nat) : List Char := '\n' :: List.replicate (2 * depth) ' '

theorem joined_newline (before : List Char) : ∀ (part : List Char) (parts : List (List Char)),
    joined ('\n' :: before) (part :: parts)
      = '\n' :: List.intercalate [',', '\n'] ((part :: parts).map (before ++ ·))
  | part, [] => by
    rw [joined_singleton, List.map_singleton, List.intercalate_singleton, List.cons_append]
  | part, part' :: parts => by
    rw [joined_cons_cons, joined_newline before part' parts,
      List.map_cons (l := part' :: parts), List.map_cons, List.intercalate_cons_cons,
      List.cons_append, List.append_assoc, List.append_assoc]
    rfl

theorem toList_block (opening closing : String) (o c : Char) (depth : Nat) (parts : List String)
    (ho : opening.toList = [o]) (hc : closing.toList = [c]) :
    (block opening closing depth parts).toList
      = framed o c (indent (depth + 1)) (indent depth) (parts.map String.toList) := by
  cases parts with
  | nil =>
    rw [block, List.isEmpty_nil, if_pos rfl, String.toList_append, ho, hc]
    rfl
  | cons part parts =>
    have hpad : List.replicate (2 * (depth + 1)) ' ' = List.replicate (2 * depth) ' ' ++ [' ', ' '] :=
      List.replicate_add (2 * depth) 2 ' '
    have hparts : ((part :: parts).map fun p =>
        String.ofList (List.replicate (2 * depth) ' ') ++ "  " ++ p).map String.toList
          = ((part :: parts).map String.toList).map
            (List.replicate (2 * (depth + 1)) ' ' ++ ·) := by
      rw [List.map_map, List.map_map, hpad]
      refine List.map_congr_left fun p _ => ?_
      rw [Function.comp_apply, String.toList_append, String.toList_append, String.toList_ofList]
      rfl
    rw [block, List.isEmpty_cons, if_neg (by decide), List.map_cons, framed_cons, indent,
      joined_newline, ← List.map_cons, ← hparts]
    simp only [String.toList_append, String.toList_intercalate, String.toList_ofList, ho, hc,
      List.append_assoc]
    rfl

mutual

theorem toList_prettyAt : ∀ (j : Json) (depth : Nat),
    (j.prettyAt depth).toList = j.spread indent [' '] depth
  | .array items, depth => by
    rw [prettyAt, toList_block _ _ '[' ']' _ _ rfl rfl, toList_prettyItems items depth, spread]
  | .object members, depth => by
    rw [prettyAt, toList_block _ _ '{' '}' _ _ rfl rfl, toList_prettyMembers members depth, spread]
  | .null, _ | .bool _, _ | .int _, _ | .float _, _ | .text _, _ | .unreadable, _ => rfl

theorem toList_prettyItems : ∀ (js : List Json) (depth : Nat),
    (prettyItems depth js).map String.toList = spreadItems indent [' '] (depth + 1) js
  | [], _ => rfl
  | j :: js, depth => by
    rw [prettyItems, List.map_cons, toList_prettyAt j (depth + 1), toList_prettyItems js depth,
      spreadItems]

theorem toList_prettyMembers : ∀ (ms : List (String × Json)) (depth : Nat),
    (prettyMembers depth ms).map String.toList = spreadMembers indent [' '] (depth + 1) ms
  | [], _ => rfl
  | (name, j) :: ms, depth => by
    rw [prettyMembers, List.map_cons, toList_prettyMembers ms depth, spreadMembers,
      String.toList_append, String.toList_append, toList_prettyAt j (depth + 1), List.append_assoc]
    rfl

end

/-- What is spread over a text is read back from it. -/
theorem parse?_of_spread {gap : Nat → List Char} {space : List Char}
    (hblanks : (∀ d, ∀ c ∈ gap d, isBlank c) ∧ ∀ c ∈ space, isBlank c) {j : Json}
    (hj : j.Writable) {s : String} {depth : Nat} (hs : s.toList = j.spread gap space depth) :
    parse? s = some j := by
  have hread := readValue_spread hblanks j hj depth (2 * s.toList.length + 2) [] Number.ends_nil
    (by rw [List.append_nil, ← hs]; omega)
  rw [List.append_nil, ← hs] at hread
  unfold parse?
  simp only [hread]
  rfl

theorem parse?_compact {j : Json} (hj : j.Writable) : parse? j.compact = some j :=
  parse?_of_spread ⟨fun _ _ h => absurd h List.not_mem_nil, fun _ h => absurd h List.not_mem_nil⟩
    hj (toList_compact j 0)

theorem parse?_pretty {j : Json} (hj : j.Writable) : parse? j.pretty = some j := by
  refine parse?_of_spread ⟨fun d c hc => ?_, List.forall_mem_singleton.2 rfl⟩ hj (toList_prettyAt j 0)
  rcases List.mem_cons.1 hc with rfl | hc
  · rfl
  · rw [List.eq_of_mem_replicate hc]
    rfl

end Json

end SimpleBinary
