import Mathlib
import SimpleBinary.Proofs.Coders
import SimpleBinary.Proofs.Shown

/-!
# Steps over trailers

Behind a body's block its decoder goes on from one place to the next: it steps over the header of
each group, asks for the bytes that even an empty element of the group needs, and reads and steps
over the length of each var-data.  These moves are read off the decoder's lines
(`Language.moves_decoder`).  A length is read right where the decoder is, wherever the layout puts
it, so the steps make up the body's trailer just if the layout puts every length first
(`Schema.sum_strides_eq_trailerLength_iff`).
-/

namespace SimpleBinary

/-! ## Moves -/

/-- What a decoder does at its running position: it reads a length at a distance from there, steps
on, or asks for room for elements with so many bytes behind their block. -/
inductive Move where
  | readLength (distance : Nat)
  | step (bytes : Nat)
  | checkElements (trailer : Nat)
deriving DecidableEq, Repr

/-- How far a move goes. -/
def Move.stride : Move → Nat
  | .step bytes => bytes
  | _ => 0

namespace Language

/-- The start of the line that asks for the elements of a group. -/
def elementsHead : Language → String
  | .rust => "check_group("
  | .typeScript => "sbe.checkGroup("
  | .python => "check_group("

/-- The start of the line that reads the length of var-data. -/
def lengthHead : Language → String
  | .rust => "let len = "
  | .typeScript => "const length = "
  | .python => "length = struct.unpack_from("

/-- How far from the running position a place is that is given from there. -/
def distance? (cs : List Char) : Option Nat := do
  let rest ← (cs.dropWhile (· != 'p')).dropPrefix? "pos".toList
  return ((rest.dropPrefix? " + ".toList).bind firstNat?).getD 0

/-- The move of a line without the blanks in front. -/
def moveOf? (language : Language) (cs : List Char) : Option Move :=
  ((cs.dropPrefix? "pos += ".toList).bind firstNat?).map .step
    <|> ((cs.dropPrefix? language.elementsHead.toList).bind firstNat?).map .checkElements
    <|> ((cs.dropPrefix? language.lengthHead.toList).bind distance?).map .readLength

/-- The move that a line makes. -/
def move? (language : Language) (line : String) : Option Move :=
  language.moveOf? (line.toList.dropWhile (· == ' '))

/-- What a decoder does at its running position, from its lines. -/
def moves (language : Language) (lines : Lines) : List Move :=
  (lines.dropWhile fun line => !language.isStart line).filterMap language.move?

variable {language : Language}

theorem move?_blanks (n : Nat) (line : String) :
    language.move? (String.ofList (List.replicate n ' ') ++ line) = language.move? line := by
  have hblanks : (List.replicate n ' ' ++ line.toList).dropWhile (· == ' ')
      = line.toList.dropWhile (· == ' ') := by
    rw [List.dropWhile_append_of_pos]
    intro c hc
    rw [List.eq_of_mem_replicate hc]
    rfl
  unfold move?
  rw [String.toList_append, String.toList_ofList, hblanks]

theorem filterMap_move?_indent (width : Nat) (lines : Lines) :
    (Lines.indent width lines).filterMap language.move? = lines.filterMap language.move? := by
  rw [Lines.indent, List.filterMap_map]
  refine List.filterMap_congr fun line _ => ?_
  dsimp only [Function.comp_apply]
  split
  · rfl
  · exact move?_blanks width line

/-- A line whose fixed start makes no move. -/
theorem move?_still {cs : List Char} {s : String}
    (h : ∀ rest, language.moveOf? ((cs ++ rest).dropWhile (· == ' ')) = none) :
    language.move? (String.ofList cs ++ s) = none := by
  unfold move?
  rw [String.toList_append, String.toList_ofList]
  exact h s.toList

/-- A line that steps on by a constant. -/
theorem move?_step (n : Nat) {tail : String} (h : ∀ c ∈ tail.toList.head?, ¬ c.isDigit) :
    language.move? ("pos += " ++ (n.repr ++ tail)) = some (.step n) := by
  have hn : firstNat? ([] ++ (Nat.toDigits 10 n ++ tail.toList)) = some n :=
    firstNat?_append (by simp) n h
  have hrest : ("pos += ".toList ++ (Nat.toDigits 10 n ++ tail.toList)).dropPrefix? "pos += ".toList
      = some ([] ++ (Nat.toDigits 10 n ++ tail.toList)) :=
    dropPrefix?_append _ _
  have hline : ("pos += " ++ (n.repr ++ tail)).toList.dropWhile (· == ' ')
      = "pos += ".toList ++ (Nat.toDigits 10 n ++ tail.toList) := by
    rw [String.toList_append, String.toList_append, Nat.toList_repr]
    rfl
  unfold move? moveOf?
  rw [hline, hrest, Option.bind_some, hn]
  rfl

theorem move?_step_end (n : Nat) : language.move? ("pos += " ++ n.repr) = some (.step n) := by
  rw [← String.append_empty (s := n.repr)]
  exact move?_step n (by simp)

/-- A line that asks for elements; its first digits are behind a fixed start. -/
theorem move?_elements {head tail : String} (n : Nat)
    (hhead : (head.toList.dropPrefix? language.elementsHead.toList).any (·.all (!·.isDigit)))
    (htail : ∀ c ∈ tail.toList.head?, ¬ c.isDigit) :
    language.move? (head ++ (n.repr ++ tail)) = some (.checkElements n) := by
  obtain ⟨middle, hmiddle, hdigits⟩ := (Option.any_eq_true _ _).1 hhead
  obtain ⟨_, hhead, heq⟩ := List.dropPrefix?_eq_some_iff.1 hmiddle
  rw [eq_of_beq heq] at hhead
  have hn : firstNat? (middle ++ (Nat.toDigits 10 n ++ tail.toList)) = some n :=
    firstNat?_append (List.all_eq_true.1 hdigits) n htail
  generalize hcs : middle ++ (Nat.toDigits 10 n ++ tail.toList) = cs at hn
  have hrest : (language.elementsHead.toList ++ cs).dropPrefix? language.elementsHead.toList
      = some cs := dropPrefix?_append _ _
  have hline : (head ++ (n.repr ++ tail)).toList.dropWhile (· == ' ')
      = language.elementsHead.toList ++ cs := by
    rw [String.toList_append, String.toList_append, Nat.toList_repr, hhead, List.append_assoc, hcs]
    cases language <;> rfl
  have hpos : (language.elementsHead.toList ++ cs).dropPrefix? "pos += ".toList = none := by
    cases language <;> rfl
  unfold move? moveOf?
  rw [hline, hpos, hrest, Option.bind_some, hn]
  rfl

/-- A line that reads a length right at the running position. -/
theorem move?_length (language : Language) {middle rest : String} (hmiddle : 'p' ∉ middle.toList)
    (h : rest.toList.dropPrefix? " + ".toList = none) :
    language.move? (language.lengthHead ++ (middle ++ ("pos" ++ rest))) = some (.readLength 0) := by
  have hdrop : (middle.toList ++ ("pos".toList ++ rest.toList)).dropWhile (· != 'p')
      = "pos".toList ++ rest.toList := by
    rw [List.dropWhile_append_of_pos]
    · rfl
    · intro c hc
      have hne : c ≠ 'p' := fun he => hmiddle (he ▸ hc)
      simpa using hne
  have hplace : distance? (middle.toList ++ ("pos".toList ++ rest.toList)) = some 0 := by
    have hpos : ("pos".toList ++ rest.toList).dropPrefix? "pos".toList = some rest.toList :=
      dropPrefix?_append _ _
    unfold distance?
    rw [hdrop, hpos]
    simp only [Option.bind_eq_bind, Option.bind_some, h, Option.bind_none, Option.getD_none]
    rfl
  generalize hcs : middle.toList ++ ("pos".toList ++ rest.toList) = cs at hplace
  have hrest : (language.lengthHead.toList ++ cs).dropPrefix? language.lengthHead.toList
      = some cs := dropPrefix?_append _ _
  have hline : (language.lengthHead ++ (middle ++ ("pos" ++ rest))).toList.dropWhile (· == ' ')
      = language.lengthHead.toList ++ cs := by
    rw [String.toList_append, String.toList_append, String.toList_append, hcs]
    cases language <;> rfl
  have hpos : (language.lengthHead.toList ++ cs).dropPrefix? "pos += ".toList = none := by
    cases language <;> rfl
  have helements : (language.lengthHead.toList ++ cs).dropPrefix? language.elementsHead.toList
      = none := by
    cases language <;> rfl
  unfold move? moveOf?
  rw [hline, hpos, helements, hrest, Option.bind_some, hplace]
  rfl

/-! Moves of lines, one line after the other. -/

section Cons

variable {line : String} {lines : Lines} {cs : List Char} {s : String} {m : Move} {ms : List Move}

theorem moves_fixed (hrest : lines.filterMap language.move? = ms)
    (h : language.moveOf? (cs.dropWhile (· == ' ')) = none) :
    (String.ofList cs :: lines).filterMap language.move? = ms := by
  rw [List.filterMap_cons_none, hrest]
  unfold move?
  rw [String.toList_ofList]
  exact h

theorem moves_still (hrest : lines.filterMap language.move? = ms)
    (h : ∀ rest, language.moveOf? ((cs ++ rest).dropWhile (· == ' ')) = none) :
    ((String.ofList cs ++ s) :: lines).filterMap language.move? = ms := by
  rw [List.filterMap_cons_none (move?_still h), hrest]

theorem moves_move (h : language.move? line = some m)
    (hrest : lines.filterMap language.move? = ms) :
    (line :: lines).filterMap language.move? = m :: ms := by
  rw [List.filterMap_cons_some h, hrest]

end Cons

/-! ## The moves of a decoder -/

/-- The moves of a body's decoder: over the header of each group, whose elements are asked for, and
over the length of each var-data, which is read where it is taken to be. -/
def trailerMoves (b : NamedBody) : List Move :=
  b.groups.flatMap (fun g => [.step g.dimension.encodedLength,
      .checkElements g.body.layout.trailerLength])
    ++ b.varData.flatMap fun d => [.readLength 0, .step d.layout.length.width]

theorem filterMap_flatMap_eq {α : Type} {f : α → Lines} {ms : α → List Move} (as : List α)
    (h : ∀ a, (f a).filterMap language.move? = ms a) :
    (as.flatMap f).filterMap language.move? = as.flatMap ms := by
  rw [List.filterMap_flatMap]
  exact List.flatMap_congr fun a _ => h a

theorem move?_of_isStart {start : String} (h : language.isStart start) :
    language.move? start = none := by
  cases language with
  | rust => rcases Bool.or_eq_true_iff.1 h with heq | heq <;> rw [eq_of_beq heq] <;> rfl
  | typeScript | python => rw [eq_of_beq h]; rfl

/-- The moves of a decoder, whose groups and var-data have theirs, are all behind the block. -/
theorem Divides.moves_eq {lines inits ends tail : Lines} {b : NamedBody}
    {decodeGroup : NamedGroup → Lines} {decodeVarData : NamedVarData → Lines}
    (h : language.Divides lines inits (Lines.indent language.indentation
      (b.groups.flatMap decodeGroup ++ b.varData.flatMap decodeVarData ++ ends) ++ tail))
    (hgroup : ∀ g, (decodeGroup g).filterMap language.move?
      = [.step g.dimension.encodedLength, .checkElements g.body.layout.trailerLength])
    (hvarData : ∀ d, (decodeVarData d).filterMap language.move?
      = [.readLength 0, .step d.layout.length.width])
    (hends : ends.filterMap language.move? = []) (htail : tail.filterMap language.move? = []) :
    language.moves lines = trailerMoves b := by
  obtain ⟨before, start, rfl, hstart, hfills⟩ := h
  rw [moves, List.dropWhile_append_of_pos fun line hline => by simp [hfills.isStart line hline],
    List.dropWhile_cons_of_neg (by simp [hstart]), List.filterMap_cons_none (move?_of_isStart hstart)]
  simp only [List.filterMap_append, filterMap_move?_indent, filterMap_flatMap_eq _ hgroup,
    filterMap_flatMap_eq _ hvarData, hends, htail, List.append_nil]
  rfl

end Language

/-! ## Rust -/

namespace Rust

theorem moves_decodeGroup (g : NamedGroup) : (decodeGroup g).filterMap Language.rust.move?
    = [.step g.dimension.encodedLength, .checkElements g.body.layout.trailerLength] := by
  unfold decodeGroup
  simp only [toString, String.append_assoc, List.cons_append, List.nil_append, block, Lines.braced]
  refine Language.moves_fixed ?_ rfl
  refine Language.moves_still ?_ fun _ => rfl
  refine Language.moves_still ?_ fun _ => rfl
  refine Language.moves_move (Language.move?_step _ (by simp)) ?_
  refine Language.moves_move (Language.move?_elements _ rfl (by simp)) ?_
  refine Language.moves_still ?_ fun _ => rfl
  refine Language.moves_still ?_ fun _ => rfl
  rw [List.filterMap_append, Language.filterMap_move?_indent]
  refine List.append_eq_nil_iff.2 ⟨?_, Language.moves_still rfl fun _ => rfl⟩
  refine Language.moves_still ?_ fun _ => rfl
  refine Language.moves_still ?_ fun _ => rfl
  exact Language.moves_fixed rfl rfl

theorem moves_decodeVarData (d : NamedVarData) :
    (decodeVarData d).filterMap Language.rust.move?
      = [.readLength 0, .step d.layout.length.width] := by
  have htype : 'p' ∉ (typeName d.layout.length.primitive).toList := by
    cases d.layout.length.primitive <;> decide
  have horder : 'p' ∉ (endian d.layout.length.byteOrder).toList := by
    cases d.layout.length.byteOrder <;> decide
  have hplace : 'p' ∉ (typeName d.layout.length.primitive ++ ("::from_"
      ++ (endian d.layout.length.byteOrder ++ "_bytes(read(buf, "))).toList := by
    simp [htype, horder]
  have hrest : (", " ++ (quoted d.path ++ (")?)" ++ " as usize;"))).toList.dropPrefix? " + ".toList
      = none := by simp [List.dropPrefix?]
  have hlength := Language.rust.move?_length hplace hrest
  unfold decodeVarData
  simp only [Language.lengthHead, String.append_assoc] at hlength
  simp only [toString, String.append_assoc, readNumber]
  refine Language.moves_fixed ?_ rfl
  refine Language.moves_move hlength ?_
  refine Language.moves_move (Language.move?_step _ (by simp)) ?_
  refine Language.moves_still ?_ fun _ => rfl
  exact Language.moves_fixed rfl rfl

theorem moves_decodeBody (b : NamedBody) (reads : List FieldRead) :
    Language.rust.moves (decodeBody b reads) = Language.trailerMoves b :=
  (divides_decodeBody b reads).moves_eq moves_decodeGroup moves_decodeVarData
    (Language.moves_fixed rfl rfl) (Language.moves_still rfl fun _ => rfl)

end Rust

/-! ## TypeScript -/

namespace TypeScript

/-- A block of its own makes the moves of what is in it. -/
theorem moves_scope {body : Lines} {ms : List Move}
    (h : body.filterMap Language.typeScript.move? = ms) :
    (scope body).filterMap Language.typeScript.move? = ms := by
  unfold scope
  rw [List.cons_append]
  refine Language.moves_fixed ?_ rfl
  rw [List.filterMap_append, Language.filterMap_move?_indent, h,
    Language.moves_fixed List.filterMap_nil rfl, List.append_nil]

theorem moves_decodeGroup (g : NamedGroup) : (decodeGroup g).filterMap Language.typeScript.move?
    = [.step g.dimension.encodedLength, .checkElements g.body.layout.trailerLength] := by
  unfold decodeGroup
  refine moves_scope ?_
  simp only [toString, String.append_assoc, List.cons_append, List.nil_append, block, Lines.braced]
  refine Language.moves_still ?_ fun _ => rfl
  refine Language.moves_still ?_ fun _ => rfl
  refine Language.moves_still ?_ fun _ => rfl
  refine Language.moves_move (Language.move?_step _ (by simp)) ?_
  refine Language.moves_move (Language.move?_elements _ rfl (by simp)) ?_
  refine Language.moves_still ?_ fun _ => rfl
  rw [List.filterMap_append, Language.filterMap_move?_indent]
  refine List.append_eq_nil_iff.2 ⟨?_, Language.moves_still rfl fun _ => rfl⟩
  refine Language.moves_still ?_ fun _ => rfl
  refine Language.moves_still ?_ fun _ => rfl
  exact Language.moves_fixed rfl rfl

/-- A length is read at the running position, whether or not it is made a plain number. -/
theorem move?_readSlot (s : HeaderSlot) : Language.typeScript.move?
    ("const length = " ++ (readSlot s "pos" ++ ";")) = some (.readLength 0) := by
  have haccessor : 'p' ∉ (accessor s.primitive).toList := by
    cases s.primitive <;> decide
  have horder : ∀ rest : String, List.dropPrefix?
      (orderArgument s.primitive s.byteOrder ++ (")" ++ rest)).toList " + ".toList = none := by
    intro rest
    unfold orderArgument
    cases s.byteOrder <;> dsimp only <;> split <;> simp [List.dropPrefix?]
  have hread : 'p' ∉ ("view.get" ++ (accessor s.primitive ++ "(")).toList := by simp [haccessor]
  have hnumber : 'p' ∉ ("Number(" ++ ("view.get" ++ (accessor s.primitive ++ "("))).toList := by
    simp [haccessor]
  have hplain := Language.typeScript.move?_length hread (horder ";")
  have hwide := Language.typeScript.move?_length hnumber (horder (")" ++ ";"))
  simp only [Language.lengthHead, String.append_assoc] at hplain hwide
  unfold readSlot TypeScript.read
  simp only [toString]
  split
  · simpa only [String.append_assoc] using hwide
  · simpa only [String.append_assoc] using hplain

theorem moves_decodeVarData (d : NamedVarData) :
    (decodeVarData d).filterMap Language.typeScript.move?
      = [.readLength 0, .step d.layout.length.width] := by
  unfold decodeVarData
  refine moves_scope ?_
  simp only [toString, String.append_assoc]
  refine Language.moves_still ?_ fun _ => rfl
  refine Language.moves_move (move?_readSlot d.layout.length) ?_
  refine Language.moves_move (Language.move?_step _ (by simp)) ?_
  refine Language.moves_still ?_ fun _ => rfl
  exact Language.moves_fixed rfl rfl

theorem moves_decodeBody (b : NamedBody) (fields : Lines) :
    Language.typeScript.moves (decodeBody b fields) = Language.trailerMoves b :=
  (divides_decodeBody b fields).moves_eq moves_decodeGroup moves_decodeVarData
    (Language.moves_fixed rfl rfl) (Language.moves_still rfl fun _ => rfl)

end TypeScript

/-! ## Python -/

namespace Python

theorem moves_decodeGroup (g : NamedGroup) : (decodeGroup g).filterMap Language.python.move?
    = [.step g.dimension.encodedLength, .checkElements g.body.layout.trailerLength] := by
  unfold decodeGroup
  simp only [toString, String.append_assoc, List.cons_append, List.nil_append, block]
  refine Language.moves_still ?_ fun _ => rfl
  refine Language.moves_still ?_ fun _ => rfl
  refine Language.moves_still ?_ fun _ => rfl
  refine Language.moves_move (Language.move?_step_end _) ?_
  refine Language.moves_move (Language.move?_elements _ rfl (by simp)) ?_
  refine Language.moves_still ?_ fun _ => rfl
  rw [Language.filterMap_move?_indent]
  refine Language.moves_still ?_ fun _ => rfl
  exact Language.moves_still rfl fun _ => rfl

theorem moves_decodeVarData (d : NamedVarData) :
    (decodeVarData d).filterMap Language.python.move?
      = [.readLength 0, .step d.layout.length.width] := by
  have horder : 'p' ∉ (orderMark d.layout.length.byteOrder).toList := by
    cases d.layout.length.byteOrder <;> decide
  have hletter : 'p' ∉ (letter d.layout.length.primitive).toList := by
    cases d.layout.length.primitive <;> decide
  have hplace : 'p' ∉ (format d.layout.length.primitive d.layout.length.byteOrder
      ++ ", buf, ").toList := by
    unfold format
    simp only [toString, String.toList_append, List.mem_append, not_or]
    exact ⟨⟨⟨⟨by decide, horder⟩, hletter⟩, by decide⟩, by decide⟩
  have hrest : ")[0]".toList.dropPrefix? " + ".toList = none := rfl
  have hlength := Language.python.move?_length hplace hrest
  have hhead : Language.python.lengthHead = "length = " ++ "struct.unpack_from(" := rfl
  simp only [hhead, String.append_assoc] at hlength
  unfold decodeVarData Python.read
  simp only [toString, String.append_assoc]
  refine Language.moves_still ?_ fun _ => rfl
  refine Language.moves_move hlength ?_
  refine Language.moves_move (Language.move?_step_end _) ?_
  refine Language.moves_still ?_ fun _ => rfl
  refine Language.moves_still ?_ fun _ => rfl
  exact Language.moves_fixed rfl rfl

theorem moves_decodeBody (b : NamedBody) (reads : List FieldRead) :
    Language.python.moves (decodeBody b reads) = Language.trailerMoves b :=
  (divides_decodeBody b reads).moves_eq moves_decodeGroup moves_decodeVarData
    (Language.moves_fixed rfl rfl) rfl

end Python

/-! ## Packages -/

/-- Var-data whose length comes first in its composite. -/
def NamedVarData.lengthFirst (d : NamedVarData) : NamedVarData :=
  { d with layout := { d.layout with length := { d.layout.length with offset := 0 } } }

def NamedBody.lengthsFirst (b : NamedBody) : NamedBody :=
  { b with varData := b.varData.map (·.lengthFirst) }

theorem flatMap_lengthFirst {f : NamedVarData → Lines} (hf : ∀ d, f d.lengthFirst = f d)
    (ds : List NamedVarData) : (ds.map (·.lengthFirst)).flatMap f = ds.flatMap f := by
  rw [List.flatMap_map]
  exact List.flatMap_congr fun d _ => hf d

/-- Where a schema puts the lengths of a body's var-data leaves no trace in the functions that write
and read the body. -/
theorem Language.coders_lengthsFirst (language : Language) (b : NamedBody) :
    language.coders b.lengthsFirst = language.coders b := by
  unfold coders
  cases language with
  | rust =>
    have hencode := flatMap_lengthFirst (f := Rust.encodeVarData) (fun _ => rfl) b.varData
    have hdecode := flatMap_lengthFirst (f := Rust.decodeVarData) (fun _ => rfl) b.varData
    simp only [encoder, decoder, Rust.encodeBody, Rust.decodeBody, NamedBody.lengthsFirst, hencode,
      hdecode, List.map_map]
    rfl
  | typeScript =>
    have hencode := flatMap_lengthFirst (f := TypeScript.encodeVarData) (fun _ => rfl) b.varData
    have hdecode := flatMap_lengthFirst (f := TypeScript.decodeVarData) (fun _ => rfl) b.varData
    simp only [encoder, decoder, TypeScript.encodeBody, TypeScript.decodeBody,
      NamedBody.lengthsFirst, hencode, hdecode, List.map_map]
    rfl
  | python =>
    have hencode := flatMap_lengthFirst (f := Python.encodeVarData) (fun _ => rfl) b.varData
    have hdecode := flatMap_lengthFirst (f := Python.decodeVarData) (fun _ => rfl) b.varData
    simp only [encoder, decoder, Python.encodeBody, Python.decodeBody, NamedBody.lengthsFirst,
      hencode, hdecode]
    rfl

/-- What a decoder does at its running position. -/
theorem Language.moves_decoder (language : Language) (b : NamedBody) :
    language.moves (language.decoder b) = trailerMoves b := by
  cases language with
  | rust => exact Rust.moves_decodeBody b _
  | typeScript => exact TypeScript.moves_decodeBody b _
  | python => exact Python.moves_decodeBody b _

/-- The moves over the trailer of a body: over the header of each group, whose elements are asked
for with the trailer of the group's body, and over the length of each var-data, which is read where
the decoder is. -/
def BodyLayout.trailerMoves (b : BodyLayout) : List Move :=
  b.groups.flatMap (fun g => [.step g.dimension.encodedLength,
      .checkElements g.body.trailerLength])
    ++ b.varData.flatMap fun d => [.readLength 0, .step d.length.width]

theorem Namer.Names.trailerMoves_eq {n : Namer} {b : NamedBody} (h : n.Names b) :
    Language.trailerMoves b = b.layout.trailerMoves := by
  have hgroups := congrArg (List.flatMap fun p : DimensionLayout × BodyLayout =>
    [Move.step p.1.encodedLength, .checkElements p.2.trailerLength]) h.groups
  have hdata := congrArg (List.flatMap fun d : VarDataLayout =>
    [Move.readLength 0, .step d.length.width]) h.varData
  rw [List.flatMap_map, List.flatMap_map] at hgroups
  rw [List.flatMap_map] at hdata
  rw [Language.trailerMoves, hgroups, hdata, BodyLayout.trailerMoves]

/-- The steps over a trailer and the places of the lengths in it add up to its length. -/
theorem BodyLayout.sum_strides : ∀ b : BodyLayout, (b.trailerMoves.map Move.stride).sum
    + (b.varData.map fun d => d.length.offset).sum = b.trailerLength
  | ⟨_, _, [], []⟩ => rfl
  | ⟨blockLength, fields, [], d :: ds⟩ => by
    have ih := sum_strides ⟨blockLength, fields, [], ds⟩
    simp only [trailerMoves, trailerLength, List.flatMap_nil, List.nil_append, List.flatMap_cons,
      List.map_append, List.map_cons, List.map_nil, List.sum_append, List.sum_cons, List.sum_nil,
      List.foldr_cons, List.foldr_nil, Move.stride, VarDataLayout.headerLength] at ih ⊢
    omega
  | ⟨blockLength, fields, g :: gs, varData⟩ => by
    have ih := sum_strides ⟨blockLength, fields, gs, varData⟩
    simp only [trailerMoves, trailerLength, List.flatMap_cons, List.map_append, List.map_cons,
      List.map_nil, List.sum_append, List.sum_cons, List.sum_nil, List.foldr_cons,
      Move.stride] at ih ⊢
    omega

/-- The steps make up the trailer just if every length comes first. -/
theorem BodyLayout.sum_strides_eq_iff (b : BodyLayout) :
    (b.trailerMoves.map Move.stride).sum = b.trailerLength
      ↔ ∀ d ∈ b.varData, d.length.offset = 0 := by
  have hsum := b.sum_strides
  have hoffsets : (b.varData.map fun d => d.length.offset).sum = 0
      ↔ ∀ d ∈ b.varData, d.length.offset = 0 := by
    rw [List.sum_eq_zero_iff, List.forall_mem_map]
  rw [← hoffsets]
  omega

/-- In the sources of every message the decoder of each body, at any depth, steps over the header of
each group and asks for elements with the group's trailer, then reads the length of each var-data
where it is and steps over it; both functions of the body are those for lengths that come first.  So
the steps make up the body's trailer just if every length does come first. -/
theorem Schema.sum_strides_eq_trailerLength_iff {s : Schema} {config : SourceConfig}
    {files : List SourceFile} (h : s.sources config = .ok files) :
    ∃ l, SchemaLayout.resolve s = .ok l ∧ ∀ m ∈ l.messages, ∃ f ∈ files, ∃ lines b,
      f.contents = joinLines lines ∧ (b :: b.nested).map (·.layout) = m.body.bodies
        ∧ ∀ c ∈ b :: b.nested, config.language.coders c <:+: lines
          ∧ config.language.coders c.lengthsFirst = config.language.coders c
          ∧ config.language.moves (config.language.decoder c) = c.layout.trailerMoves
          ∧ (((config.language.moves (config.language.decoder c)).map Move.stride).sum
              = c.layout.trailerLength ↔ ∀ d ∈ c.layout.varData, d.length.offset = 0) := by
  obtain ⟨l, hl, hcoders⟩ := Schema.exists_coders h
  refine ⟨l, hl, fun m hm => ?_⟩
  obtain ⟨f, hf, lines, b, hlines, hlayouts, hbodies⟩ := hcoders m hm
  refine ⟨f, hf, lines, b, hlines, hlayouts, fun c hc => ?_⟩
  obtain ⟨hnames, hlies⟩ := hbodies c hc
  rw [Language.moves_decoder, hnames.trailerMoves_eq]
  exact ⟨hlies, Language.coders_lengthsFirst _ c, rfl, c.layout.sum_strides_eq_iff⟩

namespace Notes

/-- A length of one byte behind four others: its decoder steps over one byte of five. -/
theorem sum_strides_schema : ∃ files, (schema 4).sources ⟨.python, ⟨none⟩, none⟩ = .ok files
    ∧ ∃ f ∈ files, ∃ lines b, f.contents = joinLines lines
      ∧ Language.python.coders b <:+: lines ∧ b.layout.trailerLength = 5
      ∧ Language.python.moves (Language.python.decoder b) = [.readLength 0, .step 1] := by
  have hsome : ((schema 4).sources ⟨.python, ⟨none⟩, none⟩).toOption.isSome := by decide +kernel
  obtain ⟨files, hfiles⟩ := Option.isSome_iff_exists.1 hsome
  rw [toOption_eq_some_iff] at hfiles
  obtain ⟨l, hl, hmessages⟩ := Schema.sum_strides_eq_trailerLength_iff hfiles
  obtain ⟨header, -, hresolve⟩ := exists_resolve
  cases (hresolve 4).symm.trans hl
  obtain ⟨f, hf, lines, b, hlines, hlayouts, hbodies⟩ := hmessages _ List.mem_cons_self
  obtain ⟨hlies, -, hmoves, -⟩ := hbodies b List.mem_cons_self
  have hlayout : b.layout = (message 4).body := (List.cons.inj hlayouts).1
  rw [hlayout] at hmoves
  refine ⟨files, hfiles, f, hf, lines, b, hlines, hlies, ?_, hmoves⟩
  rw [hlayout]
  rfl

end Notes

end SimpleBinary
