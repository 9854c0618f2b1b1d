import Mathlib
import SimpleBinary.Proofs.Imports

/-!
# Coders of bodies

The file of a message holds the function that writes the message's body and the one that reads it,
and both again for the elements of each group at any depth (`Schema.exists_coders`).  The functions
are written from a named body, whose parts are those of the body's layout in order
(`Namer.Names`).
-/

namespace SimpleBinary

/-! ## Named bodies -/

/-- A body whose parts are those of its layout, in order and under the names that a namer gives. -/
structure Namer.Names (n : Namer) (b : NamedBody) : Prop where
  fields : b.layout.fields.mapM n.field = .ok b.fields
  groups : b.groups.map (fun g => (g.dimension, g.body.layout))
    = b.layout.groups.map fun g => (g.dimension, g.body)
  varData : b.varData.map (·.layout) = b.layout.varData
  plainGroups : ∀ g ∈ b.groups, IsPlain g.member
  plainVarData : ∀ d ∈ b.varData, IsPlain d.member

namespace Namer

variable {n : Namer}

theorem layout_of_body {b : BodyLayout} {type path : String} {named : NamedBody}
    (h : n.body type path b = .ok named) : named.layout = b := by
  obtain ⟨blockLength, fields, groups, varData⟩ := b
  obtain ⟨_, _, _, _, -, -, -, -, rfl⟩ := parts_of_body h
  rfl

theorem of_varData {path : String} {d : VarDataLayout} {named : NamedVarData}
    (h : n.varData path d = .ok named) : d = named.layout ∧ IsPlain named.member := by
  obtain ⟨member, hmember, h⟩ := bind_eq_ok_iff.1 h
  cases h
  exact ⟨rfl, plain_of_identifier .member hmember⟩

theorem of_groupBodies : ∀ {groups : List GroupLayout} {type path : String}
    {named : List NamedGroup}, n.groupBodies type path groups = .ok named →
      named.map (fun g => (g.dimension, g.body.layout)) = groups.map (fun g => (g.dimension, g.body))
        ∧ ∀ g ∈ named, IsPlain g.member
  | [], _, _, _, h => by
    cases h
    simp
  | ⟨name, _, _, dimension, layout, _⟩ :: groups, type, path, named, h => by
    obtain ⟨_, _, _, _, hmember, -, hbody, hgroups, rfl⟩ := parts_of_groupBodies h
    obtain ⟨hparts, hplain⟩ := of_groupBodies hgroups
    rw [List.map_cons, List.map_cons, hparts, layout_of_body hbody]
    exact ⟨rfl, List.forall_mem_cons.2 ⟨plain_of_identifier .member hmember, hplain⟩⟩

mutual

/-- A body and those of its groups are named at every depth, and are those of its layout. -/
theorem names_of_body : ∀ {b : BodyLayout} {type path : String} {named : NamedBody},
    n.body type path b = .ok named →
      (named :: named.nested).map (·.layout) = b.bodies
        ∧ ∀ c ∈ named :: named.nested, n.Names c
  | ⟨blockLength, fields, groups, varData⟩, type, path, named, h => by
    obtain ⟨_, _, _, _, hfields, -, hdata, hgroups, rfl⟩ := parts_of_body h
    obtain ⟨hlayouts, hnames⟩ := names_of_groupBodies hgroups
    rw [NamedBody.nested, BodyLayout.bodies, List.map_cons, hlayouts]
    obtain ⟨hparts, hplain⟩ := of_groupBodies hgroups
    refine ⟨rfl, List.forall_mem_cons.2 ⟨⟨hfields, hparts, ?_, hplain, fun d hd => ?_⟩, hnames⟩⟩
    · have hlayouts := map_eq_of_mapM (g := id) (fun h => (of_varData h).1) hdata
      rw [← hlayouts, List.map_id]
    · obtain ⟨d', -, hd'⟩ := exists_of_mem_mapM hdata hd
      exact (of_varData hd').2

theorem names_of_groupBodies : ∀ {groups : List GroupLayout} {type path : String}
    {named : List NamedGroup}, n.groupBodies type path groups = .ok named →
      (nestedBodies named).map (·.layout) = groupsBodies groups
        ∧ ∀ c ∈ nestedBodies named, n.Names c
  | [], _, _, named, h => by
    cases h
    simp [nestedBodies, groupsBodies]
  | ⟨name, _, _, dimension, layout, _⟩ :: groups, type, path, named, h => by
    obtain ⟨_, _, _, _, -, -, hbody, hgroups, rfl⟩ := parts_of_groupBodies h
    obtain ⟨hlayouts, hnames⟩ := names_of_body hbody
    obtain ⟨hrest, hothers⟩ := names_of_groupBodies hgroups
    rw [nestedBodies, groupsBodies, List.map_append, hlayouts, hrest]
    exact ⟨rfl, List.forall_mem_append.2 ⟨hnames, hothers⟩⟩

end

end Namer

/-! ## Lines -/

theorem dropPrefix?_append (text rest : List Char) :
    (text ++ rest).dropPrefix? text = some rest :=
  List.dropPrefix?_eq_some_iff.2 ⟨text, rfl, beq_self_eq_true text⟩

/-- The first natural in a text. -/
def firstNat? (cs : List Char) : Option Nat :=
  match (cs.dropWhile fun c => !c.isDigit).takeWhile Char.isDigit with
  | [] => none
  | ds => some (Nat.ofDigitChars 10 ds 0)

theorem firstNat?_append {front rest : List Char} (hfront : ∀ c ∈ front, !c.isDigit) (n : Nat)
    (hrest : ∀ c ∈ rest.head?, ¬ c.isDigit) :
    firstNat? (front ++ (Nat.toDigits 10 n ++ rest)) = some n := by
  have hdigits : ∀ c ∈ Nat.toDigits 10 n, c.isDigit :=
    fun c hc => Nat.isDigit_of_mem_toDigits (by decide) (by decide) hc
  have hdrop : (front ++ (Nat.toDigits 10 n ++ rest)).dropWhile (fun c => !c.isDigit)
      = Nat.toDigits 10 n ++ rest := by
    rw [List.dropWhile_append_of_pos hfront]
    cases hn : Nat.toDigits 10 n with
    | nil => exact absurd hn Nat.toDigits_ne_nil
    | cons d ds =>
      rw [List.cons_append, List.dropWhile_cons_of_neg]
      simp [hdigits d (by simp [hn])]
  have htake : (Nat.toDigits 10 n ++ rest).takeWhile Char.isDigit = Nat.toDigits 10 n := by
    rw [List.takeWhile_append_of_pos hdigits]
    cases rest with
    | nil => simp
    | cons c cs => rw [List.takeWhile_cons_of_neg (hrest c (by simp)), List.append_nil]
  unfold firstNat?
  rw [hdrop, htake]
  split
  · rename_i hnil
    exact absurd hnil Nat.toDigits_ne_nil
  · rw [Nat.ofDigitChars_toDigits (by decide) (by decide)]

namespace Lines

theorem indent_append (width : Nat) (lines lines' : Lines) :
    indent width (lines ++ lines') = indent width lines ++ indent width lines' := List.map_append

/-- A line that is indented twice has a blank behind the first indentation, or nothing. -/
theorem getElem?_of_mem_indent {width : Nat} (hwidth : 0 < width) {lines : Lines} {line : String}
    (h : line ∈ indent width (indent width lines)) : ∀ c ∈ line.toList[width]?, c = ' ' := by
  obtain ⟨inner, hinner, rfl⟩ := List.mem_map.1 h
  obtain ⟨l, -, rfl⟩ := List.mem_map.1 hinner
  obtain ⟨w, rfl⟩ := Nat.exists_eq_succ_of_ne_zero hwidth.ne'
  by_cases hl : l.isEmpty
  · simp [String.isEmpty_iff.1 hl]
  · simp [hl, List.replicate_succ]

/-- The lines behind so many blanks, without these. -/
def inner (width : Nat) (lines : Lines) : Lines :=
  lines.filterMap fun l =>
    if l.isEmpty then some l
    else (l.toList.dropPrefix? (List.replicate width ' ')).map String.ofList

theorem inner_append (width : Nat) (lines lines' : Lines) :
    inner width (lines ++ lines') = inner width lines ++ inner width lines' := List.filterMap_append

theorem inner_indent (width : Nat) (lines : Lines) :
    inner (width + width) (indent width (indent width lines)) = lines := by
  rw [inner, indent, indent, List.filterMap_map, List.filterMap_map]
  refine (List.filterMap_congr fun l _ => ?_).trans (List.filterMap_some (l := lines))
  dsimp only [Function.comp_apply]
  by_cases hl : l = ""
  · simp [hl]
  · have hblanks : (List.replicate width ' ' ++ (List.replicate width ' ' ++ l.toList)).dropPrefix?
        (List.replicate (width + width) ' ') = some l.toList :=
      List.dropPrefix?_eq_some_iff.2 ⟨_, by rw [← List.append_assoc], by simp⟩
    simp [hl, hblanks]

end Lines

/-! ## Functions in files -/

/-- The parts of a list that is put into another are in it. -/
theorem Lines.infix_flatMap {α : Type} {f : α → Lines} {as : List α} {a : α} (ha : a ∈ as) :
    f a <:+: as.flatMap f := by
  obtain ⟨before, after, rfl⟩ := List.append_of_mem ha
  exact ⟨before.flatMap f, after.flatMap f, by simp⟩

theorem Lines.indent_cons (width : Nat) {line : String} (h : line.isEmpty = false) (lines : Lines) :
    indent width (line :: lines)
      = (String.ofList (List.replicate width ' ') ++ line) :: indent width lines := by
  rw [indent, List.map_cons, h]
  rfl

theorem Lines.infix_indent {lines body : Lines} (width : Nat) (h : lines <:+: body) :
    indent width lines <:+: indent width body := h.map _

theorem Lines.infix_braced {lines body : Lines} (width : Nat) (head tail : String)
    (h : lines <:+: body) : indent width lines <:+: braced width head body tail := by
  obtain ⟨before, after, hbody⟩ := infix_indent width h
  exact ⟨(head ++ " \x7b") :: before, after ++ ["\x7d" ++ tail], by simp [braced, ← hbody]⟩

theorem Python.infix_block {lines body : Lines} (head : String) (h : lines <:+: body) :
    Lines.indent 4 lines <:+: block head body :=
  (Lines.infix_indent 4 h).trans (List.suffix_cons _ _).isInfix

/-- Two neighbours at the end of a text. -/
theorem Lines.infix_neighbours (before first second : Lines) :
    first ++ "" :: second <:+: before ++ first ++ [""] ++ second := ⟨before, [], by simp⟩

namespace Language

/-- What a language indents a block by. -/
def indentation : Language → Nat
  | .rust => 4
  | .typeScript => 2
  | .python => 4

/-- The function that writes a body. -/
def encoder : Language → NamedBody → Lines
  | .rust, b => Rust.encodeBody b (Rust.FieldCode.ofFields b.path b.fields).encode
  | .typeScript, b => TypeScript.encodeBody b (TypeScript.FieldCode.ofFields b.fields).encode
  | .python, b => Python.encodeBody b (Python.FieldCode.ofFields b.fields).encode

/-- The function that reads a body. -/
def decoder : Language → NamedBody → Lines
  | .rust, b => Rust.decodeBody b (Rust.FieldCode.ofFields b.path b.fields).reads
  | .typeScript, b => TypeScript.decodeBody b (TypeScript.FieldCode.ofFields b.fields).decode
  | .python, b => Python.decodeBody b (Python.FieldCode.ofFields b.fields).reads

/-- The functions of a body as they stand in its type, one behind the other. -/
def coders (language : Language) (b : NamedBody) : Lines :=
  Lines.indent language.indentation (language.encoder b ++ "" :: language.decoder b)

def bodyLines : Language → SchemaLayout → Option MessageLayout → NamedBody → Lines
  | .rust => Rust.bodyLines
  | .typeScript => TypeScript.bodyLines
  | .python => Python.bodyLines

variable (language : Language) (l : SchemaLayout)

theorem infix_bodyLines (message : Option MessageLayout) (b : NamedBody) :
    language.coders b <:+: language.bodyLines l message b := by
  cases language with
  | rust | typeScript =>
    exact (Lines.infix_braced _ _ _ (Lines.infix_neighbours _ _ _)).trans
      (List.suffix_append _ _).isInfix
  | python =>
    exact (Python.infix_block _ (Lines.infix_neighbours _ _ _)).trans
      (List.suffix_append _ _).isInfix

def messageLines : Language → SchemaLayout → MessageLayout → NamedBody → Lines
  | .rust => Rust.messageLines
  | .typeScript => TypeScript.messageLines
  | .python => Python.messageLines

/-- The lines of a message have the functions of its body and of those of its groups. -/
theorem infix_messageLines (m : MessageLayout) {b c : NamedBody} (hc : c ∈ b :: b.nested) :
    language.coders c <:+: language.messageLines l m b := by
  have hinfix := language.infix_bodyLines l
  rcases List.mem_cons.1 hc with rfl | hc
  · have hfirst := hinfix (some m) c
    cases language with
    | rust | typeScript | python =>
      exact hfirst.trans (((List.prefix_append _ _).trans (List.prefix_append _ _)).isInfix)
  · have hgroup := hinfix none c
    cases language with
    | rust | typeScript =>
      refine .trans ?_ (List.prefix_append _ _).isInfix
      refine .trans ?_ (List.suffix_append _ _).isInfix
      refine .trans ?_ (Lines.infix_flatMap hc)
      exact hgroup.trans (List.suffix_cons _ _).isInfix
    | python =>
      refine .trans ?_ (List.prefix_append _ _).isInfix
      refine .trans ?_ (List.suffix_append _ _).isInfix
      refine .trans ?_ (Lines.infix_flatMap hc)
      exact hgroup.trans ((List.suffix_cons _ _).trans (List.suffix_cons _ _)).isInfix

theorem infix_unitLines {u : SourceUnit} {m : MessageLayout} {b : NamedBody}
    (hu : u.element = .message m b) :
    language.messageLines l m b <:+: language.unitLines l u := by
  cases language with
  | rust | typeScript | python =>
    refine .trans ?_ (List.suffix_append _ _).isInfix
    rw [hu]
    exact List.infix_rfl

end Language

/-! ## The parts of a decoder -/

namespace Language

/-- Whether a line puts the running position behind the block. -/
def isStart : Language → String → Bool
  | .rust, line => line == "    let pos = offset + block_length;"
    || line == "    let mut pos = offset + block_length;"
  | .typeScript, line => line == "  let pos = offset + blockLength;"
  | .python, line => line == "    pos = offset + block_length"

/-- The character that a start has behind its blanks. -/
def startChar : Language → Char
  | .rust | .typeScript => 'l'
  | .python => 'p'

variable {language : Language}

theorem isStart_eq_false {line : String}
    (h : line.toList[language.indentation]? ≠ some language.startChar) :
    language.isStart line = false := by
  rw [Bool.eq_false_iff]
  intro hstart
  cases language with
  | rust =>
    rcases Bool.or_eq_true_iff.1 hstart with heq | heq
    · exact h (by rw [eq_of_beq heq]; rfl)
    · exact h (by rw [eq_of_beq heq]; rfl)
  | typeScript | python => exact h (by rw [eq_of_beq hstart]; rfl)

/-- Lines at a greater depth are no starts. -/
theorem isStart_of_mem_indent {lines : Lines} {line : String}
    (h : line ∈ Lines.indent language.indentation (Lines.indent language.indentation lines)) :
    language.isStart line = false := by
  refine isStart_eq_false fun hstart => ?_
  have hblank := Lines.getElem?_of_mem_indent (by cases language <;> decide) h _ hstart
  cases language <;> exact absurd hblank (by decide)

/-- Lines up to a start that have none of their own, and what stands in them at the second
indentation. -/
structure Fills (language : Language) (lines inits : Lines) : Prop where
  isStart : ∀ line ∈ lines, language.isStart line = false
  inner : Lines.inner (language.indentation + language.indentation) lines = inits

theorem Fills.append {lines lines' inits inits' : Lines} (h : language.Fills lines inits)
    (h' : language.Fills lines' inits') : language.Fills (lines ++ lines') (inits ++ inits') :=
  ⟨List.forall_mem_append.2 ⟨h.isStart, h'.isStart⟩, by rw [Lines.inner_append, h.inner, h'.inner]⟩

/-- A line in front of others, all of them indented. -/
theorem Fills.cons {line : String} {lines inits : Lines}
    (h : language.Fills (Lines.indent language.indentation lines) inits)
    (hline : language.Fills (Lines.indent language.indentation [line]) []) :
    language.Fills (Lines.indent language.indentation (line :: lines)) inits := by
  have hall := hline.append h
  rwa [← Lines.indent_append] at hall

/-- An empty line is one at every indentation. -/
theorem Fills.cons_blank {lines inits : Lines}
    (h : language.Fills (Lines.indent language.indentation lines) inits) :
    language.Fills (Lines.indent language.indentation ("" :: lines)) ("" :: inits) := by
  constructor
  · exact List.forall_mem_cons.2 ⟨by cases language <;> rfl, h.isStart⟩
  · exact congrArg ("" :: ·) h.inner

/-- A line with a text behind its blanks that no start has. -/
theorem fills_singleton (language : Language) {c : Char} {cs : List Char} {s : String}
    (h : c ≠ language.startChar) (hblank : c ≠ ' ') :
    language.Fills (Lines.indent language.indentation [String.ofList (c :: cs) ++ s]) [] := by
  constructor
  · intro line hline
    rw [Lines.indent_cons _ (by simp), Lines.indent, List.map_nil, List.mem_singleton] at hline
    rw [hline]
    refine isStart_eq_false ?_
    cases language <;> simpa [indentation] using h
  · cases language <;> simp [Lines.inner, Lines.indent, indentation, List.dropPrefix?, hblank]

theorem fills_singleton_fixed (language : Language) {c : Char} {cs : List Char} (h : c ≠ language.startChar)
    (hblank : c ≠ ' ') :
    language.Fills (Lines.indent language.indentation [String.ofList (c :: cs)]) [] := by
  rw [← String.append_empty (s := String.ofList (c :: cs))]
  exact fills_singleton language h hblank

/-- A line that is not indented. -/
theorem fills_outer (language : Language) {c : Char} {cs : List Char} {s : String} (hc : c ≠ ' ') :
    language.Fills [String.ofList (c :: cs) ++ s] [] := by
  constructor
  · rw [List.forall_mem_singleton, Bool.eq_false_iff]
    intro hstart
    have hhead : (String.ofList (c :: cs) ++ s).toList.head? = some c := by simp
    have hblank : (String.ofList (c :: cs) ++ s).toList.head? = some ' ' := by
      cases language with
      | rust => rcases Bool.or_eq_true_iff.1 hstart with heq | heq <;> rw [eq_of_beq heq] <;> rfl
      | typeScript | python => rw [eq_of_beq hstart]; rfl
    exact hc (Option.some.inj (hhead.symm.trans hblank))
  · cases language <;> simp [Lines.inner, indentation, List.dropPrefix?, hc]

theorem fills_outer_fixed (language : Language) {c : Char} {cs : List Char} (hc : c ≠ ' ') :
    language.Fills [String.ofList (c :: cs)] [] := by
  rw [← String.append_empty (s := String.ofList (c :: cs))]
  exact fills_outer language hc

theorem fills_outer_append (language : Language) {c : Char} {cs : List Char} {s t : String} (hc : c ≠ ' ') :
    language.Fills [String.ofList (c :: cs) ++ s ++ t] [] := by
  rw [String.append_assoc]
  exact fills_outer language hc

/-- Lines between two others, the three of them indented. -/
theorem fills_enclosed (language : Language) {first last : String} {lines : Lines}
    (hfirst : language.Fills (Lines.indent language.indentation [first]) [])
    (hlast : language.Fills (Lines.indent language.indentation [last]) []) :
    language.Fills (Lines.indent language.indentation
      (first :: Lines.indent language.indentation lines ++ [last])) lines := by
  have hmiddle : language.Fills (Lines.indent language.indentation
      (Lines.indent language.indentation lines)) lines :=
    ⟨fun _ => isStart_of_mem_indent, Lines.inner_indent _ _⟩
  have hall := (hfirst.append hmiddle).append hlast
  rwa [List.nil_append, List.append_nil, ← Lines.indent_append, ← Lines.indent_append] at hall

/-- The lines of a decoder: only `inits` stand at the second indentation up to the start, and
`after` behind it. -/
def Divides (language : Language) (lines inits after : Lines) : Prop :=
  ∃ before start, lines = before ++ start :: after ∧ language.isStart start
    ∧ language.Fills before inits

theorem Divides.cons {line : String} {lines inits after : Lines}
    (h : language.Divides lines inits after) (hline : language.Fills [line] []) :
    language.Divides (line :: lines) inits after := by
  obtain ⟨before, start, rfl, hstart, hfills⟩ := h
  exact ⟨line :: before, start, rfl, hstart, hline.append hfills⟩

theorem divides_block (language : Language) {front groups varData ends tail inits : Lines} {start : String}
    (hfront : language.Fills (Lines.indent language.indentation front) inits)
    (hstart : ∃ line, Lines.indent language.indentation [start] = [line]
      ∧ language.isStart line) :
    language.Divides (Lines.indent language.indentation (front ++ [start] ++ groups ++ varData
      ++ ends) ++ tail) inits
      (Lines.indent language.indentation (groups ++ varData ++ ends) ++ tail) := by
  obtain ⟨line, hline, hstart⟩ := hstart
  refine ⟨_, line, ?_, hstart, hfront⟩
  simp only [Lines.indent_append, List.append_assoc]
  rw [hline]
  rfl

end Language

theorem Rust.divides_decodeBody (b : NamedBody) (reads : List FieldRead) :
    Language.rust.Divides (decodeBody b reads)
      (reads.flatMap (·.within) ++ b.groups.map (fun g => s!"{g.member}: Vec::new(),")
        ++ b.varData.map fun d =>
          d.member ++ ": " ++ (if d.layout.isText then "String::new()" else "Vec::new()") ++ ",")
      (Lines.indent 4 (b.groups.flatMap decodeGroup ++ b.varData.flatMap decodeVarData
        ++ ["Ok((decoded, pos))"]) ++ ["\x7d" ++ ""]) := by
  unfold decodeBody
  refine Language.Divides.cons ?_ (Language.fills_outer_fixed _ (by decide))
  refine Language.Divides.cons ?_ (Language.fills_outer_fixed _ (by decide))
  refine Language.Divides.cons ?_ (Language.fills_outer_fixed _ (by decide))
  refine Language.Divides.cons ?_ (Language.fills_outer_fixed _ (by decide))
  refine Language.Divides.cons ?_ (Language.fills_outer_append _ (by decide))
  refine Language.rust.divides_block (Language.rust.fills_enclosed ?_ ?_) ?_
  · cases b.layout.isFixed
    · exact ⟨List.forall_mem_singleton.2 rfl, rfl⟩
    · exact ⟨List.forall_mem_singleton.2 rfl, rfl⟩
  · exact ⟨List.forall_mem_singleton.2 rfl, rfl⟩
  · cases b.layout.isFixed
    · exact ⟨_, rfl, rfl⟩
    · exact ⟨_, rfl, rfl⟩

theorem TypeScript.divides_decodeBody (b : NamedBody) (fields : Lines) :
    Language.typeScript.Divides (decodeBody b fields)
      (fields ++ b.groups.map (fun g => s!"{g.member}: [],")
        ++ b.varData.map fun d =>
          d.member ++ ": " ++ (if d.layout.isText then "''" else "new Uint8Array(0)") ++ ",")
      (Lines.indent 2 (b.groups.flatMap decodeGroup ++ b.varData.flatMap decodeVarData
        ++ ["return [value, pos];"]) ++ ["\x7d" ++ ""]) := by
  unfold decodeBody
  refine Language.Divides.cons ?_ (Language.fills_outer_fixed _ (by decide))
  refine Language.Divides.cons ?_ (Language.fills_outer_append _ (by decide))
  refine Language.typeScript.divides_block ?_ ⟨_, rfl, rfl⟩
  have hcheck : Language.typeScript.Fills (Lines.indent 2 [
      s!"sbe.checkBounds(view, offset, Math.min(blockLength, {b.type}Codec.BLOCK_LENGTH), "
        ++ s!"{singleQuoted b.path});"]) [] := by
    simp only [toString, String.append_assoc]
    exact Language.typeScript.fills_singleton (by decide) (by decide)
  rw [Lines.indent_append]
  refine hcheck.append (Language.typeScript.fills_enclosed ?_ ?_)
  · simp only [toString, String.append_assoc]
    exact Language.typeScript.fills_singleton (by decide) (by decide)
  · exact Language.typeScript.fills_singleton (by decide) (by decide)

/-- An empty line of the documentation is at every indentation. -/
theorem Python.divides_decodeBody (b : NamedBody) (reads : List FieldRead) :
    Language.python.Divides (decodeBody b reads) ("" :: reads.map (·.within))
      (Lines.indent 4 (b.groups.flatMap decodeGroup ++ b.varData.flatMap decodeVarData
        ++ ["return value, pos"]) ++ []) := by
  have hcheck : Language.python.Fills (Lines.indent 4 [
      s!"check_bounds(buf, offset, min(block_length, cls.BLOCK_LENGTH), {quoted b.path})"]) [] := by
    simp only [toString, String.append_assoc]
    exact Language.python.fills_singleton (by decide) (by decide)
  unfold decodeBody classmethod block
  refine Language.Divides.cons ?_ (Language.fills_outer_fixed _ (by decide))
  refine Language.Divides.cons ?_ (Language.fills_outer_append _ (by decide))
  rw [← List.append_nil (Lines.indent 4 _)]
  refine Language.python.divides_block ?_ ⟨_, rfl, rfl⟩
  rw [Lines.indent_append]
  refine Language.Fills.append (?_ : Language.python.Fills _ [""])
    (Language.python.fills_enclosed ?_ ?_)
  · refine Language.Fills.cons ?_
      (Language.python.fills_singleton_fixed (by decide) (by decide))
    refine Language.Fills.cons_blank ?_
    refine Language.Fills.cons ?_
      (Language.python.fills_singleton_fixed (by decide) (by decide))
    exact hcheck.cons (Language.python.fills_singleton_fixed (by decide) (by decide))
  · exact Language.python.fills_singleton (by decide) (by decide)
  · exact Language.python.fills_singleton_fixed (by decide) (by decide)

/-- The body of every message, and of its groups at any depth, has its two functions in the file of
the message. -/
theorem Schema.exists_coders {s : Schema} {config : SourceConfig} {files : List SourceFile}
    (h : s.sources config = .ok files) : ∃ l, SchemaLayout.resolve s = .ok l ∧ ∀ m ∈ l.messages,
      ∃ f ∈ files, ∃ lines b, f.contents = joinLines lines
        ∧ (b :: b.nested).map (·.layout) = m.body.bodies
        ∧ ∀ c ∈ b :: b.nested, config.namer.Names c ∧ config.language.coders c <:+: lines := by
  obtain ⟨l, units, hl, hunits, rfl, -⟩ := Schema.sources_eq_ok_iff.1 h
  obtain ⟨types, messages, -, hmessages, rfl⟩ := SchemaLayout.sourceUnits_eq_ok_iff.1 hunits
  refine ⟨l, hl, fun m hm => ?_⟩
  obtain ⟨u, hu, hunit⟩ := exists_mem_of_mapM hmessages hm
  obtain ⟨_, b, _, _, -, hbody, -, -, rfl⟩ := Namer.parts_of_message hunit
  obtain ⟨hlayouts, hnames⟩ := Namer.names_of_body hbody
  refine ⟨_, List.mem_append_left _ (List.mem_append_right _
    (List.mem_map_of_mem (List.mem_append_right _ hu))), _, b,
    Language.contents_unitFile _ _ _, hlayouts, fun c hc => ⟨hnames c hc, ?_⟩⟩
  exact (Language.infix_messageLines _ l m hc).trans (Language.infix_unitLines _ l rfl)

end SimpleBinary
