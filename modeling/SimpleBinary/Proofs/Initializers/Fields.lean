import Mathlib
import SimpleBinary.Proofs.Coders

/-!
# Initializers of fields

A decoder first makes the value of a body, with an initializer for each member.  An initializer that
is guarded reads the member only where the sender's block reaches some end, and takes a null
elsewhere (`Initializer.value`).  The initializer of a field is read off its lines: in Rust
and in Python it is guarded with the field's own end, in TypeScript it is not.
-/

namespace SimpleBinary

/-- How a member gets its value: from what it reads, and with a guard only where the block takes as
many bytes as that says, and else from the guard's null. -/
structure Initializer where
  member : String
  guard : Option (Nat × String)
  read : Lines

/-- What a member is made from where the block takes so many bytes. -/
def Initializer.value (i : Initializer) (blockLength : Nat) : Lines :=
  match i.guard with
  | none => i.read
  | some (stop, null) => if stop ≤ blockLength then i.read else [null]

/-! ## Reading initializers -/

/-- What stands before a mark and what behind it. -/
def marked? (mark : Char) (cs : List Char) : Option (List Char × List Char) :=
  match cs.dropWhile (· != mark) with
  | [] => none
  | _ :: rest => some (cs.takeWhile (· != mark), rest)

theorem marked?_append {mark : Char} {cs : List Char} (h : mark ∉ cs) (rest : List Char) :
    marked? mark (cs ++ mark :: rest) = some (cs, rest) := by
  have hall : ∀ c ∈ cs, c != mark := by
    intro c hc
    have hne : c ≠ mark := fun he => h (he ▸ hc)
    simpa using hne
  unfold marked?
  rw [List.dropWhile_append_of_pos hall, List.takeWhile_append_of_pos hall,
    List.dropWhile_cons_of_neg (by simp), List.takeWhile_cons_of_neg (by simp)]
  simp

theorem marked?_of_notMem {mark : Char} {cs : List Char} (h : mark ∉ cs) :
    marked? mark cs = none := by
  have hnil : cs.dropWhile (· != mark) = [] := by
    rw [List.dropWhile_eq_nil_iff]
    intro c hc
    have hne : c ≠ mark := fun he => h (he ▸ hc)
    simpa using hne
  unfold marked?
  rw [hnil]

theorem notMem_append {c : Char} {s t : String} (hs : c ∉ s.toList) (ht : c ∉ t.toList) :
    c ∉ (s ++ t).toList := by
  rw [String.toList_append, List.mem_append]
  exact not_or.2 ⟨hs, ht⟩

theorem notMem_toString {c : Char} (h : ¬ c.isDigit) (n : Nat) : c ∉ (toString n).toList := by
  have hrepr : (toString n).toList = Nat.toDigits 10 n := Nat.toList_repr
  rw [hrepr]
  exact notMem_toDigits h n

theorem notMem_placeText {c : Char} {base : String} (hbase : c ∉ base.toList)
    (h : ¬ c.isDigit ∧ c ∉ " + ".toList) (n : Nat) : c ∉ (placeText base n).toList := by
  unfold placeText
  split
  · exact notMem_toString h.1 n
  · split
    · exact hbase
    · exact notMem_append (notMem_append hbase h.2) (notMem_toString h.1 n)

/-- Where in an initializer of Rust a line stands: a guarded one has branches of their own for its
reading and for its null. -/
inductive Rust.Branch where
  | outside
  | reading (i : Initializer)
  | null (i : Initializer)
  | closing

/-- The initializers in Rust. -/
def Rust.initializers : Branch → Lines → List Initializer
  | _, [] => []
  | .outside, line :: lines =>
    match marked? ':' line.toList with
    | none => initializers .outside lines
    | some (member, text) =>
      match (text.dropPrefix? " if block_length >= ".toList).bind firstNat? with
      | some stop =>
        initializers (.reading ⟨String.ofList member, some (stop, ""), []⟩) lines
      | none =>
        ⟨String.ofList member, none, [String.ofList (text.drop 1).dropLast]⟩
          :: initializers .outside lines
  | .reading i, line :: lines =>
    if line = "\x7d else \x7b" then initializers (.null i) lines
    else
      initializers (.reading { i with read := i.read ++ [String.ofList (line.toList.drop 4)] })
        lines
  | .null i, line :: lines =>
    { i with guard := i.guard.map fun g => (g.1, String.ofList (line.toList.drop 4)) }
      :: initializers .closing lines
  | .closing, _ :: lines => initializers .outside lines

/-- The initializer that a line of TypeScript holds; a guard would be a condition. -/
def TypeScript.initializer? (line : String) : Option Initializer := do
  let (member, text) ← marked? ':' line.toList
  let value := (text.drop 1).dropLast
  match marked? '?' value with
  | none => return ⟨String.ofList member, none, [String.ofList value]⟩
  | some (test, branches) =>
    let stop ← firstNat? test
    let (read, null) ← marked? ':' branches
    return ⟨String.ofList member, some (stop, String.ofList (null.drop 1)), [String.ofList read]⟩

/-- The initializer that a line of Python holds; only a comparison has a second equals sign. -/
def Python.initializer? (line : String) : Option Initializer := do
  let (member, text) ← marked? '=' line.toList
  match marked? '=' text with
  | none => return ⟨String.ofList member, none, [String.ofList text.dropLast]⟩
  | some (read, rest) =>
    let read ← read.dropSuffix? " if block_length >".toList
    let stop ← firstNat? rest
    let null ← ((rest.drop 1).dropWhile Char.isDigit).dropPrefix? " else ".toList
    return ⟨String.ofList member, some (stop, String.ofList null.dropLast), [String.ofList read]⟩

namespace Language

/-- The initializers of a decoder. -/
def initializers (language : Language) (lines : Lines) : List Initializer :=
  let inits := Lines.inner (language.indentation + language.indentation)
    (lines.takeWhile fun line => !language.isStart line)
  match language with
  | .rust => Rust.initializers .outside inits
  | .typeScript => inits.filterMap TypeScript.initializer?
  | .python => inits.filterMap Python.initializer?

theorem Divides.inits_eq {language : Language} {lines inits after : Lines}
    (h : language.Divides lines inits after) :
    Lines.inner (language.indentation + language.indentation)
      (lines.takeWhile fun line => !language.isStart line) = inits := by
  obtain ⟨before, start, rfl, hstart, hfills⟩ := h
  rw [List.takeWhile_append_of_pos fun line hline => by simp [hfills.isStart line hline],
    List.takeWhile_cons_of_neg (by simp [hstart]), List.append_nil, hfills.inner]

end Language

/-! ## Rust -/

namespace Rust

/-- An indented line closes no branch, and is the line again without its blanks. -/
theorem of_mem_indent_singleton {line l : String} (h : line ∈ Lines.indent 4 [l]) :
    line ≠ "\x7d else \x7b" ∧ String.ofList (line.toList.drop 4) = l := by
  rw [Lines.indent, List.map_cons, List.map_nil, List.mem_singleton] at h
  by_cases hl : l = ""
  · simp [h, hl]
  · rw [if_neg (mt String.isEmpty_iff.1 hl)] at h
    constructor
    · intro hclose
      have hhead := congrArg (·.toList.head?) (h.symm.trans hclose)
      simp at hhead
    · simp [h]

theorem initializers_read : ∀ (i : Initializer) (read rest : Lines),
    initializers (.reading i) (Lines.indent 4 read ++ rest)
      = initializers (.reading { i with read := i.read ++ read }) rest
  | i, [], rest => by simp [Lines.indent]
  | i, l :: read, rest => by
    obtain ⟨hne, hdrop⟩ := of_mem_indent_singleton (l := l) List.mem_cons_self
    have hcons : Lines.indent 4 (l :: read) ++ rest
        = (if l.isEmpty then l else String.ofList (List.replicate 4 ' ') ++ l)
          :: (Lines.indent 4 read ++ rest) := rfl
    rw [hcons, initializers, if_neg hne, hdrop, initializers_read _ read rest]
    simp

theorem initializers_null (i : Initializer) (null : String) (rest : Lines) :
    initializers (.reading i) (item "\x7d else" [null] "," ++ rest)
      = { i with guard := i.guard.map fun g => (g.1, null) } :: initializers .outside rest := by
  obtain ⟨-, hdrop⟩ := of_mem_indent_singleton (l := null) List.mem_cons_self
  have hlines : item "\x7d else" [null] "," ++ rest
      = ("\x7d else" ++ " \x7b") :: (if null.isEmpty then null
        else String.ofList (List.replicate 4 ' ') ++ null) :: ("\x7d" ++ ",") :: rest := rfl
  have hclose : "\x7d else" ++ " \x7b" = "\x7d else \x7b" := rfl
  rw [hlines, hclose, initializers, if_pos rfl, initializers, hdrop, initializers]

/-- A guarded initializer is read as what it was written from. -/
theorem initializers_within {r : FieldRead} (h : IsPlain r.member) (rest : Lines) :
    initializers .outside (r.within ++ rest)
      = ⟨r.member, some (r.stop, r.null), r.read⟩ :: initializers .outside rest := by
  have hmark : marked? ':' s!"{r.member}: if block_length >= {r.stop} \x7b".toList
      = some (r.member.toList, " if block_length >= ".toList ++ (Nat.toDigits 10 r.stop
        ++ " \x7b".toList)) := by
    have hmember : ':' ∉ r.member.toList := h.notMem (by decide)
    rw [← marked?_append hmember]
    simp [toString]
  have hguard : ((" if block_length >= ".toList ++ (Nat.toDigits 10 r.stop
      ++ " \x7b".toList)).dropPrefix? " if block_length >= ".toList).bind firstNat?
      = some r.stop := by
    rw [dropPrefix?_append, Option.bind_some]
    exact firstNat?_append (List.forall_mem_nil _) r.stop (by simp)
  have hlines : r.within ++ rest = s!"{r.member}: if block_length >= {r.stop} \x7b"
      :: (Lines.indent 4 r.read ++ (item "\x7d else" [r.null] "," ++ rest)) := by
    simp [FieldRead.within]
  rw [hlines, initializers]
  simp only [hmark, hguard]
  rw [initializers_read, initializers_null]
  simp

theorem initializers_plain {member value : String} (h : IsPlain member)
    (hvalue : (" " ++ value ++ ",").toList.dropPrefix? " if block_length >= ".toList = none)
    (rest : Lines) : initializers .outside ((member ++ (": " ++ (value ++ ","))) :: rest)
      = ⟨member, none, [value]⟩ :: initializers .outside rest := by
  have hmark : marked? ':' (member ++ (": " ++ (value ++ ","))).toList
      = some (member.toList, (" " ++ value ++ ",").toList) := by
    have hmember : ':' ∉ member.toList := h.notMem (by decide)
    rw [← marked?_append hmember]
    simp
  rw [initializers]
  simp only [hmark, hvalue, Option.bind_none]
  simp

theorem initializers_reads : ∀ {reads : List FieldRead}, (∀ r ∈ reads, IsPlain r.member) →
    ∀ rest : Lines, initializers .outside (reads.flatMap (·.within) ++ rest)
      = reads.map (fun r => ⟨r.member, some (r.stop, r.null), r.read⟩)
        ++ initializers .outside rest
  | [], _, rest => rfl
  | r :: reads, h, rest => by
    obtain ⟨hr, hreads⟩ := List.forall_mem_cons.1 h
    rw [List.flatMap_cons, List.append_assoc, initializers_within hr, initializers_reads hreads]
    rfl

/-- Groups and var-data start empty, whatever the block. -/
theorem guard_initializers : ∀ {members : List (String × String)},
    (∀ p ∈ members, IsPlain p.1 ∧ (" " ++ p.2 ++ ",").toList.dropPrefix?
      " if block_length >= ".toList = none) →
    ∀ i ∈ initializers .outside (members.map fun p => p.1 ++ (": " ++ (p.2 ++ ","))),
      i.guard = none
  | [], _, i, hi => absurd hi List.not_mem_nil
  | p :: members, h, i, hi => by
    obtain ⟨⟨hplain, hvalue⟩, hmembers⟩ := List.forall_mem_cons.1 h
    rw [List.map_cons, initializers_plain hplain hvalue, List.mem_cons] at hi
    rcases hi with rfl | hi
    · rfl
    · exact guard_initializers hmembers i hi

end Rust

/-! ## Fields -/

def NamedField.isConstant (f : NamedField) : Bool :=
  match f.kind with
  | .primitive p _ => p.isConstant
  | _ => false

/-- A field whose names are identifiers. -/
structure NamedField.Plain (f : NamedField) : Prop where
  member : IsPlain f.member
  composite : ∀ type, f.kind = .composite type → IsPlain type
  enumeration : ∀ e type null, f.kind = .enumeration e type null → IsPlain type
  set : ∀ s type, f.kind = .set s type → IsPlain type

/-- The text of a field's null value. -/
def Rust.nullText (f : NamedField) : String :=
  match f.kind with
  | .primitive p _ =>
    let null := number p.nullValue p.primitive
    if p.isArray then s!"[{null}; {p.arrayLength}]" else null
  | .composite type => s!"{type}::null()"
  | .enumeration _ type _ | .set _ type => s!"{type}::default()"

/-- The text of a field's null value; a text is empty. -/
def Python.nullText (f : NamedField) : String :=
  match f.kind with
  | .primitive p _ =>
    let null := number p.nullValue p.primitive
    if !p.isArray then null
    else if p.primitive = .char then "\"\"" else s!"[{null}] * {p.arrayLength}"
  | .composite type => s!"{type}.null()"
  | .enumeration _ type null => s!"{type}.{null}"
  | .set _ type => s!"{type}()"

/-- The text that reads a field. -/
def TypeScript.readText (f : NamedField) : String :=
  let place := placeText "offset" f.offset
  match f.kind with
  | .primitive p _ =>
    if !p.isArray then read p.primitive p.byteOrder place
    else if p.primitive = .char then s!"sbe.readChars(view, {place}, {p.arrayLength})"
    else
      let item := read p.primitive p.byteOrder (place ++ s!" + i * {p.primitive.size}")
      s!"Array.from(\x7b length: {p.arrayLength} \x7d, (_, i) => " ++ s!"{item})"
  | .composite type | .set _ type => s!"{type}Codec.decode(view, {place})"
  | .enumeration e type _ => s!"{readSlot ⟨e.encoding, e.byteOrder, f.offset⟩ place} as {type}"

namespace Rust

theorem reads_ofFields (owner : String) : ∀ fields : List NamedField,
    (FieldCode.ofFields owner fields).reads
      = fields.flatMap fun f => (FieldCode.ofField owner f).reads
  | [] => rfl
  | f :: fields => by
    rw [List.flatMap_cons, ← reads_ofFields owner fields]
    rfl

theorem reads_ofPrimitive (f : NamedField) {p : PrimitiveLayout} (hp : p.isConstant = false)
    (constant path : String) : ∃ read, (FieldCode.ofPrimitive f p constant path).reads
      = [⟨f.member, f.stop, read,
          if p.isArray then s!"[{number p.nullValue p.primitive}; {p.arrayLength}]"
          else number p.nullValue p.primitive⟩] := by
  have hoptional : ∀ (line : String) (code : FieldCode),
      (if p.isOptional then FieldCode.append ⟨[], [line], [], []⟩ code else code).reads
        = code.reads := by
    intro line code
    split <;> rfl
  unfold FieldCode.ofPrimitive
  simp only [hp, Bool.false_eq_true, if_false, hoptional]
  cases p.isArray with
  | false => exact ⟨_, rfl⟩
  | true =>
    simp only [Bool.not_true, Bool.false_eq_true, if_false, if_true]
    split
    · exact ⟨_, rfl⟩
    · exact ⟨_, rfl⟩

/-- A field that is not constant is read once, and has its null value elsewhere. -/
theorem reads_ofField (owner : String) {f : NamedField} (h : f.isConstant = false) :
    ∃ read, (FieldCode.ofField owner f).reads = [⟨f.member, f.stop, read, nullText f⟩] := by
  obtain ⟨raw, member, offset, stop, kind⟩ := f
  cases kind with
  | primitive p constant => exact reads_ofPrimitive _ h constant _
  | composite type | enumeration e type null | set s type => exact ⟨_, rfl⟩

theorem reads_ofConstant (owner : String) {f : NamedField} (h : f.isConstant) :
    (FieldCode.ofField owner f).reads = [] := by
  obtain ⟨raw, member, offset, stop, kind⟩ := f
  cases kind with
  | primitive p constant =>
    have hp : p.isConstant = true := h
    simp [FieldCode.ofField, FieldCode.ofPrimitive, hp, FieldCode.ofConstant]
  | composite type | enumeration e type null | set s type => exact absurd h Bool.false_ne_true

end Rust

namespace Python

theorem reads_ofFields : ∀ fields : List NamedField,
    (FieldCode.ofFields fields).reads = fields.flatMap fun f => (FieldCode.ofField f).reads
  | [] => rfl
  | f :: fields => by
    rw [List.flatMap_cons, ← reads_ofFields fields]
    rfl

theorem notMem_orderMark (order : ByteOrder) : '=' ∉ (orderMark order).toList := by
  cases order <;> decide

theorem notMem_letter (p : Primitive) : '=' ∉ (letter p).toList := by
  cases p <;> decide

theorem notMem_read (p : Primitive) (order : ByteOrder) (n : Nat) :
    '=' ∉ (Python.read p order (placeText "offset" n)).toList := by
  have hplace : '=' ∉ (placeText "offset" n).toList :=
    notMem_placeText (by decide) (by decide) n
  have hformat := notMem_append (notMem_append (notMem_append (c := '=') (s := "\"") (by decide)
    (notMem_orderMark order)) (notMem_letter p)) (t := "\"") (by decide)
  unfold Python.read format
  exact notMem_append (notMem_append (notMem_append (notMem_append (by decide) hformat)
    (by decide)) hplace) (by decide)

theorem reads_ofPrimitive (f : NamedField) {p : PrimitiveLayout} (hp : p.isConstant = false)
    (constant : String) : ∃ read, (FieldCode.ofPrimitive f p constant).reads
      = [⟨f.member, f.stop, read, nullText { f with kind := .primitive p constant }⟩]
      ∧ '=' ∉ read.toList := by
  have hoptional : ∀ (line : String) (code : FieldCode),
      (if p.isOptional then FieldCode.append ⟨[], [line], [], []⟩ code else code).reads
        = code.reads := by
    intro line code
    split <;> rfl
  have hplace : '=' ∉ (placeText "offset" f.offset).toList :=
    notMem_placeText (by decide) (by decide) f.offset
  have hlength := notMem_toString (c := '=') (by decide) p.arrayLength
  unfold FieldCode.ofPrimitive nullText
  simp only [hp, Bool.false_eq_true, if_false, hoptional]
  split
  · exact ⟨_, rfl, notMem_read _ _ _⟩
  · split
    · exact ⟨_, rfl, notMem_append (notMem_append (notMem_append (notMem_append (by decide) hplace)
        (by decide)) hlength) (by decide)⟩
    · have hformat := notMem_append (notMem_append (notMem_append (notMem_append (c := '=')
        (s := "\"") (by decide) (notMem_orderMark p.byteOrder)) hlength)
        (notMem_letter p.primitive)) (t := "\"") (by decide)
      exact ⟨_, rfl, notMem_append (notMem_append (notMem_append (notMem_append (by decide) hformat)
        (by decide)) hplace) (by decide)⟩

/-- A field that is not constant is read once, and has its null value elsewhere. -/
theorem reads_ofField {f : NamedField} (hplain : f.Plain) (h : f.isConstant = false) :
    ∃ read, (FieldCode.ofField f).reads = [⟨f.member, f.stop, read, nullText f⟩]
      ∧ '=' ∉ read.toList := by
  obtain ⟨raw, member, offset, stop, kind⟩ := f
  have hplace : '=' ∉ (placeText "offset" offset).toList :=
    notMem_placeText (by decide) (by decide) offset
  cases kind with
  | primitive p constant => exact reads_ofPrimitive _ h constant
  | composite type =>
    have htype := (hplain.composite type rfl).notMem (c := '=') (by decide)
    exact ⟨_, rfl, notMem_append (notMem_append (notMem_append htype (by decide)) hplace)
      (by decide)⟩
  | enumeration e type null =>
    have htype := (hplain.enumeration e type null rfl).notMem (c := '=') (by decide)
    exact ⟨_, rfl, notMem_append (notMem_append (notMem_append htype (by decide))
      (notMem_read _ _ _)) (by decide)⟩
  | set s type =>
    have htype := (hplain.set s type rfl).notMem (c := '=') (by decide)
    exact ⟨_, rfl, notMem_append (notMem_append (notMem_append htype (by decide))
      (notMem_read _ _ _)) (by decide)⟩

theorem reads_ofConstant {f : NamedField} (h : f.isConstant) :
    (FieldCode.ofField f).reads = [] := by
  obtain ⟨raw, member, offset, stop, kind⟩ := f
  cases kind with
  | primitive p constant =>
    have hp : p.isConstant = true := h
    simp [FieldCode.ofField, FieldCode.ofPrimitive, hp, FieldCode.ofConstant]
  | composite type | enumeration e type null | set s type => exact absurd h Bool.false_ne_true

/-- A guarded initializer is read as what it was written from. -/
theorem initializer?_within {r : FieldRead} (hmember : IsPlain r.member)
    (hread : '=' ∉ r.read.toList) :
    initializer? r.within = some ⟨r.member, some (r.stop, r.null), [r.read]⟩ := by
  have hdigits : ∀ c ∈ Nat.toDigits 10 r.stop, c.isDigit :=
    fun c hc => Nat.isDigit_of_mem_toDigits (by decide) (by decide) hc
  -- the text behind the comparison
  obtain ⟨rest, hrest⟩ : ∃ rest, rest = ' ' :: (Nat.toDigits 10 r.stop
      ++ (" else ".toList ++ (r.null.toList ++ [',']))) := ⟨_, rfl⟩
  have hmark : marked? '=' r.within.toList
      = some (r.member.toList, r.read.toList ++ " if block_length >".toList ++ '=' :: rest) := by
    have hmark : '=' ∉ r.member.toList := hmember.notMem (by decide)
    rw [← marked?_append hmark, hrest]
    simp [FieldRead.within, toString]
  have hcomparison : marked? '=' (r.read.toList ++ " if block_length >".toList ++ '=' :: rest)
      = some (r.read.toList ++ " if block_length >".toList, rest) :=
    marked?_append (List.mem_append.not.2 (not_or.2 ⟨hread, by decide⟩)) _
  have hsuffix : (r.read.toList ++ " if block_length >".toList).dropSuffix?
      " if block_length >".toList = some r.read.toList :=
    List.dropSuffix?_eq_some_iff.2 ⟨_, rfl, beq_self_eq_true _⟩
  have hstop : firstNat? rest = some r.stop := by
    rw [hrest]
    have hblank : ∀ c ∈ [' '], !c.isDigit := List.forall_mem_singleton.2 rfl
    exact firstNat?_append hblank r.stop (by simp)
  have hnull : ((rest.drop 1).dropWhile Char.isDigit).dropPrefix? " else ".toList
      = some (r.null.toList ++ [',']) := by
    have hdrop : (Nat.toDigits 10 r.stop ++ (" else ".toList ++ (r.null.toList ++ [',']))).dropWhile
        Char.isDigit = " else ".toList ++ (r.null.toList ++ [',']) := by
      rw [List.dropWhile_append_of_pos hdigits]
      rfl
    rw [hrest, List.drop_one, List.tail_cons, hdrop, dropPrefix?_append]
  unfold initializer?
  simp only [hmark, hcomparison, hsuffix, hstop, hnull, Option.bind_eq_bind, Option.bind_some]
  simp

end Python

namespace TypeScript

theorem decode_ofFields : ∀ fields : List NamedField,
    (FieldCode.ofFields fields).decode = fields.flatMap fun f => (FieldCode.ofField f).decode
  | [] => rfl
  | f :: fields => by
    rw [List.flatMap_cons, ← decode_ofFields fields]
    rfl

theorem decode_ofPrimitive (f : NamedField) {p : PrimitiveLayout} (hp : p.isConstant = false)
    (constant : String) : (FieldCode.ofPrimitive f p constant).decode
      = [s!"{f.member}: {readText { f with kind := .primitive p constant }},"] := by
  have hoptional : ∀ (line : String) (code : FieldCode),
      (if p.isOptional then FieldCode.append ⟨[], [line], [], []⟩ code else code).decode
        = code.decode := by
    intro line code
    split <;> rfl
  unfold FieldCode.ofPrimitive readText
  simp only [hp, Bool.false_eq_true, if_false, hoptional]
  split
  · rfl
  · split
    · refine congrArg (fun line => [line]) (String.toList_inj.1 ?_)
      simp [toString]
    · refine congrArg (fun line => [line]) (String.toList_inj.1 ?_)
      simp [toString]

theorem decode_ofField {f : NamedField} (h : f.isConstant = false) :
    (FieldCode.ofField f).decode = [s!"{f.member}: {readText f},"] := by
  obtain ⟨raw, member, offset, stop, kind⟩ := f
  cases kind with
  | primitive p constant => exact decode_ofPrimitive _ h constant
  | composite type | set s type | enumeration e type null =>
    refine congrArg (fun line => [line]) (String.toList_inj.1 ?_)
    simp [readText, toString]

theorem decode_ofConstant {f : NamedField} (h : f.isConstant) :
    (FieldCode.ofField f).decode = [] := by
  obtain ⟨raw, member, offset, stop, kind⟩ := f
  cases kind with
  | primitive p constant =>
    have hp : p.isConstant = true := h
    simp [FieldCode.ofField, FieldCode.ofPrimitive, hp, FieldCode.ofConstant]
  | composite type | enumeration e type null | set s type => exact absurd h Bool.false_ne_true

theorem notMem_read {place : String} (hplace : '?' ∉ place.toList) (p : Primitive)
    (order : ByteOrder) : '?' ∉ (TypeScript.read p order place).toList := by
  have haccessor : '?' ∉ (accessor p).toList := by
    cases p <;> decide
  have horder : '?' ∉ (orderArgument p order).toList := by
    unfold orderArgument
    cases order <;> dsimp only <;> split <;> decide
  unfold TypeScript.read
  exact notMem_append (notMem_append (notMem_append (notMem_append (notMem_append (by decide)
    haccessor) (by decide)) hplace) horder) (by decide)

/-- What reads a field holds no condition. -/
theorem notMem_readText {f : NamedField} (h : f.Plain) : '?' ∉ (readText f).toList := by
  obtain ⟨raw, member, offset, stop, kind⟩ := f
  have hplace : '?' ∉ (placeText "offset" offset).toList :=
    notMem_placeText (by decide) (by decide) offset
  unfold readText
  cases kind with
  | primitive p constant =>
    have hlength := notMem_toString (c := '?') (by decide) p.arrayLength
    have hsize := notMem_toString (c := '?') (by decide) p.primitive.size
    dsimp only
    split
    · exact notMem_read hplace _ _
    · split
      · exact notMem_append (notMem_append (notMem_append (notMem_append (by decide) hplace)
          (by decide)) hlength) (by decide)
      · have hitem := notMem_read (notMem_append hplace (notMem_append (s := " + i * ") (by decide)
          hsize)) p.primitive p.byteOrder
        exact notMem_append (notMem_append (notMem_append (by decide) hlength) (by decide))
          (notMem_append hitem (by decide))
  | composite type =>
    have htype := (h.composite type rfl).notMem (c := '?') (by decide)
    exact notMem_append (notMem_append (notMem_append htype (by decide)) hplace) (by decide)
  | set s type =>
    have htype := (h.set s type rfl).notMem (c := '?') (by decide)
    exact notMem_append (notMem_append (notMem_append htype (by decide)) hplace) (by decide)
  | enumeration e type null =>
    have htype := (h.enumeration e type null rfl).notMem (c := '?') (by decide)
    have hread := notMem_read hplace e.encoding e.byteOrder
    refine notMem_append (notMem_append ?_ (by decide)) htype
    unfold readSlot
    dsimp only
    split
    · exact notMem_append (notMem_append (by decide) hread) (by decide)
    · exact hread

theorem initializer?_plain {member value : String} (h : IsPlain member) (hvalue : '?' ∉ value.toList) :
    initializer? (member ++ (": " ++ (value ++ ","))) = some ⟨member, none, [value]⟩ := by
  have hmark : marked? ':' (member ++ (": " ++ (value ++ ","))).toList
      = some (member.toList, ' ' :: (value.toList ++ [','])) := by
    have hmember : ':' ∉ member.toList := h.notMem (by decide)
    rw [← marked?_append hmember]
    simp
  have hvalue' : ((' ' :: (value.toList ++ [','])).drop 1).dropLast = value.toList := by simp
  unfold initializer?
  simp only [hmark, hvalue', marked?_of_notMem hvalue, Option.bind_eq_bind, Option.bind_some]
  simp

theorem guard_initializers {members : List (String × String)}
    (h : ∀ p ∈ members, IsPlain p.1 ∧ '?' ∉ p.2.toList) :
    ∀ i ∈ (members.map fun p => p.1 ++ (": " ++ (p.2 ++ ","))).filterMap initializer?,
      i.guard = none := by
  intro i hi
  obtain ⟨line, hline, hi⟩ := List.mem_filterMap.1 hi
  obtain ⟨p, hp, rfl⟩ := List.mem_map.1 hline
  rw [initializer?_plain (h p hp).1 (h p hp).2] at hi
  exact congrArg Initializer.guard (Option.some.inj hi).symm

end TypeScript

end SimpleBinary
