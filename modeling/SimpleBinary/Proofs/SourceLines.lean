import Mathlib
import SimpleBinary.Proofs.Naming

/-!
# Lines that import

A line that takes something from another file of its package, or passes it on, names that file
(`Language.importedModule?`).  Of the lines of a unit only those of its imports do so, and the one
that takes what every file relies on (`Language.of_mem_unitLines`); those of the root name every
other file (`Language.of_mem_indexLines`).
-/

namespace SimpleBinary

/-! ## Lines -/

theorem pieces_of_notMem {separator : Char} : ∀ {cs : List Char}, separator ∉ cs →
    pieces separator cs = [cs]
  | [], _ => rfl
  | c :: cs, h => by
    obtain ⟨hc, hcs⟩ := not_or.1 (mt List.mem_cons.2 h)
    rw [pieces, if_neg (Ne.symm hc), pieces_of_notMem hcs]

theorem pieces_append {separator : Char} (rest : List Char) : ∀ {cs : List Char}, separator ∉ cs →
    pieces separator (cs ++ separator :: rest) = cs :: pieces separator rest
  | [], _ => by rw [List.nil_append, pieces, if_pos rfl]
  | c :: cs, h => by
    obtain ⟨hc, hcs⟩ := not_or.1 (mt List.mem_cons.2 h)
    rw [List.cons_append, pieces, if_neg (Ne.symm hc), pieces_append rest hcs]

theorem notMem_toDigits {c : Char} (h : ¬ c.isDigit) (n : Nat) : c ∉ Nat.toDigits 10 n :=
  fun hmem => h (Nat.isDigit_of_mem_toDigits (by decide) (by decide) hmem)

theorem IsPlain.notMem {s : String} (h : IsPlain s) {c : Char} (hc : ¬ isIdentifierRest c) :
    c ∉ s.toList := fun hmem => hc (h c hmem)

theorem isPlain_runtime : IsPlain "runtime" := by
  have hchars : "runtime".toList = ['r', 'u', 'n', 't', 'i', 'm', 'e'] := String.toList_ofList
  have hall : ['r', 'u', 'n', 't', 'i', 'm', 'e'].all isIdentifierRest := by decide +kernel
  rw [IsPlain, hchars]
  exact List.all_eq_true.1 hall

/-- A file's name without its extension is what others import it by. -/
theorem SourceFile.stem_mk (stem ext contents : String) (hext : '.' ∉ ext.toList) :
    (SourceFile.mk (stem ++ "." ++ ext) contents).stem = stem := by
  have hname : (stem ++ "." ++ ext).toList = stem.toList ++ '.' :: ext.toList := by simp
  have hdrop : (ext.toList.reverse ++ '.' :: stem.toList.reverse).dropWhile (· != '.')
      = '.' :: stem.toList.reverse := by
    rw [List.dropWhile_append_of_pos]
    · simp
    · intro c hc
      have hne : c ≠ '.' := fun he => hext (he ▸ List.mem_reverse.1 hc)
      simpa using hne
  unfold SourceFile.stem
  simp only [hname]
  rw [if_pos (by simp)]
  simp only [List.reverse_append, List.reverse_cons, List.append_assoc, List.cons_append,
    List.nil_append, hdrop, List.drop_succ_cons, List.drop_zero, List.reverse_reverse,
    String.ofList_toList]

/-- What a line of TypeScript takes or passes on from another file of its package, if it does: its
path starts with a point and is taken from behind a slash. -/
def TypeScript.importedModule? (line : String) : Option String :=
  if "import ".toList.isPrefixOf line.toList || "export ".toList.isPrefixOf line.toList then do
    let path ← (pieces '\'' line.toList)[1]?
    if path.head? = some '.' then return String.ofList (path.drop 2) else none
  else none

theorem TypeScript.importedModule?_of_notMem {line : String} (h : '\'' ∉ line.toList) :
    importedModule? line = none := by
  unfold importedModule?
  split
  · rw [pieces_of_notMem h]
    rfl
  · rfl

/-- What a line of Python takes from another file of its package, if it does. -/
def Python.importedModule? (line : String) : Option String := do
  let rest ← line.toList.dropPrefix? "from .".toList
  return String.ofList (rest.takeWhile (· != ' '))

theorem Python.importedModule?_of_notMem {line : String} (h : '.' ∉ line.toList) :
    importedModule? line = none := by
  have hrest : line.toList.dropPrefix? "from .".toList = none := by
    rw [Option.eq_none_iff_forall_ne_some]
    intro rest hrest
    obtain ⟨front, hline, hfront⟩ := List.dropPrefix?_eq_some_iff.1 hrest
    refine h ?_
    rw [hline, eq_of_beq hfront]
    simp
  rw [importedModule?, hrest]
  rfl

namespace Language

/-- The file of its package that a line names to take something from it; files of Rust share one
scope. -/
def importedModule? : Language → String → Option String
  | .rust => fun _ => none
  | .typeScript => TypeScript.importedModule?
  | .python => Python.importedModule?

/-- The files that lines take something from. -/
def importedModules (language : Language) (lines : Lines) : List String :=
  lines.filterMap language.importedModule?

variable {language : Language}

@[simp]
theorem importedModules_nil : language.importedModules [] = [] := rfl

@[simp]
theorem importedModules_cons (line : String) (lines : Lines) :
    language.importedModules (line :: lines)
      = (language.importedModule? line).toList ++ language.importedModules lines := by
  unfold importedModules
  cases h : language.importedModule? line with
  | none => rw [List.filterMap_cons_none h, Option.toList_none, List.nil_append]
  | some file => rw [List.filterMap_cons_some h, Option.toList_some, List.singleton_append]

@[simp]
theorem importedModules_append (lines lines' : Lines) : language.importedModules (lines ++ lines')
    = language.importedModules lines ++ language.importedModules lines' :=
  List.filterMap_append

theorem importedModules_eq_nil_iff {lines : Lines} :
    language.importedModules lines = [] ↔ ∀ line ∈ lines, language.importedModule? line = none :=
  List.filterMap_eq_nil_iff

/-- A line that starts with no letter of `import`, `export` or `from` imports nothing. -/
theorem importedModule?_of_head {line : String}
    (h : ∀ c ∈ line.toList.head?, c ≠ 'i' ∧ c ≠ 'e' ∧ c ≠ 'f') :
    language.importedModule? line = none := by
  unfold importedModule?
  cases hline : line.toList with
  | nil =>
    cases language <;> simp [TypeScript.importedModule?, Python.importedModule?, hline,
      List.dropPrefix?]
  | cons c cs =>
    obtain ⟨hi, he, hf⟩ := h c (by simp [hline])
    cases language with
    | rust => rfl
    | typeScript => simp [TypeScript.importedModule?, hline, hi.symm, he.symm]
    | python => simp [Python.importedModule?, hline, List.dropPrefix?, hf]

@[simp]
theorem importedModule?_empty : language.importedModule? "" = none :=
  importedModule?_of_head (by simp)

@[simp]
theorem importedModules_indent {width : Nat} (h : 0 < width) (lines : Lines) :
    language.importedModules (Lines.indent width lines) = [] := by
  rw [importedModules_eq_nil_iff]
  intro line hline
  obtain ⟨l, -, rfl⟩ := List.mem_map.1 hline
  by_cases hl : l.isEmpty
  · rw [if_pos hl, String.isEmpty_iff.1 hl, importedModule?_empty]
  · rw [if_neg hl]
    obtain ⟨w, rfl⟩ := Nat.exists_eq_succ_of_ne_zero h.ne'
    exact importedModule?_of_head (by simp [List.replicate_succ])

theorem importedModules_flatMap_eq_nil {α : Type} {f : α → Lines} {as : List α}
    (h : ∀ a ∈ as, language.importedModules (f a) = []) :
    language.importedModules (as.flatMap f) = [] := by
  rw [importedModules, List.filterMap_flatMap]
  exact List.flatMap_eq_nil_iff.2 h

theorem importedModules_map {α : Type} {f g : α → String} {as : List α}
    (h : ∀ a ∈ as, language.importedModule? (f a) = some (g a)) :
    language.importedModules (as.map f) = as.map g := by
  rw [importedModules, List.filterMap_map, ← List.filterMap_eq_map]
  exact List.filterMap_congr h

theorem importedModule?_of_notMem {line : String} (hquote : '\'' ∉ line.toList)
    (hpoint : '.' ∉ line.toList) : language.importedModule? line = none := by
  cases language with
  | rust => rfl
  | typeScript => exact TypeScript.importedModule?_of_notMem hquote
  | python => exact Python.importedModule?_of_notMem hpoint

/-- A line that starts as no import does, or has neither a quote nor a point. -/
def isInert (cs : List Char) : Bool :=
  cs.head?.all (fun c => c != 'i' && c != 'e' && c != 'f') || cs.all fun c => c != '\'' && c != '.'

theorem importedModule?_of_isInert {cs : List Char} (h : isInert cs) :
    language.importedModule? (String.ofList cs) = none := by
  rcases Bool.or_eq_true_iff.1 h with h | h
  · refine importedModule?_of_head ?_
    rw [String.toList_ofList]
    simpa [Option.all_eq_true, and_assoc] using h
  · rw [List.all_eq_true] at h
    refine importedModule?_of_notMem ?_ ?_
    · rw [String.toList_ofList]
      exact fun hmem => absurd (h _ hmem) (by decide)
    · rw [String.toList_ofList]
      exact fun hmem => absurd (h _ hmem) (by decide)

/-- Fixed lines that import nothing, by their characters: to take a text apart is slow. -/
inductive Inert : Lines → Prop
  | nil : Inert []
  | cons {cs : List Char} {lines : Lines} : isInert cs → Inert lines →
    Inert (String.ofList cs :: lines)
  | append {cs ds : List Char} {lines : Lines} : isInert (cs ++ ds) → Inert lines →
    Inert ((String.ofList cs ++ String.ofList ds) :: lines)

theorem Inert.importedModules {lines : Lines} (h : Inert lines) :
    language.importedModules lines = [] := by
  induction h with
  | nil => rfl
  | cons hline _ ih => simp [ih, importedModule?_of_isInert hline]
  | append hline _ ih =>
    rw [← String.ofList_append, importedModules_cons, importedModule?_of_isInert hline, ih]
    rfl

end Language

/-! ## TypeScript -/

namespace TypeScript

/-- A line with a path between quotes. -/
theorem importedModule?_of_path {line file : String} (front rest : List Char)
    (hline : line.toList = front ++ '\'' :: ('.' :: '/' :: file.toList ++ '\'' :: rest))
    (hstart : "import ".toList <+: front ∨ "export ".toList <+: front)
    (hfront : '\'' ∉ front) (hfile : IsPlain file) :
    Language.typeScript.importedModule? line = some file := by
  have hstarts : "import ".toList.isPrefixOf line.toList
      || "export ".toList.isPrefixOf line.toList := by
    rw [Bool.or_eq_true, List.isPrefixOf_iff_prefix, List.isPrefixOf_iff_prefix, hline]
    exact hstart.imp (·.trans (List.prefix_append _ _)) (·.trans (List.prefix_append _ _))
  have hpath : '\'' ∉ '.' :: '/' :: file.toList := by
    simpa using hfile.notMem (by decide)
  unfold Language.importedModule? importedModule?
  dsimp only
  rw [if_pos hstarts, hline, pieces_append _ hfront, pieces_append _ hpath]
  simp

@[simp]
theorem importedModules_block {head : String} (h : '\'' ∉ head.toList) (body : Lines) :
    Language.typeScript.importedModules (block head body) = [] := by
  have hhead : Language.typeScript.importedModule? (head ++ " \x7b") = none :=
    importedModule?_of_notMem (by simpa using h)
  have hlast : Language.typeScript.importedModule? "\x7d" = none :=
    Language.importedModule?_of_head (by simp)
  simp [block, Lines.braced, hhead, hlast]

@[simp]
theorem importedModules_documented (description : Option String) :
    Language.typeScript.importedModules (documented description) = [] := by
  cases description with
  | none => rfl
  | some d =>
    have hline : Language.typeScript.importedModule? ("/** " ++ d ++ " */") = none :=
      Language.importedModule?_of_head (by simp)
    simp [documented, lineIf, toString, hline]

section Elements

variable {type : String} (h : IsPlain type)

include h

theorem importedModules_compositeLines (c : CompositeLayout) (members : List NamedField) :
    Language.typeScript.importedModules (compositeLines type c members) = [] := by
  have hquote : '\'' ∉ type.toList := h.notMem (by decide)
  simp [compositeLines, hquote, toString]

theorem importedModules_enumLines {constant : String} (hconstant : IsPlain constant)
    (e : EnumLayout) (values : List (String × Literal)) (null : String) :
    Language.typeScript.importedModules (enumLines type constant e values null) = [] := by
  have hquote : '\'' ∉ type.toList := h.notMem (by decide)
  have hlength : Language.typeScript.importedModule?
      ("export const " ++ constant ++ "_ENCODED_LENGTH = " ++ e.width.repr ++ ";") = none :=
    importedModule?_of_notMem (by
      simpa using ⟨hconstant.notMem (by decide), notMem_toDigits (by decide) e.width⟩)
  simp [enumLines, hquote, toString, hlength]

theorem importedModules_setLines (s : SetLayout) (choices : List NamedChoice) :
    Language.typeScript.importedModules (setLines type s choices) = [] := by
  have hquote : '\'' ∉ type.toList := h.notMem (by decide)
  simp [setLines, hquote, toString]

end Elements

theorem importedModules_bodyLines (schema : SchemaLayout) (message : Option MessageLayout)
    {b : NamedBody} (h : IsPlain b.type) :
    Language.typeScript.importedModules (bodyLines schema message b) = [] := by
  have hquote : '\'' ∉ b.type.toList := h.notMem (by decide)
  simp [bodyLines, hquote, toString]

/-- What is declared imports nothing. -/
theorem importedModules_elementLines (schema : SchemaLayout) {e : NamedElement}
    (h : ∀ s ∈ e.declared, IsPlain s) :
    Language.typeScript.importedModules (elementLines schema e) = [] := by
  cases e with
  | composite type c members =>
    exact importedModules_compositeLines (h _ List.mem_cons_self) c members
  | enumeration type constant e values null =>
    obtain ⟨htype, hconstant⟩ := List.forall_mem_cons.1 h
    exact importedModules_enumLines htype (hconstant _ List.mem_cons_self) e values null
  | set type s choices => exact importedModules_setLines (h _ List.mem_cons_self) s choices
  | message m b =>
    obtain ⟨htype, hnested⟩ := List.forall_mem_cons.1 h
    have hgroups : Language.typeScript.importedModules
        (b.nested.flatMap fun g => "" :: bodyLines schema none g) = [] := by
      refine Language.importedModules_flatMap_eq_nil fun g hg => ?_
      simp [importedModules_bodyLines schema none (hnested _ (List.mem_map_of_mem hg))]
    simp [elementLines, messageLines, importedModules_bodyLines schema _ htype, hgroups]

theorem importedModule?_importLine {i : Import} (htype : IsPlain i.type) (hfile : IsPlain i.file) :
    Language.typeScript.importedModule? (importLine i) = some i.file := by
  have hquote : '\'' ∉ i.type.toList := htype.notMem (by decide)
  unfold importLine
  split
  · refine importedModule?_of_path ("import \x7b ".toList ++ i.type.toList ++ " \x7d from ".toList)
      [';'] ?_ (.inl ?_) ?_ hfile
    · simp [toString]
    · simp
    · simpa using hquote
  · refine importedModule?_of_path ("import \x7b ".toList ++ i.type.toList ++ ", ".toList
      ++ i.type.toList ++ "Codec \x7d from ".toList) [';'] ?_ (.inl ?_) ?_ hfile
    · simp [toString]
    · simp
    · simpa using hquote

theorem importedModule?_exportLine {f : SourceFile} (h : IsPlain f.stem) :
    Language.typeScript.importedModule? (exportLine f) = some f.stem := by
  refine importedModule?_of_path "export * from ".toList [';'] ?_ (.inr ?_) ?_ h
  · unfold exportLine
    generalize f.stem = stem
    simp [toString]
  · simp
  · simp

theorem importedModule?_runtime :
    Language.typeScript.importedModule? "import * as sbe from './runtime';" = some "runtime" :=
  importedModule?_of_path "import * as sbe from ".toList [';'] (by simp) (.inl (by simp)) (by simp)
    isPlain_runtime

@[simp]
theorem importedModule?_banner : Language.typeScript.importedModule? banner = none :=
  Language.importedModule?_of_head (by simp [banner])

/-- A unit imports what every file relies on, and what its element needs. -/
theorem importedModules_unitLines (schema : SchemaLayout) {u : SourceUnit}
    (hdeclared : ∀ s ∈ u.element.declared, IsPlain s)
    (himports : ∀ i ∈ u.imports, IsPlain i.type ∧ IsPlain i.file) :
    Language.typeScript.importedModules (unitLines schema u)
      = "runtime" :: u.imports.map (·.file) := by
  have hlines : Language.typeScript.importedModules (u.imports.map importLine)
      = u.imports.map (·.file) :=
    Language.importedModules_map fun i hi =>
      importedModule?_importLine (himports i hi).1 (himports i hi).2
  simp [unitLines, hlines, importedModules_elementLines schema hdeclared, importedModule?_runtime]

theorem importedModules_supportLines : Language.typeScript.importedModules supportLines = [] := by
  have hsupport : Language.typeScript.importedModules support = [] := by
    unfold support
    apply Language.Inert.importedModules
    repeat
      first
      | exact .nil
      | refine .append rfl ?_
      | refine .cons rfl ?_
  simp [supportLines, hsupport]

theorem importedModules_indexLines {files : List SourceFile} (h : ∀ f ∈ files, IsPlain f.stem) :
    Language.typeScript.importedModules (indexLines files) = files.map (·.stem) := by
  have hlines : Language.typeScript.importedModules (files.map exportLine) = files.map (·.stem) :=
    Language.importedModules_map fun f hf => importedModule?_exportLine (h f hf)
  simp [indexLines, hlines]

end TypeScript

/-! ## Python -/

namespace Python

/-- A line that takes something from a file. -/
theorem importedModule?_of_path {line file : String} (rest : List Char)
    (hline : line.toList = "from .".toList ++ (file.toList ++ ' ' :: rest)) (hfile : IsPlain file) :
    Language.python.importedModule? line = some file := by
  have hname : (file.toList ++ ' ' :: rest).takeWhile (· != ' ') = file.toList := by
    rw [List.takeWhile_append_of_pos]
    · simp
    · intro c hc
      have hne : c ≠ ' ' := fun he => hfile.notMem (c := ' ') (by decide) (he ▸ hc)
      simpa using hne
  have hrest : line.toList.dropPrefix? "from .".toList = some (file.toList ++ ' ' :: rest) :=
    List.dropPrefix?_eq_some_iff.2 ⟨_, hline, by simp⟩
  simp only [Language.importedModule?, importedModule?, hrest, Option.bind_eq_bind,
    Option.bind_some, hname, String.ofList_toList]
  rfl

@[simp]
theorem importedModules_block {head : String}
    (h : ∀ c ∈ head.toList.head?, c ≠ 'i' ∧ c ≠ 'e' ∧ c ≠ 'f') (hne : head ≠ "") (body : Lines) :
    Language.python.importedModules (block head body) = [] := by
  have hhead : Language.python.importedModule? (head ++ ":") = none :=
    Language.importedModule?_of_head (by
      rw [String.toList_append, List.head?_append_of_ne_nil]
      · exact h
      · simpa using hne)
  simp [block, hhead]

@[simp]
theorem importedModule?_dataclass : Language.python.importedModule? "@dataclass" = none :=
  Language.importedModule?_of_head (by simp)

theorem importedModules_compositeLines (type : String) (c : CompositeLayout)
    (members : List NamedField) :
    Language.python.importedModules (compositeLines type c members) = [] := by
  simp [compositeLines, toString]

theorem importedModules_enumLines {constant : String} (h : IsPlain constant) (type : String)
    (e : EnumLayout) (values : List (String × Literal)) (null : String) :
    Language.python.importedModules (enumLines type constant e values null) = [] := by
  have hlength : Language.python.importedModule?
      (constant ++ "_ENCODED_LENGTH = " ++ e.width.repr) = none :=
    importedModule?_of_notMem (by
      simpa using ⟨h.notMem (by decide), notMem_toDigits (by decide) e.width⟩)
  simp [enumLines, toString, hlength]

theorem importedModules_setLines (type : String) (s : SetLayout) (choices : List NamedChoice) :
    Language.python.importedModules (setLines type s choices) = [] := by
  simp [setLines, toString]

theorem importedModules_bodyLines (schema : SchemaLayout) (message : Option MessageLayout)
    (b : NamedBody) : Language.python.importedModules (bodyLines schema message b) = [] := by
  simp [bodyLines, toString]

/-- What is declared imports nothing. -/
theorem importedModules_elementLines (schema : SchemaLayout) {e : NamedElement}
    (h : ∀ s ∈ e.declared, IsPlain s) :
    Language.python.importedModules (elementLines schema e) = [] := by
  cases e with
  | composite type c members => exact importedModules_compositeLines type c members
  | enumeration type constant e values null =>
    exact importedModules_enumLines (h _ (by simp [NamedElement.declared])) type e values null
  | set type s choices => exact importedModules_setLines type s choices
  | message m b =>
    have hgroups : Language.python.importedModules
        (b.nested.flatMap fun g => "" :: "" :: bodyLines schema none g) = [] := by
      refine Language.importedModules_flatMap_eq_nil fun g _ => ?_
      simp [importedModules_bodyLines]
    simp [elementLines, messageLines, importedModules_bodyLines, hgroups]

theorem importedModule?_importLine {i : Import} (h : IsPlain i.file) :
    Language.python.importedModule? (importLine i) = some i.file :=
  importedModule?_of_path ("import ".toList ++ i.type.toList) (by simp [importLine, toString]) h

theorem importedModule?_exportLine {f : SourceFile} (h : IsPlain f.stem) :
    Language.python.importedModule? (exportLine f) = some f.stem := by
  refine importedModule?_of_path "import *  # noqa: F401,F403".toList ?_ h
  unfold exportLine
  generalize f.stem = stem
  simp [toString]

theorem importedModules_preamble : Language.python.importedModules preamble = ["runtime"] := by
  have hruntime : Language.python.importedModule?
      ("from .runtime import DecodeError, EncodeError, check_bounds, check_group, decode_text, "
        ++ "read_chars, write_chars") = some "runtime" := by
    refine importedModule?_of_path ?rest ?line isPlain_runtime
    case line =>
      rw [String.toList_append]
      show (String.ofList _).toList ++ (String.ofList _).toList
        = (String.ofList _).toList ++ ((String.ofList _).toList ++ ' ' :: _)
      simp only [String.toList_ofList]
      rfl
  have hothers : Language.python.importedModules preamble.dropLast = [] := by
    apply Language.Inert.importedModules
    unfold preamble banner
    simp only [List.dropLast_cons_cons, List.dropLast_singleton]
    repeat
      first
      | exact .nil
      | refine .cons rfl ?_
  have hpreamble : preamble = preamble.dropLast
      ++ ["from .runtime import DecodeError, EncodeError, check_bounds, check_group, decode_text, "
        ++ "read_chars, write_chars"] := rfl
  rw [hpreamble, Language.importedModules_append, hothers, Language.importedModules_cons, hruntime]
  rfl

@[simp]
theorem importedModule?_banner : Language.python.importedModule? banner = none :=
  Language.importedModule?_of_head (by simp [banner])

/-- A unit imports what every file relies on, and what its element needs. -/
theorem importedModules_unitLines (schema : SchemaLayout) {u : SourceUnit}
    (hdeclared : ∀ s ∈ u.element.declared, IsPlain s) (himports : ∀ i ∈ u.imports, IsPlain i.file) :
    Language.python.importedModules (unitLines schema u) = "runtime" :: u.imports.map (·.file) := by
  have hlines : Language.python.importedModules (u.imports.map importLine)
      = u.imports.map (·.file) :=
    Language.importedModules_map fun i hi => importedModule?_importLine (himports i hi)
  simp [unitLines, hlines, importedModules_elementLines schema hdeclared, importedModules_preamble]

theorem importedModules_supportLines : Language.python.importedModules supportLines = [] := by
  have hsupport : Language.python.importedModules support = [] := by
    unfold support
    apply Language.Inert.importedModules
    repeat
      first
      | exact .nil
      | refine .append rfl ?_
      | refine .cons rfl ?_
  simp [supportLines, hsupport]

theorem importedModules_indexLines {files : List SourceFile} (h : ∀ f ∈ files, IsPlain f.stem) :
    Language.python.importedModules (indexLines files) = files.map (·.stem) := by
  have hlines : Language.python.importedModules (files.map exportLine) = files.map (·.stem) :=
    Language.importedModules_map fun f hf => importedModule?_exportLine (h f hf)
  simp [indexLines, hlines]

end Python

/-! ## Files -/

namespace Language

variable {language : Language} {l : SchemaLayout}

def unitLines : Language → SchemaLayout → SourceUnit → Lines
  | .rust => Rust.unitLines
  | .typeScript => TypeScript.unitLines
  | .python => Python.unitLines

/-- The lines of the file that every other one relies on, where there is one. -/
def supportLines : Language → List Lines
  | .rust => []
  | .typeScript => [TypeScript.supportLines]
  | .python => [Python.supportLines]

def indexLines : Language → SchemaLayout → List SourceFile → Lines
  | .rust => Rust.indexLines
  | .typeScript => fun _ => TypeScript.indexLines
  | .python => fun _ => Python.indexLines

/-- The name of the file that others import by `stem`. -/
def fileName (language : Language) (stem : String) : String := stem ++ "." ++ language.abbreviation

@[simp]
theorem name_unitFile (language : Language) (l : SchemaLayout) (u : SourceUnit) :
    (language.dialect.unitFile l u).name = language.fileName u.file := by
  cases language <;>
    simp [dialect, Rust.unitFile, TypeScript.unitFile, Python.unitFile, fileName, abbreviation,
      String.append_assoc]

theorem contents_unitFile (language : Language) (l : SchemaLayout) (u : SourceUnit) :
    (language.dialect.unitFile l u).contents = joinLines (language.unitLines l u) := by
  cases language <;> simp only [dialect, unitLines, Rust.unitFile, TypeScript.unitFile,
    Python.unitFile]

theorem contents_support (language : Language) :
    language.dialect.support.toList.map (·.contents) = language.supportLines.map joinLines := by
  cases language <;> simp only [dialect, supportLines, TypeScript.supportFile, Python.supportFile,
    Option.toList_none, Option.toList_some, List.map_cons, List.map_nil]

theorem contents_indexFile (language : Language) (l : SchemaLayout) (files : List SourceFile) :
    (language.dialect.indexFile l files).contents = joinLines (language.indexLines l files) := by
  cases language <;> simp only [dialect, indexLines, Rust.indexFile, TypeScript.indexFile,
    Python.indexFile]

theorem stem_of_name {f : SourceFile} {stem : String} (h : f.name = language.fileName stem) :
    f.stem = stem := by
  obtain ⟨name, contents⟩ := f
  dsimp only at h
  subst h
  refine SourceFile.stem_mk stem language.abbreviation contents ?_
  cases language <;> simp [abbreviation]

theorem name_support {f : SourceFile} (h : f ∈ language.dialect.support) :
    f.name = language.fileName "runtime" := by
  cases language with
  | rust => simp [dialect] at h
  | typeScript | python =>
    cases h
    rfl

theorem importedModules_rust (lines : Lines) : Language.rust.importedModules lines = [] :=
  importedModules_eq_nil_iff.2 fun _ _ => rfl

/-- A unit imports what every file relies on, and what its element needs. -/
theorem of_mem_unitLines {u : SourceUnit} (hdeclared : ∀ s ∈ u.element.declared, IsPlain s)
    (himports : ∀ i ∈ u.imports, IsPlain i.type ∧ IsPlain i.file) {name : String}
    (h : name ∈ language.importedModules (language.unitLines l u)) :
    (∃ f ∈ language.dialect.support, f.name = language.fileName name)
      ∨ ∃ i ∈ u.imports, i.file = name := by
  cases language with
  | rust => simp [importedModules_rust] at h
  | typeScript =>
    rw [unitLines, TypeScript.importedModules_unitLines l hdeclared himports, List.mem_cons] at h
    rcases h with rfl | h
    · exact .inl ⟨_, rfl, rfl⟩
    · exact .inr (List.mem_map.1 h)
  | python =>
    rw [unitLines, Python.importedModules_unitLines l hdeclared fun i hi => (himports i hi).2,
      List.mem_cons] at h
    rcases h with rfl | h
    · exact .inl ⟨_, rfl, rfl⟩
    · exact .inr (List.mem_map.1 h)

theorem importedModules_supportLines {lines : Lines} (h : lines ∈ language.supportLines) :
    language.importedModules lines = [] := by
  cases language with
  | rust => exact absurd h List.not_mem_nil
  | typeScript =>
    rw [List.mem_singleton.1 h]
    exact TypeScript.importedModules_supportLines
  | python =>
    rw [List.mem_singleton.1 h]
    exact Python.importedModules_supportLines

/-- The root passes on other files. -/
theorem of_mem_indexLines {files : List SourceFile} (hplain : ∀ f ∈ files, IsPlain f.stem)
    {name : String} (h : name ∈ language.importedModules (language.indexLines l files)) :
    ∃ f ∈ files, f.stem = name := by
  cases language with
  | rust => simp [importedModules_rust] at h
  | typeScript =>
    rw [indexLines, TypeScript.importedModules_indexLines hplain] at h
    exact List.mem_map.1 h
  | python =>
    rw [indexLines, Python.importedModules_indexLines hplain] at h
    exact List.mem_map.1 h

end Language

end SimpleBinary
