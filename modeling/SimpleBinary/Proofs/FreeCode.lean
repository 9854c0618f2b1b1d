import Mathlib
import SimpleBinary.Proofs.Declarations
import SimpleBinary.Proofs.FreeNames
import SimpleBinary.Proofs.Lexing

/-!
# Free texts in the lines of a unit

A free text is written into comments, and in TypeScript also as a literal; names are spelled as
identifiers (`NamedBody.IsSpelled`).  In Rust it only stands in comments of one line, so all other
lines are those that are written without texts.  A text that ends its comment goes on as code
(`Rust.codeOf_documented`).
-/

namespace SimpleBinary

/-- The text that is written in the comment on an element. -/
def NamedElement.description : NamedElement → Option String
  | .composite _ c _ => c.description
  | .enumeration _ _ e _ _ => e.description
  | .set _ s _ => s.description
  | .message m _ => m.description

@[simp]
theorem NamedVarData.isText_withoutTexts (d : NamedVarData) :
    d.withoutTexts.layout.isText = d.layout.isText := isSome_emptied _

/-! ## Names -/

/-- A field whose names are identifiers, also the one in the schema. -/
structure NamedField.IsSpelled (f : NamedField) : Prop where
  plain : f.Plain
  names : f.PlainNames
  raw : IsPlain f.raw

/-- A group whose names are identifiers, and whose path takes one line. -/
structure NamedGroup.IsSpelled (g : NamedGroup) : Prop where
  member : IsPlain g.member
  type : IsPlain g.body.type
  path : IsLine g.body.path

structure NamedVarData.IsSpelled (d : NamedVarData) : Prop where
  member : IsPlain d.member
  path : IsLine d.path

structure NamedBody.IsSpelled (b : NamedBody) : Prop where
  type : IsPlain b.type
  path : IsLine b.path
  fields : ∀ f ∈ b.fields, f.IsSpelled
  groups : ∀ g ∈ b.groups, g.IsSpelled
  varData : ∀ d ∈ b.varData, d.IsSpelled

/-! ## Rust -/

namespace Rust

theorem FieldCode.ofFields_withoutTexts (owner : String) (fields : List NamedField) :
    ofFields owner (fields.map (·.withoutTexts)) = ofFields owner fields := by
  have hfield : ∀ f : NamedField, ofField owner f.withoutTexts = ofField owner f := by
    rintro ⟨raw, member, offset, stop, kind⟩
    cases kind <;> rfl
  unfold ofFields
  rw [List.map_map]
  exact congrArg (List.foldr append none) (List.map_congr_left fun f _ => hfield f)

theorem encodeGroup_withoutTexts (g : NamedGroup) : encodeGroup g.withoutTexts = encodeGroup g := by
  simp [encodeGroup, NamedGroup.withoutTexts]

theorem decodeGroup_withoutTexts (g : NamedGroup) : decodeGroup g.withoutTexts = decodeGroup g := by
  simp [decodeGroup, NamedGroup.withoutTexts]

theorem encodeVarData_withoutTexts (d : NamedVarData) :
    encodeVarData d.withoutTexts = encodeVarData d := by
  unfold encodeVarData
  rw [d.isText_withoutTexts]
  rfl

theorem decodeVarData_withoutTexts (d : NamedVarData) :
    decodeVarData d.withoutTexts = decodeVarData d := by
  unfold decodeVarData
  rw [d.isText_withoutTexts]
  rfl

theorem encodeBody_withoutTexts (b : NamedBody) (fields : Lines) :
    encodeBody b.withoutTexts fields = encodeBody b fields := by
  simp only [encodeBody, NamedBody.groups_withoutTexts, NamedBody.varData_withoutTexts,
    List.flatMap_map, encodeGroup_withoutTexts, encodeVarData_withoutTexts]

theorem decodeBody_withoutTexts (b : NamedBody) (reads : List FieldRead) :
    decodeBody b.withoutTexts reads = decodeBody b reads := by
  simp only [decodeBody, NamedBody.groups_withoutTexts, NamedBody.varData_withoutTexts,
    NamedBody.layout_withoutTexts, BodyLayout.isFixed_withoutTexts, List.flatMap_map, List.map_map,
    Function.comp_def, decodeGroup_withoutTexts, decodeVarData_withoutTexts,
    NamedVarData.isText_withoutTexts]
  rfl

/-- Of the lines of a body only the first one is made of a free text. -/
theorem tail_bodyLines_withoutTexts (l : SchemaLayout) (message : Option MessageLayout)
    (b : NamedBody) : (bodyLines l.withoutTexts (message.map (·.withoutTexts)) b.withoutTexts).tail
      = (bodyLines l message b).tail := by
  have hmessage : ∀ f : SchemaLayout → MessageLayout → Lines,
      (∀ m : MessageLayout, f l.withoutTexts m.withoutTexts = f l m) →
      (message.map (·.withoutTexts)).elim [] (f l.withoutTexts) = message.elim [] (f l) := by
    intro f hf
    cases message with
    | none => rfl
    | some m => exact hf m
  have hgroup : ∀ g : NamedGroup, g.withoutTexts.body.type = g.body.type :=
    fun g => g.body.type_withoutTexts
  simp only [bodyLines, NamedBody.type_withoutTexts, NamedBody.path_withoutTexts,
    NamedBody.layout_withoutTexts, NamedBody.fields_withoutTexts, NamedBody.groups_withoutTexts,
    NamedBody.varData_withoutTexts, BodyLayout.blockLength_withoutTexts,
    FieldCode.ofFields_withoutTexts, encodeBody_withoutTexts, decodeBody_withoutTexts,
    hmessage messageConstants fun _ => rfl, hmessage messageEntry fun _ => rfl, List.map_map,
    Function.comp_def, hgroup, NamedVarData.isText_withoutTexts, List.cons_append, List.nil_append,
    List.tail_cons]
  rfl

theorem bodyLines_none_withoutTexts (l : SchemaLayout) (b : NamedBody) :
    bodyLines l.withoutTexts none b.withoutTexts = bodyLines l none b := by
  refine List.cons_eq_cons.2 ⟨?_, tail_bodyLines_withoutTexts l none b⟩
  simp

theorem read_comment {front : List Char} {s : String} (hs : IsLine s)
    (hfront : Slashed.rust.read .code front = (.line, [])) :
    Slashed.rust.read .code (String.ofList front ++ s ++ "\n").toList = (.code, ['\n']) := by
  refine Slashed.read_comment ?_ (by decide) fun c hc => ?_
  · rwa [String.toList_ofList]
  · have hne : c ≠ '\n' := fun he => hs.1 (he ▸ hc)
    simpa [Slashed.endsLine] using hne

theorem alike_comment {front : List Char} {s t : String} (hs : IsLine s) (ht : IsLine t)
    (hfront : Slashed.rust.read .code front = (.line, [])) :
    Slashed.rust.Alike (String.ofList front ++ s ++ "\n") (String.ofList front ++ t ++ "\n") :=
  ⟨_, read_comment hs hfront, read_comment ht hfront⟩

theorem alike_documented {description : Option String} (h : ∀ d ∈ description, IsLine d) :
    Slashed.rust.AlikeLines (documented description) (documented (emptied description)) := by
  cases description with
  | none => exact .nil
  | some d => exact .cons (alike_comment (h d rfl) isLine_empty rfl) (by simp [toString]) .nil

/-- Behind a line end in a description there is code again. -/
theorem codeOf_documented {d e : String} (hd : IsLine d) {rest : Lines} (hrest : rest ≠ []) :
    Slashed.rust.codeOf (joinLines (documented (some (d ++ "\n" ++ e)) ++ rest))
      = "\n" ++ Slashed.rust.codeOf (joinLines (e :: rest)) := by
  have hread : Slashed.rust.read .code ("/// " ++ d ++ "\n").toList = (.code, ['\n']) :=
    read_comment hd rfl
  have hlines : joinLines (documented (some (d ++ "\n" ++ e)) ++ rest)
      = "/// " ++ d ++ "\n" ++ joinLines (e :: rest) := by
    show joinLines (("/// " ++ (d ++ "\n" ++ e)) :: rest) = _
    rw [Slashed.joinLines_cons _ hrest, Slashed.joinLines_cons _ hrest]
    simp only [String.append_assoc]
  rw [hlines, Slashed.codeOf_append hread]

/-- What an element is written as has the code that it has without its description. -/
theorem sameCode_elementLines (l : SchemaLayout) {e : NamedElement}
    (h : ∀ d ∈ e.description, IsLine d) (hpath : ∀ m b, e = .message m b → IsLine b.path) :
    Slashed.rust.SameCode (elementLines l e) (elementLines l.withoutTexts e.withoutTexts) := by
  cases e with
  | composite type c members =>
    simp only [elementLines, NamedElement.withoutTexts, compositeLines,
      CompositeLayout.withoutTexts, FieldCode.ofFields_withoutTexts, List.append_assoc]
    exact .of_alike (alike_documented h) (by simp)
  | enumeration type constant e values null =>
    simp only [elementLines, NamedElement.withoutTexts, enumLines, EnumLayout.withoutTexts,
      EnumLayout.width, List.append_assoc]
    exact .of_alike (alike_documented h) (by simp)
  | set type s choices =>
    simp only [elementLines, NamedElement.withoutTexts, setLines, SetLayout.withoutTexts,
      SetLayout.width, List.append_assoc]
    exact .of_alike (alike_documented h) (by simp)
  | message m b =>
    have hnested : (b.withoutTexts.nested.flatMap fun g => "" :: bodyLines l.withoutTexts none g)
        = b.nested.flatMap fun g => "" :: bodyLines l none g := by
      rw [b.nested_withoutTexts, List.flatMap_map]
      simp only [bodyLines_none_withoutTexts]
    have hquoted : IsLine s!"`{b.path}`" :=
      ((isLine_fixed rfl).append (hpath m b rfl)).append (isLine_fixed rfl)
    have habout : ∀ d : Option String, (∀ text ∈ d, IsLine text) →
        IsLine (d.getD s!"`{b.path}`") := by
      intro d hd
      cases d with
      | none => exact hquoted
      | some text => exact hd text rfl
    have hempty : ∀ text ∈ emptied m.description, IsLine text := by
      intro text htext
      obtain ⟨_, -, rfl⟩ := Option.map_eq_some_iff.1 htext
      exact isLine_empty
    have hbody : Slashed.rust.SameCode (bodyLines l (some m) b)
        (bodyLines l.withoutTexts (some m.withoutTexts) b.withoutTexts) := by
      refine ⟨[_], [_], (bodyLines l (some m) b).tail, rfl, ?_, ?_,
        .cons (alike_comment (habout _ h) (habout _ hempty) rfl) (by simp [toString]) .nil⟩
      · rw [← tail_bodyLines_withoutTexts l (some m) b]
        have hhead : s!"`{b.withoutTexts.path}`" = s!"`{b.path}`" := by
          rw [b.path_withoutTexts]
        rw [← hhead]
        rfl
      · simp [bodyLines]
    show Slashed.rust.SameCode (messageLines l m b)
      (messageLines l.withoutTexts m.withoutTexts b.withoutTexts)
    unfold messageLines
    rw [hnested]
    exact (hbody.append_right _).append_right _

/-- The lines that every unit starts with. -/
theorem alike_opening : Slashed.rust.AlikeLines
    [banner, "#![allow(unused_imports, unused_variables, unused_mut, clippy::all)]", "",
      "use super::*;", ""]
    [banner, "#![allow(unused_imports, unused_variables, unused_mut, clippy::all)]", "",
      "use super::*;", ""] := by
  have hbanner : Slashed.rust.Leads .code banner .line := .fixed rfl
  refine .cons hbanner.alike_comment .rfl (.refl ?_)
  simp only [List.forall_mem_cons]
  exact ⟨.bland (.fixed rfl), .bland (.fixed rfl), .bland (.fixed rfl), .bland (.fixed rfl),
    List.forall_mem_nil _⟩

theorem sameCode_unitLines (l : SchemaLayout) {u : SourceUnit}
    (h : ∀ d ∈ u.element.description, IsLine d)
    (hpath : ∀ m b, u.element = .message m b → IsLine b.path) :
    Slashed.rust.SameCode (unitLines l u) (unitLines l.withoutTexts u.withoutTexts) :=
  .append_left alike_opening (sameCode_elementLines l h hpath)

/-- The root of a package has the code that it has without the package's name. -/
theorem sameCode_indexLines (l : SchemaLayout) {files files' : List SourceFile}
    (hfiles : files.map (·.stem) = files'.map (·.stem)) (h : ∀ p ∈ l.package, IsLine p) :
    Slashed.rust.SameCode (indexLines l files) (indexLines l.withoutTexts files') := by
  have hpackage : ∀ package : Option String, (∀ p ∈ package, IsLine p) →
      IsLine ((package.map fun p => s!" ({p})").getD "") := by
    intro package hp
    cases package with
    | none => exact isLine_empty
    | some p => exact ((isLine_fixed rfl).append (hp p rfl)).append (isLine_fixed rfl)
  have hempty : ∀ p ∈ emptied l.package, IsLine p := by
    intro p hp
    obtain ⟨_, -, rfl⟩ := Option.map_eq_some_iff.1 hp
    exact isLine_empty
  have htext : ∀ package : String,
      s!"//! Generated SBE codecs for schema {l.id.toInt} version {l.version.toInt}"
          ++ s!"{package}. Do not edit."
        = "//! Generated SBE codecs for schema " ++ (toString l.id.toInt ++ (" version "
          ++ (toString l.version.toInt ++ (package ++ ". Do not edit.")))) := by
    intro package
    simp only [String.append_assoc]
    rfl
  have hline : ∀ package : String, IsLine package → IsLine (toString l.id.toInt ++ (" version "
      ++ (toString l.version.toInt ++ (package ++ ". Do not edit.")))) := fun package hp =>
    (IsLine.int _).append ((isLine_fixed rfl).append ((IsLine.int _).append
      (hp.append (isLine_fixed rfl))))
  have hhead : ∀ {package other : String}, IsLine package → IsLine other →
      Slashed.rust.Alike
        (s!"//! Generated SBE codecs for schema {l.id.toInt} version {l.version.toInt}"
          ++ s!"{package}. Do not edit." ++ "\n")
        (s!"//! Generated SBE codecs for schema {l.id.toInt} version {l.version.toInt}"
          ++ s!"{other}. Do not edit." ++ "\n") := by
    intro package other hp hother
    rw [htext, htext]
    exact alike_comment (hline _ hp) (hline _ hother) (by rfl)
  have hmap : ∀ line : String → String,
      files.map (fun f => line f.stem) = files'.map fun f => line f.stem := by
    intro line
    simpa only [List.map_map, Function.comp_def] using congrArg (List.map line) hfiles
  have hmod : files.map (fun f => s!"pub mod {f.stem};")
      = files'.map fun f => s!"pub mod {f.stem};" := hmap fun stem => s!"pub mod {stem};"
  have huse : files.map (fun f => s!"pub use {f.stem}::*;")
      = files'.map fun f => s!"pub use {f.stem}::*;" := hmap fun stem => s!"pub use {stem}::*;"
  unfold indexLines
  rw [hmod, huse]
  exact ⟨[_], [_], _, rfl, rfl, by simp,
    .cons (hhead (hpackage _ h) (hpackage _ hempty)) (by simp [toString]) .nil⟩

end Rust

end SimpleBinary
