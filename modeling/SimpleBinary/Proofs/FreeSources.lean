import Mathlib
import SimpleBinary.Proofs.Directories
import SimpleBinary.Proofs.FreeCode.TypeScript
import SimpleBinary.Proofs.Imports

/-!
# Free texts do not become code

A schema whose free texts are others is written as files of the same names.  Their code is the same
too, but only where the texts fit where they are written: they are put into comments and literals
as they are, so a text that ends its comment or breaks its literal goes on as code
(`Schema.sources_of_withoutTexts_eq`).
-/

namespace SimpleBinary

def TypeLayout.description : TypeLayout → Option String
  | .composite c => c.description
  | .enumeration e => e.description
  | .set s => s.description

/-! ## Spelled names -/

namespace Namer

variable {n : Namer}

theorem plain_raw_of_identifier (role : NameRole) {raw s : String}
    (h : n.identifier role raw = .ok s) : IsPlain raw :=
  (isIdentifier_iff.1 (identifier_eq_ok_iff.1 h).1).2

theorem isSpelled_of_field {f : FieldLayout} {named : NamedField} (h : n.field f = .ok named) :
    named.IsSpelled := by
  refine ⟨plain_of_field h, plainNames_of_field h, ?_⟩
  obtain ⟨member, kind, hmember, -, rfl⟩ := parts_of_field h
  exact plain_raw_of_identifier .member hmember

theorem isLine_childPath {path name : String} (hpath : IsLine path) (hname : IsPlain name) :
    IsLine (childPath path name) :=
  (hpath.append (isLine_fixed rfl)).append (.of_plain hname)

theorem isSpelled_of_varData {path : String} {d : VarDataLayout} {named : NamedVarData}
    (hpath : IsLine path) (h : n.varData path d = .ok named) : named.IsSpelled := by
  obtain ⟨member, hmember, h⟩ := bind_eq_ok_iff.1 h
  cases h
  exact ⟨plain_of_identifier .member hmember,
    isLine_childPath hpath (plain_raw_of_identifier .member hmember)⟩

theorem path_of_body {b : BodyLayout} {type path : String} {named : NamedBody}
    (h : n.body type path b = .ok named) : named.path = path := by
  obtain ⟨blockLength, fields, groups, varData⟩ := b
  obtain ⟨_, _, _, _, -, -, -, -, rfl⟩ := parts_of_body h
  rfl

mutual

theorem isSpelled_of_body : ∀ {b : BodyLayout} {type path : String} {named : NamedBody},
    n.body type path b = .ok named → IsPlain type → IsLine path →
      ∀ c ∈ named :: named.nested, c.IsSpelled
  | ⟨blockLength, fields, groups, varData⟩, type, path, named, h, htype, hpath => by
    obtain ⟨_, _, _, _, hfields, -, hdata, hgroups, rfl⟩ := parts_of_body h
    obtain ⟨hspelled, hnested⟩ := isSpelled_of_groupBodies hgroups htype hpath
    refine List.forall_mem_cons.2 ⟨⟨htype, hpath, fun f hf => ?_, hspelled, fun d hd => ?_⟩,
      hnested⟩
    · obtain ⟨_, -, hfield⟩ := exists_of_mem_mapM hfields hf
      exact isSpelled_of_field hfield
    · obtain ⟨_, -, hvarData⟩ := exists_of_mem_mapM hdata hd
      exact isSpelled_of_varData hpath hvarData

theorem isSpelled_of_groupBodies : ∀ {groups : List GroupLayout} {type path : String}
    {named : List NamedGroup}, n.groupBodies type path groups = .ok named → IsPlain type →
      IsLine path → (∀ g ∈ named, g.IsSpelled) ∧ ∀ c ∈ nestedBodies named, c.IsSpelled
  | [], _, _, named, h, _, _ => by
    cases h
    simp [nestedBodies]
  | ⟨name, _, _, dimension, layout, _⟩ :: groups, type, path, named, h, htype, hpath => by
    obtain ⟨member, suffix, namedBody, _, hmember, hsuffix, hbody, hgroups, rfl⟩ :=
      parts_of_groupBodies h
    have htypePlain := htype.append (plain_of_identifier .type hsuffix)
    have hpathLine := isLine_childPath hpath (plain_raw_of_identifier .type hsuffix)
    obtain ⟨hspelled, hnested⟩ := isSpelled_of_groupBodies hgroups htype hpath
    have hgroup : NamedGroup.IsSpelled ⟨member, dimension, namedBody⟩ :=
      ⟨plain_of_identifier .member hmember, (type_of_body hbody).symm ▸ htypePlain,
        (path_of_body hbody).symm ▸ hpathLine⟩
    rw [nestedBodies]
    exact ⟨List.forall_mem_cons.2 ⟨hgroup, hspelled⟩, List.forall_mem_append.2
      ⟨isSpelled_of_body hbody htypePlain hpathLine, hnested⟩⟩

end

theorem element_of_typeUnit {t : TypeLayout} {u : SourceUnit} (h : n.typeUnit t = .ok u) :
    u.element.description = t.description ∧ ∀ m b, u.element ≠ .message m b := by
  have hother : ∀ m b, u.element ≠ .message m b := by
    intro m b he
    have hname := (isUnit_of_typeUnit h).2.1
    rw [SourceUnit.typeName?, he] at hname
    cases hname
  refine ⟨?_, hother⟩
  cases t with
  | composite c =>
    obtain ⟨_, _, _, _, -, -, -, -, rfl⟩ := parts_of_composite h
    rfl
  | enumeration e =>
    obtain ⟨_, _, _, _, _, -, -, -, -, -, rfl⟩ := parts_of_enumeration h
    rfl
  | set s =>
    obtain ⟨_, _, _, -, -, -, rfl⟩ := parts_of_set h
    rfl

theorem element_of_message {m : MessageLayout} {u : SourceUnit} (h : n.message m = .ok u) :
    ∃ b type, u.element = .message m b ∧ IsPlain m.name ∧ IsPlain type
      ∧ n.body type m.name m.body = .ok b := by
  obtain ⟨type, b, _, _, htype, hbody, -, -, rfl⟩ := parts_of_message h
  exact ⟨b, type, rfl, plain_raw_of_identifier .type htype, plain_of_identifier .type htype, hbody⟩

end Namer

/-! ## Texts that fit -/

namespace Slashed

/-- The texts that are written into comments: descriptions, and in Rust the package's name. -/
def comments (x : Slashed) (l : SchemaLayout) : List String :=
  (if x = .rust then l.package.toList else []) ++ l.sourceTypes.filterMap (·.description)
    ++ l.messages.filterMap (·.description)

/-- The texts that are written as literals: in TypeScript the encodings of var-data. -/
def literals (x : Slashed) (l : SchemaLayout) : List String :=
  if x = .rust then []
  else l.messages.flatMap fun m => m.body.bodies.flatMap fun b =>
    b.varData.filterMap (·.characterEncoding)

/-- Whether a text does not end the comment that it is written into. -/
def FitsComment : Slashed → String → Prop
  | .rust, s => IsLine s
  | .typeScript, s => ¬ ['*', '/'] <:+: s.toList

/-- A layout of which no text ends its comment or breaks its literal. -/
structure Fits (x : Slashed) (l : SchemaLayout) : Prop where
  comments : ∀ s ∈ x.comments l, x.FitsComment s
  literals : ∀ s ∈ x.literals l, IsLine s

variable {x : Slashed} {l : SchemaLayout}

namespace Fits

variable (h : x.Fits l)

include h

theorem type {t : TypeLayout} (ht : t ∈ l.sourceTypes) : ∀ d ∈ t.description, x.FitsComment d :=
  fun d hd => h.comments d (List.mem_append_left _ (List.mem_append_right _
    (List.mem_filterMap.2 ⟨t, ht, hd⟩)))

theorem message {m : MessageLayout} (hm : m ∈ l.messages) :
    ∀ d ∈ m.description, x.FitsComment d :=
  fun d hd => h.comments d (List.mem_append_right _ (List.mem_filterMap.2 ⟨m, hm, hd⟩))

end Fits

theorem Fits.package (h : rust.Fits l) : ∀ p ∈ l.package, IsLine p :=
  fun p hp => h.comments p (List.mem_append_left _ (List.mem_append_left _
    (Option.mem_toList.2 hp)))

theorem Fits.encoding (h : typeScript.Fits l) {m : MessageLayout} (hm : m ∈ l.messages)
    {b : BodyLayout} (hb : b ∈ m.body.bodies) {d : VarDataLayout} (hd : d ∈ b.varData) :
    ∀ e ∈ d.characterEncoding, IsLine e :=
  fun e he => h.literals e (List.mem_flatMap.2 ⟨m, hm, List.mem_flatMap.2 ⟨b, hb,
    List.mem_filterMap.2 ⟨d, hd, he⟩⟩⟩)

end Slashed

/-! ## Files -/

namespace SchemaLayout

variable {l : SchemaLayout} {units : List SourceUnit}

theorem names_frontFiles_withoutTexts (l : SchemaLayout) (language : Language)
    (units : List SourceUnit) :
    (l.withoutTexts.frontFiles language (units.map (·.withoutTexts))).map (·.name)
      = (l.frontFiles language units).map (·.name) := by
  simp only [frontFiles, List.map_append, List.map_map, Function.comp_def, Language.name_unitFile]
  rfl

theorem stems_frontFiles_withoutTexts (l : SchemaLayout) (language : Language)
    (units : List SourceUnit) :
    (l.withoutTexts.frontFiles language (units.map (·.withoutTexts))).map (·.stem)
      = (l.frontFiles language units).map (·.stem) := by
  have hstem : ∀ files : List SourceFile, files.map (·.stem)
      = (files.map (·.name)).map fun name => SourceFile.stem ⟨name, ""⟩ := fun files => by
    rw [List.map_map]
    rfl
  rw [hstem, names_frontFiles_withoutTexts, ← hstem]

/-- The header's name is that of a type that a file is written for. -/
theorem isPlain_headerName {n : Namer} (h : l.sourceUnits n = .ok units) :
    IsPlain l.header.composite.typeName := by
  have htype : ∃ t ∈ l.sourceTypes, t.name = l.header.composite.typeName := by
    unfold sourceTypes
    cases hfind : l.typeNamed? l.header.composite.typeName with
    | none => exact ⟨.composite l.header.composite, by simp [hfind], rfl⟩
    | some t =>
      have hname := List.find?_some hfind
      exact ⟨t, by simp [List.mem_of_find?_eq_some hfind], by simpa using hname⟩
  obtain ⟨t, ht, hname⟩ := htype
  obtain ⟨types, messages, htypes, -, -⟩ := sourceUnits_eq_ok_iff.1 h
  obtain ⟨u, -, hunit⟩ := exists_mem_of_mapM htypes ht
  rw [← hname]
  exact Namer.plain_raw_of_identifier .moduleName (Namer.isUnit_of_typeUnit hunit).1.file

/-- A unit has the code that it has without texts, if they fit. -/
theorem sameCode_unitLines {x : Slashed} {policy : KeywordPolicy}
    (h : l.sourceUnits ⟨x.language, policy⟩ = .ok units) (hfits : x.Fits l) {u : SourceUnit}
    (hu : u ∈ units) :
    x.SameCode (x.language.unitLines l u) (x.language.unitLines l.withoutTexts u.withoutTexts) := by
  obtain ⟨-, -, himports⟩ := plain_of_mem_units h hu
  have hheader := IsLine.of_plain (isPlain_headerName h)
  rcases exists_of_mem_sourceUnits h hu with ⟨t, ht, hunit⟩ | ⟨m, hm, hunit⟩
  · obtain ⟨hdescription, hother⟩ := Namer.element_of_typeUnit hunit
    have htexts : ∀ d ∈ u.element.description, x.FitsComment d :=
      hdescription ▸ hfits.type ht
    cases x with
    | rust =>
      exact Rust.sameCode_unitLines l htexts fun m b he => absurd he (hother m b)
    | typeScript =>
      exact TypeScript.sameCode_unitLines l himports (TypeScript.sameCode_elementLines l hheader
        htexts fun m b he => absurd he (hother m b))
  · obtain ⟨b, type, helement, hname, htype, hbody⟩ := Namer.element_of_message hunit
    have hspelled := Namer.isSpelled_of_body hbody htype (.of_plain hname)
    have htexts : ∀ d ∈ u.element.description, x.FitsComment d := by
      rw [helement]
      exact hfits.message hm
    cases x with
    | rust =>
      refine Rust.sameCode_unitLines l htexts fun m' b' he => ?_
      rw [helement] at he
      cases he
      exact (hspelled b List.mem_cons_self).path
    | typeScript =>
      refine TypeScript.sameCode_unitLines l himports (TypeScript.sameCode_elementLines l hheader
        htexts fun m' b' he => ?_)
      rw [helement] at he
      cases he
      refine ⟨hname, fun c hc => ⟨hspelled c hc, fun d hd => ?_⟩⟩
      obtain ⟨hlayouts, hnames⟩ := Namer.names_of_body hbody
      have hbodies : c.layout ∈ m.body.bodies := hlayouts ▸ List.mem_map_of_mem hc
      have hdata : d.layout ∈ c.layout.varData := (hnames c hc).varData ▸ List.mem_map_of_mem hd
      exact hfits.encoding hm hbodies hdata

/-- The files of a package have the code that they have without texts, if they fit. -/
theorem codeOf_sourceLines {x : Slashed} {policy : KeywordPolicy}
    (h : l.sourceUnits ⟨x.language, policy⟩ = .ok units) (hfits : x.Fits l) :
    (l.sourceLines x.language units).map (fun lines => x.codeOf (joinLines lines))
      = (l.withoutTexts.sourceLines x.language (units.map (·.withoutTexts))).map
        fun lines => x.codeOf (joinLines lines) := by
  have hunits : ∀ u ∈ units, x.codeOf (joinLines (x.language.unitLines l u))
      = x.codeOf (joinLines (x.language.unitLines l.withoutTexts u.withoutTexts)) :=
    fun u hu => Slashed.codeOf_joinLines (sameCode_unitLines h hfits hu)
  have hindex : x.codeOf (joinLines (x.language.indexLines l (l.frontFiles x.language units)))
      = x.codeOf (joinLines (x.language.indexLines l.withoutTexts
        (l.withoutTexts.frontFiles x.language (units.map (·.withoutTexts))))) := by
    have hstems := l.stems_frontFiles_withoutTexts x.language units
    cases x with
    | rust =>
      exact Slashed.codeOf_joinLines (Rust.sameCode_indexLines l hstems.symm hfits.package)
    | typeScript =>
      have hexports := congrArg (List.map fun stem => s!"export * from './{stem}';") hstems
      simp only [List.map_map] at hexports
      show Slashed.typeScript.codeOf (joinLines (TypeScript.indexLines _))
        = Slashed.typeScript.codeOf (joinLines (TypeScript.indexLines _))
      unfold TypeScript.indexLines
      exact congrArg (fun lines => Slashed.typeScript.codeOf
        (joinLines ([TypeScript.banner, ""] ++ lines ++ [""]))) hexports.symm
  simp only [sourceLines, List.map_append, List.map_map, List.map_cons, List.map_nil]
  rw [hindex]
  refine congrArg (· ++ _) (congrArg (_ ++ ·) (List.map_congr_left hunits))

end SchemaLayout

/-! ## Packages -/

theorem exists_of_map_eq {ε α β : Type} {f : α → β} {x y : Except ε α} (h : x.map f = y.map f)
    {a : α} (hx : x = .ok a) : ∃ b, y = .ok b ∧ f a = f b := by
  subst hx
  cases y with
  | error e => cases h
  | ok b => exact ⟨b, rfl, Except.ok.inj h⟩

/-- Whether a name is repeated says nothing about what the files hold. -/
theorem repeatedName?_congr : ∀ {files files' : List SourceFile} (seen : List String),
    files.map (·.name) = files'.map (·.name) → repeatedName? seen files = repeatedName? seen files'
  | [], [], _, _ => rfl
  | [], _ :: _, _, h => by simp at h
  | _ :: _, [], _, h => by simp at h
  | f :: files, f' :: files', seen, h => by
    obtain ⟨hname, hnames⟩ := List.cons.inj h
    have hname : f.name = f'.name := hname
    rw [repeatedName?, repeatedName?, hname, repeatedName?_congr (f'.name :: seen) hnames]

/-- With other free texts a schema has units that differ in them only. -/
theorem Schema.exists_units_of_withoutTexts_eq {s s' : Schema} {n : Namer} {l : SchemaLayout}
    {units : List SourceUnit} (hs : s.withoutTexts = s'.withoutTexts)
    (hl : SchemaLayout.resolve s = .ok l) (hunits : l.sourceUnits n = .ok units) :
    ∃ l' units', SchemaLayout.resolve s' = .ok l' ∧ l'.sourceUnits n = .ok units'
      ∧ l.withoutTexts = l'.withoutTexts
      ∧ units.map (·.withoutTexts) = units'.map (·.withoutTexts) := by
  have hresolve : (SchemaLayout.resolve s).map (·.withoutTexts)
      = (SchemaLayout.resolve s').map (·.withoutTexts) := by
    rw [← SchemaLayout.resolve_withoutTexts, hs, SchemaLayout.resolve_withoutTexts]
  obtain ⟨l', hl', hlayouts⟩ := exists_of_map_eq hresolve hl
  have hsources : (l.sourceUnits n).map (List.map (·.withoutTexts))
      = (l'.sourceUnits n).map (List.map (·.withoutTexts)) := by
    rw [← SchemaLayout.sourceUnits_withoutTexts, hlayouts, SchemaLayout.sourceUnits_withoutTexts]
  obtain ⟨units', hunits', hsame⟩ := exists_of_map_eq hsources hunits
  exact ⟨l', units', hl', hunits', hlayouts, hsame⟩

/-- With other free texts a schema has files of the same names, or none as before.  In Rust and
TypeScript they have the same code, comments and what is in literals apart, if neither these texts
nor those before end a comment or break a literal. -/
theorem Schema.sources_of_withoutTexts_eq {s s' : Schema} {config : SourceConfig}
    {files : List SourceFile} (hs : s.withoutTexts = s'.withoutTexts)
    (h : s.sources config = .ok files) :
    ∃ l l' files', SchemaLayout.resolve s = .ok l ∧ SchemaLayout.resolve s' = .ok l'
      ∧ s'.sources config = .ok files' ∧ files.map (·.name) = files'.map (·.name)
      ∧ ∀ x : Slashed, x.language = config.language → x.Fits l → x.Fits l' →
        files.map (x.codeOf ·.contents) = files'.map (x.codeOf ·.contents) := by
  obtain ⟨l, units, hl, hunits, rfl, hnone⟩ := Schema.sources_eq_ok_iff.1 h
  obtain ⟨l', units', hl', hunits', hlayouts, hsame⟩ :=
    Schema.exists_units_of_withoutTexts_eq hs hl hunits
  have hnames : (l.frontFiles config.language units
        ++ [config.language.dialect.indexFile l (l.frontFiles config.language units)]).map (·.name)
      = (l'.frontFiles config.language units' ++ [config.language.dialect.indexFile l'
        (l'.frontFiles config.language units')]).map (·.name) := by
    rw [List.map_append, List.map_append, ← SchemaLayout.names_frontFiles_withoutTexts, hlayouts,
      hsame, SchemaLayout.names_frontFiles_withoutTexts]
    simp only [List.map_cons, List.map_nil, Language.name_indexFile]
  refine ⟨l, l', _, hl, hl', Schema.sources_eq_ok_iff.2 ⟨l', units', hl', hunits', rfl, ?_⟩, hnames,
    ?_⟩
  · rw [← repeatedName?_congr [] hnames, hnone]
  · intro x hx hfits hfits'
    obtain ⟨language, policy, package⟩ := config
    cases hx
    have hcode : ∀ files : List SourceFile, files.map (x.codeOf ·.contents)
        = (files.map (·.contents)).map x.codeOf := fun files => by
      rw [List.map_map]
      rfl
    rw [hcode, hcode, SchemaLayout.map_contents, SchemaLayout.map_contents, List.map_map,
      List.map_map]
    -- Both packages have the code of the one without texts.
    have hold := SchemaLayout.codeOf_sourceLines hunits hfits
    have hnew := SchemaLayout.codeOf_sourceLines hunits' hfits'
    rw [hlayouts, hsame] at hold
    exact hold.trans hnew.symm

namespace Noted

/-- A message of one field, with a description. -/
def definition (text : String) : MessageDef where
  name := "Order"
  id := 1
  description := some text
  fields := [
    { name := "quantity", id := 1, type := .primitive { name := "uint8", primitive := .uint8 } }]

def schema (text : String) : SchemaDef where
  id := 1
  version := 0
  messages := [definition text]

def quantity : PrimitiveLayout := ⟨.uint8, .littleEndian, 1, .required, none, .uint 255, none⟩

def body : BodyLayout := ⟨1, [⟨"quantity", 1, 0, 0, none, .primitive quantity⟩], [], []⟩

def layout (text : String) : SchemaLayout where
  package := none
  id := 1
  version := 0
  byteOrder := .littleEndian
  header := Orders.header
  types := []
  messages := [⟨"Order", 1, 0, none, some text, body⟩]

theorem resolve_schema (text : String) :
    SchemaLayout.resolve (schema text).flatten = .ok (layout text) := by
  have hsound : (definition text).Sound := by
    refine ⟨⟨?_, by simp [definition]⟩, trivial⟩
    simp [definition, TypeDef.Sound, PrimitiveDef.Sound]
  exact SchemaDef.resolve_flatten Orders.ofTokens_header .nil (.cons ⟨hsound, rfl⟩ .nil)
    (List.forall_mem_singleton.2 rfl) rfl

theorem withoutTexts_schema (text text' : String) :
    (schema text).flatten.withoutTexts = (schema text').flatten.withoutTexts := rfl

theorem fits {text : String} (h : IsLine text) : Slashed.rust.Fits (layout text) := by
  have htypes : (layout "").sourceTypes.filterMap (·.description) = [] := by decide +kernel
  refine ⟨fun s hs => ?_, fun s hs => absurd hs List.not_mem_nil⟩
  have hs : s ∈ (layout "").sourceTypes.filterMap (·.description) ++ [text] := hs
  rw [htypes, List.nil_append, List.mem_singleton] at hs
  exact hs ▸ h

def config : SourceConfig := ⟨.rust, ⟨none⟩, none⟩

/-- The unit of the message. -/
def unit (text : String) : SourceUnit where
  file := "order"
  imports := []
  element := .message ⟨"Order", 1, 0, none, some text, body⟩ ⟨"Order", "Order", body,
    [⟨"quantity", "quantity", 0, 1, .primitive quantity "QUANTITY"⟩], [], []⟩

theorem message_layout (text : String) :
    config.namer.message ⟨"Order", 1, 0, none, some text, body⟩ = .ok (unit text) := by
  have htype : config.namer.type "Order" = .ok "Order" := by decide +kernel
  have hmember : config.namer.member "quantity" = .ok "quantity" := by decide +kernel
  have hconstant : config.namer.constant "quantity" = .ok "QUANTITY" := by decide +kernel
  have hfile : config.namer.moduleName "Order" = .ok "order" := by decide +kernel
  have hfield : config.namer.field ⟨"quantity", 1, 0, 0, none, .primitive quantity⟩
      = .ok ⟨"quantity", "quantity", 0, 1, .primitive quantity "QUANTITY"⟩ := by
    simp only [Namer.field, Namer.kind, hmember, hconstant, ok_bind]
    rfl
  simp only [Namer.message, body, Namer.body, Namer.groupBodies, List.mapM_cons, List.mapM_nil,
    htype, hfield, hfile, ok_bind]
  rfl

/-- The message is written into the second file. -/
theorem exists_sources (text : String) : ∃ front back, (schema text).flatten.sources config
    = .ok (front
      :: ⟨"order.rs", joinLines (Rust.unitLines (layout text) (unit text))⟩ :: back) := by
  have hheader : (config.namer.typeUnit (.composite Orders.header.composite)).toOption.map (·.file)
      = some "message_header" := by
    decide +kernel
  obtain ⟨u, hu, hfile⟩ := Option.map_eq_some_iff.1 hheader
  rw [toOption_eq_some_iff] at hu
  have htypes : (layout text).sourceTypes.mapM config.namer.typeUnit = .ok [u] := by
    show [TypeLayout.composite Orders.header.composite].mapM config.namer.typeUnit = _
    rw [List.mapM_cons, hu]
    rfl
  have hmessages : (layout text).messages.mapM config.namer.message = .ok [unit text] := by
    show [_].mapM config.namer.message = _
    rw [List.mapM_cons, message_layout]
    rfl
  refine ⟨Rust.unitFile (layout text) u, [Rust.indexFile (layout text)
    [Rust.unitFile (layout text) u, Rust.unitFile (layout text) (unit text)]],
    Schema.sources_eq_ok_iff.2 ⟨layout text, _, resolve_schema text,
      SchemaLayout.sourceUnits_eq_ok_iff.2 ⟨_, _, htypes, hmessages, rfl⟩, rfl, ?_⟩⟩
  have hnames : repeatedName? [] [⟨"message_header.rs", ""⟩, ⟨"order.rs", ""⟩, ⟨"mod.rs", ""⟩]
      = none := by
    decide +kernel
  rw [← hnames]
  refine repeatedName?_congr [] ?_
  simp only [List.map_cons, List.map_nil, Rust.unitFile, hfile]
  rfl

theorem unitLines_eq (text : String) : Rust.unitLines (layout text) (unit text)
    = [Rust.banner, "#![allow(unused_imports, unused_variables, unused_mut, clippy::all)]", "",
        "use super::*;", ""]
      ++ (Rust.documented (some text) ++ (Rust.unitLines (layout "") (unit "")).drop 6) := rfl

/-- The second line of a description is code of the message's file. -/
theorem codeOf_unitLines_ne :
    Slashed.rust.codeOf (joinLines (Rust.unitLines (layout "first") (unit "first")))
      ≠ Slashed.rust.codeOf (joinLines (Rust.unitLines (layout "first\npub struct Second;")
        (unit "first\npub struct Second;"))) := by
  obtain ⟨kept, hkept⟩ := Rust.alike_opening.exists_kept
  have hfirst : IsLine "first" := isLine_fixed rfl
  have hsplit : "first\npub struct Second;" = "first" ++ "\n" ++ "pub struct Second;" := by
    decide +kernel
  rw [unitLines_eq "first", unitLines_eq "first\npub struct Second;", hsplit]
  generalize hrest : (Rust.unitLines (layout "") (unit "")).drop 6 = rest
  have hne : rest ≠ [] := by
    rw [← hrest]
    exact List.cons_ne_nil _ _
  have hone : Slashed.rust.codeOf (joinLines (Rust.documented (some "first") ++ rest))
      = "\n" ++ Slashed.rust.codeOf (joinLines rest) := by
    have hline : Slashed.rust.read .code ("/// " ++ "first" ++ "\n").toList = (.code, ['\n']) :=
      Rust.read_comment hfirst rfl
    show Slashed.rust.codeOf (joinLines (("/// " ++ "first") :: rest)) = _
    rw [Slashed.joinLines_cons _ hne, Slashed.codeOf_append hline]
  have htwo : Slashed.rust.codeOf (joinLines (Rust.documented
      (some ("first" ++ "\n" ++ "pub struct Second;")) ++ rest))
        = "\n" ++ ("pub struct Second;\n" ++ Slashed.rust.codeOf (joinLines rest)) := by
    have hline : Slashed.rust.read .code ("pub struct Second;" ++ "\n").toList
        = (.code, "pub struct Second;\n".toList) := by decide
    rw [Rust.codeOf_documented hfirst hne, Slashed.joinLines_cons _ hne,
      Slashed.codeOf_append hline, String.ofList_toList]
  rw [(hkept (by simp [hne])).1, (hkept (by simp [hne])).1, hone, htwo]
  intro heq
  have hlength := congrArg String.length heq
  simp at hlength

/-- A description of another line makes no difference to the code, one of two lines does. -/
theorem code_of_sources : ∃ files files' files'',
    (schema "first").flatten.sources config = .ok files
      ∧ (schema "second").flatten.sources config = .ok files'
      ∧ (schema "first\npub struct Second;").flatten.sources config = .ok files''
      ∧ files.map (Slashed.rust.codeOf ·.contents) = files'.map (Slashed.rust.codeOf ·.contents)
      ∧ files.map (Slashed.rust.codeOf ·.contents)
        ≠ files''.map (Slashed.rust.codeOf ·.contents) := by
  obtain ⟨front, back, hfiles⟩ := exists_sources "first"
  obtain ⟨front'', back'', hfiles''⟩ := exists_sources "first\npub struct Second;"
  obtain ⟨l, l', files', hl, hl', hfiles', -, hcode⟩ :=
    Schema.sources_of_withoutTexts_eq (withoutTexts_schema "first" "second") hfiles
  cases (resolve_schema _).symm.trans hl
  cases (resolve_schema _).symm.trans hl'
  refine ⟨_, files', _, hfiles, hfiles', hfiles'', hcode .rust rfl (fits (isLine_fixed rfl))
    (fits (isLine_fixed rfl)), fun heq => ?_⟩
  exact codeOf_unitLines_ne (List.cons.inj (List.cons.inj heq).2).1

end Noted

end SimpleBinary
