import Mathlib
import SimpleBinary.Proofs.Letters
import SimpleBinary.Proofs.WrittenScopes

/-!
# Clashes of names

What is declared in a scope is made of the schema's names one by one, and nothing keeps two of these
apart: what is declared is distinct just where a namer makes distinct identifiers of all names of a
scope, and so it is where these differ in letters (`Schema.exists_scopes`).
-/

namespace SimpleBinary

/-! ## Distinct names -/

/-- The letters of a name that is declared. -/
def Declared.letters : Declared → List Char
  | .fixed name => SimpleBinary.letters name.toList
  | .named _ raw => SimpleBinary.letters raw.toList
  | .nullValue raw => SimpleBinary.letters (raw ++ "_NULL_VALUE").toList
  | .type parts suffix => parts.flatMap (SimpleBinary.letters ·.toList)
      ++ SimpleBinary.letters suffix.toList

/-- The types that scopes declare. -/
def declaredTypes (ds : List DeclaredScope) : List Declared := (ds.filter (·.isType)).map (·.type)

/-- The types that are declared in scopes. -/
def typesOf (scopes : List Scope) : List String := (scopes.filter (·.isType)).map (·.type)

namespace Namer

variable {n : Namer} {ds : List Declared} {names : List String}

/-- Names are distinct just where the namer keeps apart what they are made from. -/
theorem Spells.nodup_iff (h : n.Spells ds names) : names.Nodup ↔ (ds.map n.declare).Nodup := by
  have hmap : ds.map n.declare = names.map .ok := by
    rw [← List.forall₂_eq_eq_eq, List.forall₂_map_left_iff, List.forall₂_map_right_iff]
    exact h
  rw [hmap, List.nodup_map_iff fun _ _ he => Except.ok.inj he]

/-- Without letters in the token that is appended to reserved words, what is declared has the
letters of the names that it is made from. -/
theorem letters_of_declare
    (htoken : ∀ token, n.policy.appendToken = some token → letters token.toList = [])
    {d : Declared} {name : String} (h : n.declare d = .ok name) :
    letters name.toList = d.letters := by
  cases d with
  | fixed name =>
    cases h
    rfl
  | named role raw => exact letters_of_identifier htoken h
  | nullValue raw =>
    obtain ⟨constant, hconstant, h⟩ := bind_eq_ok_iff.1 h
    cases h
    have hidentifier : n.identifier .constant raw = .ok constant := hconstant
    have hletters := letters_of_identifier htoken hidentifier
    rw [Declared.letters, String.toList_append, String.toList_append, letters_append,
      letters_append, hletters]
  | type parts suffix =>
    obtain ⟨types, htypes, h⟩ := bind_eq_ok_iff.1 h
    cases h
    have hparts := mapM_eq_ok_iff.1 htypes
    clear htypes
    have hall : ∀ front : String, letters (types.foldl (· ++ ·) front).toList
        = letters front.toList ++ parts.flatMap (letters ·.toList) := by
      clear h
      induction hparts with
      | nil => simp
      | @cons raw type _ _ htype _ ih =>
        have hidentifier : n.identifier .type raw = .ok type := htype
        intro front
        rw [List.foldl_cons, ih, List.flatMap_cons, String.toList_append, letters_append,
          letters_of_identifier htoken hidentifier, List.append_assoc]
    rw [Declared.letters, String.toList_append, letters_append, hall]
    rfl

/-- What differs in letters stays apart. -/
theorem Spells.nodup_of_letters (h : n.Spells ds names)
    (htoken : ∀ token, n.policy.appendToken = some token → letters token.toList = [])
    (hletters : (ds.map (·.letters)).Nodup) : names.Nodup := by
  have hmap : ds.map (·.letters) = names.map (letters ·.toList) := by
    rw [← List.forall₂_eq_eq_eq, List.forall₂_map_left_iff, List.forall₂_map_right_iff]
    exact h.imp fun d name hd => (letters_of_declare htoken hd).symm
  rw [hmap] at hletters
  exact .of_map _ hletters

theorem spells_types {scopes : List DeclaredScope} {written : List Scope}
    (h : List.Forall₂ n.Writes scopes written) :
    n.Spells (declaredTypes scopes) (typesOf written) := by
  have hfilter := List.rel_filter (p := fun d : DeclaredScope => d.isType)
    (q := fun sc : Scope => sc.isType) (fun d sc hd => by simp [hd.isType]) h
  rw [declaredTypes, typesOf, Spells, List.forall₂_map_left_iff, List.forall₂_map_right_iff]
  exact hfilter.imp fun d sc hd => hd.type

end Namer

/-- The files of a package hold a text for every type and every message, and the scopes in these
texts are those of the layout.  Two names of a scope, or two types, are distinct just where the
namer makes distinct identifiers of them; so they are if they differ in more than case and
underscores. -/
theorem Schema.exists_scopes {s : Schema} {config : SourceConfig} {files : List SourceFile}
    (h : s.sources config = .ok files) : ∃ l, SchemaLayout.resolve s = .ok l ∧
      ∃ texts : List Lines, texts.length = l.sourceTypes.length + l.messages.length
        ∧ (texts.map joinLines).Sublist (files.map (·.contents))
        ∧ let scopes := texts.flatMap config.language.scopes
          List.Forall₂ config.namer.Writes (l.scopes config.language) scopes
          ∧ ((∀ sc ∈ scopes, (config.language.names sc.lines).Nodup)
            ↔ ∀ d ∈ l.scopes config.language, (d.names.map config.namer.declare).Nodup)
          ∧ ((typesOf scopes).Nodup
            ↔ ((declaredTypes (l.scopes config.language)).map config.namer.declare).Nodup)
          ∧ ((∀ token, config.policy.appendToken = some token → letters token.toList = []) →
            ((∀ d ∈ l.scopes config.language, (d.names.map (·.letters)).Nodup) →
              ∀ sc ∈ scopes, (config.language.names sc.lines).Nodup)
            ∧ (((declaredTypes (l.scopes config.language)).map (·.letters)).Nodup →
              (typesOf scopes).Nodup)) := by
  obtain ⟨l, hl, texts, hlength, htexts, hwrites⟩ := Schema.exists_texts h
  have htypes := Namer.spells_types hwrites
  refine ⟨l, hl, texts, hlength, htexts, hwrites, ⟨forall_mem_of_forall₂
    (fun sc d hd => hd.names.nodup_iff.1) hwrites.flip, forall_mem_of_forall₂
    (fun d sc hd => hd.names.nodup_iff.2) hwrites⟩, htypes.nodup_iff, fun htoken =>
    ⟨?_, htypes.nodup_of_letters htoken⟩⟩
  exact forall_mem_of_forall₂ (fun d sc hd => hd.names.nodup_of_letters htoken) hwrites

namespace Twins

/-- A message of two fields whose names differ in case and an underscore. -/
def definition : MessageDef where
  name := "Order"
  id := 1
  fields := [
    { name := "fooBar", id := 1, type := .primitive { name := "uint8", primitive := .uint8 } },
    { name := "foo_bar", id := 2, type := .primitive { name := "uint8", primitive := .uint8 } }]

def schema : SchemaDef where
  id := 1
  version := 0
  messages := [definition]

def number : PrimitiveLayout := ⟨.uint8, .littleEndian, 1, .required, none, .uint 255, none⟩

def message : MessageLayout where
  name := "Order"
  id := 1
  sinceVersion := 0
  semanticType := none
  description := none
  body := ⟨2, [⟨"fooBar", 1, 0, 0, none, .primitive number⟩,
    ⟨"foo_bar", 2, 0, 1, none, .primitive number⟩], [], []⟩

def layout : SchemaLayout where
  package := none
  id := 1
  version := 0
  byteOrder := .littleEndian
  header := Orders.header
  types := []
  messages := [message]

theorem resolve_schema : SchemaLayout.resolve schema.flatten = .ok layout := by
  have hsound : definition.Sound := by
    refine ⟨⟨?_, by simp [definition]⟩, trivial⟩
    simp [definition, TypeDef.Sound, PrimitiveDef.Sound]
  exact SchemaDef.resolve_flatten Orders.ofTokens_header .nil (.cons ⟨hsound, rfl⟩ .nil)
    (List.forall_mem_singleton.2 rfl) rfl

/-- The struct of the message has two members of one name. -/
theorem exists_scopes_schema : ∃ files, schema.flatten.sources ⟨.rust, ⟨none⟩, none⟩ = .ok files
    ∧ ∃ texts : List Lines, (texts.map joinLines).Sublist (files.map (·.contents))
      ∧ ∃ sc ∈ texts.flatMap Language.rust.scopes, ¬ (Language.rust.names sc.lines).Nodup := by
  obtain ⟨files, hfiles⟩ : ∃ files, schema.flatten.sources ⟨.rust, ⟨none⟩, none⟩ = .ok files :=
    Schema.exists_sources resolve_schema (by decide +kernel)
  obtain ⟨l, hl, texts, -, htexts, -, hnames, -⟩ := Schema.exists_scopes hfiles
  cases resolve_schema.symm.trans hl
  refine ⟨files, hfiles, texts, htexts, ?_⟩
  by_contra hdistinct
  have hall := hnames.1 fun sc hsc => by_contra fun hsame => hdistinct ⟨sc, hsc, hsame⟩
  have hclash : ¬ ∀ d ∈ layout.scopes .rust,
      (d.names.map (Namer.declare ⟨.rust, ⟨none⟩⟩)).Nodup := by
    decide +kernel
  exact hclash hall

end Twins

end SimpleBinary
