import Mathlib
import SimpleBinary.Proofs.Flattening
import SimpleBinary.Proofs.References
import SimpleBinary.Proofs.SourceLines

/-!
# What packages import

What a unit imports is the file of a type that its layout mentions, and for every such type there
is a unit (`SchemaLayout.exists_unit_of_import`).  So a package imports only what it holds, and the
types that its layout mentions are in it once each (`Schema.sources_closed`).  Imports are looked for
in the lines as the renderer puts them together: a description with a line break in it stays one line
there, and what follows the break in the file is not looked at.
-/

namespace SimpleBinary

/-! ## Packages -/

namespace SchemaLayout

variable {s : Schema} {l : SchemaLayout} {language : Language} {n : Namer}
  {units : List SourceUnit} {u : SourceUnit}

/-- The lines of a package's files, as they are put together: a description is part of one line,
whatever it holds. -/
def sourceLines (l : SchemaLayout) (language : Language) (units : List SourceUnit) : List Lines :=
  language.supportLines ++ units.map (language.unitLines l)
    ++ [language.indexLines l (l.frontFiles language units)]

theorem map_contents (l : SchemaLayout) (language : Language) (units : List SourceUnit) :
    (l.frontFiles language units
        ++ [language.dialect.indexFile l (l.frontFiles language units)]).map (·.contents)
      = (l.sourceLines language units).map joinLines := by
  simp only [frontFiles, sourceLines, List.map_append, List.map_cons, List.map_nil, List.map_map,
    Function.comp_def, Language.contents_unitFile, Language.contents_indexFile,
    Language.contents_support]

/-- A unit is that of an element whose types the layout mentions. -/
theorem exists_isUnit (h : l.sourceUnits n = .ok units) (hu : u ∈ units) :
    ∃ name fields, n.IsUnit name fields u
      ∧ ∀ f ∈ fields, ∀ type, f.kind.typeName? = some type → l.Mentions type := by
  rcases exists_of_mem_sourceUnits h hu with ⟨t, ht, hunit⟩ | ⟨m, hm, hunit⟩
  · refine ⟨_, _, (Namer.isUnit_of_typeUnit hunit).1, fun f hf type htype => ?_⟩
    cases t with
    | composite c => exact mentions_of_sourceType ht hf htype
    | enumeration e => exact absurd hf List.not_mem_nil
    | set c => exact absurd hf List.not_mem_nil
  · refine ⟨_, _, (Namer.isUnit_of_message hunit).1, fun f hf type htype => ?_⟩
    obtain ⟨b, hb, hf⟩ := BodyLayout.mem_allFields_iff.1 hf
    exact .field hm hb hf htype

/-- For what a unit imports there is a unit. -/
theorem exists_unit_of_import (hl : resolve s = .ok l) (h : l.sourceUnits n = .ok units)
    (hu : u ∈ units) {i : Import} (hi : i ∈ u.imports) : ∃ v ∈ units, v.file = i.file := by
  obtain ⟨_, fields, hunit, hmentions⟩ := exists_isUnit h hu
  obtain ⟨-, f, hf, name, hname, hfile⟩ := Namer.exists_of_mem_imports hunit.imports i hi
  obtain ⟨t, ht, rfl⟩ := (mentions_iff hl).1 (hmentions f hf name hname)
  obtain ⟨types, messages, htypes, -, rfl⟩ := sourceUnits_eq_ok_iff.1 h
  obtain ⟨v, hv, hvunit⟩ := exists_mem_of_mapM htypes ht
  have hsame := (Namer.isUnit_of_typeUnit hvunit).1.file.symm.trans hfile
  exact ⟨v, List.mem_append_left _ hv, Except.ok.inj hsame⟩

theorem plain_of_mem_units (h : l.sourceUnits n = .ok units) (hu : u ∈ units) :
    IsPlain u.file ∧ (∀ s ∈ u.element.declared, IsPlain s)
      ∧ ∀ i ∈ u.imports, IsPlain i.type ∧ IsPlain i.file := by
  obtain ⟨_, fields, hunit, -⟩ := exists_isUnit h hu
  refine ⟨Namer.plain_of_identifier .moduleName hunit.file, hunit.declared, fun i hi => ?_⟩
  obtain ⟨htype, f, -, name, -, hfile⟩ := Namer.exists_of_mem_imports hunit.imports i hi
  exact ⟨htype, Namer.plain_of_identifier .moduleName hfile⟩

/-- The files that others may import. -/
theorem exists_of_mem_frontFiles {f : SourceFile} (h : f ∈ l.frontFiles language units) :
    f ∈ language.dialect.support ∨ ∃ u ∈ units, language.dialect.unitFile l u = f := by
  rcases List.mem_append.1 h with h | h
  · exact .inl (Option.mem_toList.1 h)
  · exact .inr (List.mem_map.1 h)

theorem plain_stem_of_mem_frontFiles (h : l.sourceUnits n = .ok units) {f : SourceFile}
    (hf : f ∈ l.frontFiles language units) :
    IsPlain f.stem ∧ f.name = language.fileName f.stem := by
  rcases exists_of_mem_frontFiles hf with hsupport | ⟨u, hu, rfl⟩
  · have hname := Language.name_support hsupport
    rw [Language.stem_of_name hname]
    exact ⟨isPlain_runtime, hname⟩
  · have hname := language.name_unitFile l u
    rw [Language.stem_of_name hname]
    exact ⟨(plain_of_mem_units h hu).1, hname⟩

/-- What the files of a package import is in front of its root. -/
theorem exists_file_of_import (hl : resolve s = .ok l) (h : l.sourceUnits n = .ok units)
    {lines : Lines} (hlines : lines ∈ l.sourceLines language units) {name : String}
    (hname : name ∈ language.importedModules lines) :
    ∃ f ∈ l.frontFiles language units, f.name = language.fileName name := by
  unfold sourceLines at hlines
  simp only [List.mem_append, List.mem_map, List.mem_singleton] at hlines
  rcases hlines with (hlines | ⟨u, hu, rfl⟩) | rfl
  · rw [Language.importedModules_supportLines hlines] at hname
    exact absurd hname List.not_mem_nil
  · obtain ⟨-, hdeclared, himports⟩ := plain_of_mem_units h hu
    rcases Language.of_mem_unitLines hdeclared himports hname with ⟨f, hf, hfile⟩ | ⟨i, hi, rfl⟩
    · exact ⟨f, List.mem_append_left _ (Option.mem_toList.2 hf), hfile⟩
    · obtain ⟨v, hv, hfile⟩ := exists_unit_of_import hl h hu hi
      refine ⟨_, List.mem_append_right _ (List.mem_map_of_mem hv), ?_⟩
      rw [Language.name_unitFile, hfile]
  · have hplain : ∀ f ∈ l.frontFiles language units, IsPlain f.stem :=
      fun f hf => (plain_stem_of_mem_frontFiles h hf).1
    obtain ⟨f, hf, rfl⟩ := Language.of_mem_indexLines hplain hname
    exact ⟨f, hf, (plain_stem_of_mem_frontFiles h hf).2⟩

/-- The types that files are written for have names of their own, if the files have. -/
theorem nodup_names_sourceTypes {types : List SourceUnit}
    (h : l.sourceTypes.mapM n.typeUnit = .ok types) (hnodup : (types.map (·.file)).Nodup) :
    (l.sourceTypes.map (·.name)).Nodup := by
  have hfiles : (l.sourceTypes.map (·.name)).map n.moduleName = types.map fun u => .ok u.file := by
    rw [List.map_map]
    exact map_eq_of_mapM (fun hunit => (Namer.isUnit_of_typeUnit hunit).1.file) h
  refine List.Nodup.of_map n.moduleName ?_
  rw [hfiles]
  have hinjective : Function.Injective (Except.ok : String → Except NameError String) :=
    fun _ _ => Except.ok.inj
  simpa only [List.map_map, Function.comp_def] using hnodup.map hinjective

/-- A name that a layout mentions is that of one unit. -/
theorem count_typeName? (hl : resolve s = .ok l) (h : l.sourceUnits n = .ok units)
    (hnodup : ((l.frontFiles language units).map (·.name)).Nodup) {name : String}
    (hname : l.Mentions name) : (units.map (·.typeName?)).count (some name) = 1 := by
  obtain ⟨types, messages, htypes, hmessages, rfl⟩ := sourceUnits_eq_ok_iff.1 h
  have hfiles : (types.map (·.file)).Nodup := by
    rw [frontFiles, List.map_append, List.map_map, List.map_append] at hnodup
    have htypes := (List.nodup_append.1 (List.nodup_append.1 hnodup).2.1).1
    refine List.Nodup.of_map language.fileName ?_
    rw [List.map_map]
    simpa only [Function.comp_def, Language.name_unitFile] using htypes
  have hnames : types.map (·.typeName?) = (l.sourceTypes.map (·.name)).map some := by
    rw [List.map_map]
    exact (map_eq_of_mapM (fun hunit => (Namer.isUnit_of_typeUnit hunit).2.1.symm) htypes).symm
  have hnone : some name ∉ messages.map (·.typeName?) := by
    intro hmem
    obtain ⟨u, hu, htype⟩ := List.mem_map.1 hmem
    obtain ⟨m, -, hunit⟩ := exists_of_mem_mapM hmessages hu
    rw [(Namer.isUnit_of_message hunit).2.1] at htype
    cases htype
  obtain ⟨t, ht, rfl⟩ := (mentions_iff hl).1 hname
  rw [List.map_append, List.count_append, List.count_eq_zero_of_not_mem hnone, hnames,
    List.count_map_of_injective _ _ (Option.some_injective _)]
  exact List.count_eq_one_of_mem (nodup_names_sourceTypes htypes hfiles) (List.mem_map_of_mem ht)

end SchemaLayout

/-- A package imports only files that it holds: a line of one of its files that takes something from
another file, or passes it on, names a file of the package.  A name of a type that the layout
mentions is the name of exactly one of the units that files are written for.  The lines are those
before they are joined, so what a description holds behind a line break is no line of its own. -/
theorem Schema.sources_closed {s : Schema} {config : SourceConfig} {files : List SourceFile}
    (h : s.sources config = .ok files) :
    ∃ l units, SchemaLayout.resolve s = .ok l ∧ l.sourceUnits config.namer = .ok units
      ∧ files.map (·.contents) = (l.sourceLines config.language units).map joinLines
      ∧ (∀ lines ∈ l.sourceLines config.language units,
          ∀ name ∈ config.language.importedModules lines,
            ∃ f ∈ files, f.name = name ++ "." ++ config.language.abbreviation)
      ∧ ∀ name, l.Mentions name → (units.map (·.typeName?)).count (some name) = 1 := by
  obtain ⟨l, units, hl, hunits, rfl, hnone⟩ := Schema.sources_eq_ok_iff.1 h
  have hnodup := (nodup_of_repeatedName? hnone).1
  rw [List.map_append] at hnodup
  refine ⟨l, units, hl, hunits, l.map_contents config.language units, ?_, ?_⟩
  · intro lines hlines name hname
    obtain ⟨f, hf, hfile⟩ := SchemaLayout.exists_file_of_import hl hunits hlines hname
    exact ⟨f, List.mem_append_left _ hf, hfile⟩
  · intro name hname
    exact SchemaLayout.count_typeName? hl hunits (List.nodup_append.1 hnodup).1 hname

/-! ## A package of orders -/

/-- The stream of a type is read as what its definition means. -/
theorem TypeLayout.ofTokens_tokens {t : TypeDef} {order : ByteOrder} {u : TypeLayout}
    (hs : t.Sound) (hu : t.layout order = u.kind) :
    TypeLayout.ofTokens (t.tokens order 0) = .ok (some u) := by
  have hself := hasAt_self (t.tokens order 0)
  have hspan := t.whole_tokens order 0 _ _ hself
  have hkind := TypeDef.kindAt_tokens hs hself
  rw [hu] at hkind
  rw [Nat.zero_add] at hspan hkind
  exact TypeLayout.ofTokens_eq_some_iff.2 ⟨hspan, hkind⟩

/-- The schema of sound definitions is laid out as they are, if it has the types that its messages
name. -/
theorem SchemaDef.resolve_flatten {s : SchemaDef} {l : SchemaLayout} {header : HeaderLayout}
    {types : List (Option TypeLayout)} {messages : List MessageLayout}
    (hheader : HeaderLayout.ofTokens (s.header.tokens s.byteOrder 0) = .ok header)
    (htypes : List.Forall₂ (fun t l => TypeLayout.ofTokens (t.tokens s.byteOrder 0) = .ok l)
      s.types types)
    (hmessages : List.Forall₂ (fun m l => m.Sound ∧ m.layout? s.byteOrder = some l)
      s.messages messages)
    (hknown : ∀ m ∈ messages, m.body.checkReferences ((types.filterMap fun t => t).map (·.name))
      m.name = .ok ())
    (hl : ⟨s.package, s.id, s.version, s.byteOrder, header,
      types.filterMap fun t => t, messages⟩ = l) :
    SchemaLayout.resolve s.flatten = .ok l := by
  have htypes' : s.flatten.types.mapM TypeLayout.ofTokens = .ok types :=
    mapM_eq_ok_iff.2 (List.forall₂_map_left_iff.2 htypes)
  have hmessages' : s.flatten.messages.mapM MessageLayout.ofTokens = .ok messages :=
    mapM_eq_ok_iff.2 (List.forall₂_map_left_iff.2
      (hmessages.imp fun _ _ h => MessageDef.ofTokens_tokens_of_layout? h.1 h.2))
  simp only [SchemaLayout.resolve, bind_eq_ok_iff, mapM_check_eq_ok_iff, pure_eq_ok_iff]
  exact ⟨header, hheader, types, htypes', messages, ⟨hmessages', hknown⟩, hl⟩

namespace Orders

/-- Orders, and venues at a place with flags. -/
def market : SchemaDef where
  id := 1
  version := 0
  types := [
    .enumeration "Side" .uint8 [("BUY", .uint 1), ("SELL", .uint 2)],
    .composite "Venue" [.composite "Place" [.set "Flags" .uint8 [("open", 0)]]]]
  messages := [definition]

def flags : SetLayout := ⟨"Flags", .uint8, .littleEndian, [⟨"open", 0⟩], none⟩

def place : CompositeLayout := ⟨"Place", 1, [⟨"Flags", -1, 0, 0, none, .set flags⟩], none⟩

def venue : CompositeLayout := ⟨"Venue", 1, [⟨"Place", -1, 0, 0, none, .composite place⟩], none⟩

def marketLayout : SchemaLayout where
  package := none
  id := 1
  version := 0
  byteOrder := .littleEndian
  header := header
  types := [.enumeration side, .composite venue]
  messages := [definedMessage]

theorem resolve_market : SchemaLayout.resolve market.flatten = .ok marketLayout := by
  have hside : TypeLayout.ofTokens ((TypeDef.enumeration "Side" .uint8
      [("BUY", .uint 1), ("SELL", .uint 2)]).tokens .littleEndian 0)
      = .ok (some (.enumeration side)) :=
    TypeLayout.ofTokens_tokens trivial rfl
  have hvenue : TypeLayout.ofTokens ((TypeDef.composite "Venue"
      [.composite "Place" [.set "Flags" .uint8 [("open", 0)]]]).tokens .littleEndian 0)
      = .ok (some (.composite venue)) :=
    TypeLayout.ofTokens_tokens (by simp [TypeDef.Sound, membersSound, Primitive.size]) rfl
  exact SchemaDef.resolve_flatten ofTokens_header (.cons hside (.cons hvenue .nil))
    (.cons ⟨definition_sound, layout?_definition⟩ .nil) (List.forall_mem_singleton.2 rfl) rfl

theorem exists_sources_market :
    ∃ files, market.flatten.sources ⟨.python, ⟨none⟩, none⟩ = .ok files :=
  Schema.exists_sources resolve_market (by decide +kernel)

/-- The flags inside a place inside a venue have one unit. -/
theorem count_flags_sources : ∃ files units,
    market.flatten.sources ⟨.python, ⟨none⟩, none⟩ = .ok files
      ∧ marketLayout.sourceUnits ⟨.python, ⟨none⟩⟩ = .ok units
      ∧ (units.map (·.typeName?)).count (some "Flags") = 1 := by
  obtain ⟨files, hfiles⟩ := exists_sources_market
  obtain ⟨l, units, hl, hunits, -, -, hcount⟩ := Schema.sources_closed hfiles
  rw [resolve_market] at hl
  cases hl
  have hplace : place.Holds (.set flags) := .member List.mem_cons_self rfl
  have hvenue : venue.Holds (.set flags) := .inner List.mem_cons_self rfl hplace
  have hmentions : marketLayout.Mentions "Flags" := .inType (by simp [marketLayout]) hvenue
  exact ⟨files, units, hfiles, hunits, hcount "Flags" hmentions⟩

end Orders

end SimpleBinary
