import Mathlib
import SimpleBinary.Proofs.Clashes
import SimpleBinary.Proofs.Directories

/-!
# Files of one name

No two files of a package have one name.  All files but the few that are in every package are named
after the types and messages of a layout, so where two files would have one name they are those of
two namesakes, or one of them is called like a file that is there anyhow
(`SchemaLayout.namesakes_of_duplicate`).  No casing changes the letters of a name, so namesakes
differ in nothing but case and underscores if no token is appended to them
(`Schema.letters_of_duplicateFile`).
-/

namespace SimpleBinary

/-! ## Repeated names -/

/-- A name that is found again was there before, or stands twice among the names. -/
theorem duplicate_of_repeatedName? {name : String} : ∀ {seen : List String}
    {files : List SourceFile}, repeatedName? seen files = some name →
      (name ∈ seen ∧ name ∈ files.map (·.name)) ∨ (files.map (·.name)).Duplicate name
  | _, [], h => by simp [repeatedName?] at h
  | seen, f :: fs, h => by
    rw [repeatedName?] at h
    rw [List.map_cons, List.duplicate_cons_iff]
    split at h
    · rename_i hseen
      cases h
      exact .inl ⟨by simpa using hseen, List.mem_cons_self⟩
    · rcases duplicate_of_repeatedName? h with ⟨hname, hfs⟩ | hdup
      · rcases List.mem_cons.1 hname with rfl | hname
        · exact .inr (.inl ⟨rfl, hfs⟩)
        · exact .inl ⟨hname, List.mem_cons_of_mem _ hfs⟩
      · exact .inr (.inr hdup)

/-- The files of a package, its root last. -/
def SchemaLayout.packageFiles (l : SchemaLayout) (language : Language) (units : List SourceUnit) :
    List SourceFile :=
  l.frontFiles language units ++ [language.dialect.indexFile l (l.frontFiles language units)]

/-- A package is refused for a name that is repeated, if all names in it are good. -/
theorem Schema.sources_eq_duplicateFile_iff {s : Schema} {config : SourceConfig} {file : String} :
    s.sources config = .error (.duplicateFile file) ↔ ∃ l units, SchemaLayout.resolve s = .ok l
      ∧ l.sourceUnits config.namer = .ok units
      ∧ repeatedName? [] (l.packageFiles config.language units) = some file := by
  unfold Schema.sources SchemaLayout.sourceFiles
  simp only [bind_eq_error_iff, bind_eq_ok_iff, mapError_eq_ok_iff, mapError_eq_error_iff,
    pure_eq_ok_iff]
  constructor
  · rintro (⟨e, -, h⟩ | ⟨l, hl, ⟨e, -, h⟩ | ⟨files, ⟨units, hunits, rfl⟩, h⟩⟩)
    · cases h
    · cases h
    · split at h
      · rename_i name hname
        cases h
        exact ⟨l, units, hl, hunits, hname⟩
      · cases h
  · rintro ⟨l, units, hl, hunits, hname⟩
    refine .inr ⟨l, hl, .inr ⟨_, ⟨units, hunits, rfl⟩, ?_⟩⟩
    split
    · rename_i name hfound
      cases hfound.symm.trans hname
      rfl
    · rename_i hnone
      exact absurd (hnone.symm.trans hname) (by simp)

namespace Language

/-- What the files are called that every package has. -/
def fixedStems : Language → List String
  | .rust => ["mod"]
  | .typeScript => ["runtime", "index"]
  | .python => ["runtime", "__init__"]

theorem fileName_injective (language : Language) : Function.Injective language.fileName := by
  intro a b h
  rwa [fileName, fileName, String.append_left_inj, String.append_left_inj] at h

end Language

namespace SchemaLayout

variable {l : SchemaLayout} {n : Namer} {units : List SourceUnit}

/-- The names of the types and messages that files are written for, in the order of the files. -/
def unitNames (l : SchemaLayout) : List String :=
  l.sourceTypes.map (·.name) ++ l.messages.map (·.name)

/-- Units have the files that their elements' names are spelled as. -/
theorem map_moduleName_unitNames (h : l.sourceUnits n = .ok units) :
    l.unitNames.map n.moduleName = units.map fun u => .ok u.file := by
  obtain ⟨types, messages, htypes, hmessages, rfl⟩ := sourceUnits_eq_ok_iff.1 h
  have htypes := map_eq_of_mapM (g := fun t => n.moduleName t.name)
    (fun hunit => (Namer.isUnit_of_typeUnit hunit).1.file) htypes
  have hmessages := map_eq_of_mapM (g := fun m => n.moduleName m.name)
    (fun hunit => (Namer.isUnit_of_message hunit).1.file) hmessages
  rw [unitNames, List.map_append, List.map_append, List.map_map, List.map_map, ← htypes,
    ← hmessages]
  rfl

/-- The files of a package are the units' and the fixed ones. -/
theorem perm_names_files (l : SchemaLayout) (language : Language) (units : List SourceUnit) :
    ((l.packageFiles language units).map (·.name)).Perm
      ((language.fixedStems ++ units.map (·.file)).map language.fileName) := by
  have hunits : (units.map (language.dialect.unitFile l)).map (·.name)
      = (units.map (·.file)).map language.fileName := by
    rw [List.map_map, List.map_map]
    exact List.map_congr_left fun u _ => language.name_unitFile l u
  rw [packageFiles, List.map_append, List.map_cons, List.map_nil, Language.name_indexFile,
    frontFiles, List.map_append, hunits, List.map_append]
  cases language with
  | rust => exact List.perm_append_comm
  | typeScript | python => exact .cons _ List.perm_append_comm

/-- Where two files have one name, two elements have it, or one has it that is fixed. -/
theorem namesakes_of_duplicate (h : l.sourceUnits n = .ok units) {file : String}
    (hdup : ((l.packageFiles language units).map (·.name)).Duplicate file) :
    ∃ stem, file = language.fileName stem
      ∧ ((∃ a b, [a, b].Sublist l.unitNames ∧ n.moduleName a = .ok stem ∧ n.moduleName b = .ok stem)
        ∨ stem ∈ language.fixedStems ∧ ∃ a ∈ l.unitNames, n.moduleName a = .ok stem) := by
  rw [List.duplicate_iff_two_le_count, (perm_names_files l language units).count_eq] at hdup
  obtain ⟨stem, -, rfl⟩ := List.mem_map.1 (List.count_pos_iff.1 (lt_of_lt_of_le two_pos hdup))
  rw [List.count_map_of_injective _ _ language.fileName_injective, List.count_append] at hdup
  refine ⟨stem, rfl, ?_⟩
  by_cases hfixed : stem ∈ language.fixedStems
  · -- a fixed file stands once among the fixed ones, so the other is a unit's
    have hnodup : language.fixedStems.Nodup := by cases language <;> decide
    rw [List.count_eq_one_of_mem hnodup hfixed] at hdup
    have hmem : stem ∈ units.map (·.file) := List.count_pos_iff.1 (by omega)
    obtain ⟨u, hu, rfl⟩ := List.mem_map.1 hmem
    have hnamed : Except.ok u.file ∈ l.unitNames.map n.moduleName := by
      rw [map_moduleName_unitNames h]
      exact List.mem_map_of_mem hu
    exact .inr ⟨hfixed, List.mem_map.1 hnamed⟩
  · rw [List.count_eq_zero_of_not_mem hfixed, zero_add, ← List.duplicate_iff_two_le_count,
      List.duplicate_iff_sublist] at hdup
    have hnamed := hdup.map (Except.ok (ε := NameError))
    rw [List.map_map] at hnamed
    have hsame : units.map (Except.ok ∘ (·.file)) = l.unitNames.map n.moduleName :=
      (map_moduleName_unitNames h).symm
    rw [hsame, List.sublist_map_iff] at hnamed
    obtain ⟨names, hsub, hnames⟩ := hnamed
    obtain ⟨a, rest, rfl, ha, hrest⟩ := List.map_eq_cons_iff.1 hnames.symm
    obtain ⟨b, rest, rfl, hb, hrest⟩ := List.map_eq_cons_iff.1 hrest
    rw [List.map_nil, List.map_eq_nil_iff] at hrest
    subst hrest
    exact .inl ⟨a, b, hsub, ha, hb⟩

end SchemaLayout

namespace Namer

/-- A name in the spelling of a role is reserved, and there is a token to append to it. -/
def Escapes (n : Namer) (role : NameRole) (raw : String) : Prop :=
  n.spelling role raw ∈ n.language.keywords ∧ n.policy.appendToken.isSome

/-- Without a token an identifier has the letters of its name. -/
theorem letters_of_not_escapes {n : Namer} {raw s : String} (role : NameRole)
    (h : n.identifier role raw = .ok s) (hfree : ¬ n.Escapes role raw) :
    letters s.toList = letters raw.toList := by
  obtain ⟨hraw, happly⟩ := identifier_eq_ok_iff.1 h
  rcases KeywordPolicy.apply_eq_ok_iff.1 happly with ⟨-, rfl⟩ | ⟨hword, token, ht, -⟩
  · exact letters_spelling n role hraw
  · exact absurd ⟨hword, Option.isSome_iff_exists.2 ⟨token, ht⟩⟩ hfree

end Namer

/-- Names that a casing spells alike have the same letters.  So a package is refused for a file's
name only if two elements of these letters have it, where no token was appended to them, or an
element is called like a file that every package has. -/
theorem Schema.letters_of_duplicateFile :
    (∀ casing ∈ [pascalCase, camelCase, snakeCase, upperSnakeCase], ∀ a b : String,
        isIdentifier a.toList → isIdentifier b.toList → casing a.toList = casing b.toList →
          letters a.toList = letters b.toList)
      ∧ ∀ (s : Schema) (config : SourceConfig) (file : String),
        s.sources config = .error (.duplicateFile file) → ∃ l stem,
          SchemaLayout.resolve s = .ok l ∧ file = config.language.fileName stem
            ∧ ((∃ a b, [a, b].Sublist l.unitNames
                  ∧ config.namer.moduleName a = .ok stem ∧ config.namer.moduleName b = .ok stem
                  ∧ (¬ config.namer.Escapes .moduleName a → ¬ config.namer.Escapes .moduleName b →
                    letters a.toList = letters b.toList))
              ∨ stem ∈ config.language.fixedStems
                ∧ ∃ a ∈ l.unitNames, config.namer.moduleName a = .ok stem) := by
  constructor
  · intro casing hcasing a b ha hb hsame
    have hkept : ∀ cs : List Char, (∀ c ∈ cs, isIdentifierRest c) →
        letters (casing cs) = letters cs := by
      simp only [List.mem_cons, List.not_mem_nil, or_false] at hcasing
      rcases hcasing with rfl | rfl | rfl | rfl
      · exact fun cs h => letters_pascalCase h
      · exact fun cs h => letters_camelCase h
      · exact fun cs h => letters_snakeCase h
      · exact fun cs h => letters_upperSnakeCase h
    rw [← hkept _ (isIdentifier_iff.1 ha).2, hsame, hkept _ (isIdentifier_iff.1 hb).2]
  · intro s config file h
    obtain ⟨l, units, hl, hunits, hname⟩ := sources_eq_duplicateFile_iff.1 h
    have hdup := (duplicate_of_repeatedName? hname).resolve_left fun hseen =>
      List.not_mem_nil hseen.1
    obtain ⟨stem, hfile, hsame⟩ := SchemaLayout.namesakes_of_duplicate hunits hdup
    refine ⟨l, stem, hl, hfile, hsame.imp_left ?_⟩
    rintro ⟨a, b, hab, ha, hb⟩
    refine ⟨a, b, hab, ha, hb, fun hfreea hfreeb => ?_⟩
    rw [← Namer.letters_of_not_escapes .moduleName ha hfreea,
      Namer.letters_of_not_escapes .moduleName hb hfreeb]

namespace Twins

/-- A message without elements. -/
def empty (name : String) (id : Int32) : MessageDef := { name, id }

/-- Two messages whose names differ in case and an underscore. -/
def pair : SchemaDef where
  id := 1
  version := 0
  messages := [empty "fooBar" 1, empty "foo_bar" 2]

def emptyLayout (name : String) (id : Int32) : MessageLayout where
  name := name
  id := id
  sinceVersion := 0
  semanticType := none
  description := none
  body := ⟨0, [], [], []⟩

def pairLayout : SchemaLayout where
  package := none
  id := 1
  version := 0
  byteOrder := .littleEndian
  header := Orders.header
  types := []
  messages := [emptyLayout "fooBar" 1, emptyLayout "foo_bar" 2]

theorem resolve_pair : SchemaLayout.resolve pair.flatten = .ok pairLayout := by
  have hsound : ∀ name id, (empty name id).Sound := fun name id =>
    ⟨⟨by simp [empty], by simp [empty]⟩, trivial⟩
  exact SchemaDef.resolve_flatten Orders.ofTokens_header .nil
    (.cons ⟨hsound _ _, rfl⟩ (.cons ⟨hsound _ _, rfl⟩ .nil))
    (List.forall_mem_cons.2 ⟨rfl, List.forall_mem_singleton.2 rfl⟩) rfl

theorem sources_pair :
    pair.flatten.sources ⟨.rust, ⟨none⟩, none⟩ = .error (.duplicateFile "foo_bar.rs") := by
  have hunits : ((pairLayout.sourceUnits ⟨.rust, ⟨none⟩⟩).toOption.map fun units =>
      repeatedName? [] (pairLayout.packageFiles .rust units)) = some (some "foo_bar.rs") := by
    decide +kernel
  obtain ⟨units, hunits, hname⟩ := Option.map_eq_some_iff.1 hunits
  rw [toOption_eq_some_iff] at hunits
  exact Schema.sources_eq_duplicateFile_iff.2 ⟨_, units, resolve_pair, hunits, hname⟩

/-- The two messages would share a file, and their names have the same letters. -/
theorem letters_of_duplicateFile_pair :
    pascalCase "FOO_BAR".toList = pascalCase "fooBar".toList
      ∧ letters "FOO_BAR".toList = letters "fooBar".toList
      ∧ pair.flatten.sources ⟨.rust, ⟨none⟩, none⟩ = .error (.duplicateFile "foo_bar.rs")
      ∧ ∃ a b, [a, b].Sublist pairLayout.unitNames ∧ letters a.toList = letters b.toList := by
  obtain ⟨hletters, hfiles⟩ := Schema.letters_of_duplicateFile
  have hsame : pascalCase "FOO_BAR".toList = pascalCase "fooBar".toList := by decide +kernel
  refine ⟨hsame, hletters _ List.mem_cons_self _ _ (by decide) (by decide) hsame, sources_pair, ?_⟩
  obtain ⟨l, stem, hl, hfile, h⟩ := hfiles _ _ _ sources_pair
  cases resolve_pair.symm.trans hl
  have hname : Language.rust.fileName "foo_bar" = Language.rust.fileName stem := hfile
  have hstem := Language.rust.fileName_injective hname
  have hfree : ∀ a, ¬ Namer.Escapes ⟨.rust, ⟨none⟩⟩ .moduleName a := fun a h => by
    simpa using h.2
  rcases h with ⟨a, b, hab, -, -, h⟩ | ⟨hfixed, -⟩
  · exact ⟨a, b, hab, h (hfree a) (hfree b)⟩
  · rw [← hstem] at hfixed
    exact absurd hfixed (by decide)

end Twins

end SimpleBinary
