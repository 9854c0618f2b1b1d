import SimpleBinary.Schema.Basic
import SimpleBinary.Source.Python
import SimpleBinary.Source.Rust
import SimpleBinary.Source.TypeScript

/-!
# Packages of sources

The files generated for a schema: what every file relies on, then the types, then the messages,
then the root of the package. Types are those of the schema and those found only inside other
composites. Nothing is written before every name has been found good and all files are known to
have names of their own.
-/

namespace SimpleBinary

inductive SourceError where
  | schema (e : SchemaError)
  | name (e : NameError)
  | duplicateFile (name : String)
deriving DecidableEq, Repr

def SourceError.message : SourceError → String
  | .schema e => e.message
  | .name e => e.message
  | .duplicateFile file => s!"Two schema elements generate the file {file}"

/-- What to generate: the language, what to do with reserved words, and a package name that takes
the place of the schema's. -/
structure SourceConfig where
  language : Language
  policy : KeywordPolicy
  packageOverride : Option String
deriving DecidableEq, Repr

def SourceConfig.package (c : SourceConfig) (s : Schema) : Option String :=
  c.packageOverride <|> s.package

def SourceConfig.namer (c : SourceConfig) : Namer := ⟨c.language, c.policy⟩

/-- How a language's files are written. -/
structure Dialect where
  unitFile : SchemaLayout → SourceUnit → SourceFile
  support : Option SourceFile
  indexFile : SchemaLayout → List SourceFile → SourceFile

def Language.dialect : Language → Dialect
  | .rust => ⟨Rust.unitFile, none, Rust.indexFile⟩
  | .typeScript =>
    ⟨TypeScript.unitFile, some TypeScript.supportFile, fun _ => TypeScript.indexFile⟩
  | .python => ⟨Python.unitFile, some Python.supportFile, fun _ => Python.indexFile⟩

/-- The type of a field that is not primitive. -/
def FieldLayout.type? (f : FieldLayout) : Option TypeLayout :=
  match f.kind with
  | .primitive _ => none
  | .composite c => some (.composite c)
  | .enumeration e => some (.enumeration e)
  | .set s => some (.set s)

/-- The types of the members of a composite. -/
def CompositeLayout.memberTypes (c : CompositeLayout) : List TypeLayout :=
  c.members.filterMap (·.type?)

namespace TypeLayout

def composite? : TypeLayout → Option CompositeLayout
  | .composite c => some c
  | _ => none

end TypeLayout

mutual

/-- The composites inside a composite at every depth, the later members first, each before those
inside it, and before all of them the composite itself. -/
def CompositeLayout.selfAndNested : CompositeLayout → List CompositeLayout
  | ⟨typeName, encodedLength, members, description⟩ =>
    ⟨typeName, encodedLength, members, description⟩ :: nestedComposites members

def nestedComposites : List FieldLayout → List CompositeLayout
  | [] => []
  | ⟨_, _, _, _, _, kind⟩ :: fs => nestedComposites fs ++ kind.composites

def FieldKind.composites : FieldKind → List CompositeLayout
  | .composite c => c.selfAndNested
  | _ => []

end

/-- The types whose names are not among `known`, each name once. -/
def newTypes (known : List String) : List TypeLayout → List TypeLayout
  | [] => []
  | t :: ts =>
    if known.contains t.name then newTypes known ts else t :: newTypes (t.name :: known) ts

namespace SchemaLayout

/-- The types that are only found inside composites: of the schema's types, the last one first, and
of the header. -/
def inlineTypes (s : SchemaLayout) : List TypeLayout :=
  let outer := s.header.composite :: s.types.filterMap (·.composite?)
  newTypes (s.header.composite.typeName :: s.types.map (·.name))
    (outer.reverse.flatMap fun c => c.selfAndNested.flatMap (·.memberTypes))

/-- All types that files are written for. -/
def sourceTypes (s : SchemaLayout) : List TypeLayout :=
  let header := s.header.composite
  (if (s.typeNamed? header.typeName).isNone then [.composite header] else [])
    ++ s.types ++ s.inlineTypes

/-- The units of the types and the messages. -/
def sourceUnits (s : SchemaLayout) (n : Namer) : Except NameError (List SourceUnit) := do
  return (← s.sourceTypes.mapM n.typeUnit) ++ (← s.messages.mapM n.message)

/-- The files of a package in the order in which they are written. -/
def sourceFiles (s : SchemaLayout) (n : Namer) : Except NameError (List SourceFile) := do
  let dialect := n.language.dialect
  let files := dialect.support.toList ++ (← s.sourceUnits n).map (dialect.unitFile s)
  return files ++ [dialect.indexFile s files]

end SchemaLayout

/-- The first name that an earlier file has too. -/
def repeatedName? (seen : List String) : List SourceFile → Option String
  | [] => none
  | f :: fs => if seen.contains f.name then some f.name else repeatedName? (f.name :: seen) fs

/-- The files generated for a schema. -/
def Schema.sources (s : Schema) (config : SourceConfig) : Except SourceError (List SourceFile) := do
  let layout ← (SchemaLayout.resolve s).mapError .schema
  let files ← (layout.sourceFiles config.namer).mapError .name
  match repeatedName? [] files with
  | some name => throw (.duplicateFile name)
  | none => return files

end SimpleBinary
