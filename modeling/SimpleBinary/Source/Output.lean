import SimpleBinary.Source.Package

/-!
# Where sources go

`Schema.generate` hands the files of a schema to an output manager, none of them before all are
known. Files are kept by name, or written to a package's directory, which lies below a base: one
step for each part of the package's name between points, empty parts left out. A part that starts
at the root replaces what came before it. A path can be written to if it and the names in it are
short enough and hold no null character.
-/

namespace SimpleBinary

/-- A path one step further. -/
def joinPath (base part : String) : String :=
  if part.startsWith "/" then part
  else if base.isEmpty || base.endsWith "/" then base ++ part
  else base ++ "/" ++ part

/-- The parts of a package's name. -/
def packageParts (package : Option String) : List String :=
  match package with
  | none => []
  | some name => ((pieces '.' name.toList).filter (!·.isEmpty)).map String.ofList

/-- The directory of a package below a base. -/
def packageDirectory (base : String) (package : Option String) : String :=
  (packageParts package).foldl joinPath base

/-- Files in the order of their names with one more, which takes the place of one of its name. -/
def SourceFile.insert : List SourceFile → SourceFile → List SourceFile
  | [], f => [f]
  | g :: gs, f =>
    if f.name < g.name then f :: g :: gs
    else if f.name = g.name then f :: gs
    else g :: insert gs f

/-- What the files of a package are handed to, one after the other. -/
structure OutputManager (m : Type → Type) where
  write : SourceFile → m Unit

/-- Keeps files by name. -/
def OutputManager.memory : OutputManager (StateM (List SourceFile)) :=
  ⟨fun f => modify (SourceFile.insert · f)⟩

/-- Generates the files of a schema and hands them over; gives their number. -/
def Schema.generate {m : Type → Type} [Monad m] (s : Schema) (config : SourceConfig)
    (out : OutputManager m) : ExceptT SourceError m Nat := do
  let files ← ExceptT.mk (pure (s.sources config))
  files.forM fun f => ExceptT.lift (out.write f)
  return files.length

/-- The path of a file in a package's directory. -/
def SourceFile.path (base : String) (package : Option String) (f : SourceFile) : String :=
  joinPath (packageDirectory base package) f.name

/-- The paths and texts of files in a package's directory, in the order in which they are
written. -/
def SourceFile.placed (base : String) (package : Option String) (files : List SourceFile) :
    List (String × String) :=
  files.map fun f => (f.path base package, f.contents)

/-- Where files can be written: directories are made, with those around them, and texts put in
files. -/
structure Disk (m : Type → Type) where
  makeDirectory : String → m Unit
  writeFile : String → String → m Unit

/-- Writes files to a package's directory, which is made where it is missing. -/
def OutputManager.directory {m : Type → Type} [Monad m] (disk : Disk m) (base : String)
    (package : Option String) : OutputManager m where
  write f := do
    disk.makeDirectory (packageDirectory base package)
    disk.writeFile (f.path base package) f.contents

/-- Generates the files of a schema in the directory of its package below a base. -/
def Schema.generateBelow {m : Type → Type} [Monad m] (s : Schema) (config : SourceConfig)
    (disk : Disk m) (base : String) : ExceptT SourceError m Nat :=
  s.generate config (.directory disk base (config.package s))

/-- The greatest number of bytes in the name of a file or a directory. -/
def maxNameSize : Nat := 255

/-- The greatest number of bytes in a path. -/
def maxPathSize : Nat := 4095

/-- Whether a file can have this path. -/
def isWritablePath (path : String) : Bool :=
  path.utf8ByteSize ≤ maxPathSize && !path.toList.contains '\x00'
    && (pieces '/' path.toList).all fun name => (String.ofList name).utf8ByteSize ≤ maxNameSize

/-- The paths and texts of files in a package's directory, if all of them can be written. -/
def SourceFile.placed? (base : String) (package : Option String) (files : List SourceFile) :
    Option (List (String × String)) :=
  let placed := SourceFile.placed base package files
  if placed.all fun (path, _) => isWritablePath path then some placed else none

end SimpleBinary
