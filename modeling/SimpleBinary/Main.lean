import SimpleBinary.Codec.Document
import SimpleBinary.Command
import SimpleBinary.Json.Reader
import SimpleBinary.Json.Writer
import SimpleBinary.Layout.Document
import SimpleBinary.Schema.Balanced
import SimpleBinary.Schema.Document
import SimpleBinary.Source.Output

/-!
# The command line

Reads the files that a command names, asks the library, and writes what it answers.
-/

namespace SimpleBinary

/-- The value of an answer; an error ends the command with its text. -/
def orFail {ε α : Type} (message : ε → String) : Except ε α → IO α
  | .ok a => return a
  | .error e => throw (IO.userError (message e))

/-- The value of an answer; without one the command ends with a text. -/
def orSay {α : Type} (message : String) : Option α → IO α
  | some a => return a
  | none => throw (IO.userError message)

/-- The document in a file. -/
def readDocument (path : String) : IO Json := do
  orSay s!"{path} holds no document" (Json.parse? (← IO.FS.readFile path))

/-- The schema in a file, its streams checked. -/
def readSchema (path : String) : IO Schema := do
  let schema ← orSay s!"{path} holds no schema" (Schema.parse? (← IO.FS.readFile path))
  orFail SchemaError.message schema.verify
  return schema

/-- The disk of the machine. -/
def Disk.machine : Disk IO where
  makeDirectory path := IO.FS.createDirAll path
  writeFile path text := IO.FS.writeFile path text

namespace Command

/-- Does what a command asks for. -/
def run : Command → IO Unit
  | .generate path config directory => do
    let schema ← readSchema path
    let count ← orFail SourceError.message (← (schema.generateBelow config .machine directory).run)
    IO.println s!"Generated {count} {config.language.name} files in {directory}"
  | .decode path input => do
    let schema ← readSchema path
    let data ← IO.FS.readBinFile input
    let document ← orFail CodecError.message (schema.decodeToJson data.toList)
    IO.println document.sorted.pretty
  | .encode path message input output => do
    let schema ← readSchema path
    let body ← readDocument input
    let data ← orFail ExchangeError.message (schema.encodeFromJson message body)
    IO.FS.writeBinFile output (ByteArray.mk data.toArray)
    IO.println s!"Encoded {input} → {output}"
  | .layout path => do
    let schema ← readSchema path
    let layout ← orFail SchemaError.message (SchemaLayout.resolve schema)
    IO.println layout.toJson.sorted.pretty

end Command

end SimpleBinary

open SimpleBinary in
def main (arguments : List String) : IO UInt32 := do
  match Command.ofArguments (← IO.getEnv "SBE_KEYWORD_APPEND_TOKEN") arguments with
  | .error e =>
    IO.eprintln s!"error: {e.message}"
    return 2
  | .ok command =>
    try
      command.run
      return 0
    catch e =>
      IO.eprintln s!"Error: {e}"
      return 1
