import SimpleBinary.Source.Package

/-!
# Commands

What can be asked for on a command line. A command is followed by settings: `--name value` or
`--name=value`, or a letter for the name, `-n value`, `-n=value` or `-nvalue`. A setting is given
at most once, and a value apart from its name does not look like a setting.
-/

namespace SimpleBinary

inductive Command where
  | generate (schema : String) (config : SourceConfig) (directory : String)
  | decode (schema input : String)
  | encode (schema message input output : String)
  | layout (schema : String)
deriving DecidableEq, Repr

inductive UsageError where
  | noCommand
  | unknownCommand (name : String)
  | unexpected (argument : String)
  | repeated (setting : String)
  | noValue (setting : String)
  | missing (setting : String)
  | unknownLanguage (small : String)
deriving DecidableEq, Repr

def UsageError.message : UsageError → String
  | .noCommand => "a command is required"
  | .unknownCommand name => s!"unknown command {name}"
  | .unexpected argument => s!"unexpected argument {argument}"
  | .repeated setting => s!"--{setting} is given more than once"
  | .noValue setting => s!"--{setting} needs a value"
  | .missing setting => s!"--{setting} is required"
  | .unknownLanguage small => Language.unknownMessage small

/-- A setting's name and the letter that stands for it. -/
structure Setting where
  name : String
  letter : Option Char
deriving DecidableEq, Repr

namespace Setting

def schema : Setting := ⟨"ir", some 'i'⟩
def language : Setting := ⟨"language", some 'l'⟩
def output : Setting := ⟨"output", some 'o'⟩
def package : Setting := ⟨"package", some 'p'⟩
def appendToken : Setting := ⟨"keyword-append-token", none⟩
def input : Setting := ⟨"input", some 'f'⟩
def message : Setting := ⟨"message", some 'm'⟩

/-- The setting that an argument names, and the value that it brings along. -/
def named? (known : List Setting) (argument : String) : Option (Setting × Option String) :=
  match argument.toList with
  | '-' :: '-' :: rest => do
    let s ← known.find? fun s => s.name.toList == rest.takeWhile (· != '=')
    match rest.dropWhile (· != '=') with
    | [] => some (s, none)
    | _ :: value => some (s, some (String.ofList value))
  | '-' :: c :: rest => do
    let s ← known.find? fun s => s.letter == some c
    match rest with
    | [] => some (s, none)
    | '=' :: value => some (s, some (String.ofList value))
    | value => some (s, some (String.ofList value))
  | _ => none

/-- Whether an argument can only be the name of a setting. -/
def looksNamed (argument : String) : Bool := argument.startsWith "-" && argument != "-"

end Setting

/-- The values that were given, under the names of their settings. -/
abbrev Settings := List (String × String)

namespace Settings

/-- One value more. -/
def give (given : Settings) (s : Setting) (value : String) : Except UsageError Settings :=
  if (given.lookup s.name).isSome then .error (.repeated s.name)
  else .ok ((s.name, value) :: given)

/-- The values that a list of arguments gives to known settings. -/
def ofArguments (known : List Setting) (given : Settings) :
    List String → Except UsageError Settings
  | [] => .ok given
  | argument :: rest =>
    match Setting.named? known argument, rest with
    | none, _ => .error (.unexpected argument)
    | some (s, some value), rest => do ofArguments known (← given.give s value) rest
    | some (s, none), [] => .error (.noValue s.name)
    | some (s, none), value :: rest =>
      if Setting.looksNamed value then .error (.noValue s.name)
      else do ofArguments known (← given.give s value) rest

def optional (given : Settings) (s : Setting) : Option String := given.lookup s.name

def required (given : Settings) (s : Setting) : Except UsageError String :=
  match given.optional s with
  | some value => .ok value
  | none => .error (.missing s.name)

end Settings

/-- A path with the last extension of its file name replaced. A point that a name starts with does
not begin an extension, and a path that ends in no name stays as it is. -/
def replaceExtension (path ending : String) : String :=
  let backwards := path.toList.reverse.dropWhile (· == '/')
  let name := backwards.takeWhile (· != '/')
  let directory := backwards.drop name.length
  if name.isEmpty || name == ['.'] || name == ['.', '.'] then path
  else
    let stem := (name.dropWhile (· != '.')).drop 1
    let kept := if stem.isEmpty then name else stem
    String.ofList (kept ++ directory).reverse ++ "." ++ ending

namespace Command

/-- The sources to generate; a token for reserved words that is not given may come from outside. -/
def generateOf (appendToken : Option String) (given : Settings) : Except UsageError Command := do
  let schema ← given.required .schema
  let language ← (Language.ofName ((given.optional .language).getD Language.rust.name)).mapError
    .unknownLanguage
  let policy : KeywordPolicy := ⟨given.optional .appendToken <|> appendToken⟩
  return .generate schema ⟨language, policy, given.optional .package⟩
    ((given.optional .output).getD "generated")

def decodeOf (given : Settings) : Except UsageError Command := do
  return .decode (← given.required .schema) (← given.required .input)

/-- The message to encode; without a path of its own it goes beside its document. -/
def encodeOf (given : Settings) : Except UsageError Command := do
  let schema ← given.required .schema
  let message ← given.required .message
  let input ← given.required .input
  return .encode schema message input ((given.optional .output).getD (replaceExtension input "sbe"))

def layoutOf (given : Settings) : Except UsageError Command := do
  return .layout (← given.required .schema)

/-- The command of a list of arguments. -/
def ofArguments (appendToken : Option String) : List String → Except UsageError Command
  | [] => .error .noCommand
  | "generate" :: rest => do
    generateOf appendToken
      (← Settings.ofArguments [.schema, .language, .output, .package, .appendToken] [] rest)
  | "decode" :: rest => do decodeOf (← Settings.ofArguments [.schema, .input] [] rest)
  | "encode" :: rest => do
    encodeOf (← Settings.ofArguments [.schema, .message, .input, .output] [] rest)
  | "layout" :: rest => do layoutOf (← Settings.ofArguments [.schema] [] rest)
  | name :: _ => .error (.unknownCommand name)

end Command

end SimpleBinary
