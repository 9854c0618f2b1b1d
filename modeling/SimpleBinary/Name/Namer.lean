import SimpleBinary.Name.Casing
import SimpleBinary.Name.Keyword

/-!
# Identifiers of generated sources

A `Namer` turns a schema's name into identifiers of one language: it has to be an identifier
already, is cased for what it names, and is then kept clear of reserved words.
-/

namespace SimpleBinary

structure Namer where
  language : Language
  policy : KeywordPolicy
deriving DecidableEq, Repr

namespace Namer

/-- An identifier in the spelling that `casing` gives it. -/
def spell (n : Namer) (casing : List Char → List Char) (raw : String) : Except NameError String :=
  if isIdentifier raw.toList then n.policy.apply n.language (String.ofList (casing raw.toList))
  else .error (.invalidIdentifier raw)

/-- The name of a type. -/
def type (n : Namer) : String → Except NameError String := n.spell pascalCase

/-- The name of a member. -/
def member (n : Namer) : String → Except NameError String :=
  match n.language with
  | .rust | .python => n.spell snakeCase
  | .typeScript => n.spell camelCase

/-- The name of a constant. -/
def constant (n : Namer) : String → Except NameError String := n.spell upperSnakeCase

/-- The name of a value of an enum, which keeps its own spelling in most languages. -/
def variant (n : Namer) : String → Except NameError String :=
  match n.language with
  | .rust => n.type
  | .typeScript | .python => n.spell fun cs => cs

/-- The name of a file, without its extension. -/
def moduleName (n : Namer) : String → Except NameError String :=
  match n.language with
  | .typeScript => n.type
  | .rust | .python => n.member

end Namer

end SimpleBinary
