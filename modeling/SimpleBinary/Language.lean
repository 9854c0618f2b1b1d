import SimpleBinary.Text.Charset

/-!
# Target languages

The languages that sources are generated in.
-/

namespace SimpleBinary

inductive Language where
  | rust
  | typeScript
  | python
deriving DecidableEq, Repr

namespace Language

def all : List Language := [.rust, .typeScript, .python]

def name : Language → String
  | .rust => "rust"
  | .typeScript => "typescript"
  | .python => "python"

/-- The short form of a name, which is also the extension of a source file. -/
def abbreviation : Language → String
  | .rust => "rs"
  | .typeScript => "ts"
  | .python => "py"

/-- The language of a name or an abbreviation in any case of ASCII letters; a name that is neither
is given back in small letters. -/
def ofName (text : String) : Except String Language :=
  let small := String.ofList (Charset.fold text)
  match all.find? fun l => l.name == small || l.abbreviation == small with
  | some l => .ok l
  | none => .error small

/-- What is said of a name that `ofName` does not know. -/
def unknownMessage (small : String) : String := s!"unknown target language \"{small}\""

end Language

end SimpleBinary
