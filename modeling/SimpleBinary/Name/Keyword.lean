import SimpleBinary.Language
import SimpleBinary.Text.Quoted

/-!
# Reserved words

A name that a target language reserves gets a token appended, or is refused where no token is
set. `KeywordPolicy.apply` never gives back a reserved word unless the token itself makes one.
-/

namespace SimpleBinary

namespace Language

def rustKeywords : List String := [
  "as", "async", "await", "break", "const", "continue", "crate", "dyn", "else", "enum",
  "extern", "false", "fn", "for", "if", "impl", "in", "let", "loop", "match", "mod", "move",
  "mut", "pub", "ref", "return", "self", "Self", "static", "struct", "super", "trait", "true",
  "type", "unsafe", "use", "where", "while", "abstract", "become", "box", "do", "final",
  "macro", "override", "priv", "typeof", "unsized", "virtual", "yield", "try"]

def typeScriptKeywords : List String := [
  "break", "case", "catch", "class", "const", "continue", "debugger", "default", "delete",
  "do", "else", "enum", "export", "extends", "false", "finally", "for", "function", "if",
  "import", "in", "instanceof", "new", "null", "return", "super", "switch", "this", "throw",
  "true", "try", "typeof", "var", "void", "while", "with", "as", "implements", "interface",
  "let", "package", "private", "protected", "public", "static", "yield", "any", "boolean",
  "number", "string", "symbol", "type", "await"]

/-- The reserved words, and the names that every generated class defines. -/
def pythonKeywords : List String := [
  "False", "None", "True", "and", "as", "assert", "async", "await", "break", "class",
  "continue", "def", "del", "elif", "else", "except", "finally", "for", "from", "global",
  "if", "import", "in", "is", "lambda", "nonlocal", "not", "or", "pass", "raise", "return",
  "try", "while", "with", "yield", "self", "cls", "encode", "decode", "encode_body",
  "decode_body"]

def keywords : Language → List String
  | .rust => rustKeywords
  | .typeScript => typeScriptKeywords
  | .python => pythonKeywords

end Language

/-- An ASCII letter or an underscore. -/
def isIdentifierStart (c : Char) : Bool :=
  ('a' ≤ c && c ≤ 'z') || ('A' ≤ c && c ≤ 'Z') || c == '_'

/-- A character of an identifier past the first. -/
def isIdentifierRest (c : Char) : Bool := isIdentifierStart c || ('0' ≤ c && c ≤ '9')

def isIdentifier : List Char → Bool
  | [] => false
  | c :: cs => isIdentifierStart c && cs.all isIdentifierRest

/-- Why a name has no identifier. -/
inductive NameError where
  | keywordCollision (name : String) (language : Language)
  | invalidIdentifier (text : String)
deriving DecidableEq, Repr

def NameError.message : NameError → String
  | .keywordCollision name language =>
    s!"\"{name}\" is a reserved word in {language.name}; set a keyword append token to generate it"
  | .invalidIdentifier text => s!"Invalid identifier {quoted text}"

/-- What to do with a reserved word: append a token, or refuse it where there is none. -/
structure KeywordPolicy where
  appendToken : Option String
deriving DecidableEq, Repr

def KeywordPolicy.apply (policy : KeywordPolicy) (language : Language) (name : String) :
    Except NameError String :=
  if language.keywords.contains name then
    match policy.appendToken with
    | none => .error (.keywordCollision name language)
    | some token =>
      if token.toList.all isIdentifierRest then .ok (name ++ token)
      else .error (.invalidIdentifier token)
  else .ok name

end SimpleBinary
