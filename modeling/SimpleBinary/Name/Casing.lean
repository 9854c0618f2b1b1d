import SimpleBinary.Text.Case
import SimpleBinary.Text.Lines

/-!
# Casing

The four spellings of a schema's name in generated sources. Type names and camel case take words
from underscores, or, where a name has none, keep the capitals it has unless it has nothing else.
Snake case takes words from capitals: one starts after a character that is no capital, and at the
last capital of a run when a small letter follows. All spellings keep the letters of a name up to
case and change nothing else but underscores.
-/

namespace SimpleBinary

/-- A word with its first character in capitals. -/
def capitalize : List Char → List Char
  | [] => []
  | c :: cs => upperChars c ++ cs

def pascalCase (cs : List Char) : List Char :=
  if cs.contains '_' then
    ((pieces '_' cs).filter (!·.isEmpty)).flatMap fun word => capitalize (lowerText word)
  else if cs = upperText cs then capitalize (lowerText cs)
  else capitalize cs

def camelCase (cs : List Char) : List Char :=
  match pascalCase cs with
  | [] => []
  | c :: rest => lowerChars c ++ rest

/-- Whether a word starts at a capital, given the characters around it. -/
def startsWord (before after : Option Char) : Bool :=
  match before with
  | none => false
  | some p => p != '_' && (!isUpper p || after.any isLower)

/-- Snake case of a text that follows the character `before`. -/
def snakeFrom (before : Option Char) : List Char → List Char
  | [] => []
  | c :: cs =>
    let rest := snakeFrom (some c) cs
    if isUpper c then
      if startsWord before cs.head? then '_' :: lowerChars c ++ rest else lowerChars c ++ rest
    else c :: rest

def snakeCase (cs : List Char) : List Char := snakeFrom none cs

def upperSnakeCase (cs : List Char) : List Char := upperText (snakeCase cs)

end SimpleBinary
