import SimpleBinary.Json.Basic
import SimpleBinary.Text.Quoted

/-!
# Writing documents

`Json.compact` writes a document without blanks, `Json.pretty` with one item or member a line,
indented by two spaces a level. Empty arrays and objects stay on one line in both. Members are
written as they stand; `Json.sorted` puts them in the order of their names first.
-/

namespace SimpleBinary

namespace Json

/-- A value that is neither array nor object. -/
def scalarText : Json → String
  | .bool true => "true"
  | .bool false => "false"
  | .int n => toString n
  | .float x => if x.isFinite then x.render .document else "null"
  | .text s => quoted s
  | _ => "null"

mutual

def compact : Json → String
  | .array items => "[" ++ String.intercalate "," (compactItems items) ++ "]"
  | .object members => "\x7b" ++ String.intercalate "," (compactMembers members) ++ "\x7d"
  | j => j.scalarText

def compactItems : List Json → List String
  | [] => []
  | j :: js => j.compact :: compactItems js

def compactMembers : List (String × Json) → List String
  | [] => []
  | (name, j) :: ms => (quoted name ++ ":" ++ j.compact) :: compactMembers ms

end

/-- Parts on lines of their own between two brackets. -/
def block (opening closing : String) (depth : Nat) (parts : List String) : String :=
  if parts.isEmpty then opening ++ closing
  else
    let pad := String.ofList (List.replicate (2 * depth) ' ')
    opening ++ "\n" ++ String.intercalate ",\n" (parts.map fun p => pad ++ "  " ++ p)
      ++ "\n" ++ pad ++ closing

mutual

def prettyAt (depth : Nat) : Json → String
  | .array items => block "[" "]" depth (prettyItems depth items)
  | .object members => block "\x7b" "\x7d" depth (prettyMembers depth members)
  | j => j.scalarText

def prettyItems (depth : Nat) : List Json → List String
  | [] => []
  | j :: js => j.prettyAt (depth + 1) :: prettyItems depth js

def prettyMembers (depth : Nat) : List (String × Json) → List String
  | [] => []
  | (name, j) :: ms => (quoted name ++ ": " ++ j.prettyAt (depth + 1)) :: prettyMembers depth ms

end

def pretty (j : Json) : String := j.prettyAt 0

/-- A member in its place among members ordered by name, unless there is one of its name. -/
def insertMember (m : String × Json) : List (String × Json) → List (String × Json)
  | [] => [m]
  | n :: ms =>
    if m.1 < n.1 then m :: n :: ms else if m.1 = n.1 then n :: ms else n :: insertMember m ms

mutual

/-- A document with its members ordered by name at every depth, of one name the last. -/
def sorted : Json → Json
  | .array items => .array (sortedItems items)
  | .object members => .object (sortedMembers members)
  | j => j

def sortedItems : List Json → List Json
  | [] => []
  | j :: js => j.sorted :: sortedItems js

def sortedMembers : List (String × Json) → List (String × Json)
  | [] => []
  | (name, j) :: ms => insertMember (name, j.sorted) (sortedMembers ms)

end

end Json

end SimpleBinary
