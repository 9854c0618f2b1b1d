/-!
# Pieces of a text

`pieces` cuts a text at every separator, so that a text with `n` separators has `n + 1` pieces.
`textLines` gives the lines of a text: a line ends with a line feed, which may follow a carriage
return, and the last one need not end.
-/

namespace SimpleBinary

/-- The pieces between separators. -/
def pieces (separator : Char) : List Char → List (List Char)
  | [] => [[]]
  | c :: cs =>
    if c = separator then [] :: pieces separator cs
    else
      match pieces separator cs with
      | [] => [[c]]
      | p :: ps => (c :: p) :: ps

/-- A line without the carriage return that its end began with. -/
def dropReturn (line : List Char) : List Char :=
  if line.getLast? = some '\r' then line.dropLast else line

/-- The lines of a text. -/
def textLines (s : String) : List String :=
  let ps := pieces '\n' s.toList
  let ended := ps.dropLast.map fun p => String.ofList (dropReturn p)
  match ps.getLast? with
  | some (c :: cs) => ended ++ [String.ofList (c :: cs)]
  | _ => ended

/-- Lines in one text, a line feed between neighbours. -/
def joinLines (lines : List String) : String := String.intercalate "\n" lines

end SimpleBinary
