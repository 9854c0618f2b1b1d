import SimpleBinary.Text.Lines

/-!
# Source files

A generated file is a name and a text. Texts are put together as lines; an indented line that is
empty stays empty.
-/

namespace SimpleBinary

abbrev Lines := List String

namespace Lines

/-- Lines behind `width` blanks. -/
def indent (width : Nat) (lines : Lines) : Lines :=
  lines.map fun l => if l.isEmpty then l else String.ofList (List.replicate width ' ') ++ l

/-- Lines of which the first one follows `before` and the last one precedes `after`. -/
def enclose (before after : String) : Lines → Lines
  | [] => []
  | [l] => [before ++ l ++ after]
  | l :: ls => (before ++ l) :: enclose "" after ls

/-- Lines between braces, the opening one behind `head` and the closing one before `tail`. -/
def braced (width : Nat) (head : String) (body : Lines) (tail : String) : Lines :=
  (head ++ " \x7b") :: indent width body ++ ["\x7d" ++ tail]

end Lines

/-- A line, if there is a text for it. -/
def lineIf (text : Option String) (line : String → String) : Lines := (text.map line).toList

structure SourceFile where
  name : String
  contents : String
deriving DecidableEq, Repr

/-- The name up to its last point: what other files import it by. -/
def SourceFile.stem (f : SourceFile) : String :=
  let cs := f.name.toList
  if cs.contains '.' then
    String.ofList ((cs.reverse.dropWhile (· != '.')).drop 1).reverse
  else f.name

/-- A place in a buffer: a variable and a distance from it, or the distance alone. -/
def placeText (base : String) (offset : Nat) : String :=
  if base.isEmpty then toString offset
  else if offset = 0 then base
  else s!"{base} + {offset}"

end SimpleBinary
