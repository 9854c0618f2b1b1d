/-!
# Paths

The name of an element in messages: the names of the elements around it and its own, joined by
points, an item of an array or a group by its number in brackets.
-/

namespace SimpleBinary

/-- The path of an element below another. -/
def childPath (path name : String) : String := path ++ "." ++ name

/-- The path of an item. -/
def itemPath (path : String) (index : Nat) : String := s!"{path}[{index}]"

end SimpleBinary
