/-!
# Signals

The role of a token. A container is opened by one token and closed by another of its kind; the
other tokens are leaves.
-/

namespace SimpleBinary

inductive Container where
  | message
  | composite
  | field
  | group
  | enumeration
  | set
  | varData
deriving DecidableEq, Repr

inductive Signal where
  | opens (c : Container)
  | closes (c : Container)
  | validValue
  | choice
  | encoding
deriving DecidableEq, Repr

namespace Container

def all : List Container := [.message, .composite, .field, .group, .enumeration, .set, .varData]

/-- The container's name in messages. -/
def title : Container → String
  | .message => "Message"
  | .composite => "Composite"
  | .field => "Field"
  | .group => "Group"
  | .enumeration => "Enum"
  | .set => "Set"
  | .varData => "VarData"

/-- The container's name in documents. -/
def code : Container → String
  | .message => "MESSAGE"
  | .composite => "COMPOSITE"
  | .field => "FIELD"
  | .group => "GROUP"
  | .enumeration => "ENUM"
  | .set => "SET"
  | .varData => "VAR_DATA"

end Container

namespace Signal

def all : List Signal :=
  Container.all.map .opens ++ Container.all.map .closes ++ [.validValue, .choice, .encoding]

/-- The signal's name in messages. -/
def title : Signal → String
  | .opens c => "Begin" ++ c.title
  | .closes c => "End" ++ c.title
  | .validValue => "ValidValue"
  | .choice => "Choice"
  | .encoding => "Encoding"

/-- The signal's name in documents. -/
def code : Signal → String
  | .opens c => "BEGIN_" ++ c.code
  | .closes c => "END_" ++ c.code
  | .validValue => "VALID_VALUE"
  | .choice => "CHOICE"
  | .encoding => "ENCODING"

/-- The signal that closes what this one opens. -/
def closing? : Signal → Option Signal
  | .opens c => some (.closes c)
  | _ => none

/-- The signal that opens what this one closes. -/
def opening? : Signal → Option Signal
  | .closes c => some (.opens c)
  | _ => none

end Signal

end SimpleBinary
