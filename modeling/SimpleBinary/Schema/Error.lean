import SimpleBinary.Token.Signal
import SimpleBinary.Text.Quoted

/-!
# What is wrong with a schema

`StreamFault` names what is wrong at one token of a stream, `SchemaError` what keeps a schema from
being laid out. `SchemaError.message` words them.
-/

namespace SimpleBinary

/-- The three regions of a body. -/
inductive BodyRegion where
  | field
  | group
  | varData
deriving DecidableEq, Repr

def BodyRegion.title : BodyRegion → String
  | .field => "field"
  | .group => "group"
  | .varData => "var-data"

inductive StreamFault where
  | endOfStream
  | zeroCount (name : String)
  | overlong (name : String) (count remaining : Nat)
  | unclosed (name : String) (expected : Signal)
  | misplaced (signal : Signal) (name : String) (after : BodyRegion)
  | unmatched (signal : Signal)
  | crossed (closing opening : Signal) (name : String)
  | miscounted (name : String) (declared actual : Nat)
  | leafCount (name : String) (count : Nat)
  | neverClosed (name : String)
  | messageStart (signal : Signal) (name : String)
  | emptyMessage
  | emptyStream
  | emptyType
  | wrongStart (expected found : Signal) (name : String)
  | trailing
  | typeStart (signal : Signal) (name : String)
  | notOneType (field : String)
  | notFieldType (signal : Signal) (name : String)
  | noPrimitive (name : String)
  | noConstant (name : String)
  | noEnumEncoding (name : String)
  | insideEnum (signal : Signal) (name : String)
  | noEnumValue (name : String)
  | noSetEncoding (name : String)
  | insideSet (signal : Signal) (name : String)
  | choiceBit (name : String) (bits : Nat)
  | noDimension (group : String)
  | noDataEncoding (data : String)
  | outOfOrder (name owner previous : String)
deriving DecidableEq, Repr

inductive SchemaError where
  | malformed (index : Nat) (fault : StreamFault)
  | unknownPrimitive (name : String)
  | unresolvedType (typeName referencedBy : String)
  | missingMember (container member : String)
  | blockLengthTooSmall (name : String) (declared required : Nat)
  | unknownMessage (name : String)
  | unknownTemplate (id : Nat)
deriving DecidableEq, Repr

/-- A name between quotation marks, as it is. -/
def inQuotes (s : String) : String := "\"" ++ s ++ "\""

/-- A signal and the name of its token. -/
def Signal.labelled (s : Signal) (name : String) : String := s!"{s.title} {inQuotes name}"

def StreamFault.message : StreamFault → String
  | .endOfStream => "expected a token, found end of stream"
  | .zeroCount name => s!"{inQuotes name} has a component token count of 0"
  | .overlong name count remaining =>
    s!"{inQuotes name} spans {count} tokens but only {remaining} remain"
  | .unclosed name expected => s!"{inQuotes name} is not closed by {expected.title}"
  | .misplaced signal name after =>
    s!"unexpected {signal.labelled name} after the {after.title} region"
  | .unmatched signal => s!"unmatched {signal.title}"
  | .crossed closing opening name => s!"{closing.title} closes {opening.labelled name}"
  | .miscounted name declared actual =>
    s!"{inQuotes name} declares {declared} component tokens but spans {actual}"
  | .leafCount name count => s!"leaf {inQuotes name} has a component token count of {count}"
  | .neverClosed name => s!"{inQuotes name} is never closed"
  | .messageStart signal name => s!"message stream starts with {signal.labelled name}"
  | .emptyMessage => "empty message stream"
  | .emptyStream => "empty token stream"
  | .emptyType => "empty type token stream"
  | .wrongStart expected found name => s!"expected {expected.title}, found {found.labelled name}"
  | .trailing => "trailing tokens after the closing marker"
  | .typeStart signal name => s!"{signal.labelled name} does not start a type"
  | .notOneType field => s!"field {inQuotes field} must hold exactly one type"
  | .notFieldType signal name => s!"{signal.labelled name} is not a field type"
  | .noPrimitive name => s!"encoding {inQuotes name} has no primitive type"
  | .noConstant name => s!"constant {inQuotes name} has no value"
  | .noEnumEncoding name => s!"enum {inQuotes name} has no encoding type"
  | .insideEnum signal name => s!"{signal.title} inside enum {inQuotes name}"
  | .noEnumValue name => s!"valid value {inQuotes name} has no value"
  | .noSetEncoding name => s!"set {inQuotes name} has no encoding type"
  | .insideSet signal name => s!"{signal.title} inside set {inQuotes name}"
  | .choiceBit name bits => s!"choice {inQuotes name} needs a bit index below {bits}"
  | .noDimension group => s!"group {inQuotes group} has no dimension composite"
  | .noDataEncoding data => s!"var-data {inQuotes data} has no encoding composite"
  | .outOfOrder name owner previous =>
    s!"{inQuotes name} in {inQuotes owner} is out of order after {inQuotes previous}"

def SchemaError.message : SchemaError → String
  | .malformed index fault => s!"Malformed token stream at token {index}: {fault.message}"
  | .unknownPrimitive name => s!"Unknown primitive type {inQuotes name}"
  | .unresolvedType typeName referencedBy =>
    s!"Type {inQuotes typeName} referenced by {inQuotes referencedBy} is not defined"
  | .missingMember container member => s!"{inQuotes container} has no {inQuotes member} member"
  | .blockLengthTooSmall name declared required =>
    s!"Block length {declared} of {inQuotes name} is smaller than its fields ({required} bytes)"
  | .unknownMessage name => s!"No message named {inQuotes name}"
  | .unknownTemplate id => s!"No message with template id {id}"

end SimpleBinary
