import SimpleBinary.Schema.Error

/-!
# What is wrong with a message

`CodecError` names what keeps a value from being encoded or bytes from being decoded, with the path
of the element. `Expected` names the shape that a value should have had.
-/

namespace SimpleBinary

inductive Expected where
  | object
  | string
  | array
  | elements (count : Nat)
  | number
  | enumValue (typeName : String)
  | enumName (typeName : String)
  | set (typeName : String)
  | choices (typeName : String)
  | choiceName
  | groupElements
  | textOrBytes
  | textOrByteArray
  | length
  | numberOf (primitive : String)
  | byte
deriving DecidableEq, Repr

def Expected.message : Expected → String
  | .object => "an object"
  | .string => "a string"
  | .array => "an array"
  | .elements count => s!"{count} elements"
  | .number => "a number"
  | .enumValue typeName => s!"a {typeName} value"
  | .enumName typeName => s!"a {typeName} name"
  | .set typeName => s!"a {typeName} set"
  | .choices typeName => s!"an array of {typeName} choices"
  | .choiceName => "a choice name"
  | .groupElements => "an array of group elements"
  | .textOrBytes => "a string or bytes"
  | .textOrByteArray => "a string or an array of bytes"
  | .length => "a non-negative length"
  | .numberOf primitive => s!"a {primitive} number"
  | .byte => "a byte"

inductive CodecError where
  | schema (e : SchemaError)
  | outOfBounds (path : String) (offset needed length : Nat)
  | groupOverrun (path : String) (offset count blockLength elementLength remaining : Nat)
  | unknownEnumValue (path enumName raw : String)
  | unknownChoice (path setName choice : String)
  | missingValue (path : String)
  | typeMismatch (path : String) (expected : Expected)
  | outOfRange (path value type : String)
  | templateMismatch (message : String) (expected : Int) (found : Nat)
  | invalidText (path encoding : String)
deriving DecidableEq, Repr

def CodecError.message : CodecError → String
  | .schema e => e.message
  | .outOfBounds path offset needed length =>
    s!"Reading {needed} bytes at offset {offset} for {inQuotes path} overruns a buffer of "
      ++ s!"{length} bytes"
  | .groupOverrun path offset count _ elementLength remaining =>
    s!"Group {inQuotes path} at offset {offset} declares {count} elements of at least "
      ++ s!"{elementLength} bytes but only {remaining} bytes remain"
  | .unknownEnumValue path enumName raw =>
    s!"Unknown value {raw} for enum {inQuotes enumName} at {inQuotes path}"
  | .unknownChoice path setName choice =>
    s!"Unknown choice {inQuotes choice} for set {inQuotes setName} at {inQuotes path}"
  | .missingValue path => s!"Missing value for {inQuotes path}"
  | .typeMismatch path expected =>
    s!"Value for {inQuotes path} has the wrong shape, expected {expected.message}"
  | .outOfRange path value type => s!"Value {value} for {inQuotes path} does not fit in {type}"
  | .templateMismatch message expected found =>
    s!"Template id {found} in header does not match message {inQuotes message} ({expected})"
  | .invalidText path encoding => s!"Invalid {encoding} text at {inQuotes path}"

end SimpleBinary
