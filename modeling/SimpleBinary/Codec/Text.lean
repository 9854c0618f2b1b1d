import SimpleBinary.Codec.Error
import SimpleBinary.Text.Charset

/-!
# Texts of a message

A text is written in its declared character encoding. Without one, or under one that is not
interpreted, its bytes are UTF-8 when written and no text when read.
-/

namespace SimpleBinary

/-- The bytes of a text under a declared encoding. -/
def encodeText (path : String) (encoding : Option String) (s : String) :
    Except CodecError Bytes :=
  match encoding with
  | none => .ok (utf8 s)
  | some name =>
    match Charset.ofName? name with
    | none => .ok (utf8 s)
    | some c =>
      match c.encode? s.toList with
      | some bs => .ok bs
      | none => .error (.invalidText path name)

/-- The text of bytes, or nothing if the encoding is not interpreted. -/
def decodeText (path encoding : String) (bs : Bytes) : Except CodecError (Option String) :=
  match Charset.ofName? encoding with
  | none => .ok none
  | some c =>
    match c.decode? bs with
    | some cs => .ok (some (String.ofList cs))
    | none => .error (.invalidText path encoding)

end SimpleBinary
