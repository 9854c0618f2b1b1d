import SimpleBinary.Schema.Basic
import SimpleBinary.Schema.Error

/-!
# Balanced streams

A stream is balanced when every container is closed by its own kind, its first token counting the
tokens up to that one, and every leaf counts one. `checkBalanced` walks the stream once with the
open containers on a stack. `Schema.verify` asks it of every stream, and of each message that it
starts as a message.
-/

namespace SimpleBinary

/-- Walks the tokens from number `index` on; the open containers are those before, innermost
first. -/
def checkBalancedFrom : (opened : List (Nat × Token)) → (index : Nat) → List Token →
    Except SchemaError Unit
  | [], _, [] => .ok ()
  | (start, t) :: _, _, [] => .error (.malformed start (.neverClosed t.name))
  | opened, index, t :: ts =>
    match t.signal with
    | .opens _ => checkBalancedFrom ((index, t) :: opened) (index + 1) ts
    | .closes c =>
      match opened with
      | [] => .error (.malformed index (.unmatched t.signal))
      | (start, opener) :: opened =>
        if opener.signal ≠ .opens c then
          .error (.malformed index (.crossed t.signal opener.signal opener.name))
        else if opener.componentTokenCount ≠ index - start + 1 then
          .error (.malformed start
            (.miscounted opener.name opener.componentTokenCount (index - start + 1)))
        else checkBalancedFrom opened (index + 1) ts
    | _ =>
      if t.componentTokenCount ≠ 1 then
        .error (.malformed index (.leafCount t.name t.componentTokenCount))
      else checkBalancedFrom opened (index + 1) ts

def checkBalanced (tokens : List Token) : Except SchemaError Unit :=
  checkBalancedFrom [] 0 tokens

/-- Checks that a balanced stream is one of a message. -/
def checkMessage (tokens : List Token) : Except SchemaError Unit := do
  checkBalanced tokens
  match tokens with
  | [] => throw (.malformed 0 .emptyMessage)
  | t :: _ =>
    if t.signal ≠ .opens .message then throw (.malformed 0 (.messageStart t.signal t.name))

/-- Checks the streams of the header, of the types and of the messages, in that order. -/
def Schema.verify (s : Schema) : Except SchemaError Unit := do
  checkBalanced s.header
  s.types.forM checkBalanced
  s.messages.forM checkMessage

end SimpleBinary
