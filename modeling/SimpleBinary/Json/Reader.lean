import SimpleBinary.Json.Number

/-!
# Reading documents

`Json.parse?` reads a whole text as one value between blanks. A value is read from the front of a
text and leaves the rest; every value takes at least one character, so twice the length of the text
bounds the depth of the reader's calls.
-/

namespace SimpleBinary

namespace Json.Reader

def isBlank (c : Char) : Bool := c == ' ' || c == '\n' || c == '\t' || c == '\r'

def skipBlanks (cs : List Char) : List Char := cs.dropWhile isBlank

/-- The value of a hexadecimal digit. -/
def hexValue? (c : Char) : Option Nat :=
  if '0' ≤ c ∧ c ≤ '9' then some (c.toNat - '0'.toNat)
  else if 'a' ≤ c ∧ c ≤ 'f' then some (c.toNat - 'a'.toNat + 10)
  else if 'A' ≤ c ∧ c ≤ 'F' then some (c.toNat - 'A'.toNat + 10)
  else none

/-- Four hexadecimal digits. -/
def hex4? : List Char → Option (Nat × List Char)
  | a :: b :: c :: d :: rest => do
    let a ← hexValue? a
    let b ← hexValue? b
    let c ← hexValue? c
    let d ← hexValue? d
    return (((a * 16 + b) * 16 + c) * 16 + d, rest)
  | _ => none

/-- The character a short escape stands for. -/
def shortEscape? (c : Char) : Option Char :=
  match c with
  | '"' => some '"'
  | '\\' => some '\\'
  | '/' => some '/'
  | 'b' => some '\x08'
  | 'f' => some '\x0c'
  | 'n' => some '\n'
  | 'r' => some '\r'
  | 't' => some '\t'
  | _ => none

def isLeadSurrogate (n : Nat) : Bool := 0xD800 ≤ n && n < 0xDC00

def isTrailSurrogate (n : Nat) : Bool := 0xDC00 ≤ n && n < 0xE000

/-- Reads a text after its opening quote, the characters so far in reverse. `readable` is lost by
an escape that is half a surrogate pair. -/
def readText (readable : Bool) (acc : List Char) :
    (fuel : Nat) → List Char → Option (Option String × List Char)
  | 0, _ => none
  | _ + 1, [] => none
  | _ + 1, '"' :: cs => some (if readable then some (String.ofList acc.reverse) else none, cs)
  | fuel + 1, '\\' :: 'u' :: cs =>
    match hex4? cs with
    | none => none
    | some (n, cs) =>
      if isLeadSurrogate n then
        match cs with
        | '\\' :: 'u' :: ds =>
          match hex4? ds with
          | none => none
          | some (m, ds) =>
            if isTrailSurrogate m then
              let c := Char.ofNat (0x10000 + (n - 0xD800) * 1024 + (m - 0xDC00))
              readText readable (c :: acc) fuel ds
            else readText false acc fuel cs
        | cs => readText false acc fuel cs
      else if isTrailSurrogate n then readText false acc fuel cs
      else readText readable (Char.ofNat n :: acc) fuel cs
  | fuel + 1, '\\' :: c :: cs =>
    match shortEscape? c with
    | none => none
    | some c => readText readable (c :: acc) fuel cs
  | fuel + 1, c :: cs =>
    if c = '\\' ∨ c.toNat < 0x20 then none else readText readable (c :: acc) fuel cs

/-- An object from its members in reverse, unreadable if one of their names is. -/
def objectOf (members : List (Option String × Json)) : Json :=
  match members.reverse.mapM fun (name, value) => name.map (·, value) with
  | some members => .object members
  | none => .unreadable

mutual

/-- A value at the start of a text, and the rest. -/
def readValue : (fuel : Nat) → List Char → Option (Json × List Char)
  | 0, _ => none
  | fuel + 1, cs =>
    match skipBlanks cs with
    | 'n' :: 'u' :: 'l' :: 'l' :: cs => some (.null, cs)
    | 't' :: 'r' :: 'u' :: 'e' :: cs => some (.bool true, cs)
    | 'f' :: 'a' :: 'l' :: 's' :: 'e' :: cs => some (.bool false, cs)
    | '"' :: cs =>
      (readText true [] (cs.length + 1) cs).map fun (s, rest) =>
        (match s with | some s => .text s | none => .unreadable, rest)
    | '[' :: cs =>
      match skipBlanks cs with
      | ']' :: cs => some (.array [], cs)
      | cs => readItems [] fuel cs
    | '{' :: cs =>
      match skipBlanks cs with
      | '}' :: cs => some (.object [], cs)
      | cs => readMembers [] fuel cs
    | cs => Number.read? cs

/-- The items of an array up to its end, those so far in reverse. -/
def readItems (acc : List Json) : (fuel : Nat) → List Char → Option (Json × List Char)
  | 0, _ => none
  | fuel + 1, cs =>
    match readValue fuel cs with
    | none => none
    | some (item, cs) =>
      match skipBlanks cs with
      | ',' :: cs => readItems (item :: acc) fuel cs
      | ']' :: cs => some (.array (item :: acc).reverse, cs)
      | _ => none

/-- The members of an object up to its end, those so far in reverse. -/
def readMembers (acc : List (Option String × Json)) :
    (fuel : Nat) → List Char → Option (Json × List Char)
  | 0, _ => none
  | fuel + 1, cs =>
    match skipBlanks cs with
    | '"' :: cs =>
      match readText true [] (cs.length + 1) cs with
      | none => none
      | some (name, cs) =>
        match skipBlanks cs with
        | ':' :: cs =>
          match readValue fuel cs with
          | none => none
          | some (value, cs) =>
            match skipBlanks cs with
            | ',' :: cs => readMembers ((name, value) :: acc) fuel cs
            | '}' :: cs => some (objectOf ((name, value) :: acc), cs)
            | _ => none
        | _ => none
    | _ => none

end

end Json.Reader

/-- The value of a text, with nothing but blanks around it. -/
def Json.parse? (s : String) : Option Json :=
  let cs := s.toList
  match Json.Reader.readValue (2 * cs.length + 2) cs with
  | some (value, rest) => if rest.all Json.Reader.isBlank then some value else none
  | none => none

end SimpleBinary
