import SimpleBinary.Text.Case.Ignorable
import SimpleBinary.Text.Case.Letters

/-!
# Letter case

Capitals and small letters of characters and texts. A character may take several characters in the
other case, and scripts without case are left as they are. A text is lowered character by
character, but for the capital sigma, whose small letter at the end of a word has a form of its own.
-/

namespace SimpleBinary

def isUpper (c : Char) : Bool := if c.toNat < 0x80 then c.isUpper else Case.isCapital c.toNat

def isLower (c : Char) : Bool := if c.toNat < 0x80 then c.isLower else Case.isSmall c.toNat

/-- Whether a character has case, be it both at once. -/
def isCased (c : Char) : Bool := isUpper c || isLower c || Case.isTitle c.toNat

/-- The small letter of a character. -/
def lowerChars (c : Char) : List Char :=
  if c.toNat < 0x80 then [c.toLower]
  else if c.toNat = Case.pointedI then ['i', Char.ofNat 0x307]
  else [((Case.lower? c.toNat).map Char.ofNat).getD c]

/-- The capital of a character. -/
def upperChars (c : Char) : List Char :=
  if c.toNat < 0x80 then [c.toUpper]
  else
    match Case.expansions.lookup c.toNat with
    | some ns => ns.map Char.ofNat
    | none => [((Case.upper? c.toNat).map Char.ofNat).getD c]

def upperText (cs : List Char) : List Char := cs.flatMap upperChars

namespace Case

/-- Whether a letter with case comes first, past characters that do not end a word. -/
def startsCased (cs : List Char) : Bool :=
  match cs.dropWhile isIgnorable with
  | [] => false
  | c :: _ => isCased c

/-- Lowers a text, `before` being what precedes it, last character first. A capital sigma that
ends a word becomes the final sigma. -/
def lowerFrom (before : List Char) : List Char → List Char
  | [] => []
  | c :: cs =>
    let small := if c = 'Σ' ∧ startsCased before ∧ !startsCased cs then ['ς'] else lowerChars c
    small ++ lowerFrom (c :: before) cs

end Case

def lowerText (cs : List Char) : List Char := Case.lowerFrom [] cs

end SimpleBinary
