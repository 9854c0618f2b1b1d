import SimpleBinary.Layout.OfTokens

/-!
# Layouts that look where they reach

The readings of a token stream once more, each with the ranges that it takes for granted.  A token
that is fetched by its number has to be there, a slice has to start before it ends and to end within
the stream, a difference must not be negative, and what is laid out inside an element has to lie
strictly within that element's span.  Where one of these fails there is no result at all, not even
an error.
-/

namespace SimpleBinary

/-- What a guarded reading gives: nothing where it would reach out of range. -/
abbrev Guarded := ExceptT SchemaError Option

/-- A span that is not empty, with tokens of the other one before it and behind it. -/
def Span.StrictlyInside (s outer : Span) : Prop :=
  outer.start < s.start ∧ s.start < s.stop ∧ s.stop < outer.stop

instance (s outer : Span) : Decidable (s.StrictlyInside outer) :=
  inferInstanceAs (Decidable (_ ∧ _ ∧ _))

theorem Span.StrictlyInside.length_lt {s outer : Span} (h : s.StrictlyInside outer) :
    s.length < outer.length := by
  unfold Span.StrictlyInside at h
  unfold Span.length
  omega

/-- The spans of a body's elements, one behind the other. -/
def BodySpans.all (s : BodySpans) : List Span := s.fields ++ s.groups ++ s.varData

namespace Guarded

variable {α : Type}

/-- A result that reaches nowhere. -/
def of (x : Except SchemaError α) : Guarded α := ExceptT.mk (some x)

def outOfRange : Guarded α := ExceptT.mk none

/-! ## Accesses -/

def token (tokens : List Token) (i : Nat) : Guarded Token :=
  match tokens[i]? with
  | some t => pure t
  | none => outOfRange

/-- The tokens from `start` up to and without `stop`. -/
def slice (tokens : List Token) (start stop : Nat) : Guarded (List Token) :=
  if start ≤ stop ∧ stop ≤ tokens.length then pure ((tokens.take stop).drop start) else outOfRange

def minus (n k : Nat) : Guarded Nat := if k ≤ n then pure (n - k) else outOfRange

/-- What a step makes of each token of a span and its number. -/
def each (f : Token → Nat → Except SchemaError α) (tokens : List Token) (s : Span) :
    Guarded (List α) :=
  (List.range' s.start (s.stop - s.start)).mapM fun i => do of (f (← token tokens i) i)

/-! ## Spans -/

/-- The end is a sum of naturals here too; counts near 2^64 are left out. -/
def spanAt (tokens : List Token) (index : Nat) : Guarded Span :=
  match tokens[index]? with
  | none => of (.error (.malformed index .endOfStream))
  | some t =>
    let stop := index + t.componentTokenCount
    if t.componentTokenCount = 0 then of (.error (.malformed index (.zeroCount t.name)))
    else if tokens.length < stop then do
      let remaining ← minus tokens.length index
      of (.error (.malformed index (.overlong t.name t.componentTokenCount remaining)))
    else
      match t.signal.closing? with
      | some closing => do
        let last ← token tokens (← minus stop 1)
        if t.componentTokenCount < 2 ∨ last.signal ≠ closing then
          of (.error (.malformed (← minus stop 1) (.unclosed t.name closing)))
        else return ⟨index, stop⟩
      | none => return ⟨index, stop⟩

def spansWhile (p : Token → Bool) (tokens : List Token) (index : Nat) :
    Guarded (List Span × Nat) :=
  match tokens[index]? with
  | none => return ([], index)
  | some t =>
    if p t then do
      let s ← spanAt tokens index
      if _h : index < s.stop ∧ s.stop ≤ tokens.length then
        let (spans, stop) ← spansWhile p tokens s.stop
        return (s :: spans, stop)
      else outOfRange
    else return ([], index)
termination_by tokens.length - index

def collect (signal : Signal) (tokens : List Token) (index : Nat) : Guarded (List Span × Nat) :=
  spansWhile (fun t => t.signal == signal) tokens index

def splitBody (tokens : List Token) (body : Span) : Guarded BodySpans := do
  let bounded ← slice tokens 0 body.stop
  let (fields, i) ← collect (.opens .field) bounded body.start
  let (groups, j) ← collect (.opens .group) bounded i
  let (varData, stop) ← collect (.opens .varData) bounded j
  let spans : BodySpans := ⟨fields, groups, varData⟩
  if stop = body.stop then return spans
  else
    let t ← token tokens stop
    of (.error (.malformed stop (.misplaced t.signal t.name spans.lastRegion)))

def members (tokens : List Token) (body : Span) : Guarded (List Span) := do
  let bounded ← slice tokens 0 body.stop
  return (← spansWhile (fun _ => true) bounded body.start).1

/-! ## Types -/

def enumAt (tokens : List Token) (s : Span) : Guarded EnumLayout := do
  let begin ← token tokens s.start
  match begin.encoding.primitive with
  | none => of (.error (.malformed s.start (.noEnumEncoding begin.name)))
  | some encoding =>
    let values ← each (enumValueOf begin.name) tokens s.inner
    return {
      typeName := begin.typeName
      encoding
      byteOrder := begin.encoding.byteOrder
      values
      nullValue := begin.encoding.nullValue.getD encoding.nullLiteral
      description := begin.description }

def setAt (tokens : List Token) (s : Span) : Guarded SetLayout := do
  let begin ← token tokens s.start
  match begin.encoding.primitive with
  | none => of (.error (.malformed s.start (.noSetEncoding begin.name)))
  | some encoding =>
    let choices ← each (choiceOf begin.name (8 * encoding.size)) tokens s.inner
    return {
      typeName := begin.typeName
      encoding
      byteOrder := begin.encoding.byteOrder
      choices
      description := begin.description }

mutual

def kindAt (tokens : List Token) (s : Span) : Guarded FieldKind := do
  let t ← token tokens s.start
  match t.signal with
  | .encoding => return .primitive (← of (PrimitiveLayout.ofToken t s.start))
  | .opens .composite => return .composite (← compositeAt tokens s)
  | .opens .enumeration => return .enumeration (← enumAt tokens s)
  | .opens .set => return .set (← setAt tokens s)
  | signal => of (.error (.malformed s.start (.notFieldType signal t.name)))
termination_by 2 * s.length + 1

def compositeAt (tokens : List Token) (s : Span) : Guarded CompositeLayout := do
  let t ← token tokens s.start
  let spans ← members tokens s.inner
  if _h : ∀ m ∈ spans, m.StrictlyInside s then
    let kinds ← spans.attach.mapM fun ⟨m, _⟩ => do
      return (← token tokens m.start, ← kindAt tokens m)
    return CompositeLayout.ofMembers t kinds
  else outOfRange
termination_by 2 * s.length
decreasing_by
  have := Span.StrictlyInside.length_lt (_h _ ‹_›)
  omega

end

/-! ## Elements of a body -/

def fieldAt (tokens : List Token) (s : Span) (cursor : Nat) : Guarded FieldLayout := do
  let t ← token tokens s.start
  let bounded ← slice tokens 0 s.stop
  let type ← spanAt bounded (s.start + 1)
  if type.stop ≠ (← minus s.stop 1) then of (.error (.malformed type.stop (.notOneType t.name)))
  else if type.StrictlyInside s then
    let kind ← kindAt tokens type
    return {
      name := t.name
      id := t.id
      sinceVersion := t.version
      offset := max cursor t.offset
      description := t.description
      kind }
  else outOfRange

def fieldsAt (tokens : List Token) : (cursor : Nat) → List Span → Guarded (List FieldLayout)
  | _, [] => return []
  | cursor, s :: ss => do
    let f ← fieldAt tokens s cursor
    return f :: (← fieldsAt tokens f.stop ss)

def dimensionAt (tokens : List Token) (s : Span) : Guarded DimensionLayout := do
  let c ← compositeAt tokens s
  return {
    typeName := c.typeName
    blockLength := ← of (HeaderSlot.ofMember c "blockLength")
    numInGroup := ← of (HeaderSlot.ofMember c "numInGroup")
    encodedLength := c.encodedLength }

def encodingNamed (tokens : List Token) (container : String) (s : Span) (name : String) :
    Guarded (Token × Nat) := do
  let inside ← slice tokens s.start s.stop
  match inside.findIdx? fun t => t.signal == .encoding && t.name == name with
  | some k => return (← token tokens (s.start + k), s.start + k)
  | none => of (.error (.missingMember container name))

def varDataAt (tokens : List Token) (s : Span) : Guarded VarDataLayout := do
  let t ← token tokens s.start
  let bounded ← slice tokens 0 s.stop
  let c ← spanAt bounded (s.start + 1)
  let composite ← token tokens c.start
  if composite.signal ≠ .opens .composite then
    of (.error (.malformed c.start (.noDataEncoding t.name)))
  else if c.StrictlyInside s then
    let (length, lengthIndex) ← encodingNamed tokens composite.name c.inner "length"
    let (data, _) ← encodingNamed tokens composite.name c.inner "varData"
    let p ← of (PrimitiveLayout.ofToken length lengthIndex)
    return {
      name := t.name
      id := t.id
      sinceVersion := t.version
      typeName := composite.typeName
      length := ⟨p.primitive, p.byteOrder, length.offset⟩
      characterEncoding := data.encoding.characterEncoding.or t.encoding.characterEncoding
      description := t.description }
  else outOfRange

mutual

/-- The body of a range of tokens inside the span of the message or group it belongs to. -/
def bodyAt (tokens : List Token) (outer body : Span) (blockLength : Nat) (owner : String) :
    Guarded BodyLayout := do
  let spans ← splitBody tokens body
  if _h : ∀ s ∈ spans.all, s.StrictlyInside outer then
    let fields ← fieldsAt tokens 0 spans.fields
    let groups ← spans.groups.attach.mapM fun ⟨s, _⟩ => groupAt tokens s
    let varData ← spans.varData.mapM (varDataAt tokens)
    of (BodyLayout.ofElements owner blockLength
      (fields.map .field ++ groups.map .group ++ varData.map .varData))
  else outOfRange
termination_by 2 * outer.length
decreasing_by
  have hmem : _ ∈ spans.all := List.mem_append_left _ (List.mem_append_right _ ‹_›)
  have := Span.StrictlyInside.length_lt (_h _ hmem)
  omega

def groupAt (tokens : List Token) (s : Span) : Guarded GroupLayout := do
  let t ← token tokens s.start
  let bounded ← slice tokens 0 s.stop
  let d ← spanAt bounded (s.start + 1)
  let first ← token tokens d.start
  if first.signal ≠ .opens .composite then of (.error (.malformed d.start (.noDimension t.name)))
  else if d.StrictlyInside s then
    let dimension ← dimensionAt tokens d
    let body ← bodyAt tokens s ⟨d.stop, ← minus s.stop 1⟩ t.encodedLength t.name
    return {
      name := t.name
      id := t.id
      sinceVersion := t.version
      dimension
      body
      description := t.description }
  else outOfRange
termination_by 2 * s.length + 1

end

/-! ## Whole streams -/

def wholeSpan (tokens : List Token) (c : Container) : Guarded Span := do
  match tokens with
  | [] => of (.error (.malformed 0 .emptyStream))
  | first :: _ =>
    if first.signal ≠ .opens c then
      of (.error (.malformed 0 (.wrongStart (.opens c) first.signal first.name)))
    else
      let s ← spanAt tokens 0
      if s.stop ≠ tokens.length then of (.error (.malformed s.stop .trailing)) else return s

def messageLayout (tokens : List Token) : Guarded MessageLayout := do
  let s ← wholeSpan tokens .message
  let t ← token tokens 0
  return {
    name := t.name
    id := t.id
    sinceVersion := t.version
    semanticType := t.referencedName
    description := t.description
    body := ← bodyAt tokens s s.inner t.encodedLength t.name }

def compositeLayout (tokens : List Token) : Guarded CompositeLayout := do
  compositeAt tokens (← wholeSpan tokens .composite)

def headerLayout (tokens : List Token) : Guarded HeaderLayout := do
  let composite ← compositeLayout tokens
  return {
    composite
    blockLength := ← of (HeaderSlot.ofMember composite "blockLength")
    templateId := ← of (HeaderSlot.ofMember composite "templateId")
    schemaId := ← of (HeaderSlot.ofMember composite "schemaId")
    version := ← of (HeaderSlot.ofMember composite "version") }

def typeLayout (tokens : List Token) : Guarded (Option TypeLayout) := do
  match tokens with
  | [] => of (.error (.malformed 0 .emptyType))
  | first :: _ =>
    match first.signal with
    | .opens .composite => return some (.composite (← compositeLayout tokens))
    | .opens .enumeration =>
      return some (.enumeration (← enumAt tokens (← wholeSpan tokens .enumeration)))
    | .opens .set => return some (.set (← setAt tokens (← wholeSpan tokens .set)))
    | .encoding => return none
    | signal => of (.error (.malformed 0 (.typeStart signal first.name)))

end Guarded

end SimpleBinary
