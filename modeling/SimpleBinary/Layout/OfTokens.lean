import SimpleBinary.Layout.Basic
import SimpleBinary.Schema.Span

/-!
# Layouts of token streams

A stream is laid out by following its spans. An element starts where the one before it ends or at
the offset its token declares, whichever is later, and a composite is as long as its members need
or as its token declares. Types nest in composites and bodies in groups; the spans met inside a
span lie strictly within it (`mem_members_bounds`, `splitBody_bounds`), so the nesting ends.
-/

namespace SimpleBinary

theorem spansWhile_bounds {p : Token → Bool} {tokens : List Token} {index : Nat} :
    (∀ s ∈ (spansWhile p tokens index).1,
      index ≤ s.start ∧ s.start < s.stop ∧ s.stop ≤ tokens.length)
    ∧ (∀ stop, (spansWhile p tokens index).2 = .ok stop → index ≤ stop) := by
  fun_induction spansWhile p tokens index with
  | case1 index h => simp
  | case2 index t ht hp e h => simp
  | case3 index t ht hp s h rest ih =>
    obtain ⟨h1, h2, h3⟩ := spanAt_bounds h
    refine ⟨fun r hr => ?_, fun stop hs => ?_⟩
    · rcases List.mem_cons.1 hr with rfl | hr
      · omega
      · have := ih.1 r hr
        omega
    · have := ih.2 stop hs
      omega
  | case4 index t ht hp => simp

theorem mem_members_bounds {tokens : List Token} {body : Span} {spans : List Span}
    (h : members tokens body = .ok spans) {s : Span} (hs : s ∈ spans) :
    body.start ≤ s.start ∧ s.start < s.stop ∧ s.stop ≤ body.stop := by
  unfold members at h
  cases hr : (spansWhile (fun _ => true) (tokens.take body.stop) body.start).2 with
  | error e => simp [hr, Except.map] at h
  | ok stop =>
    simp only [hr, Except.map, Except.ok.injEq] at h
    subst h
    have := spansWhile_bounds.1 s hs
    simp only [List.length_take] at this
    omega

theorem splitBody_bounds {tokens : List Token} {body : Span} {spans : BodySpans}
    (h : splitBody tokens body = .ok spans) {s : Span} (hs : s ∈ spans.groups) :
    body.start ≤ s.start ∧ s.start < s.stop ∧ s.stop ≤ body.stop := by
  unfold splitBody at h
  simp only [bind, Except.bind] at h
  cases hf : (collect (.opens .field) (tokens.take body.stop) body.start).2 with
  | error e => simp [hf] at h
  | ok i =>
    simp only [hf] at h
    cases hg : (collect (.opens .group) (tokens.take body.stop) i).2 with
    | error e => simp [hg] at h
    | ok j =>
      simp only [hg] at h
      cases hd : (collect (.opens .varData) (tokens.take body.stop) j).2 with
      | error e => simp [hd] at h
      | ok k =>
        simp only [hd] at h
        split at h
        · simp only [pure, Except.pure, Except.ok.injEq] at h
          subst h
          have h1 := spansWhile_bounds.2 i hf
          have h2 := spansWhile_bounds.1 s hs
          simp only [List.length_take] at h2
          omega
        · split at h <;> simp [throw, throwThe, MonadExceptOf.throw] at h

/-- The token of a number, or the error that there is none. -/
def tokenAt (tokens : List Token) (index : Nat) : Except SchemaError Token :=
  match tokens[index]? with
  | some t => .ok t
  | none => .error (.malformed index .endOfStream)

/-- The layout of an encoding token. -/
def PrimitiveLayout.ofToken (t : Token) (index : Nat) : Except SchemaError PrimitiveLayout :=
  match t.encoding.primitive with
  | none => .error (.malformed index (.noPrimitive t.name))
  | some primitive =>
    if t.isConstant && t.encoding.constValue.isNone then
      .error (.malformed index (.noConstant t.name))
    else
      .ok {
        primitive
        byteOrder := t.encoding.byteOrder
        arrayLength := max t.arrayLength 1
        presence := t.encoding.presence
        constValue := t.encoding.constValue
        nullValue := t.encoding.nullValue.getD primitive.nullLiteral
        characterEncoding := t.encoding.characterEncoding }

/-- The tokens of a span, each with its number. -/
def numbered (tokens : List Token) (s : Span) : List (Token × Nat) :=
  ((tokens.take s.stop).drop s.start).zipIdx s.start

/-- The value of a token inside an enum. -/
def enumValueOf (enumName : String) (t : Token) (index : Nat) : Except SchemaError EnumValue :=
  if t.signal ≠ .validValue then .error (.malformed index (.insideEnum t.signal enumName))
  else
    match t.encoding.constValue with
    | none => .error (.malformed index (.noEnumValue t.name))
    | some value => .ok ⟨t.name, value⟩

/-- The enum of a span. -/
def enumAt (tokens : List Token) (s : Span) : Except SchemaError EnumLayout := do
  let begin ← tokenAt tokens s.start
  match begin.encoding.primitive with
  | none => throw (.malformed s.start (.noEnumEncoding begin.name))
  | some encoding =>
    let values ← (numbered tokens s.inner).mapM fun (t, i) => enumValueOf begin.name t i
    return {
      typeName := begin.typeName
      encoding
      byteOrder := begin.encoding.byteOrder
      values
      nullValue := begin.encoding.nullValue.getD encoding.nullLiteral
      description := begin.description }

/-- The choice of a token inside a set whose encoding has `bits` bits. -/
def choiceOf (setName : String) (bits : Nat) (t : Token) (index : Nat) :
    Except SchemaError Choice :=
  if t.signal ≠ .choice then .error (.malformed index (.insideSet t.signal setName))
  else
    match t.encoding.constValue.bind Literal.toNat? with
    | some bit =>
      if bit < bits then .ok ⟨t.name, bit⟩ else .error (.malformed index (.choiceBit t.name bits))
    | none => .error (.malformed index (.choiceBit t.name bits))

/-- The set of a span. -/
def setAt (tokens : List Token) (s : Span) : Except SchemaError SetLayout := do
  let begin ← tokenAt tokens s.start
  match begin.encoding.primitive with
  | none => throw (.malformed s.start (.noSetEncoding begin.name))
  | some encoding =>
    let choices ← (numbered tokens s.inner).mapM fun (t, i) =>
      choiceOf begin.name (8 * encoding.size) t i
    return {
      typeName := begin.typeName
      encoding
      byteOrder := begin.encoding.byteOrder
      choices
      description := begin.description }

/-- Places elements one behind the other from `cursor` on, none before its declared offset. -/
def placeMembers : (cursor : Nat) → List (Token × FieldKind) → List FieldLayout
  | _, [] => []
  | cursor, (t, kind) :: rest =>
    let field : FieldLayout := {
      name := t.name
      id := t.id
      sinceVersion := t.version
      offset := max cursor t.offset
      description := t.description
      kind }
    field :: placeMembers field.stop rest

/-- The composite of a token and its members. -/
def CompositeLayout.ofMembers (t : Token) (members : List (Token × FieldKind)) :
    CompositeLayout :=
  let fields := placeMembers 0 members
  { typeName := t.typeName
    encodedLength := max ((fields.getLast?.map (·.stop)).getD 0) t.encodedLength
    members := fields
    description := t.description }

mutual

/-- The type that a span stands for. -/
def kindAt (tokens : List Token) (s : Span) : Except SchemaError FieldKind := do
  let t ← tokenAt tokens s.start
  match t.signal with
  | .encoding => return .primitive (← PrimitiveLayout.ofToken t s.start)
  | .opens .composite => return .composite (← compositeAt tokens s)
  | .opens .enumeration => return .enumeration (← enumAt tokens s)
  | .opens .set => return .set (← setAt tokens s)
  | signal => throw (.malformed s.start (.notFieldType signal t.name))
termination_by 2 * s.length + 1

/-- The composite of a span. -/
def compositeAt (tokens : List Token) (s : Span) : Except SchemaError CompositeLayout := do
  let t ← tokenAt tokens s.start
  match _h : members tokens s.inner with
  | .error e => throw e
  | .ok spans =>
    let kinds ← spans.attach.mapM fun ⟨m, _⟩ => do
      return (← tokenAt tokens m.start, ← kindAt tokens m)
    return CompositeLayout.ofMembers t kinds
termination_by 2 * s.length
decreasing_by
  have := mem_members_bounds _h ‹_›
  simp only [Span.inner, Span.length] at *
  omega

end

/-- The field of a span, not before `cursor`. -/
def fieldAt (tokens : List Token) (s : Span) (cursor : Nat) : Except SchemaError FieldLayout := do
  let t ← tokenAt tokens s.start
  let type ← spanAt (tokens.take s.stop) (s.start + 1)
  if type.stop ≠ s.stop - 1 then throw (.malformed type.stop (.notOneType t.name))
  let kind ← kindAt tokens type
  return {
    name := t.name
    id := t.id
    sinceVersion := t.version
    offset := max cursor t.offset
    description := t.description
    kind }

/-- The fields of spans, one behind the other from `cursor` on. -/
def fieldsAt (tokens : List Token) : (cursor : Nat) → List Span →
    Except SchemaError (List FieldLayout)
  | _, [] => .ok []
  | cursor, s :: ss => do
    let f ← fieldAt tokens s cursor
    return f :: (← fieldsAt tokens f.stop ss)

/-- The header of a group from the composite at the start of its span. -/
def dimensionAt (tokens : List Token) (s : Span) : Except SchemaError DimensionLayout := do
  let c ← compositeAt tokens s
  return {
    typeName := c.typeName
    blockLength := ← HeaderSlot.ofMember c "blockLength"
    numInGroup := ← HeaderSlot.ofMember c "numInGroup"
    encodedLength := c.encodedLength }

/-- The first encoding token of a name in a composite's span, and its number. -/
def encodingNamed (tokens : List Token) (container : String) (s : Span) (name : String) :
    Except SchemaError (Token × Nat) :=
  match (numbered tokens s).find? fun (t, _) => t.signal == .encoding && t.name == name with
  | some r => .ok r
  | none => .error (.missingMember container name)

/-- The var-data of a span. -/
def varDataAt (tokens : List Token) (s : Span) : Except SchemaError VarDataLayout := do
  let t ← tokenAt tokens s.start
  let c ← spanAt (tokens.take s.stop) (s.start + 1)
  let composite ← tokenAt tokens c.start
  if composite.signal ≠ .opens .composite then throw (.malformed c.start (.noDataEncoding t.name))
  let (length, lengthIndex) ← encodingNamed tokens composite.name c.inner "length"
  let (data, _) ← encodingNamed tokens composite.name c.inner "varData"
  let p ← PrimitiveLayout.ofToken length lengthIndex
  return {
    name := t.name
    id := t.id
    sinceVersion := t.version
    typeName := composite.typeName
    length := ⟨p.primitive, p.byteOrder, length.offset⟩
    characterEncoding := data.encoding.characterEncoding.or t.encoding.characterEncoding
    description := t.description }

mutual

/-- The body of a range of tokens. -/
def bodyAt (tokens : List Token) (body : Span) (blockLength : Nat) (owner : String) :
    Except SchemaError BodyLayout :=
  match _h : splitBody tokens body with
  | .error e => .error e
  | .ok spans => do
    let fields ← fieldsAt tokens 0 spans.fields
    let groups ← spans.groups.attach.mapM fun ⟨s, _⟩ => groupAt tokens s
    let varData ← spans.varData.mapM (varDataAt tokens)
    BodyLayout.ofElements owner blockLength
      (fields.map .field ++ groups.map .group ++ varData.map .varData)
termination_by 2 * body.length + 1
decreasing_by
  have := splitBody_bounds _h ‹_›
  simp only [Span.length]
  omega

/-- The group of a span. -/
def groupAt (tokens : List Token) (s : Span) : Except SchemaError GroupLayout := do
  let t ← tokenAt tokens s.start
  match _h : spanAt (tokens.take s.stop) (s.start + 1) with
  | .error e => throw e
  | .ok d =>
    let first ← tokenAt tokens d.start
    if first.signal ≠ .opens .composite then throw (.malformed d.start (.noDimension t.name))
    let dimension ← dimensionAt tokens d
    let body ← bodyAt tokens ⟨d.stop, s.stop - 1⟩ t.encodedLength t.name
    return {
      name := t.name
      id := t.id
      sinceVersion := t.version
      dimension
      body
      description := t.description }
termination_by 2 * s.length
decreasing_by
  have := spanAt_bounds _h
  simp only [Span.length, List.length_take] at *
  omega

end

/-- The span of a stream that is one container of a kind. -/
def wholeSpan (tokens : List Token) (c : Container) : Except SchemaError Span := do
  match tokens with
  | [] => throw (.malformed 0 .emptyStream)
  | first :: _ =>
    if first.signal ≠ .opens c then
      throw (.malformed 0 (.wrongStart (.opens c) first.signal first.name))
    let s ← spanAt tokens 0
    if s.stop ≠ tokens.length then throw (.malformed s.stop .trailing)
    return s

/-- The layout of a message's stream. -/
def MessageLayout.ofTokens (tokens : List Token) : Except SchemaError MessageLayout := do
  let s ← wholeSpan tokens .message
  let t ← tokenAt tokens 0
  return {
    name := t.name
    id := t.id
    sinceVersion := t.version
    semanticType := t.referencedName
    description := t.description
    body := ← bodyAt tokens s.inner t.encodedLength t.name }

/-- The layout of a composite's stream. -/
def CompositeLayout.ofTokens (tokens : List Token) : Except SchemaError CompositeLayout := do
  compositeAt tokens (← wholeSpan tokens .composite)

/-- The layout of a message header's stream. -/
def HeaderLayout.ofTokens (tokens : List Token) : Except SchemaError HeaderLayout := do
  let composite ← CompositeLayout.ofTokens tokens
  return {
    composite
    blockLength := ← HeaderSlot.ofMember composite "blockLength"
    templateId := ← HeaderSlot.ofMember composite "templateId"
    schemaId := ← HeaderSlot.ofMember composite "schemaId"
    version := ← HeaderSlot.ofMember composite "version" }

/-- The layout of a type's stream; an encoding on its own has none. -/
def TypeLayout.ofTokens (tokens : List Token) : Except SchemaError (Option TypeLayout) := do
  match tokens with
  | [] => throw (.malformed 0 .emptyType)
  | first :: _ =>
    match first.signal with
    | .opens .composite => return some (.composite (← CompositeLayout.ofTokens tokens))
    | .opens .enumeration =>
      return some (.enumeration (← enumAt tokens (← wholeSpan tokens .enumeration)))
    | .opens .set => return some (.set (← setAt tokens (← wholeSpan tokens .set)))
    | .encoding => return none
    | signal => throw (.malformed 0 (.typeStart signal first.name))

end SimpleBinary
