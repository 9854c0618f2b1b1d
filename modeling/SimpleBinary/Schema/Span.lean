import SimpleBinary.Schema.Error
import SimpleBinary.Token.Basic

/-!
# Spans of a token stream

A span is a range of a stream's tokens. The span of a container is read off its first token's
count, so that skipping it needs no look at what is inside. `spansWhile` follows spans one behind
the other; `splitBody` cuts a body into its fields, groups and var-data that way, `members` the
inside of a composite. A span that was read starts where it was asked for, is not empty and ends
within the stream (`spanAt_bounds`).
-/

namespace SimpleBinary

/-- The tokens from `start` up to and without `stop`. -/
structure Span where
  start : Nat
  stop : Nat
deriving DecidableEq, Repr

namespace Span

def length (s : Span) : Nat := s.stop - s.start

def isEmpty (s : Span) : Bool := s.stop ≤ s.start

/-- The tokens between a container's first and its last. -/
def inner (s : Span) : Span := ⟨s.start + 1, max (s.stop - 1) (s.start + 1)⟩

end Span

/-- The span of the container or leaf that starts at `index`. Its end is a sum of naturals: counts
near 2^64, with which a sum of words would wrap around, are left out. -/
def spanAt (tokens : List Token) (index : Nat) : Except SchemaError Span :=
  match tokens[index]? with
  | none => .error (.malformed index .endOfStream)
  | some t =>
    let stop := index + t.componentTokenCount
    if t.componentTokenCount = 0 then .error (.malformed index (.zeroCount t.name))
    else if tokens.length < stop then
      .error (.malformed index (.overlong t.name t.componentTokenCount (tokens.length - index)))
    else
      match t.signal.closing? with
      | some closing =>
        if t.componentTokenCount < 2 ∨ tokens[stop - 1]?.map (·.signal) ≠ some closing then
          .error (.malformed (stop - 1) (.unclosed t.name closing))
        else .ok ⟨index, stop⟩
      | none => .ok ⟨index, stop⟩

theorem spanAt_bounds {tokens : List Token} {index : Nat} {s : Span}
    (h : spanAt tokens index = .ok s) :
    s.start = index ∧ index < s.stop ∧ s.stop ≤ tokens.length := by
  unfold spanAt at h
  split at h
  · simp at h
  · rename_i t ht
    simp only [] at h
    split at h
    · simp at h
    · split at h
      · simp at h
      · have hs : s = ⟨index, index + t.componentTokenCount⟩ := by
          split at h
          · split at h <;> simp_all
          · simp_all
        subst hs
        simp only [true_and]
        omega

/-- The spans from `index` on whose first tokens pass a test, one behind the other, and where they
end or what is wrong there. -/
def spansWhile (p : Token → Bool) (tokens : List Token) (index : Nat) :
    List Span × Except SchemaError Nat :=
  match tokens[index]? with
  | none => ([], .ok index)
  | some t =>
    if p t then
      match _h : spanAt tokens index with
      | .error e => ([], .error e)
      | .ok s =>
        let rest := spansWhile p tokens s.stop
        (s :: rest.1, rest.2)
    else ([], .ok index)
termination_by tokens.length - index
decreasing_by
  have := spanAt_bounds _h
  omega

/-- The spans of one kind of token. -/
def collect (signal : Signal) : (tokens : List Token) → (index : Nat) →
    List Span × Except SchemaError Nat :=
  spansWhile fun t => t.signal == signal

/-- The spans of a body's elements. -/
structure BodySpans where
  fields : List Span := []
  groups : List Span := []
  varData : List Span := []
deriving DecidableEq, Repr

/-- The last region that has an element. -/
def BodySpans.lastRegion (s : BodySpans) : BodyRegion :=
  if !s.varData.isEmpty then .varData else if !s.groups.isEmpty then .group else .field

/-- Cuts a range of tokens into fields, then groups, then var-data. No span may reach past the
range, and nothing may be left over. -/
def splitBody (tokens : List Token) (body : Span) : Except SchemaError BodySpans := do
  let bounded := tokens.take body.stop
  let fields := collect (.opens .field) bounded body.start
  let groups := collect (.opens .group) bounded (← fields.2)
  let varData := collect (.opens .varData) bounded (← groups.2)
  let stop ← varData.2
  let spans : BodySpans := ⟨fields.1, groups.1, varData.1⟩
  if stop = body.stop then return spans
  else
    match tokens[stop]? with
    | some t => throw (.malformed stop (.misplaced t.signal t.name spans.lastRegion))
    | none => throw (.malformed stop .endOfStream)

/-- The spans inside a composite. -/
def members (tokens : List Token) (body : Span) : Except SchemaError (List Span) :=
  let spans := spansWhile (fun _ => true) (tokens.take body.stop) body.start
  spans.2.map fun _ => spans.1

end SimpleBinary
