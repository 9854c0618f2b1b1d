import Mathlib
import SimpleBinary.Proofs.Bounds
import SimpleBinary.Proofs.Nesting

/-!
# Types are read of their own tokens

What a span is read as depends on the first of its tokens and on those inside of it, and not on
where in a stream they stand (`toOption_kindAt`): the spans inside are the same, moved along with
the tokens.  Of the first token its own place, number and version are not read either, and the last
one is not read at all, so a type has one layout for all of its copies (`kindAt_of_copy`).
-/

namespace SimpleBinary

/-! ## Steps over numbered tokens -/

/-- The tokens of a span. -/
def Span.tokens (s : Span) (tokens : List Token) : List Token := (tokens.take s.stop).drop s.start

/-- What steps over the tokens of a span give, if their numbers do not matter. -/
theorem toOption_mapM_numbered {α : Type} {f : Token → Nat → Except SchemaError α}
    {g : Token → Option α} (hf : ∀ t i, (f t i).toOption = g t) (tokens : List Token) (s : Span) :
    ((numbered tokens s).mapM fun (t, i) => f t i).toOption = (s.tokens tokens).mapM g := by
  rw [toOption_mapM]
  unfold numbered Span.tokens
  simp only [hf]
  generalize (tokens.take s.stop).drop s.start = ts
  generalize s.start = i
  induction ts generalizing i with
  | nil => rfl
  | cons t ts ih => rw [List.zipIdx_cons, List.mapM_cons, List.mapM_cons, ih]

/-! ## Tokens in their place -/

/-- The span that is `k` tokens further on. -/
def Span.shift (k : Nat) (s : Span) : Span := ⟨k + s.start, k + s.stop⟩

theorem Span.shift_inner (k : Nat) (s : Span) : (s.shift k).inner = s.inner.shift k := by
  unfold inner shift
  dsimp only
  congr 1
  omega

theorem hasAt_tokens {tokens : List Token} {s : Span} (h : s.start ≤ s.stop)
    (hs : s.stop ≤ tokens.length) : HasAt tokens s.start (s.tokens tokens) := by
  refine ⟨tokens.take s.start, tokens.drop s.stop, ?_, by rw [List.length_take]; omega⟩
  unfold Span.tokens
  rw [show tokens.take s.start = (tokens.take s.stop).take s.start by
    rw [List.take_take, Nat.min_eq_left h], List.take_append_drop, List.take_append_drop]

theorem length_tokens {tokens : List Token} {s : Span} (hs : s.stop ≤ tokens.length) :
    (s.tokens tokens).length = s.stop - s.start := by
  unfold Span.tokens
  rw [List.length_drop, List.length_take, Nat.min_eq_left hs]

section Shift

variable {tokens ts : List Token} {k : Nat} {s : Span}

theorem HasAt.take_eq (h : HasAt tokens k ts) {n : Nat} (hn : n ≤ ts.length) :
    ∃ pre, tokens.take (k + n) = pre ++ ts.take n ∧ pre.length = k := by
  obtain ⟨pre, post, rfl, rfl⟩ := h
  refine ⟨pre, ?_, rfl⟩
  rw [List.append_assoc, List.take_length_add_append, List.take_append_of_le_length hn]

theorem HasAt.tokens_shift (h : HasAt tokens k ts) (hs : s.stop ≤ ts.length) :
    (s.shift k).tokens tokens = s.tokens ts := by
  obtain ⟨pre, hpre, rfl⟩ := h.take_eq hs
  unfold Span.tokens Span.shift
  rw [hpre, List.drop_length_add_append]

theorem HasAt.toOption_tokenAt (h : HasAt tokens k ts) {i : Nat} (hi : i < ts.length) :
    (SimpleBinary.tokenAt tokens (k + i)).toOption = (SimpleBinary.tokenAt ts i).toOption := by
  unfold SimpleBinary.tokenAt
  rw [h.getElem?_add hi]
  cases ts[i]? <;> rfl

theorem getElem?_append_add (pre ts : List Token) (j : Nat) :
    (pre ++ ts)[pre.length + j]? = ts[j]? := by
  rw [List.getElem?_append_right (Nat.le_add_right _ _), Nat.add_sub_cancel_left]

/-- A span is read alike behind other tokens, as many tokens further on. -/
theorem toOption_spanAt_append (pre ts : List Token) (i : Nat) :
    (spanAt (pre ++ ts) (pre.length + i)).toOption
      = (spanAt ts i).toOption.map (·.shift pre.length) := by
  have hget := getElem?_append_add pre ts
  unfold spanAt
  rw [hget]
  rcases ts[i]? with _ | t
  · rfl
  dsimp only
  by_cases hzero : t.componentTokenCount = 0
  · rw [if_pos hzero, if_pos hzero]
    rfl
  rw [if_neg hzero, if_neg hzero, List.length_append]
  by_cases hlong : ts.length < i + t.componentTokenCount
  · rw [if_pos (by omega), if_pos hlong]
    rfl
  rw [if_neg (by omega), if_neg hlong, show pre.length + i + t.componentTokenCount - 1
    = pre.length + (i + t.componentTokenCount - 1) by omega, hget]
  rcases t.signal.closing? with _ | closing
  · simp [Span.shift, Nat.add_assoc]
  · dsimp only
    split
    · rfl
    · simp [Span.shift, Nat.add_assoc]

theorem spansWhile_append_left (p : Token → Bool) (pre ts : List Token) (i : Nat) :
    (spansWhile p (pre ++ ts) (pre.length + i)).1
        = (spansWhile p ts i).1.map (·.shift pre.length)
      ∧ (spansWhile p (pre ++ ts) (pre.length + i)).2.toOption
        = (spansWhile p ts i).2.toOption.map (pre.length + ·) := by
  have hget := getElem?_append_add pre ts
  fun_induction spansWhile p ts i with
  | case1 i hi =>
    rw [spansWhile_stop (by simp [hget, hi])]
    exact ⟨rfl, rfl⟩
  | case2 i t ht hp e he =>
    have hspan := toOption_spanAt_append pre ts i
    rw [he] at hspan
    rw [spansWhile_of_spanAt ((hget i).trans ht) hp]
    cases h : spanAt (pre ++ ts) (pre.length + i) with
    | error e' => exact ⟨rfl, rfl⟩
    | ok s => simp [h] at hspan
  | case3 i t ht hp s hs rest ih =>
    have hspan := toOption_spanAt_append pre ts i
    rw [hs, toOption_ok, Option.map_some, toOption_eq_some_iff] at hspan
    rw [spansWhile_of_spanAt ((hget i).trans ht) hp, hspan]
    exact ⟨congrArg _ ih.1, ih.2⟩
  | case4 i t ht hp =>
    rw [spansWhile_stop (by simp [hget, ht, hp])]
    exact ⟨rfl, rfl⟩

theorem HasAt.toOption_members (h : HasAt tokens k ts) (hs : s.stop ≤ ts.length) :
    (members tokens (s.shift k)).toOption = (members ts s).toOption.map (·.map (·.shift k)) := by
  obtain ⟨pre, hpre, rfl⟩ := h.take_eq hs
  obtain ⟨hspans, hstop⟩ := spansWhile_append_left (fun _ => true) pre (ts.take s.stop) s.start
  unfold members Span.shift
  dsimp only
  rw [toOption_map, toOption_map, hpre, hstop, hspans]
  cases (spansWhile (fun _ => true) (ts.take s.stop) s.start).2.toOption <;> rfl

end Shift

/-! ## A type by its first token -/

/-- What a token inside of an enum stands for. -/
def Token.enumValue? (t : Token) : Option EnumValue :=
  if t.signal = .validValue then t.encoding.constValue.map (⟨t.name, ·⟩) else none

/-- What a token inside of a set of so many bits stands for. -/
def Token.choice? (bits : Nat) (t : Token) : Option Choice :=
  if t.signal = .choice then
    (t.encoding.constValue.bind Literal.toNat?).bind fun bit =>
      if bit < bits then some ⟨t.name, bit⟩ else none
  else none

/-- The members that a run of tokens is read as. -/
def memberKinds? (inside : List Token) : Option (List (Token × FieldKind)) :=
  (members inside ⟨0, inside.length⟩).toOption.bind fun spans =>
    spans.mapM fun m => inside[m.start]?.bind fun t => (kindAt inside m).toOption.map (t, ·)

/-- The type that starts with a token and has others inside. -/
def Token.kind? (t : Token) (inside : List Token) : Option FieldKind :=
  match t.signal with
  | .encoding => (PrimitiveLayout.ofToken t 0).toOption.map .primitive
  | .opens .composite => (memberKinds? inside).map fun kinds => .composite (.ofMembers t kinds)
  | .opens .enumeration => t.encoding.primitive.bind fun encoding =>
    (inside.mapM Token.enumValue?).map fun values => .enumeration {
      typeName := t.typeName
      encoding
      byteOrder := t.encoding.byteOrder
      values
      nullValue := t.encoding.nullValue.getD encoding.nullLiteral
      description := t.description }
  | .opens .set => t.encoding.primitive.bind fun encoding =>
    (inside.mapM (Token.choice? (8 * encoding.size))).map fun choices => .set {
      typeName := t.typeName
      encoding
      byteOrder := t.encoding.byteOrder
      choices
      description := t.description }
  | _ => none

theorem toOption_ofToken (t : Token) (i j : Nat) :
    (PrimitiveLayout.ofToken t i).toOption = (PrimitiveLayout.ofToken t j).toOption := by
  unfold PrimitiveLayout.ofToken
  rcases t.encoding.primitive with _ | primitive
  · rfl
  · dsimp only
    split <;> rfl

theorem toOption_enumValueOf (enumName : String) (t : Token) (i : Nat) :
    (enumValueOf enumName t i).toOption = t.enumValue? := by
  unfold enumValueOf Token.enumValue?
  by_cases h : t.signal = .validValue
  · rw [if_neg (not_not.2 h), if_pos h]
    cases t.encoding.constValue <;> rfl
  · rw [if_pos h, if_neg h]
    rfl

theorem toOption_choiceOf (setName : String) (bits : Nat) (t : Token) (i : Nat) :
    (choiceOf setName bits t i).toOption = t.choice? bits := by
  unfold choiceOf Token.choice?
  by_cases h : t.signal = .choice
  · rw [if_neg (not_not.2 h), if_pos h]
    rcases t.encoding.constValue.bind Literal.toNat? with _ | bit
    · rfl
    · dsimp only [Option.bind_some]
      split <;> rfl
  · rw [if_pos h, if_neg h]
    rfl

theorem toOption_tokenAt (tokens : List Token) (i : Nat) :
    (tokenAt tokens i).toOption = tokens[i]? := by
  unfold tokenAt
  rcases tokens[i]? with _ | t <;> rfl

theorem toOption_enumAt (tokens : List Token) (s : Span) :
    (enumAt tokens s).toOption = tokens[s.start]?.bind fun t => t.encoding.primitive.bind
      fun encoding => ((s.inner.tokens tokens).mapM Token.enumValue?).map fun values => {
        typeName := t.typeName
        encoding
        byteOrder := t.encoding.byteOrder
        values
        nullValue := t.encoding.nullValue.getD encoding.nullLiteral
        description := t.description } := by
  unfold enumAt
  rw [toOption_bind, toOption_tokenAt]
  refine Option.bind_congr fun t _ => ?_
  rcases t.encoding.primitive with _ | encoding
  · rfl
  · dsimp only
    rw [toOption_bind, toOption_mapM_numbered (toOption_enumValueOf t.name), Option.bind_some,
      Option.map_eq_bind]
    rfl

theorem toOption_setAt (tokens : List Token) (s : Span) :
    (setAt tokens s).toOption = tokens[s.start]?.bind fun t => t.encoding.primitive.bind
      fun encoding => ((s.inner.tokens tokens).mapM (Token.choice? (8 * encoding.size))).map
        fun choices => {
          typeName := t.typeName
          encoding
          byteOrder := t.encoding.byteOrder
          choices
          description := t.description } := by
  unfold setAt
  rw [toOption_bind, toOption_tokenAt]
  refine Option.bind_congr fun t _ => ?_
  rcases t.encoding.primitive with _ | encoding
  · rfl
  · dsimp only
    rw [toOption_bind, toOption_mapM_numbered (toOption_choiceOf t.name _), Option.bind_some,
      Option.map_eq_bind]
    rfl

/-- A composite is read as its members are, if those are read alike where they stand. -/
theorem toOption_compositeAt_of_members {tokens : List Token} {s : Span} (h : InRange tokens s)
    (hm : ∀ m : Span, m.start < m.stop → m.stop ≤ (s.inner.tokens tokens).length →
      (kindAt tokens (m.shift s.inner.start)).toOption
        = (kindAt (s.inner.tokens tokens) m).toOption) :
    (compositeAt tokens s).toOption = tokens[s.start]?.bind fun t =>
      (memberKinds? (s.inner.tokens tokens)).map (.ofMembers t) := by
  have hat : HasAt tokens s.inner.start (s.inner.tokens tokens) :=
    hasAt_tokens (Nat.le_max_right _ _) h.inner_le
  have hlength := length_tokens h.inner_le
  generalize s.inner.tokens tokens = inside at hm hat hlength ⊢
  have hinner : s.inner = Span.shift s.inner.start ⟨0, inside.length⟩ := by
    have : s.inner.start ≤ s.inner.stop := Nat.le_max_right _ _
    unfold Span.shift
    dsimp only
    rw [hlength, Nat.add_zero, Nat.add_sub_cancel' this]
  rw [compositeAt_eq, toOption_bind, toOption_tokenAt]
  refine Option.bind_congr fun t _ => ?_
  rw [toOption_bind, hinner, hat.toOption_members le_rfl]
  unfold memberKinds?
  cases hspans : members inside ⟨0, inside.length⟩ with
  | error e => rfl
  | ok spans =>
    rw [toOption_ok, Option.map_some, Option.bind_some, toOption_bind, toOption_mapM, List.mapM_map,
      Option.bind_some, Option.map_eq_bind]
    refine congrArg₂ _ (mapM_congr_of_mem fun m hmem => ?_) rfl
    obtain ⟨-, hlt, hle⟩ := mem_members_bounds hspans hmem
    have hkind := hm m hlt hle
    have htoken := hat.toOption_tokenAt (i := m.start) (by dsimp only at hle; omega)
    rw [toOption_tokenAt inside] at htoken
    simp only [Function.comp_apply, toOption_bind, toOption_pure, hkind, Option.map_eq_bind]
    rw [← htoken]
    rfl

/-- What a span is read as depends on its first token and on those inside of it. -/
theorem toOption_kindAt {tokens : List Token} (s : Span) (h : InRange tokens s) :
    (kindAt tokens s).toOption
      = tokens[s.start]?.bind fun t => t.kind? (s.inner.tokens tokens) := by
  have hat : HasAt tokens s.inner.start (s.inner.tokens tokens) :=
    hasAt_tokens (Nat.le_max_right _ _) h.inner_le
  -- By induction on the length of the span, which members are shorter than at either place.
  have hmembers : ∀ m : Span, m.start < m.stop → m.stop ≤ (s.inner.tokens tokens).length →
      (kindAt tokens (m.shift s.inner.start)).toOption
        = (kindAt (s.inner.tokens tokens) m).toOption := by
    intro m hlt hle
    have hlength := length_tokens h.inner_le
    have hbounds := hat.length_le
    have hsmaller : m.length < s.length := by
      have := h.lt
      simp only [Span.length, Span.inner] at *
      omega
    have hsmaller' : (m.shift s.inner.start).length < s.length := by
      simp only [Span.length, Span.shift] at *
      omega
    rw [toOption_kindAt (m.shift s.inner.start) ⟨by simp only [Span.shift]; omega, by
      simp only [Span.shift]; omega⟩, toOption_kindAt m ⟨hlt, hle⟩, Span.shift_inner,
      hat.tokens_shift (InRange.inner_le ⟨hlt, hle⟩)]
    exact congrArg (Option.bind · _) (hat.getElem?_add (by omega))
  rw [kindAt, toOption_bind, toOption_tokenAt]
  rcases ht : tokens[s.start]? with _ | t
  · rfl
  rw [Option.bind_some, Option.bind_some]
  split
  · rename_i hsignal
    rw [toOption_bind, toOption_ofToken t s.start 0, Token.kind?, hsignal]
    simp only [Option.map_eq_bind]
    rfl
  · rename_i hsignal
    rw [toOption_bind, toOption_compositeAt_of_members h hmembers, ht, Token.kind?, hsignal]
    simp only [Option.bind_some, Option.map_eq_bind, Option.bind_assoc]
    rfl
  · rename_i hsignal
    rw [toOption_bind, toOption_enumAt, ht, Token.kind?, hsignal]
    simp only [Option.bind_some, Option.map_eq_bind, Option.bind_assoc]
    rfl
  · rename_i hsignal
    rw [toOption_bind, toOption_setAt, ht, Token.kind?, hsignal]
    simp only [Option.bind_some, Option.map_eq_bind, Option.bind_assoc]
    rfl
  · rename_i hencoding hcomposite henumeration hset
    rw [Token.kind?]
    split
    · exact absurd ‹_› hencoding
    · exact absurd ‹_› hcomposite
    · exact absurd ‹_› henumeration
    · exact absurd ‹_› hset
    · rfl
termination_by s.length

/-! ## Copies -/

/-- Two tokens say the same of a type, be they of other places, numbers or versions. -/
structure Token.SameType (t u : Token) : Prop where
  signal : t.signal = u.signal
  typeName : t.typeName = u.typeName
  encodedLength : t.encodedLength = u.encodedLength
  arrayLength : t.arrayLength = u.arrayLength
  encoding : t.encoding = u.encoding
  description : t.description = u.description

/-- Runs of tokens with the same tokens between the first and the last, and of the same type. -/
def CopyOf (ts us : List Token) : Prop :=
  ∃ first first' inside last last', ts = first :: (inside ++ [last])
    ∧ us = first' :: (inside ++ [last']) ∧ first.SameType first'

theorem Token.SameType.kind?_eq {t u : Token} (h : t.SameType u) (inside : List Token) :
    t.kind? inside = u.kind? inside := by
  obtain ⟨hsignal, hname, hlength, harray, hencoding, hdescription⟩ := h
  have htoken : (PrimitiveLayout.ofToken t 0).toOption
      = (PrimitiveLayout.ofToken u 0).toOption := by
    unfold PrimitiveLayout.ofToken Token.isConstant
    rw [hencoding, harray]
    rcases u.encoding.primitive with _ | primitive
    · rfl
    · dsimp only
      split <;> rfl
  unfold kind? CompositeLayout.ofMembers
  rw [hsignal, htoken, hname, hlength, hencoding, hdescription]

theorem kindAt_of_hasAt {tokens inside : List Token} {first last : Token} {i : Nat}
    (h : HasAt tokens i (first :: (inside ++ [last]))) :
    (kindAt tokens ⟨i, i + (first :: (inside ++ [last])).length⟩).toOption
      = first.kind? inside := by
  have hle := h.length_le
  have hinside : HasAt tokens (i + 1) inside := HasAt.left h.tail
  simp only [List.length_cons, List.length_append, List.length_nil] at hle ⊢
  rw [toOption_kindAt _ ⟨by dsimp only; omega, hle⟩]
  dsimp only [Span.inner, Span.tokens]
  have hstop : max (i + (inside.length + (0 + 1) + 1) - 1) (i + 1) = i + 1 + inside.length := by
    omega
  rw [h.getElem?, hstop, hinside.slice, Option.bind_some]

/-- A type has one layout for all of its copies, in whatever streams and wherever they stand. -/
theorem kindAt_of_copy {tokens tokens' ts us : List Token} {i j : Nat} (hcopy : CopyOf ts us)
    (h : HasAt tokens i ts) (h' : HasAt tokens' j us) :
    (kindAt tokens ⟨i, i + ts.length⟩).toOption = (kindAt tokens' ⟨j, j + us.length⟩).toOption := by
  obtain ⟨first, first', inside, last, last', rfl, rfl, hsame⟩ := hcopy
  rw [kindAt_of_hasAt h, kindAt_of_hasAt h', hsame.kind?_eq]

end SimpleBinary
