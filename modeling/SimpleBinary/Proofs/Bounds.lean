import Mathlib
import SimpleBinary.Layout.Guarded
import SimpleBinary.Proofs.Placement

/-!
# Nothing is reached out of range

The guarded readings of a stream give what the readings give, for any tokens at all
(`guarded_layouts`): no access is ever out of range, and each element is laid out inside the one it
belongs to.  A span that was read ends within the stream, and what opens a container was found to be
closed (`Enclosed`).  So the composite at the start of a group or of var-data ends before they do,
although its count is not compared with theirs: the last token of the one closes a composite, that
of the other a group or var-data (`Enclosed.strictlyInside`).
-/

namespace SimpleBinary

/-! ## What opens a container is closed -/

section Spans

variable {tokens : List Token} {i start stop : Nat} {s : Span}

/-- A span that has a token, and no token beyond the stream. -/
structure InRange (tokens : List Token) (s : Span) : Prop where
  lt : s.start < s.stop
  le : s.stop ≤ tokens.length

theorem InRange.inner_le (h : InRange tokens s) : s.inner.stop ≤ tokens.length := by
  obtain ⟨hlt, hle⟩ := h
  simp only [Span.inner]
  omega

theorem InRange.members_inside (h : InRange tokens s) {spans : List Span}
    (hs : members tokens s.inner = .ok spans) : ∀ m ∈ spans, m.StrictlyInside s := by
  intro m hm
  have hbounds := mem_members_bounds hs hm
  have hlt := h.lt
  simp only [Span.inner] at hbounds
  refine ⟨?_, ?_, ?_⟩ <;> omega

theorem InRange.of_inside {outer : Span} (h : InRange tokens outer) (hs : s.StrictlyInside outer) :
    InRange tokens s :=
  ⟨hs.2.1, hs.2.2.le.trans h.le⟩

/-- A container's span, from what opens it to what closes it, as long as the first token says. -/
structure Enclosed (tokens : List Token) (c : Container) (s : Span) : Prop where
  lt : s.start + 1 < s.stop
  le : s.stop ≤ tokens.length
  first : ∃ t, tokens[s.start]? = some t ∧ t.signal = .opens c
    ∧ s.stop = s.start + t.componentTokenCount
  last : tokens[s.stop - 1]?.map Token.signal = some (.closes c)

theorem enclosed_of_spanAt {t : Token} {c : Container} (h : spanAt tokens i = .ok s)
    (ht : tokens[i]? = some t) (hc : t.signal = .opens c) : Enclosed tokens c s := by
  have hbounds := spanAt_bounds h
  rw [spanAt, ht] at h
  simp only [hc, Signal.closing?] at h
  split at h
  · simp at h
  split at h
  · simp at h
  split at h
  · simp at h
  · rename_i hclosed
    rw [not_or, not_not] at hclosed
    cases h
    exact ⟨by dsimp only; omega, hbounds.2.2, ⟨t, ht, hc, rfl⟩, hclosed.2⟩

theorem Enclosed.of_take {n : Nat} {c : Container} (h : Enclosed (tokens.take n) c s) :
    Enclosed tokens c s := by
  obtain ⟨hlt, hle, hfirst, hlast⟩ := h
  rw [List.length_take] at hle
  rw [List.getElem?_take_of_lt (by omega)] at hfirst hlast
  exact ⟨hlt, by omega, hfirst, hlast⟩

/-- Containers of different kinds do not end with the same token. -/
theorem Enclosed.stop_lt {c c' : Container} {inner : Span} (h : Enclosed tokens c s)
    (h' : Enclosed tokens c' inner) (hne : c ≠ c') (hstop : inner.stop ≤ s.stop) :
    inner.stop < s.stop := by
  refine lt_of_le_of_ne hstop fun heq => hne ?_
  have hlast := h'.last
  rw [heq, h.last, Option.some.injEq, Signal.closes.injEq] at hlast
  exact hlast

/-- Each span that is followed was read at its own start. -/
theorem spanAt_of_mem_spansWhile {p : Token → Bool} (h : s ∈ (spansWhile p tokens i).1) :
    spanAt tokens s.start = .ok s ∧ ∃ t, tokens[s.start]? = some t ∧ p t := by
  fun_induction spansWhile p tokens i with
  | case1 => simp at h
  | case2 => simp at h
  | case3 i t ht hp r hr rest ih =>
    rcases List.mem_cons.1 h with rfl | h
    · rw [(spanAt_bounds hr).1]
      exact ⟨hr, t, ht, hp⟩
    · exact ih h
  | case4 => simp at h

theorem enclosed_of_mem_collect {c : Container} (h : s ∈ (collect (.opens c) tokens i).1) :
    Enclosed tokens c s := by
  obtain ⟨hspan, t, ht, hc⟩ := spanAt_of_mem_spansWhile h
  exact enclosed_of_spanAt hspan ht (beq_iff_eq.1 hc)

theorem Enclosed.inRange {c : Container} (h : Enclosed tokens c s) : InRange tokens s :=
  ⟨Nat.lt_of_succ_lt h.lt, h.le⟩

theorem spansWhile_stop_le {p : Token → Bool} (h : i ≤ tokens.length)
    (hs : (spansWhile p tokens i).2 = .ok stop) : stop ≤ tokens.length := by
  fun_induction spansWhile p tokens i with
  | case1 i ht =>
    cases hs
    exact h
  | case2 i t ht hp e he => simp at hs
  | case3 i t ht hp s hspan rest ih => exact ih (spanAt_bounds hspan).2.2 hs
  | case4 i t ht hp =>
    cases hs
    exact h

/-- What the elements of a body are, and that they lie within it. -/
theorem elements_of_splitBody {body : Span} {spans : BodySpans}
    (h : splitBody tokens body = .ok spans) :
    (∀ s ∈ spans.fields, Enclosed tokens .field s) ∧ (∀ s ∈ spans.groups, Enclosed tokens .group s)
      ∧ (∀ s ∈ spans.varData, Enclosed tokens .varData s)
      ∧ ∀ s ∈ spans.all, body.start ≤ s.start ∧ s.start < s.stop ∧ s.stop ≤ body.stop := by
  rw [splitBody] at h
  obtain ⟨i, hi, h⟩ := bind_eq_ok_iff.1 h
  obtain ⟨j, hj, h⟩ := bind_eq_ok_iff.1 h
  obtain ⟨k, hk, h⟩ := bind_eq_ok_iff.1 h
  split at h
  · cases h
    refine ⟨fun s hs => (enclosed_of_mem_collect hs).of_take,
      fun s hs => (enclosed_of_mem_collect hs).of_take,
      fun s hs => (enclosed_of_mem_collect hs).of_take, fun s hs => ?_⟩
    have hi := spansWhile_bounds.2 i hi
    have hj := spansWhile_bounds.2 j hj
    have htake := List.length_take_le body.stop tokens
    simp only [BodySpans.all, List.mem_append] at hs
    rcases hs with (hs | hs) | hs
    all_goals
      have hbounds := spansWhile_bounds.1 s hs
      omega
  · split at h <;> exact absurd h throw_ne_ok

theorem enclosed_of_spanAt_take {n : Nat} {t : Token} {c : Container}
    (h : spanAt (tokens.take n) i = .ok s) (ht : tokenAt tokens s.start = .ok t)
    (hc : t.signal = .opens c) : Enclosed tokens c s := by
  obtain ⟨hstart, hlt, hle⟩ := spanAt_bounds h
  rw [List.length_take] at hle
  rw [hstart] at ht
  refine (enclosed_of_spanAt h ?_ hc).of_take
  rw [List.getElem?_take_of_lt (by omega)]
  exact getElem?_of_tokenAt ht

/-- A composite at the start of another container ends before that one does. -/
theorem Enclosed.strictlyInside {c : Container} {d : Span} (h : Enclosed tokens c s)
    (hc : c ≠ .composite) (hd : spanAt (tokens.take s.stop) (s.start + 1) = .ok d)
    {t : Token} (ht : tokenAt tokens d.start = .ok t) (hsignal : t.signal = .opens .composite) :
    d.StrictlyInside s := by
  obtain ⟨hstart, hlt, hle⟩ := spanAt_bounds hd
  rw [List.length_take_of_le h.le] at hle
  have hstop := h.stop_lt (enclosed_of_spanAt_take hd ht hsignal) hc hle
  refine ⟨?_, ?_, hstop⟩ <;> omega

theorem enclosed_of_wholeSpan {c : Container} (h : wholeSpan tokens c = .ok s) :
    Enclosed tokens c s ∧ s = ⟨0, tokens.length⟩ := by
  unfold wholeSpan at h
  split at h
  · exact absurd h throw_ne_ok
  · rename_i first rest
    split at h
    · exact absurd h throw_ne_ok
    · rename_i hsignal
      obtain ⟨r, hr, h⟩ := bind_eq_ok_iff.1 h
      split at h
      · exact absurd h throw_ne_ok
      · rename_i hstop
        cases h
        refine ⟨enclosed_of_spanAt hr rfl (not_not.1 hsignal), ?_⟩
        rw [← (spanAt_bounds hr).1, ← not_not.1 hstop]

end Spans

namespace Guarded

variable {α β : Type}

/-! ## Guarded steps that are in range -/

theorem of_bind {x : Except SchemaError α} {g : α → Guarded β} {f : α → Except SchemaError β}
    (h : ∀ a, x = .ok a → g a = of (f a)) : (of x >>= g) = of (x >>= f) := by
  cases x with
  | error e => rfl
  | ok a => exact h a rfl

theorem of_ok_bind (a : α) (g : α → Guarded β) : (of (.ok a) >>= g) = g a := rfl

theorem of_ite {p : Prop} [Decidable p] {x y : Except SchemaError α} :
    (if p then of x else of y) = of (if p then x else y) := by
  split <;> rfl

theorem mapM_of {g : β → Guarded α} {f : β → Except SchemaError α} : ∀ {l : List β},
    (∀ b ∈ l, g b = of (f b)) → l.mapM g = of (l.mapM f)
  | [], _ => rfl
  | b :: l, h => by
    obtain ⟨hb, hl⟩ := List.forall_mem_cons.1 h
    rw [List.mapM_cons, List.mapM_cons, hb, mapM_of hl]
    exact of_bind fun a _ => of_bind fun as _ => rfl

variable {tokens : List Token} {i start stop : Nat} {s : Span}

theorem token_eq (h : i < tokens.length) : token tokens i = of (tokenAt tokens i) := by
  rw [token, tokenAt, List.getElem?_eq_getElem h]
  rfl

theorem slice_eq (h : start ≤ stop) (h' : stop ≤ tokens.length) :
    slice tokens start stop = of (.ok ((tokens.take stop).drop start)) := by
  rw [slice, if_pos ⟨h, h'⟩]
  rfl

theorem minus_eq {n k : Nat} (h : k ≤ n) : minus n k = of (.ok (n - k)) := by
  rw [minus, if_pos h]
  rfl

theorem tokenAt_eq_ok (h : i < tokens.length) : tokenAt tokens i = .ok tokens[i] := by
  rw [tokenAt, List.getElem?_eq_getElem h]

/-! ## Spans -/

theorem spanAt_eq (tokens : List Token) (i : Nat) :
    spanAt tokens i = of (SimpleBinary.spanAt tokens i) := by
  rw [spanAt, SimpleBinary.spanAt]
  cases hi : tokens[i]? with
  | none => rfl
  | some t =>
    have hlt := (List.getElem?_eq_some_iff.1 hi).1
    simp only []
    by_cases hzero : t.componentTokenCount = 0
    · rw [if_pos hzero, if_pos hzero]
    rw [if_neg hzero, if_neg hzero]
    by_cases hlong : tokens.length < i + t.componentTokenCount
    · rw [if_pos hlong, if_pos hlong, minus_eq hlt.le]
      rfl
    rw [if_neg hlong, if_neg hlong]
    cases hclosing : t.signal.closing? with
    | none => rfl
    | some closing =>
      have hlast : i + t.componentTokenCount - 1 < tokens.length := by omega
      simp only [minus_eq (show 1 ≤ i + t.componentTokenCount by omega), token_eq hlast,
        tokenAt_eq_ok hlast, of_ok_bind, List.getElem?_eq_getElem hlast, Option.map_some, ne_eq,
        Option.some.injEq]
      exact of_ite

theorem spansWhile_eq (p : Token → Bool) (tokens : List Token) (i : Nat) :
    spansWhile p tokens i = of ((SimpleBinary.spansWhile p tokens i).2.map
      fun stop => ((SimpleBinary.spansWhile p tokens i).1, stop)) := by
  fun_induction SimpleBinary.spansWhile p tokens i with
  | case1 i ht =>
    rw [spansWhile, ht]
    rfl
  | case2 i t ht hp e he =>
    rw [spansWhile, ht]
    simp only [if_pos hp, spanAt_eq, he]
    rfl
  | case3 i t ht hp s hs rest ih =>
    have hbounds := (spanAt_bounds hs).2
    rw [spansWhile, ht]
    simp only [if_pos hp, spanAt_eq, hs, of_ok_bind, dif_pos hbounds, ih]
    cases rest.2 <;> rfl
  | case4 i t ht hp =>
    rw [spansWhile, ht]
    simp only [if_neg hp]
    rfl

theorem collect_eq (signal : Signal) (tokens : List Token) (i : Nat) :
    collect signal tokens i = of ((SimpleBinary.collect signal tokens i).2.map
      fun stop => ((SimpleBinary.collect signal tokens i).1, stop)) :=
  spansWhile_eq _ tokens i

theorem members_eq {body : Span} (h : body.stop ≤ tokens.length) :
    members tokens body = of (SimpleBinary.members tokens body) := by
  rw [members, slice_eq (Nat.zero_le _) h, of_ok_bind, List.drop_zero, spansWhile_eq,
    SimpleBinary.members]
  cases (SimpleBinary.spansWhile (fun _ => true) (tokens.take body.stop) body.start).2 <;> rfl

theorem splitBody_eq {body : Span} (h : body.start ≤ body.stop) (h' : body.stop ≤ tokens.length) :
    splitBody tokens body = of (SimpleBinary.splitBody tokens body) := by
  have hlength : (tokens.take body.stop).length = body.stop := List.length_take_of_le h'
  rw [splitBody, slice_eq (Nat.zero_le _) h', of_ok_bind, List.drop_zero, SimpleBinary.splitBody]
  simp only [collect_eq]
  cases hf : (SimpleBinary.collect (.opens .field) (tokens.take body.stop) body.start).2 with
  | error e => rfl
  | ok i =>
    have hi := spansWhile_stop_le (by rwa [hlength]) hf
    simp only [Except.map, of_ok_bind, ok_bind]
    cases hg : (SimpleBinary.collect (.opens .group) (tokens.take body.stop) i).2 with
    | error e => rfl
    | ok j =>
      have hj := spansWhile_stop_le hi hg
      simp only [of_ok_bind, ok_bind]
      cases hd : (SimpleBinary.collect (.opens .varData) (tokens.take body.stop) j).2 with
      | error e => rfl
      | ok k =>
        have hk := spansWhile_stop_le hj hd
        simp only [of_ok_bind, ok_bind]
        by_cases hstop : k = body.stop
        · rw [if_pos hstop, if_pos hstop]
          rfl
        · have hlt : k < tokens.length := by omega
          rw [if_neg hstop, if_neg hstop, token_eq hlt, tokenAt_eq_ok hlt, of_ok_bind,
            List.getElem?_eq_getElem hlt]
          rfl

/-! ## Types -/

theorem firstToken_eq (h : InRange tokens s) :
    token tokens s.start = of (tokenAt tokens s.start) :=
  token_eq (h.lt.trans_le h.le)

theorem each_eq (f : Token → Nat → Except SchemaError α) (h : s.stop ≤ tokens.length) :
    each f tokens s = of ((numbered tokens s).mapM fun (t, i) => f t i) := by
  obtain ⟨start, stop⟩ := s
  rw [each, numbered]
  dsimp only at h ⊢
  generalize hn : stop - start = n
  induction n generalizing start with
  | zero =>
    have hnil : (tokens.take stop).drop start = [] :=
      List.drop_eq_nil_of_le ((List.length_take_le _ _).trans (by omega))
    rw [hnil]
    rfl
  | succ n ih =>
    have hlt : start < (tokens.take stop).length := by
      rw [List.length_take]
      omega
    rw [List.range'_succ, List.mapM_cons, ih (start + 1) (by omega), List.drop_eq_getElem_cons hlt,
      List.zipIdx_cons, List.mapM_cons, token_eq (by omega), tokenAt_eq_ok (by omega),
      of_ok_bind, List.getElem_take]
    exact of_bind fun a _ => of_bind fun as _ => rfl

theorem enumAt_eq (h : InRange tokens s) :
    enumAt tokens s = of (SimpleBinary.enumAt tokens s) := by
  rw [enumAt, SimpleBinary.enumAt, firstToken_eq h]
  refine of_bind fun t _ => ?_
  cases t.encoding.primitive with
  | none => rfl
  | some p =>
    simp only [each_eq _ h.inner_le]
    exact of_bind fun values _ => rfl

theorem setAt_eq (h : InRange tokens s) : setAt tokens s = of (SimpleBinary.setAt tokens s) := by
  rw [setAt, SimpleBinary.setAt, firstToken_eq h]
  refine of_bind fun t _ => ?_
  cases t.encoding.primitive with
  | none => rfl
  | some p =>
    simp only [each_eq _ h.inner_le]
    exact of_bind fun choices _ => rfl

mutual

theorem kindAt_eq (s : Span) (h : InRange tokens s) :
    kindAt tokens s = of (SimpleBinary.kindAt tokens s) := by
  rw [kindAt, SimpleBinary.kindAt, firstToken_eq h]
  refine of_bind fun t _ => ?_
  generalize t.signal = signal
  cases signal with
  | encoding => exact of_bind fun p _ => rfl
  | opens c =>
    cases c with
    | composite =>
      dsimp only
      rw [compositeAt_eq s h]
      exact of_bind fun c _ => rfl
    | enumeration =>
      dsimp only
      rw [enumAt_eq h]
      exact of_bind fun e _ => rfl
    | set =>
      dsimp only
      rw [setAt_eq h]
      exact of_bind fun l _ => rfl
    | _ => rfl
  | _ => rfl
termination_by 2 * s.length + 1

theorem compositeAt_eq (s : Span) (h : InRange tokens s) :
    compositeAt tokens s = of (SimpleBinary.compositeAt tokens s) := by
  rw [compositeAt, SimpleBinary.compositeAt, firstToken_eq h]
  refine of_bind fun t _ => ?_
  rw [members_eq h.inner_le]
  split
  · rename_i e he
    rw [he]
    rfl
  · rename_i spans hs
    have hinside := h.members_inside hs
    rw [hs, of_ok_bind, dif_pos hinside, mapM_of (f := fun m => do
      return (← tokenAt tokens m.1.start, ← SimpleBinary.kindAt tokens m.1))]
    · exact of_bind fun kinds _ => rfl
    · rintro ⟨m, hm⟩ -
      have hlt := (hinside m hm).length_lt
      have hrange := h.of_inside (hinside m hm)
      dsimp only
      rw [firstToken_eq hrange, kindAt_eq m hrange]
      exact of_bind fun t _ => of_bind fun k _ => rfl
termination_by 2 * s.length

end

/-! ## Elements of a body -/

theorem fieldAt_eq (h : Enclosed tokens .field s) (cursor : Nat) :
    fieldAt tokens s cursor = of (SimpleBinary.fieldAt tokens s cursor) := by
  have hlt := h.lt
  rw [fieldAt, SimpleBinary.fieldAt, firstToken_eq h.inRange]
  refine of_bind fun t _ => ?_
  rw [slice_eq (Nat.zero_le _) h.le, of_ok_bind, List.drop_zero, spanAt_eq]
  refine of_bind fun type htype => ?_
  obtain ⟨hstart, hnonempty, -⟩ := spanAt_bounds htype
  rw [minus_eq (by omega), of_ok_bind]
  by_cases hstop : type.stop ≠ s.stop - 1
  · rw [if_pos hstop, if_pos hstop]
    rfl
  · have hinside : type.StrictlyInside s := by
      refine ⟨?_, ?_, ?_⟩ <;> omega
    rw [if_neg hstop, if_neg hstop, if_pos hinside, kindAt_eq type (h.inRange.of_inside hinside)]
    exact of_bind fun kind _ => rfl

theorem fieldsAt_eq : ∀ {ss : List Span} (cursor : Nat), (∀ s ∈ ss, Enclosed tokens .field s) →
    fieldsAt tokens cursor ss = of (SimpleBinary.fieldsAt tokens cursor ss)
  | [], _, _ => rfl
  | s :: ss, cursor, h => by
    obtain ⟨hs, hss⟩ := List.forall_mem_cons.1 h
    rw [fieldsAt, SimpleBinary.fieldsAt, fieldAt_eq hs]
    refine of_bind fun f _ => ?_
    rw [fieldsAt_eq f.stop hss]
    exact of_bind fun fs _ => rfl

theorem dimensionAt_eq (h : InRange tokens s) :
    dimensionAt tokens s = of (SimpleBinary.dimensionAt tokens s) := by
  rw [dimensionAt, SimpleBinary.dimensionAt, compositeAt_eq s h]
  exact of_bind fun c _ => of_bind fun bl _ => of_bind fun n _ => rfl

/-- The first hit among numbered tokens is the first hit among the tokens, with its number. -/
theorem find?_zipIdx (p : Token → Bool) : ∀ (ts : List Token) (k : Nat),
    (ts.zipIdx k).find? (fun (t, _) => p t) = (ts.findIdx? p).bind fun j => ts[j]?.map (·, k + j)
  | [], _ => rfl
  | t :: ts, k => by
    rw [List.zipIdx_cons, List.find?_cons, List.findIdx?_cons]
    by_cases ht : p t
    · simp [ht]
    · simp only [ht, find?_zipIdx p ts (k + 1)]
      cases ts.findIdx? p with
      | none => rfl
      | some j => simp [Nat.add_comm, Nat.add_left_comm]

theorem encodingNamed_eq (container name : String) (h : s.start ≤ s.stop)
    (h' : s.stop ≤ tokens.length) : encodingNamed tokens container s name
      = of (SimpleBinary.encodingNamed tokens container s name) := by
  rw [encodingNamed, SimpleBinary.encodingNamed, slice_eq h h', of_ok_bind, numbered,
    find?_zipIdx fun t => t.signal == .encoding && t.name == name]
  cases hfind : ((tokens.take s.stop).drop s.start).findIdx? fun t =>
    t.signal == .encoding && t.name == name with
  | none => rfl
  | some k =>
    obtain ⟨hk, -⟩ := List.findIdx?_eq_some_iff_getElem.1 hfind
    rw [List.length_drop, List.length_take] at hk
    have hlt : s.start + k < tokens.length := by omega
    have hget : ((tokens.take s.stop).drop s.start)[k]? = some tokens[s.start + k] := by
      rw [List.getElem?_drop, List.getElem?_take_of_lt (by omega), List.getElem?_eq_getElem hlt]
    dsimp only
    rw [token_eq hlt, tokenAt_eq_ok hlt, Option.bind_some, hget]
    rfl

theorem varDataAt_eq (h : Enclosed tokens .varData s) :
    varDataAt tokens s = of (SimpleBinary.varDataAt tokens s) := by
  rw [varDataAt, SimpleBinary.varDataAt, firstToken_eq h.inRange]
  refine of_bind fun t _ => ?_
  rw [slice_eq (Nat.zero_le _) h.le, of_ok_bind, List.drop_zero, spanAt_eq]
  refine of_bind fun c hc => ?_
  obtain ⟨hstart, hlt, hle⟩ := spanAt_bounds hc
  rw [List.length_take_of_le h.le] at hle
  have hstop := h.le
  rw [token_eq (by omega)]
  refine of_bind fun composite hcomposite => ?_
  by_cases hsignal : composite.signal ≠ .opens .composite
  · rw [if_pos hsignal, if_pos hsignal]
    rfl
  · have hinside := h.strictlyInside (by decide) hc hcomposite (not_not.1 hsignal)
    have hinner : c.inner.start ≤ c.inner.stop := Nat.le_max_right _ _
    have hrange := (h.inRange.of_inside hinside).inner_le
    rw [if_neg hsignal, if_neg hsignal, if_pos hinside, encodingNamed_eq _ _ hinner hrange,
      encodingNamed_eq _ _ hinner hrange]
    exact of_bind fun length _ => of_bind fun data _ => of_bind fun p _ => rfl

/-! ## Bodies -/

mutual

theorem bodyAt_eq (outer : Span) {body : Span} (blockLength : Nat) (owner : String)
    (h : InRange tokens outer) (hstart : outer.start < body.start)
    (hle : body.start ≤ body.stop) (hstop : body.stop < outer.stop) :
    bodyAt tokens outer body blockLength owner
      = of (SimpleBinary.bodyAt tokens body blockLength owner) := by
  rw [bodyAt, SimpleBinary.bodyAt, splitBody_eq hle (hstop.le.trans h.le)]
  split
  · rename_i e he
    rw [he]
    rfl
  · rename_i spans hs
    obtain ⟨hfields, hgroups, hvarData, hbounds⟩ := elements_of_splitBody hs
    have hinside : ∀ s ∈ spans.all, s.StrictlyInside outer := by
      intro s hs
      have := hbounds s hs
      refine ⟨?_, ?_, ?_⟩ <;> omega
    rw [hs, of_ok_bind, dif_pos hinside, fieldsAt_eq 0 hfields]
    refine of_bind fun fields _ => ?_
    rw [mapM_of (f := fun s => SimpleBinary.groupAt tokens s.1)]
    · refine of_bind fun groups _ => ?_
      rw [mapM_of fun s hs => varDataAt_eq (hvarData s hs)]
      exact of_bind fun varData _ => rfl
    · rintro ⟨s, hs⟩ -
      have hlt := (hinside s (List.mem_append_left _ (List.mem_append_right _ hs))).length_lt
      exact groupAt_eq s (hgroups s hs)
termination_by 2 * outer.length

theorem groupAt_eq (s : Span) (h : Enclosed tokens .group s) :
    groupAt tokens s = of (SimpleBinary.groupAt tokens s) := by
  rw [groupAt, SimpleBinary.groupAt, firstToken_eq h.inRange]
  refine of_bind fun t _ => ?_
  rw [slice_eq (Nat.zero_le _) h.le, of_ok_bind, List.drop_zero, spanAt_eq]
  split
  · rename_i e he
    rw [he]
    rfl
  · rename_i d hd
    obtain ⟨hstart, hlt, hle⟩ := spanAt_bounds hd
    rw [List.length_take_of_le h.le] at hle
    have hstop := h.le
    rw [hd, of_ok_bind, token_eq (by omega)]
    refine of_bind fun first hfirst => ?_
    by_cases hsignal : first.signal ≠ .opens .composite
    · rw [if_pos hsignal, if_pos hsignal]
      rfl
    · have hinside := h.strictlyInside (by decide) hd hfirst (not_not.1 hsignal)
      have hbehind := hinside.2.2
      rw [if_neg hsignal, if_neg hsignal, if_pos hinside,
        dimensionAt_eq (h.inRange.of_inside hinside), minus_eq (by omega)]
      refine of_bind fun dimension _ => ?_
      rw [of_ok_bind, bodyAt_eq s _ _ h.inRange (by dsimp only; omega) (by dsimp only; omega)
        (by dsimp only; omega)]
      exact of_bind fun body _ => rfl
termination_by 2 * s.length + 1

end

/-! ## Whole streams -/

theorem wholeSpan_eq (tokens : List Token) (c : Container) :
    wholeSpan tokens c = of (SimpleBinary.wholeSpan tokens c) := by
  cases tokens with
  | nil => rfl
  | cons first rest =>
    rw [wholeSpan, SimpleBinary.wholeSpan]
    by_cases hsignal : first.signal ≠ .opens c
    · rw [if_pos hsignal, if_pos hsignal]
      rfl
    · rw [if_neg hsignal, if_neg hsignal, spanAt_eq]
      refine of_bind fun s _ => ?_
      by_cases hstop : s.stop ≠ (first :: rest).length
      · rw [if_pos hstop, if_pos hstop]
        rfl
      · rw [if_neg hstop, if_neg hstop]
        rfl

theorem messageLayout_eq (tokens : List Token) :
    messageLayout tokens = of (MessageLayout.ofTokens tokens) := by
  rw [messageLayout, MessageLayout.ofTokens, wholeSpan_eq]
  refine of_bind fun s hs => ?_
  have hclosed := (enclosed_of_wholeSpan hs).1
  have hlt := hclosed.lt
  rw [token_eq (by have := hclosed.le; omega)]
  refine of_bind fun t _ => ?_
  rw [bodyAt_eq s _ _ hclosed.inRange (Nat.lt_succ_self _) (Nat.le_max_right _ _)
    (by simp only [Span.inner]; omega)]
  exact of_bind fun body _ => rfl

theorem compositeLayout_eq (tokens : List Token) :
    compositeLayout tokens = of (CompositeLayout.ofTokens tokens) := by
  rw [compositeLayout, CompositeLayout.ofTokens, wholeSpan_eq]
  exact of_bind fun s hs => compositeAt_eq s (enclosed_of_wholeSpan hs).1.inRange

theorem headerLayout_eq (tokens : List Token) :
    headerLayout tokens = of (HeaderLayout.ofTokens tokens) := by
  rw [headerLayout, HeaderLayout.ofTokens, compositeLayout_eq]
  exact of_bind fun c _ => of_bind fun bl _ => of_bind fun tid _ => of_bind fun sid _ =>
    of_bind fun v _ => rfl

theorem typeLayout_eq (tokens : List Token) :
    typeLayout tokens = of (TypeLayout.ofTokens tokens) := by
  cases tokens with
  | nil => rfl
  | cons first rest =>
    rw [typeLayout, TypeLayout.ofTokens]
    generalize first.signal = signal
    cases signal with
    | encoding => rfl
    | opens c =>
      cases c with
      | composite =>
        dsimp only
        rw [compositeLayout_eq]
        exact of_bind fun c _ => rfl
      | enumeration =>
        dsimp only
        rw [wholeSpan_eq]
        refine of_bind fun s hs => ?_
        rw [enumAt_eq (enclosed_of_wholeSpan hs).1.inRange]
        exact of_bind fun e _ => rfl
      | set =>
        dsimp only
        rw [wholeSpan_eq]
        refine of_bind fun s hs => ?_
        rw [setAt_eq (enclosed_of_wholeSpan hs).1.inRange]
        exact of_bind fun l _ => rfl
      | _ => rfl
    | _ => rfl

end Guarded

/-- Whatever the tokens, a stream is laid out or refused without an access that is out of range:
looking where it reaches changes nothing. -/
theorem guarded_layouts (tokens : List Token) :
    Guarded.messageLayout tokens = some (MessageLayout.ofTokens tokens)
      ∧ Guarded.compositeLayout tokens = some (CompositeLayout.ofTokens tokens)
      ∧ Guarded.typeLayout tokens = some (TypeLayout.ofTokens tokens)
      ∧ Guarded.headerLayout tokens = some (HeaderLayout.ofTokens tokens) :=
  ⟨Guarded.messageLayout_eq tokens, Guarded.compositeLayout_eq tokens,
    Guarded.typeLayout_eq tokens, Guarded.headerLayout_eq tokens⟩

/-- A body that were to reach behind the end of a stream would be noticed. -/
example : Guarded.bodyAt [] ⟨0, 4⟩ ⟨1, 2⟩ 0 "" = none := by
  rw [Guarded.bodyAt]
  rfl

/-- So would a slice that were to start behind its own end. -/
example : Guarded.slice Orders.tokens 2 1 = none := rfl

end SimpleBinary
