import Mathlib
import SimpleBinary.Proofs.Bounds
import SimpleBinary.Proofs.Nesting

/-!
# The grammar of a message

The signals of a balanced stream that is laid out as a message derive from productions
(`MessageForm`): a body is fields, then groups, then var-data, a field holds one type, a group its
header and a body.  No token is passed over, but for one production.  Of var-data just the composite
at its start is looked at, and in that only two encodings, so anything bracketed may stand in it and
behind it (`VarDataOpen`).  The message has the form it should have just if nothing does
(`messageForm_iff_eachVarData`).
-/

namespace SimpleBinary

/-! ## Productions -/

/-- A container around other signals. -/
def bracket (c : Container) (ss : List Signal) : List Signal := .opens c :: (ss ++ [.closes c])

inductive TypeForm : List Signal → Prop
  | encoding : TypeForm [.encoding]
  | composite {types : List (List Signal)} (htypes : ∀ ss ∈ types, TypeForm ss) :
    TypeForm (bracket .composite types.flatten)
  | enumeration (n : Nat) : TypeForm (bracket .enumeration (List.replicate n .validValue))
  | set (n : Nat) : TypeForm (bracket .set (List.replicate n .choice))

def CompositeForm (ss : List Signal) : Prop :=
  ∃ types : List (List Signal), (∀ t ∈ types, TypeForm t) ∧ ss = bracket .composite types.flatten

def FieldForm (ss : List Signal) : Prop := ∃ type, TypeForm type ∧ ss = bracket .field type

def VarDataForm (ss : List Signal) : Prop :=
  ∃ composite, CompositeForm composite ∧ ss = bracket .varData composite

/-- Var-data that starts with a composite in which there is an encoding. -/
def VarDataOpen (ss : List Signal) : Prop :=
  ∃ inside rest, Bracketed inside ∧ .encoding ∈ inside ∧ Bracketed rest
    ∧ ss = bracket .varData (bracket .composite inside ++ rest)

mutual

/-- A body with this production for its var-data and that of its groups. -/
inductive BodyForm (VarData : List Signal → Prop) : List Signal → Prop
  | regions {fields groups varData : List (List Signal)} (hfields : ∀ ss ∈ fields, FieldForm ss)
      (hgroups : ∀ ss ∈ groups, GroupForm VarData ss) (hvarData : ∀ ss ∈ varData, VarData ss) :
    BodyForm VarData (fields.flatten ++ (groups.flatten ++ varData.flatten))

inductive GroupForm (VarData : List Signal → Prop) : List Signal → Prop
  | group {dimension body : List Signal} (hdimension : CompositeForm dimension)
      (hbody : BodyForm VarData body) : GroupForm VarData (bracket .group (dimension ++ body))

end

def MessageForm (VarData : List Signal → Prop) (ss : List Signal) : Prop :=
  ∃ body, BodyForm VarData body ∧ ss = bracket .message body

/-- What opens var-data is followed by one composite of types and by what closes var-data. -/
def EachVarData (ss : List Signal) : Prop :=
  ∀ pre post, ss = pre ++ .opens .varData :: post →
    ∃ inside rest, CompositeForm inside ∧ post = inside ++ .closes .varData :: rest

/-! ## The signals of a span -/

def signalsIn (tokens : List Token) (s : Span) : List Signal :=
  ((tokens.take s.stop).drop s.start).map Token.signal

section Signals

variable {tokens : List Token} {s : Span} {c : Container}

theorem signalsIn_append {i j k : Nat} (hij : i ≤ j) (hjk : j ≤ k) :
    signalsIn tokens ⟨i, k⟩ = signalsIn tokens ⟨i, j⟩ ++ signalsIn tokens ⟨j, k⟩ := by
  unfold signalsIn
  rw [← List.map_append, List.drop_take, List.drop_take, List.drop_take,
    show k - i = (j - i) + (k - j) by omega, List.take_add, List.drop_drop,
    show i + (j - i) = j by omega]

theorem signalsIn_self (i : Nat) : signalsIn tokens ⟨i, i⟩ = [] := by
  unfold signalsIn
  rw [List.drop_take, Nat.sub_self]
  rfl

theorem signalsIn_single {i : Nat} {signal : Signal}
    (h : tokens[i]?.map Token.signal = some signal) :
    signalsIn tokens ⟨i, i + 1⟩ = [signal] := by
  obtain ⟨t, ht, rfl⟩ := Option.map_eq_some_iff.1 h
  obtain ⟨hlt, rfl⟩ := List.getElem?_eq_some_iff.1 ht
  unfold signalsIn
  rw [List.drop_take, Nat.add_sub_cancel_left, List.drop_eq_getElem_cons hlt]
  rfl

theorem signalsIn_whole : signalsIn tokens ⟨0, tokens.length⟩ = tokens.map Token.signal := by
  simp [signalsIn]

theorem Enclosed.signals (h : Enclosed tokens c s) :
    signalsIn tokens s = bracket c (signalsIn tokens ⟨s.start + 1, s.stop - 1⟩) := by
  obtain ⟨t, ht, hsignal, -⟩ := h.first
  have hlt := h.lt
  have hfirst : tokens[s.start]?.map Token.signal = some (.opens c) := by
    rw [ht, Option.map_some, hsignal]
  have hlast := signalsIn_single h.last
  rw [show s.stop - 1 + 1 = s.stop by omega] at hlast
  have hsplit : signalsIn tokens s = signalsIn tokens ⟨s.start, s.start + 1⟩
      ++ (signalsIn tokens ⟨s.start + 1, s.stop - 1⟩ ++ signalsIn tokens ⟨s.stop - 1, s.stop⟩) := by
    rw [← signalsIn_append (by omega) (by omega), ← signalsIn_append (by omega) (by omega)]
  rw [hsplit, signalsIn_single hfirst, hlast]
  rfl

/-- Spans one behind the other have the signals of the range that they fill. -/
theorem Successive.signals : ∀ {ss : List Span} {i j : Nat}, Successive tokens i ss j →
    i ≤ j ∧ signalsIn tokens ⟨i, j⟩ = (ss.map (signalsIn tokens)).flatten
  | [], i, j, h => by
    obtain rfl : i = j := h
    exact ⟨le_rfl, signalsIn_self i⟩
  | s :: ss, i, j, ⟨hstart, t, _, _, hstop, h⟩ => by
    obtain ⟨hle, hsignals⟩ := h.signals
    have hs : s = ⟨i, s.stop⟩ := by rw [← hstart]
    refine ⟨by omega, ?_⟩
    rw [List.map_cons, List.flatten_cons, ← hsignals, hs]
    exact signalsIn_append (by omega) hle

theorem spansWhile_stop_eq {i j : Nat} (h : i ≤ tokens.length)
    (hj : (spansWhile (fun _ => true) tokens i).2 = .ok j) : j = tokens.length := by
  fun_induction spansWhile (fun _ => true) tokens i with
  | case1 i hi =>
    cases hj
    exact le_antisymm h (List.getElem?_eq_none_iff.1 hi)
  | case2 i t ht hp e he => simp at hj
  | case3 i t ht hp s hs rest ih => exact ih (spanAt_bounds hs).2.2 hj
  | case4 i t ht hp => exact absurd rfl hp

theorem exists_of_members {body : Span} {spans : List Span} (h : members tokens body = .ok spans) :
    ∃ j, (spansWhile (fun _ => true) (tokens.take body.stop) body.start).1 = spans
      ∧ (spansWhile (fun _ => true) (tokens.take body.stop) body.start).2 = .ok j := by
  unfold members at h
  cases hs : (spansWhile (fun _ => true) (tokens.take body.stop) body.start).2 with
  | error e => simp [hs, Except.map] at h
  | ok j =>
    simp only [hs, Except.map, Except.ok.injEq] at h
    exact ⟨j, h, rfl⟩

/-- The spans inside a composite fill it. -/
theorem signalsIn_members {body : Span} {spans : List Span} (h : members tokens body = .ok spans)
    (hle : body.start ≤ body.stop) (hstop : body.stop ≤ tokens.length) :
    signalsIn tokens body = (spans.map (signalsIn tokens)).flatten := by
  obtain ⟨j, rfl, hj⟩ := exists_of_members h
  have hsuccessive := (successive_spansWhile hj).of_take
  have hlength := List.length_take_of_le hstop
  rw [spansWhile_stop_eq (by rwa [hlength]) hj, hlength] at hsuccessive
  exact hsuccessive.signals.2

theorem spanAt_of_mem_members {body : Span} {spans : List Span}
    (h : members tokens body = .ok spans) (hs : s ∈ spans) :
    spanAt (tokens.take body.stop) s.start = .ok s := by
  obtain ⟨j, rfl, -⟩ := exists_of_members h
  exact (spanAt_of_mem_spansWhile hs).1

end Signals

/-! ## Types -/

section Types

variable {tokens : List Token} {s : Span}

/-- The tokens in a span that a run of steps went through all have one signal. -/
theorem signalsIn_of_mapM {α : Type} {signal : Signal} {f : Token → Nat → Except SchemaError α}
    {as : List α} (hf : ∀ t i a, f t i = .ok a → t.signal = signal)
    (h : ((numbered tokens s).mapM fun (t, i) => f t i) = .ok as) :
    signalsIn tokens s = List.replicate (signalsIn tokens s).length signal := by
  rw [List.eq_replicate_iff]
  refine ⟨rfl, fun r hr => ?_⟩
  obtain ⟨t, ht, rfl⟩ := List.mem_map.1 hr
  obtain ⟨i, hi⟩ : ∃ i, (t, i) ∈ numbered tokens s := by
    obtain ⟨k, hk, rfl⟩ := List.getElem_of_mem ht
    exact ⟨s.start + k, List.mk_add_mem_zipIdx_iff_getElem?.2 (List.getElem?_eq_getElem hk)⟩
  obtain ⟨a, ha⟩ := exists_of_mapM h hi
  exact hf t i a ha

theorem Enclosed.inner_eq {c : Container} (h : Enclosed tokens c s) :
    s.inner = ⟨s.start + 1, s.stop - 1⟩ := by
  have hlt := h.lt
  rw [Span.inner, Nat.max_eq_left (by omega)]

theorem typeForm_of_enumAt {e : EnumLayout} (hs : Enclosed tokens .enumeration s)
    (h : enumAt tokens s = .ok e) : TypeForm (signalsIn tokens s) := by
  obtain ⟨t, -, h⟩ := bind_eq_ok_iff.1 h
  split at h
  · exact absurd h throw_ne_ok
  · obtain ⟨values, hvalues, -⟩ := bind_eq_ok_iff.1 h
    rw [hs.inner_eq] at hvalues
    rw [hs.signals, signalsIn_of_mapM (fun t i v hv => ?_) hvalues]
    · exact .enumeration _
    · unfold enumValueOf at hv
      by_contra hne
      rw [if_pos hne] at hv
      cases hv

theorem typeForm_of_setAt {l : SetLayout} (hs : Enclosed tokens .set s)
    (h : setAt tokens s = .ok l) : TypeForm (signalsIn tokens s) := by
  obtain ⟨t, -, h⟩ := bind_eq_ok_iff.1 h
  split at h
  · exact absurd h throw_ne_ok
  · obtain ⟨choices, hchoices, -⟩ := bind_eq_ok_iff.1 h
    rw [hs.inner_eq] at hchoices
    rw [hs.signals, signalsIn_of_mapM (fun t i c hc => ?_) hchoices]
    · exact .set _
    · unfold choiceOf at hc
      by_contra hne
      rw [if_pos hne] at hc
      cases hc

/-- A leaf counts itself. -/
theorem Nested.leaf_count {ts : List Token} (h : Nested ts) :
    ∀ t ∈ ts, t.signal = .encoding → t.componentTokenCount = 1 := by
  unfold Nested at h
  induction h with
  | nil => simp
  | leaf ho hc hn _ ih => exact List.forall_mem_cons.2 ⟨fun _ => hn, ih⟩
  | container hfirst hlast hn _ _ ihinside ihrest =>
    refine List.forall_mem_cons.2 ⟨fun h => ?_, ?_⟩
    · rw [hfirst] at h
      cases h
    · refine List.forall_mem_append.2 ⟨ihinside, List.forall_mem_cons.2 ⟨fun h => ?_, ihrest⟩⟩
      rw [hlast] at h
      cases h

/-- A composite derives from the productions if the types in it do. -/
theorem kindSteps_form (hn : Nested tokens) : KindSteps tokens
    (fun s _ => ∀ n, spanAt (tokens.take n) s.start = .ok s → TypeForm (signalsIn tokens s))
    fun s _ => Enclosed tokens .composite s → CompositeForm (signalsIn tokens s) where
  encoding := by
    intro s t p ht hsignal _ n hs
    obtain ⟨u, hu, -, hspan⟩ := exists_of_spanAt (spanAt_of_take hs)
    have hget := getElem?_of_tokenAt ht
    have hcount := hn.leaf_count t (List.mem_of_getElem? hget) hsignal
    obtain rfl : t = u := Option.some.inj (hget.symm.trans hu)
    rw [hspan, hcount, signalsIn_single (by rw [hget, Option.map_some, hsignal])]
    exact .encoding
  enumeration ht hsignal he _ hs := typeForm_of_enumAt (enclosed_of_spanAt_take hs ht hsignal) he
  set ht hsignal hl _ hs := typeForm_of_setAt (enclosed_of_spanAt_take hs ht hsignal) hl
  composite := by
    intro s t c ht hsignal hform n hs
    obtain ⟨types, htypes, heq⟩ := hform (enclosed_of_spanAt_take hs ht hsignal)
    rw [heq]
    exact .composite htypes
  members := by
    intro s t spans kinds _ hspans hkinds hs
    refine ⟨spans.map (signalsIn tokens), fun ss hss => ?_, ?_⟩
    · obtain ⟨m, hm, rfl⟩ := List.mem_map.1 hss
      obtain ⟨k, -, -, hform⟩ := exists_of_mem_forall₂ hkinds m hm
      exact hform _ (spanAt_of_mem_members hspans hm)
    · rw [hs.signals, ← hs.inner_eq,
        signalsIn_members hspans (Nat.le_max_right _ _) hs.inRange.inner_le]

end Types

/-! ## Bodies -/

section Bodies

variable {tokens : List Token} {s : Span}

theorem fieldForm_of_fieldAt (hn : Nested tokens) {cursor : Nat} {f : FieldLayout}
    (hs : Enclosed tokens .field s) (h : fieldAt tokens s cursor = .ok f) :
    FieldForm (signalsIn tokens s) := by
  obtain ⟨t, -, h⟩ := bind_eq_ok_iff.1 h
  obtain ⟨type, htype, h⟩ := bind_eq_ok_iff.1 h
  split at h
  · exact absurd h throw_ne_ok
  · rename_i hstop
    obtain ⟨kind, hk, -⟩ := bind_eq_ok_iff.1 h
    have hstart := (spanAt_bounds htype).1
    have hform := (kindSteps_form hn).of_kindAt type hk _ (by rw [hstart]; exact htype)
    refine ⟨_, hform, ?_⟩
    rw [hs.signals, ← hstart, ← not_not.1 hstop]

theorem fieldForm_of_fieldsAt (hn : Nested tokens) : ∀ {ss : List Span} {cursor : Nat}
    {fields : List FieldLayout}, (∀ s ∈ ss, Enclosed tokens .field s) →
    fieldsAt tokens cursor ss = .ok fields → ∀ s ∈ ss, FieldForm (signalsIn tokens s)
  | [], _, _, _, _ => by simp
  | s :: ss, cursor, fields, hs, h => by
    obtain ⟨f, hf, h⟩ := bind_eq_ok_iff.1 h
    obtain ⟨fs, hfs, -⟩ := bind_eq_ok_iff.1 h
    obtain ⟨hs, hss⟩ := List.forall_mem_cons.1 hs
    exact List.forall_mem_cons.2
      ⟨fieldForm_of_fieldAt hn hs hf, fieldForm_of_fieldsAt hn hss hfs⟩

theorem compositeForm_of_dimensionAt (hn : Nested tokens) {d : DimensionLayout}
    (hs : Enclosed tokens .composite s) (h : dimensionAt tokens s = .ok d) :
    CompositeForm (signalsIn tokens s) := by
  obtain ⟨c, hc, -⟩ := bind_eq_ok_iff.1 h
  exact (kindSteps_form hn).of_compositeAt s hc hs

theorem encoding_mem_of_encodingNamed {container name : String} {t : Token} {i : Nat}
    (h : encodingNamed tokens container s name = .ok (t, i)) : .encoding ∈ signalsIn tokens s := by
  unfold encodingNamed at h
  split at h
  · rename_i r hr
    cases h
    have hsignal := List.find?_some hr
    have hmem := List.mem_of_find?_eq_some hr
    rw [numbered, List.mem_zipIdx_iff_le_and_getElem?_sub] at hmem
    simp only [Bool.and_eq_true, beq_iff_eq] at hsignal
    rw [← hsignal.1]
    exact List.mem_map_of_mem (List.mem_of_getElem? hmem.2)
  · simp at h

theorem HasAt.signals {ts : List Token} (h : HasAt tokens s.start ts)
    (hstop : s.stop = s.start + ts.length) : signalsIn tokens s = ts.map Token.signal := by
  unfold signalsIn
  rw [hstop, h.slice]

/-- What opens a composite at the start of items begins one of them. -/
theorem Nested.exists_composite {ts : List Token} (h : Nested ts) {last t : Token} {c : Container}
    (hlast : last.signal = .closes c) (ht : (ts ++ [last])[0]? = some t)
    (hsignal : t.signal = .opens .composite) : ∃ inside close rest,
      ts = t :: (inside ++ close :: rest) ∧ close.signal = .closes .composite ∧ Nested inside
        ∧ Nested rest ∧ t.componentTokenCount = inside.length + 2 := by
  unfold Nested at h
  cases h with
  | nil =>
    cases ht
    rw [hlast] at hsignal
    cases hsignal
  | leaf ho =>
    cases ht
    rw [hsignal] at ho
    cases ho
  | @container first close inside rest c' hfirst hclose hn hinside hrest =>
    cases ht
    rw [hfirst, Signal.opens.injEq] at hsignal
    subst hsignal
    exact ⟨inside, close, rest, rfl, hclose, hinside, hrest, hn⟩

/-- The composite at the start of var-data, and whatever stands behind it. -/
theorem varDataOpen_of_varDataAt (hn : Nested tokens) {d : VarDataLayout}
    (hs : Enclosed tokens .varData s) (h : varDataAt tokens s = .ok d) :
    VarDataOpen (signalsIn tokens s) := by
  obtain ⟨t, -, h⟩ := bind_eq_ok_iff.1 h
  obtain ⟨c, hc, h⟩ := bind_eq_ok_iff.1 h
  obtain ⟨composite, hcomposite, h⟩ := bind_eq_ok_iff.1 h
  split at h
  · exact absurd h throw_ne_ok
  · rename_i hsignal
    obtain ⟨⟨length, i⟩, hlength, -⟩ := bind_eq_ok_iff.1 h
    obtain ⟨opener, hopener, hvarData, hstop⟩ := hs.first
    obtain ⟨first, inside, last, c', hat, hfirst, hlast, hinside, hcount⟩ :=
      hn.exists_container ⟨opener, .varData, hopener, hvarData⟩
    rw [hat.getElem?, Option.some.injEq] at hopener
    subst hopener
    rw [hfirst, Signal.opens.injEq] at hvarData
    subst hvarData
    have hwhole : s.stop = s.start + (first :: (inside ++ [last])).length := by
      simp only [List.length_cons, List.length_append, List.length_nil]
      omega
    have hclosed := enclosed_of_spanAt_take hc hcomposite (not_not.1 hsignal)
    have hstart := (spanAt_bounds hc).1
    -- the composite that the length is looked for in is the first item of the var-data
    have hget : (inside ++ [last])[0]? = some composite := by
      rw [← hat.tail.getElem?_add (by simp), Nat.add_zero, ← hstart]
      exact getElem?_of_tokenAt hcomposite
    obtain ⟨members, close, rest, rfl, hclose, hmembers, hrest, hcount'⟩ :=
      hinside.exists_composite hlast hget (not_not.1 hsignal)
    have hinner : signalsIn tokens c.inner = members.map Token.signal := by
      obtain ⟨t', ht', -, hstop'⟩ := hclosed.first
      rw [getElem?_of_tokenAt hcomposite, Option.some.injEq] at ht'
      subst ht'
      rw [hclosed.inner_eq, hstart]
      refine HasAt.signals hat.tail.left.tail.left ?_
      dsimp only
      omega
    refine ⟨members.map Token.signal, rest.map Token.signal, hmembers.bracketed, ?_,
      hrest.bracketed, ?_⟩
    · rw [← hinner]
      exact encoding_mem_of_encodingNamed hlength
    · rw [hat.signals hwhole]
      simp [bracket, hfirst, hlast, hclose, not_not.1 hsignal]

/-- A body derives from the productions, with var-data left open, if its groups do. -/
theorem bodySteps_form (hn : Nested tokens) :
    BodySteps tokens (fun s _ => BodyForm VarDataOpen (signalsIn tokens s))
      fun s _ => Enclosed tokens .group s → GroupForm VarDataOpen (signalsIn tokens s) where
  body := by
    intro body blockLength spans fields groups varData hspans hfields hgroups hvarData _
    obtain ⟨hf, hg, hd, -⟩ := elements_of_splitBody hspans
    obtain ⟨i, j, hi, hj, hk⟩ := successive_splitBody hspans
    obtain ⟨hi, hfill⟩ := hi.signals
    obtain ⟨hj, hfill'⟩ := hj.signals
    obtain ⟨hk, hfill''⟩ := hk.signals
    rw [show body = ⟨body.start, body.stop⟩ from rfl, signalsIn_append hi (hj.trans hk),
      signalsIn_append hj hk, hfill, hfill', hfill'']
    refine .regions ?_ ?_ ?_
    · exact List.forall_mem_map.2 (fieldForm_of_fieldsAt hn hf hfields)
    · refine List.forall_mem_map.2 fun s hs => ?_
      obtain ⟨g, -, hform⟩ := exists_of_mem_forall₂ hgroups s hs
      exact hform (hg s hs)
    · refine List.forall_mem_map.2 fun s hs => ?_
      obtain ⟨d, hd'⟩ := exists_of_mapM hvarData hs
      exact varDataOpen_of_varDataAt hn (hd s hs) hd'
  group := by
    intro s d t first dimension body _ hd hfirst hsignal hdimension _ hbody hs
    have hclosed := enclosed_of_spanAt_take hd hfirst hsignal
    have hinside := hs.strictlyInside (by decide) hd hfirst hsignal
    have hstart := (spanAt_bounds hd).1
    have hparts : signalsIn tokens ⟨s.start + 1, s.stop - 1⟩
        = signalsIn tokens d ++ signalsIn tokens ⟨d.stop, s.stop - 1⟩ := by
      rw [show d = ⟨s.start + 1, d.stop⟩ by rw [← hstart]]
      unfold Span.StrictlyInside at hinside
      exact signalsIn_append (by omega) (by omega)
    rw [hs.signals, hparts]
    exact .group (compositeForm_of_dimensionAt hn hclosed hdimension) hbody

/-- The signals of a message that is laid out, with its var-data left open. -/
theorem messageForm_of_ofTokens (hn : Nested tokens) {m : MessageLayout}
    (h : MessageLayout.ofTokens tokens = .ok m) :
    MessageForm VarDataOpen (tokens.map Token.signal) := by
  obtain ⟨s, t, hs, -, hbody, -⟩ := MessageLayout.exists_bodyAt h
  obtain ⟨hclosed, hwhole⟩ := enclosed_of_wholeSpan hs
  refine ⟨_, (bodySteps_form hn).of_bodyAt _ hbody, ?_⟩
  rw [hclosed.inner_eq, ← hclosed.signals, hwhole, signalsIn_whole]

end Bodies

/-! ## Var-data that holds just a composite -/

theorem Bracketed.bracket {ss : List Signal} (h : Bracketed ss) (c : Container) :
    Bracketed (bracket c ss) :=
  .container (c := c) rfl rfl trivial h .nil

theorem bracketed_flatten : ∀ {sss : List (List Signal)}, (∀ ss ∈ sss, Bracketed ss) →
    Bracketed sss.flatten
  | [], _ => .nil
  | ss :: sss, h => by
    obtain ⟨hss, hsss⟩ := List.forall_mem_cons.1 h
    exact hss.append (bracketed_flatten hsss)

theorem bracketed_replicate {signal : Signal} (ho : signal.closing? = none)
    (hc : signal.opening? = none) : ∀ n, Bracketed (List.replicate n signal)
  | 0 => .nil
  | n + 1 => .leaf ho hc trivial (bracketed_replicate ho hc n)

theorem TypeForm.bracketed {ss : List Signal} (h : TypeForm ss) : Bracketed ss := by
  induction h with
  | encoding => exact .leaf rfl rfl trivial .nil
  | composite _ ih => exact (bracketed_flatten ih).bracket _
  | enumeration n => exact (bracketed_replicate rfl rfl n).bracket _
  | set n => exact (bracketed_replicate rfl rfl n).bracket _

theorem CompositeForm.typeForm {ss : List Signal} (h : CompositeForm ss) : TypeForm ss := by
  obtain ⟨types, htypes, rfl⟩ := h
  exact .composite htypes

theorem TypeForm.not_mem {ss : List Signal} (h : TypeForm ss) : .opens .varData ∉ ss := by
  induction h with
  | encoding => decide
  | composite _ ih =>
    simp only [bracket, List.mem_cons, List.mem_append, List.mem_flatten, List.not_mem_nil]
    rintro (h | ⟨ss, hss, h⟩ | h | h)
    · cases h
    · exact ih ss hss h
    · cases h
    · cases h
  | enumeration n => simp [bracket]
  | set n => simp [bracket]

theorem eachVarData_of_not_mem {ss : List Signal} (h : .opens .varData ∉ ss) : EachVarData ss := by
  rintro pre post rfl
  simp at h

theorem EachVarData.append {ss ss' : List Signal} (h : EachVarData ss) (h' : EachVarData ss') :
    EachVarData (ss ++ ss') := by
  intro pre post heq
  rcases List.append_eq_append_iff.1 heq with ⟨mid, rfl, hmid⟩ | ⟨mid, rfl, hmid⟩
  · exact h' mid post hmid
  · rcases List.cons_eq_append_iff.1 hmid with ⟨rfl, hmid⟩ | ⟨mid, rfl, rfl⟩
    · exact h' [] post hmid.symm
    · obtain ⟨inside, rest, hinside, rfl⟩ := h pre mid rfl
      exact ⟨inside, rest ++ ss', hinside, by simp⟩

theorem eachVarData_flatten : ∀ {sss : List (List Signal)}, (∀ ss ∈ sss, EachVarData ss) →
    EachVarData sss.flatten
  | [], _ => eachVarData_of_not_mem (by simp)
  | ss :: sss, h => by
    obtain ⟨hss, hsss⟩ := List.forall_mem_cons.1 h
    exact hss.append (eachVarData_flatten hsss)

theorem EachVarData.bracket {ss : List Signal} (h : EachVarData ss) {c : Container}
    (hc : c ≠ .varData) : EachVarData (bracket c ss) := by
  have hopen : EachVarData [.opens c] := eachVarData_of_not_mem (by simpa using Ne.symm hc)
  have hclose : EachVarData [.closes c] := eachVarData_of_not_mem (by simp)
  exact hopen.append (h.append hclose)

theorem FieldForm.eachVarData {ss : List Signal} (h : FieldForm ss) : EachVarData ss := by
  obtain ⟨type, htype, rfl⟩ := h
  exact (eachVarData_of_not_mem htype.not_mem).bracket (by decide)

theorem VarDataForm.eachVarData {ss : List Signal} (h : VarDataForm ss) : EachVarData ss := by
  obtain ⟨composite, hcomposite, rfl⟩ := h
  intro pre post heq
  rcases List.cons_eq_append_iff.1 heq with ⟨-, heq⟩ | ⟨pre, -, heq⟩
  · cases heq
    exact ⟨composite, [], hcomposite, rfl⟩
  · have hmem : .opens .varData ∈ composite ++ [.closes .varData] := by
      rw [heq]
      simp
    simp only [List.mem_append, List.mem_singleton] at hmem
    rcases hmem with hmem | hmem
    · exact absurd hmem hcomposite.typeForm.not_mem
    · cases hmem

mutual

theorem BodyForm.eachVarData : ∀ {ss : List Signal}, BodyForm VarDataForm ss → EachVarData ss
  | _, .regions hfields hgroups hvarData =>
    (eachVarData_flatten fun ss hss => (hfields ss hss).eachVarData).append
      ((eachVarData_flatten fun ss hss => GroupForm.eachVarData (hgroups ss hss)).append
        (eachVarData_flatten fun ss hss => (hvarData ss hss).eachVarData))

theorem GroupForm.eachVarData : ∀ {ss : List Signal}, GroupForm VarDataForm ss → EachVarData ss
  | _, .group hdimension hbody =>
    ((eachVarData_of_not_mem hdimension.typeForm.not_mem).append
      (BodyForm.eachVarData hbody)).bracket (by decide)

end

theorem infix_bracket (c : Container) (ss : List Signal) : ss <:+: bracket c ss :=
  ⟨[.opens c], [.closes c], rfl⟩

mutual

/-- A production for var-data may give way to another one that holds wherever it was used. -/
theorem BodyForm.imp {V V' : List Signal → Prop} : ∀ {ss : List Signal}, BodyForm V ss →
    (∀ u, V u → u <:+: ss → V' u) → BodyForm V' ss
  | _, .regions hfields hgroups hvarData, hv => by
    refine .regions hfields (fun ss hss => GroupForm.imp (hgroups ss hss) fun u hu hin => ?_)
      fun ss hss => hv ss (hvarData ss hss) ?_
    · refine hv u hu (hin.trans ?_)
      exact (List.infix_of_mem_flatten hss).trans (List.infix_append' _ _ _)
    · exact (List.infix_of_mem_flatten hss).trans
        ((List.suffix_append _ _).trans (List.suffix_append _ _)).isInfix

theorem GroupForm.imp {V V' : List Signal → Prop} : ∀ {ss : List Signal}, GroupForm V ss →
    (∀ u, V u → u <:+: ss → V' u) → GroupForm V' ss
  | _, .group hdimension hbody, hv => by
    refine .group hdimension (BodyForm.imp hbody fun u hu hin => hv u hu (hin.trans ?_))
    exact (List.suffix_append _ _).isInfix.trans (infix_bracket .group _)

end

/-- Var-data that was left open is a composite if it is in a message in which all var-data is. -/
theorem varDataForm_of_eachVarData {ss u : List Signal} (h : EachVarData ss) (hu : VarDataOpen u)
    (hpart : u <:+: ss) : VarDataForm u := by
  obtain ⟨inside, rest, hinside, -, hrest, rfl⟩ := hu
  obtain ⟨pre, post, rfl⟩ := hpart
  obtain ⟨composite, rest', hcomposite, heq⟩ :=
    h pre ((bracket .composite inside ++ rest) ++ .closes .varData :: post) (by simp [bracket])
  have hbracketed : Bracketed (bracket .composite inside ++ rest) :=
    (hinside.bracket .composite).append hrest
  exact ⟨composite, hcomposite,
    congrArg _ (hbracketed.eq_of_append hcomposite.typeForm.bracketed heq)⟩

/-- A balanced stream that is laid out as a message derives from the productions, with its var-data
left open; it is of the form that a message should have just if all of its var-data is. -/
theorem messageForm_iff_eachVarData {tokens : List Token} {m : MessageLayout}
    (hbalanced : checkBalanced tokens = .ok ()) (h : MessageLayout.ofTokens tokens = .ok m) :
    MessageForm VarDataOpen (tokens.map Token.signal)
      ∧ (MessageForm VarDataForm (tokens.map Token.signal)
        ↔ EachVarData (tokens.map Token.signal)) := by
  obtain ⟨body, hbody, heq⟩ := messageForm_of_ofTokens (checkBalanced_eq_ok_iff.1 hbalanced) h
  refine ⟨⟨body, hbody, heq⟩, ?_, fun heach => ⟨body, hbody.imp fun u hu hpart => ?_, heq⟩⟩
  · rintro ⟨body, hbody, heq⟩
    rw [heq]
    exact hbody.eachVarData.bracket (by decide)
  · refine varDataForm_of_eachVarData heach hu (hpart.trans ?_)
    rw [heq]
    exact infix_bracket .message body

namespace Notes

/-- A message of one var-data, with its length at a place and with types behind its composite. -/
def tokensWith (place : Nat) (behind : List Token) : List Token :=
  Orders.around .message "Note" 0 {} (
    Orders.around .varData "text" 0 {} (
      Orders.around .composite "varDataEncoding" 0 {}
        [{ signal := .encoding, name := "length", offset := place,
           encoding := Orders.encoding .uint8 },
         { signal := .encoding, name := "varData", encoding := Orders.encoding .uint8 }]
      ++ behind))

def text (place : Nat) : VarDataLayout where
  name := "text"
  id := -1
  sinceVersion := 0
  typeName := "varDataEncoding"
  length := ⟨.uint8, .littleEndian, place⟩
  characterEncoding := none
  description := none

def message (place : Nat) : MessageLayout where
  name := "Note"
  id := -1
  sinceVersion := 0
  semanticType := none
  description := none
  body := ⟨0, [], [], [text place]⟩

/-- A second type behind the composite. -/
def stray : Token := { signal := .encoding, name := "stray", encoding := Orders.encoding .uint8 }

def strayTokens : List Token := tokensWith 0 [stray]

theorem ofTokens_strayTokens : MessageLayout.ofTokens strayTokens = .ok (message 0) := by
  have hs : splitBody strayTokens ⟨1, 8⟩ = .ok ⟨[], [], [⟨1, 8⟩]⟩ := by cbv
  have hb : bodyAt strayTokens ⟨1, 8⟩ 0 "Note" = .ok (message 0).body :=
    (bodyAt_of_spans hs (by cbv) rfl (by cbv)).trans (by cbv)
  have hw : wholeSpan strayTokens .message = .ok ⟨0, 9⟩ := by cbv
  have ht : tokenAt strayTokens 0 = .ok {
      signal := .opens .message, name := "Note", componentTokenCount := 9 } := rfl
  rw [MessageLayout.ofTokens, hw, ok_bind, ht, ok_bind, show Span.inner ⟨0, 9⟩ = ⟨1, 8⟩ from rfl,
    hb]
  rfl

/-- The second type is passed over: the message is laid out and has not the form it should. -/
theorem not_messageForm_strayTokens : checkBalanced strayTokens = .ok ()
    ∧ MessageLayout.ofTokens strayTokens = .ok (message 0)
    ∧ ¬ MessageForm VarDataForm (strayTokens.map Token.signal) := by
  have hbalanced : checkBalanced strayTokens = .ok () := by rfl
  refine ⟨hbalanced, ofTokens_strayTokens, fun h => ?_⟩
  have heach := (messageForm_iff_eachVarData hbalanced ofTokens_strayTokens).2.1 h
  let inside : List Signal := bracket .composite [.encoding, .encoding] ++ [.encoding]
  have hinside : Bracketed inside :=
    ((bracketed_replicate rfl rfl 2).bracket _).append (bracketed_replicate rfl rfl 1)
  obtain ⟨composite, rest, hcomposite, heq⟩ :=
    heach [.opens .message] (inside ++ [.closes .varData, .closes .message]) rfl
  have hsame := hinside.eq_of_append hcomposite.typeForm.bracketed heq
  obtain ⟨types, -, rfl⟩ := hcomposite
  have hlast := congrArg List.getLast? hsame
  rw [bracket, ← List.cons_append, List.getLast?_concat, List.getLast?_concat] at hlast
  cases hlast

end Notes

end SimpleBinary
