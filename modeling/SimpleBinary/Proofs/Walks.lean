import Mathlib
import SimpleBinary.Layout.OfTokens
import SimpleBinary.Proofs.Outcomes

/-!
# Walks along the spans

Composites and bodies are read span by span, and what is read of a span inside another is read of
fewer tokens.  So what holds of every type because it holds of the types inside it holds of all that
`kindAt` and `compositeAt` read (`KindSteps`), and what holds of every body because it holds of its
groups holds of all that `bodyAt` and `groupAt` read (`BodySteps`).  The readings themselves are put
together of those of their parts (`compositeAt_of_members`, `bodyAt_of_spans`, `groupAt_of_body`); the
parts of a body come in order, so the check of their order never fails
(`BodyLayout.ofElements_eq_ofRegions`).
-/

namespace SimpleBinary

variable {tokens : List Token}

/-! ## Spans inside a span -/

theorem length_lt_of_mem_members {s : Span} {spans : List Span}
    (h : members tokens s.inner = .ok spans) {r : Span} (hr : r ∈ spans) :
    2 * r.length + 1 < 2 * s.length := by
  have := mem_members_bounds h hr
  simp only [Span.inner, Span.length] at *
  omega

theorem length_lt_of_mem_groups {s : Span} {spans : BodySpans} (h : splitBody tokens s = .ok spans)
    {r : Span} (hr : r ∈ spans.groups) : 2 * r.length < 2 * s.length + 1 := by
  have := splitBody_bounds h hr
  simp only [Span.length]
  omega

/-- The body of a group is shorter than the group. -/
theorem length_body_lt {s d : Span} (h : spanAt (tokens.take s.stop) (s.start + 1) = .ok d) :
    2 * (Span.mk d.stop (s.stop - 1)).length + 1 < 2 * s.length := by
  have := spanAt_bounds h
  simp only [Span.length, List.length_take] at *
  omega

/-! ## Elements in order -/

namespace BodyLayout

theorem pairwise_rank_elements (b : BodyLayout) :
    b.elements.Pairwise fun e e' => e.rank ≤ e'.rank := by
  have hsame : ∀ {α : Type} (f : α → BodyElement) (n : Nat), (∀ x, (f x).rank = n) →
      ∀ xs : List α, (xs.map f).Pairwise fun e e' => e.rank ≤ e'.rank := by
    intro α f n hf xs
    refine List.pairwise_map.2 (List.pairwise_of_forall fun x y => ?_)
    rw [hf, hf]
  unfold elements
  refine List.pairwise_append.2 ⟨List.pairwise_append.2 ⟨hsame _ 0 (fun _ => rfl) _,
    hsame _ 1 (fun _ => rfl) _, ?_⟩, hsame _ 2 (fun _ => rfl) _, ?_⟩
  · intro e he e' he'
    obtain ⟨f, -, rfl⟩ := List.mem_map.1 he
    exact Nat.zero_le _
  · intro e he e' he'
    obtain ⟨d, -, rfl⟩ := List.mem_map.1 he'
    rcases List.mem_append.1 he with he | he
    · obtain ⟨f, -, rfl⟩ := List.mem_map.1 he
      exact Nat.zero_le _
    · obtain ⟨g, -, rfl⟩ := List.mem_map.1 he
      exact Nat.le_succ 1

theorem outOfOrder?_eq_none_iff : ∀ {es : List BodyElement},
    outOfOrder? es = none ↔ es.IsChain fun e e' => e.rank ≤ e'.rank
  | [] => by simp [outOfOrder?]
  | [_] => by simp [outOfOrder?]
  | a :: b :: rest => by
    rw [outOfOrder?, List.isChain_cons_cons, ← outOfOrder?_eq_none_iff]
    split
    · rename_i hlt
      simp [not_le.2 hlt]
    · rename_i hle
      exact (and_iff_right (not_lt.1 hle)).symm

/-- Regions one behind the other are in order, so a body of them is refused only for its fields. -/
theorem ofElements_eq_ofRegions (owner : String) (blockLength : Nat) (fields : List FieldLayout)
    (groups : List GroupLayout) (varData : List VarDataLayout) :
    ofElements owner blockLength (fields.map .field ++ groups.map .group ++ varData.map .varData)
      = ofRegions owner blockLength fields groups varData := by
  have horder : outOfOrder? (fields.map .field ++ groups.map .group ++ varData.map .varData) = none :=
    outOfOrder?_eq_none_iff.2
      (pairwise_rank_elements ⟨blockLength, fields, groups, varData⟩).isChain
  rw [ofElements, horder]
  simp [List.filterMap_append, List.filterMap_map]

end BodyLayout

/-! ## Layouts from the parts of a stream -/

theorem compositeAt_eq (tokens : List Token) (s : Span) :
    compositeAt tokens s = (do
      let t ← tokenAt tokens s.start
      let spans ← members tokens s.inner
      let kinds ← spans.mapM fun m => do return (← tokenAt tokens m.start, ← kindAt tokens m)
      return .ofMembers t kinds) := by
  rw [compositeAt]
  refine bind_congr fun t => ?_
  split
  · rename_i e he
    rw [he]
    rfl
  · rename_i spans hs
    rw [hs, ok_bind, List.mapM_subtype
      (g := fun m => do return (← tokenAt tokens m.start, ← kindAt tokens m)) fun _ _ => rfl,
      List.unattach_attach]

theorem bodyAt_eq (tokens : List Token) (s : Span) (blockLength : Nat) (owner : String) :
    bodyAt tokens s blockLength owner = (do
      let spans ← splitBody tokens s
      let fields ← fieldsAt tokens 0 spans.fields
      let groups ← spans.groups.mapM (groupAt tokens)
      let varData ← spans.varData.mapM (varDataAt tokens)
      BodyLayout.ofRegions owner blockLength fields groups varData) := by
  rw [bodyAt]
  split
  · rename_i e he
    rw [he]
    rfl
  · rename_i spans hs
    simp only [BodyLayout.ofElements_eq_ofRegions]
    rw [hs, ok_bind, List.mapM_subtype (g := groupAt tokens) fun _ _ => rfl, List.unattach_attach]

theorem groupAt_eq (tokens : List Token) (s : Span) :
    groupAt tokens s = (do
      let t ← tokenAt tokens s.start
      let d ← spanAt (tokens.take s.stop) (s.start + 1)
      let first ← tokenAt tokens d.start
      if first.signal ≠ .opens .composite then throw (.malformed d.start (.noDimension t.name))
      let dimension ← dimensionAt tokens d
      let body ← bodyAt tokens ⟨d.stop, s.stop - 1⟩ t.encodedLength t.name
      return ⟨t.name, t.id, t.version, dimension, body, t.description⟩) := by
  rw [groupAt]
  refine bind_congr fun t => ?_
  split
  · rename_i e he
    rw [he]
    rfl
  · rename_i d hd
    rw [hd, ok_bind]

theorem compositeAt_of_members {s : Span} {t : Token} {spans : List Span}
    {kinds : List (Token × FieldKind)} (ht : tokenAt tokens s.start = .ok t)
    (hs : members tokens s.inner = .ok spans)
    (hk : spans.mapM (fun m => do return (← tokenAt tokens m.start, ← kindAt tokens m))
      = .ok kinds) : compositeAt tokens s = .ok (.ofMembers t kinds) := by
  rw [compositeAt_eq, ht, ok_bind, hs, ok_bind, hk]
  rfl

theorem bodyAt_of_spans {s : Span} {blockLength : Nat} {owner : String} {spans : BodySpans}
    {fields : List FieldLayout} {groups : List GroupLayout} {varData : List VarDataLayout}
    (hs : splitBody tokens s = .ok spans) (hf : fieldsAt tokens 0 spans.fields = .ok fields)
    (hg : spans.groups.mapM (groupAt tokens) = .ok groups)
    (hd : spans.varData.mapM (varDataAt tokens) = .ok varData) :
    bodyAt tokens s blockLength owner
      = BodyLayout.ofRegions owner blockLength fields groups varData := by
  rw [bodyAt_eq, hs, ok_bind, hf, ok_bind, hg, ok_bind, hd, ok_bind]

theorem groupAt_of_body {s d : Span} {t first : Token} {dimension : DimensionLayout}
    {body : BodyLayout} (ht : tokenAt tokens s.start = .ok t)
    (hd : spanAt (tokens.take s.stop) (s.start + 1) = .ok d)
    (hfirst : tokenAt tokens d.start = .ok first) (hc : first.signal = .opens .composite)
    (hdim : dimensionAt tokens d = .ok dimension)
    (hb : bodyAt tokens ⟨d.stop, s.stop - 1⟩ t.encodedLength t.name = .ok body) :
    groupAt tokens s = .ok ⟨t.name, t.id, t.version, dimension, body, t.description⟩ := by
  rw [groupAt_eq, ht, ok_bind, hd, ok_bind, hfirst, ok_bind, if_neg (not_not.2 hc), hdim]
  simp only [ok_bind, hb]
  rfl

/-! ## Types -/

/-- What passes on from the types inside a composite to the composite: `P` holds of the kinds at
spans, `Q` of the composites. -/
structure KindSteps (tokens : List Token) (P : Span → FieldKind → Prop)
    (Q : Span → CompositeLayout → Prop) : Prop where
  encoding : ∀ {s t p}, tokenAt tokens s.start = .ok t → t.signal = .encoding →
    PrimitiveLayout.ofToken t s.start = .ok p → P s (.primitive p)
  enumeration : ∀ {s t e}, tokenAt tokens s.start = .ok t → t.signal = .opens .enumeration →
    enumAt tokens s = .ok e → P s (.enumeration e)
  set : ∀ {s t l}, tokenAt tokens s.start = .ok t → t.signal = .opens .set →
    setAt tokens s = .ok l → P s (.set l)
  composite : ∀ {s t c}, tokenAt tokens s.start = .ok t → t.signal = .opens .composite →
    Q s c → P s (.composite c)
  members : ∀ {s t spans kinds}, tokenAt tokens s.start = .ok t →
    members tokens s.inner = .ok spans →
    List.Forall₂ (fun r k => tokenAt tokens r.start = .ok k.1 ∧ P r k.2) spans kinds →
    Q s (.ofMembers t kinds)

namespace KindSteps

variable {P : Span → FieldKind → Prop} {Q : Span → CompositeLayout → Prop}

mutual

theorem of_kindAt (h : KindSteps tokens P Q) (s : Span) {k : FieldKind}
    (hk : kindAt tokens s = .ok k) : P s k := by
  rw [kindAt] at hk
  obtain ⟨t, ht, hk⟩ := bind_eq_ok_iff.1 hk
  split at hk
  · rename_i hsignal
    obtain ⟨p, hp, hk⟩ := bind_eq_ok_iff.1 hk
    cases hk
    exact h.encoding ht hsignal hp
  · rename_i hsignal
    obtain ⟨c, hc, hk⟩ := bind_eq_ok_iff.1 hk
    cases hk
    exact h.composite ht hsignal (h.of_compositeAt s hc)
  · rename_i hsignal
    obtain ⟨e, he, hk⟩ := bind_eq_ok_iff.1 hk
    cases hk
    exact h.enumeration ht hsignal he
  · rename_i hsignal
    obtain ⟨l, hl, hk⟩ := bind_eq_ok_iff.1 hk
    cases hk
    exact h.set ht hsignal hl
  · exact absurd hk throw_ne_ok
termination_by 2 * s.length + 1

theorem of_compositeAt (h : KindSteps tokens P Q) (s : Span) {c : CompositeLayout}
    (hc : compositeAt tokens s = .ok c) : Q s c := by
  rw [compositeAt_eq] at hc
  obtain ⟨t, ht, hc⟩ := bind_eq_ok_iff.1 hc
  obtain ⟨spans, hs, hc⟩ := bind_eq_ok_iff.1 hc
  obtain ⟨kinds, hk, hc⟩ := bind_eq_ok_iff.1 hc
  cases hc
  refine h.members ht hs (forall₂_of_mapM hk fun r hr k hrk => ?_)
  obtain ⟨first, hfirst, hrk⟩ := bind_eq_ok_iff.1 hrk
  obtain ⟨kind, hkind, hrk⟩ := bind_eq_ok_iff.1 hrk
  cases hrk
  have hlt := length_lt_of_mem_members hs hr
  exact ⟨hfirst, h.of_kindAt r hkind⟩
termination_by 2 * s.length

end

end KindSteps

/-! ## Bodies -/

theorem BodyLayout.requiredLength_le_iff {fields : List FieldLayout} {n : Nat} :
    requiredLength fields ≤ n ↔ ∀ f ∈ fields, f.stop ≤ n := by
  have hfold : ∀ (fs : List FieldLayout) (k : Nat),
      fs.foldl (fun k f => max k f.stop) k ≤ n ↔ k ≤ n ∧ ∀ f ∈ fs, f.stop ≤ n := by
    intro fs
    induction fs with
    | nil => simp
    | cons g fs ih =>
      intro k
      rw [List.foldl_cons, ih, max_le_iff, List.forall_mem_cons, and_assoc]
  unfold requiredLength
  rw [hfold]
  exact and_iff_right (Nat.zero_le n)

theorem BodyLayout.ofRegions_eq_ok {owner : String} {blockLength : Nat}
    {fields : List FieldLayout} {groups : List GroupLayout} {varData : List VarDataLayout}
    {b : BodyLayout} (h : BodyLayout.ofRegions owner blockLength fields groups varData = .ok b) :
    b = ⟨blockLength, fields, groups, varData⟩ ∧ ∀ f ∈ fields, f.stop ≤ blockLength := by
  rw [BodyLayout.ofRegions] at h
  split at h
  · simp at h
  · rename_i hl
    cases h
    exact ⟨rfl, requiredLength_le_iff.1 (not_lt.1 hl)⟩

theorem BodyLayout.blockLength_of_bodyAt {s : Span} {blockLength : Nat} {owner : String}
    {b : BodyLayout} (h : bodyAt tokens s blockLength owner = .ok b) :
    b.blockLength = blockLength := by
  rw [bodyAt_eq] at h
  obtain ⟨spans, -, h⟩ := bind_eq_ok_iff.1 h
  obtain ⟨fields, -, h⟩ := bind_eq_ok_iff.1 h
  obtain ⟨groups, -, h⟩ := bind_eq_ok_iff.1 h
  obtain ⟨varData, -, h⟩ := bind_eq_ok_iff.1 h
  obtain ⟨rfl, -⟩ := BodyLayout.ofRegions_eq_ok h
  rfl

/-- What passes on from the groups of a body to the body, and from the body of a group to the group:
`P` holds of the bodies at spans, `Q` of the groups. -/
structure BodySteps (tokens : List Token) (P : Span → BodyLayout → Prop)
    (Q : Span → GroupLayout → Prop) : Prop where
  body : ∀ {s blockLength spans fields groups varData}, splitBody tokens s = .ok spans →
    fieldsAt tokens 0 spans.fields = .ok fields → List.Forall₂ Q spans.groups groups →
    spans.varData.mapM (varDataAt tokens) = .ok varData → (∀ f ∈ fields, f.stop ≤ blockLength) →
    P s ⟨blockLength, fields, groups, varData⟩
  group : ∀ {s d t first dimension body}, tokenAt tokens s.start = .ok t →
    spanAt (tokens.take s.stop) (s.start + 1) = .ok d → tokenAt tokens d.start = .ok first →
    first.signal = .opens .composite → dimensionAt tokens d = .ok dimension →
    body.blockLength = t.encodedLength → P ⟨d.stop, s.stop - 1⟩ body →
    Q s ⟨t.name, t.id, t.version, dimension, body, t.description⟩

namespace BodySteps

variable {P : Span → BodyLayout → Prop} {Q : Span → GroupLayout → Prop}

mutual

theorem of_bodyAt (h : BodySteps tokens P Q) (s : Span) {blockLength : Nat} {owner : String}
    {b : BodyLayout} (hb : bodyAt tokens s blockLength owner = .ok b) : P s b := by
  rw [bodyAt_eq] at hb
  obtain ⟨spans, hs, hb⟩ := bind_eq_ok_iff.1 hb
  obtain ⟨fields, hf, hb⟩ := bind_eq_ok_iff.1 hb
  obtain ⟨groups, hg, hb⟩ := bind_eq_ok_iff.1 hb
  obtain ⟨varData, hd, hb⟩ := bind_eq_ok_iff.1 hb
  obtain ⟨rfl, hstop⟩ := BodyLayout.ofRegions_eq_ok hb
  refine h.body hs hf (forall₂_of_mapM hg fun r hr g hrg => ?_) hd hstop
  have hlt := length_lt_of_mem_groups hs hr
  exact h.of_groupAt r hrg
termination_by 2 * s.length + 1

theorem of_groupAt (h : BodySteps tokens P Q) (s : Span) {g : GroupLayout}
    (hg : groupAt tokens s = .ok g) : Q s g := by
  rw [groupAt_eq] at hg
  obtain ⟨t, ht, hg⟩ := bind_eq_ok_iff.1 hg
  obtain ⟨d, hd, hg⟩ := bind_eq_ok_iff.1 hg
  obtain ⟨first, hfirst, hg⟩ := bind_eq_ok_iff.1 hg
  split at hg
  · exact absurd hg throw_ne_ok
  rename_i hsignal
  obtain ⟨dimension, hdim, hg⟩ := bind_eq_ok_iff.1 hg
  obtain ⟨body, hbody, hg⟩ := bind_eq_ok_iff.1 hg
  cases hg
  have hlt := length_body_lt hd
  exact h.group ht hd hfirst (not_not.1 hsignal) hdim (BodyLayout.blockLength_of_bodyAt hbody)
    (h.of_bodyAt _ hbody)
termination_by 2 * s.length

end

end BodySteps

/-- The body of a message was read of what is inside the message's span. -/
theorem MessageLayout.exists_bodyAt {m : MessageLayout}
    (h : MessageLayout.ofTokens tokens = .ok m) : ∃ s t, wholeSpan tokens .message = .ok s
      ∧ tokenAt tokens 0 = .ok t
      ∧ bodyAt tokens s.inner t.encodedLength t.name = .ok m.body
      ∧ m.name = t.name ∧ m.id = t.id ∧ m.sinceVersion = t.version := by
  obtain ⟨s, hs, h⟩ := bind_eq_ok_iff.1 h
  obtain ⟨t, ht, h⟩ := bind_eq_ok_iff.1 h
  obtain ⟨body, hb, h⟩ := bind_eq_ok_iff.1 h
  cases h
  exact ⟨s, t, hs, ht, hb, rfl, rfl, rfl⟩

end SimpleBinary
