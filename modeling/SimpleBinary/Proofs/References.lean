import Mathlib
import SimpleBinary.Proofs.Layouts
import SimpleBinary.Source.Package

/-!
# The types that a layout refers to

A layout mentions a type as one of its own, in a field of a message, or inside the header or a
composite of its own (`SchemaLayout.Mentions`).  The names that it mentions are those of the types
that files are written for (`SchemaLayout.mentions_iff`), and what the file of a composite refers to
is mentioned as well (`SchemaLayout.mentions_of_sourceType`).
-/

namespace SimpleBinary

/-! ## Types of fields -/

/-- The kind of a field that has a type. -/
def TypeLayout.kind : TypeLayout → FieldKind
  | .composite c => .composite c
  | .enumeration e => .enumeration e
  | .set s => .set s

theorem FieldLayout.type?_eq_some_iff {f : FieldLayout} {t : TypeLayout} :
    f.type? = some t ↔ f.kind = t.kind := by
  unfold type?
  cases f.kind <;> cases t <;> simp [TypeLayout.kind]

theorem FieldKind.typeName?_eq_some_iff {k : FieldKind} {name : String} :
    k.typeName? = some name ↔ ∃ t : TypeLayout, k = t.kind ∧ t.name = name := by
  constructor
  · intro h
    cases k with
    | primitive p => simp [typeName?] at h
    | composite c => exact ⟨.composite c, rfl, Option.some.inj h⟩
    | enumeration e => exact ⟨.enumeration e, rfl, Option.some.inj h⟩
    | set s => exact ⟨.set s, rfl, Option.some.inj h⟩
  · rintro ⟨t, rfl, rfl⟩
    cases t <;> rfl

theorem wholeSpan_cons_eq_ok_iff {first : Token} {rest : List Token} {c : Container} {s : Span} :
    wholeSpan (first :: rest) c = .ok s ↔ first.signal = .opens c
      ∧ spanAt (first :: rest) 0 = .ok s ∧ s = ⟨0, rest.length + 1⟩ := by
  unfold wholeSpan
  dsimp only
  by_cases hsignal : first.signal = .opens c
  swap
  · rw [if_pos hsignal]
    exact iff_of_false throw_ne_ok fun h => hsignal h.1
  rw [if_neg (not_not.2 hsignal)]
  constructor
  · intro h
    obtain ⟨r, hr, h⟩ := bind_eq_ok_iff.1 h
    split at h
    · exact absurd h throw_ne_ok
    · rename_i hstop
      cases h
      rw [not_not, List.length_cons] at hstop
      exact ⟨hsignal, hr, by rw [← (spanAt_bounds hr).1, ← hstop]⟩
  · rintro ⟨-, hs, rfl⟩
    rw [hs, ok_bind, if_neg (by simp)]
    rfl

/-- The stream of a type is a span as a whole, and is read as any type at a place of its own. -/
theorem TypeLayout.ofTokens_eq_some_iff {tokens : List Token} {t : TypeLayout} :
    TypeLayout.ofTokens tokens = .ok (some t) ↔ spanAt tokens 0 = .ok ⟨0, tokens.length⟩
      ∧ kindAt tokens ⟨0, tokens.length⟩ = .ok t.kind := by
  rcases tokens with _ | ⟨first, rest⟩
  · exact iff_of_false throw_ne_ok fun h => by simp [spanAt] at h
  have htoken : tokenAt (first :: rest) 0 = .ok first := rfl
  unfold TypeLayout.ofTokens CompositeLayout.ofTokens
  rw [kindAt, htoken, ok_bind]
  dsimp only
  split
  · rename_i hsignal
    simp only [hsignal, bind_eq_ok_iff, wholeSpan_cons_eq_ok_iff, pure_eq_ok_iff]
    constructor
    · rintro ⟨c, ⟨s, ⟨-, hs, rfl⟩, hc⟩, ⟨⟩⟩
      exact ⟨hs, c, hc, rfl⟩
    · rintro ⟨hs, c, hc, hk⟩
      cases t <;> cases hk
      exact ⟨c, ⟨_, ⟨trivial, hs, rfl⟩, hc⟩, rfl⟩
  · rename_i hsignal
    simp only [hsignal, bind_eq_ok_iff, wholeSpan_cons_eq_ok_iff, pure_eq_ok_iff]
    constructor
    · rintro ⟨s, ⟨-, hs, rfl⟩, e, he, ⟨⟩⟩
      exact ⟨hs, e, he, rfl⟩
    · rintro ⟨hs, e, he, hk⟩
      cases t <;> cases hk
      exact ⟨_, ⟨trivial, hs, rfl⟩, e, he, rfl⟩
  · rename_i hsignal
    simp only [hsignal, bind_eq_ok_iff, wholeSpan_cons_eq_ok_iff, pure_eq_ok_iff]
    constructor
    · rintro ⟨s, ⟨-, hs, rfl⟩, l, hl, ⟨⟩⟩
      exact ⟨hs, l, hl, rfl⟩
    · rintro ⟨hs, l, hl, hk⟩
      cases t <;> cases hk
      exact ⟨_, ⟨trivial, hs, rfl⟩, l, hl, rfl⟩
  · rename_i hsignal
    refine iff_of_false (by simp [pure_eq_ok_iff]) fun h => ?_
    rw [hsignal] at h
    obtain ⟨p, -, hk⟩ := bind_eq_ok_iff.1 h.2
    cases t <;> cases hk
  · rename_i hcomposite henumeration hset hencoding
    refine iff_of_false throw_ne_ok fun h => ?_
    have hk := h.2
    split at hk
    · exact hencoding ‹_›
    · exact hcomposite ‹_›
    · exact henumeration ‹_›
    · exact hset ‹_›
    · exact throw_ne_ok hk

namespace CompositeLayout

/-- A type is the type of a member of a composite, or is held by a composite that is one. -/
inductive Holds : CompositeLayout → TypeLayout → Prop
  | member {c : CompositeLayout} {f : FieldLayout} {t : TypeLayout} :
    f ∈ c.members → f.kind = t.kind → c.Holds t
  | inner {c d : CompositeLayout} {f : FieldLayout} {t : TypeLayout} :
    f ∈ c.members → f.kind = .composite d → d.Holds t → c.Holds t

variable {c d : CompositeLayout} {t : TypeLayout}

theorem mem_memberTypes_iff : t ∈ c.memberTypes ↔ ∃ f ∈ c.members, f.kind = t.kind := by
  simp [memberTypes, List.mem_filterMap, FieldLayout.type?_eq_some_iff]

theorem Holds.trans (h : c.Holds (.composite d)) (ht : d.Holds t) : c.Holds t := by
  generalize hu : TypeLayout.composite d = u at h
  induction h with
  | member hf hk =>
    subst hu
    exact .inner hf hk ht
  | inner hf hk _ ih => exact .inner hf hk (ih hu)

end CompositeLayout

theorem mem_nestedComposites_iff {d : CompositeLayout} : ∀ {fs : List FieldLayout},
    d ∈ nestedComposites fs ↔ ∃ f ∈ fs, d ∈ f.kind.composites
  | [] => by simp [nestedComposites]
  | ⟨name, id, since, offset, description, kind⟩ :: fs => by
    rw [nestedComposites, List.mem_append, mem_nestedComposites_iff, or_comm,
      List.exists_mem_cons_iff]

namespace CompositeLayout

variable {c d : CompositeLayout} {t : TypeLayout}

theorem mem_selfAndNested_iff :
    d ∈ c.selfAndNested ↔ d = c ∨ ∃ f ∈ c.members, d ∈ f.kind.composites := by
  obtain ⟨typeName, encodedLength, members, description⟩ := c
  rw [selfAndNested, List.mem_cons, mem_nestedComposites_iff]

theorem exists_selfAndNested_of_holds (h : c.Holds t) :
    ∃ d ∈ c.selfAndNested, t ∈ d.memberTypes := by
  induction h with
  | member hf hk =>
    exact ⟨_, mem_selfAndNested_iff.2 (.inl rfl), mem_memberTypes_iff.2 ⟨_, hf, hk⟩⟩
  | inner hf hk _ ih =>
    obtain ⟨d, hd, ht⟩ := ih
    refine ⟨d, mem_selfAndNested_iff.2 (.inr ⟨_, hf, ?_⟩), ht⟩
    rw [hk]
    exact hd

end CompositeLayout

mutual

theorem CompositeLayout.holds_of_mem_selfAndNested {d : CompositeLayout} {t : TypeLayout}
    (ht : d.Holds t) : ∀ {c : CompositeLayout}, d ∈ c.selfAndNested → c.Holds t
  | ⟨typeName, encodedLength, members, description⟩, hd => by
    rw [CompositeLayout.selfAndNested, List.mem_cons] at hd
    rcases hd with rfl | hd
    · exact ht
    · obtain ⟨f, hf, c, hk, hc⟩ := exists_holds_of_mem_nestedComposites ht hd
      exact .inner hf hk hc

theorem exists_holds_of_mem_nestedComposites {d : CompositeLayout} {t : TypeLayout}
    (ht : d.Holds t) : ∀ {fs : List FieldLayout}, d ∈ nestedComposites fs →
      ∃ f ∈ fs, ∃ c, f.kind = .composite c ∧ c.Holds t
  | [], hd => by simp [nestedComposites] at hd
  | ⟨name, id, since, offset, description, kind⟩ :: fs, hd => by
    rw [nestedComposites, List.mem_append] at hd
    rcases hd with hd | hd
    · obtain ⟨f, hf, h⟩ := exists_holds_of_mem_nestedComposites ht hd
      exact ⟨f, List.mem_cons_of_mem _ hf, h⟩
    · obtain ⟨c, rfl, hc⟩ := FieldKind.exists_holds_of_mem_composites ht hd
      exact ⟨_, List.mem_cons_self, c, rfl, hc⟩

theorem FieldKind.exists_holds_of_mem_composites {d : CompositeLayout} {t : TypeLayout}
    (ht : d.Holds t) : ∀ {k : FieldKind}, d ∈ k.composites → ∃ c, k = .composite c ∧ c.Holds t
  | .composite c, hd => by
    rw [FieldKind.composites] at hd
    exact ⟨c, rfl, CompositeLayout.holds_of_mem_selfAndNested ht hd⟩
  | .primitive _, hd | .enumeration _, hd | .set _, hd => by simp [FieldKind.composites] at hd

end

/-- The traversal of a composite finds the types that it holds. -/
theorem CompositeLayout.holds_iff {c : CompositeLayout} {t : TypeLayout} :
    c.Holds t ↔ ∃ d ∈ c.selfAndNested, t ∈ d.memberTypes := by
  refine ⟨exists_selfAndNested_of_holds, ?_⟩
  rintro ⟨d, hd, ht⟩
  obtain ⟨f, hf, hk⟩ := mem_memberTypes_iff.1 ht
  exact holds_of_mem_selfAndNested (.member hf hk) hd

/-! ## Types that are not known yet -/

theorem mem_of_mem_newTypes {t : TypeLayout} : ∀ {known : List String} {ts : List TypeLayout},
    t ∈ newTypes known ts → t ∈ ts
  | _, [], h => by simp [newTypes] at h
  | known, u :: us, h => by
    rw [newTypes] at h
    split at h
    · exact List.mem_cons_of_mem _ (mem_of_mem_newTypes h)
    · rcases List.mem_cons.1 h with rfl | h
      · exact List.mem_cons_self
      · exact List.mem_cons_of_mem _ (mem_of_mem_newTypes h)

/-- The name of a type is known or becomes so. -/
theorem exists_mem_newTypes {t : TypeLayout} : ∀ (known : List String) {ts : List TypeLayout},
    t ∈ ts → t.name ∈ known ∨ ∃ u ∈ newTypes known ts, u.name = t.name
  | _, [], h => absurd h List.not_mem_nil
  | known, u :: us, h => by
    rw [newTypes]
    split
    · rename_i hknown
      rcases List.mem_cons.1 h with rfl | h
      · exact .inl (List.contains_iff_mem.1 hknown)
      · exact exists_mem_newTypes known h
    · rcases List.mem_cons.1 h with rfl | h
      · exact .inr ⟨t, List.mem_cons_self, rfl⟩
      · rcases exists_mem_newTypes (u.name :: known) h with hname | ⟨v, hv, hname⟩
        · rcases List.mem_cons.1 hname with hname | hname
          · exact .inr ⟨u, List.mem_cons_self, hname.symm⟩
          · exact .inl hname
        · exact .inr ⟨v, List.mem_cons_of_mem _ hv, hname⟩

/-! ## Fields of messages -/

theorem FieldLayout.checkReference_eq_ok_iff {known : List String} {owner : String}
    {f : FieldLayout} : f.checkReference known owner = .ok ()
      ↔ ∀ name, f.kind.typeName? = some name → name ∈ known := by
  unfold checkReference
  rcases f.kind.typeName? with _ | name
  · simp
  · by_cases hknown : name ∈ known <;> simp [hknown]

mutual

/-- A check succeeds just if the types of fields are known, in all groups. -/
theorem BodyLayout.checkReferences_eq_ok_iff {known : List String} :
    ∀ {b : BodyLayout} (owner : String), b.checkReferences known owner = .ok ()
      ↔ ∀ c ∈ b.bodies, ∀ f ∈ c.fields, ∀ name, f.kind.typeName? = some name → name ∈ known
  | ⟨blockLength, fields, groups, varData⟩, owner => by
    rw [BodyLayout.checkReferences, BodyLayout.bodies, List.forall_mem_cons,
      ← checkGroupReferences_eq_ok_iff owner, check_bind_eq_ok_iff, forM_eq_ok_iff]
    simp only [FieldLayout.checkReference_eq_ok_iff]

theorem checkGroupReferences_eq_ok_iff {known : List String} :
    ∀ {groups : List GroupLayout} (owner : String), checkGroupReferences known owner groups = .ok ()
      ↔ ∀ c ∈ groupsBodies groups, ∀ f ∈ c.fields, ∀ name, f.kind.typeName? = some name →
        name ∈ known
  | [], _ => by simp [checkGroupReferences, groupsBodies]
  | ⟨name, _, _, _, body, _⟩ :: groups, owner => by
    rw [checkGroupReferences, groupsBodies, List.forall_mem_append,
      ← BodyLayout.checkReferences_eq_ok_iff (childPath owner name),
      ← checkGroupReferences_eq_ok_iff owner, check_bind_eq_ok_iff]

end

mutual

theorem BodyLayout.mem_allFields_iff {f : FieldLayout} : ∀ {b : BodyLayout},
    f ∈ b.allFields ↔ ∃ c ∈ b.bodies, f ∈ c.fields
  | ⟨blockLength, fields, groups, varData⟩ => by
    rw [BodyLayout.allFields, BodyLayout.bodies, List.mem_append, mem_allGroupFields_iff,
      List.exists_mem_cons_iff]

theorem mem_allGroupFields_iff {f : FieldLayout} : ∀ {groups : List GroupLayout},
    f ∈ allGroupFields groups ↔ ∃ c ∈ groupsBodies groups, f ∈ c.fields
  | [] => by simp [allGroupFields, groupsBodies]
  | ⟨_, _, _, _, body, _⟩ :: groups => by
    rw [allGroupFields, groupsBodies, List.mem_append, BodyLayout.mem_allFields_iff,
      mem_allGroupFields_iff]
    simp only [List.mem_append, or_and_right, exists_or]

end

/-! ## Schemas -/

namespace SchemaLayout

variable {s : Schema} {l : SchemaLayout}

/-- A name of a type occurs in a layout: among its own types, in a field of a message or of a group
in it, as the header's, or inside the header or a composite among its own types. -/
inductive Mentions (l : SchemaLayout) : String → Prop
  | entry {t : TypeLayout} : t ∈ l.types → l.Mentions t.name
  | field {m : MessageLayout} {b : BodyLayout} {f : FieldLayout} {name : String} :
    m ∈ l.messages → b ∈ m.body.bodies → f ∈ b.fields → f.kind.typeName? = some name →
    l.Mentions name
  | header : l.Mentions l.header.composite.typeName
  | inHeader {t : TypeLayout} : l.header.composite.Holds t → l.Mentions t.name
  | inType {c : CompositeLayout} {t : TypeLayout} :
    .composite c ∈ l.types → c.Holds t → l.Mentions t.name

theorem checkReferences_of_resolve (h : resolve s = .ok l) : ∀ m ∈ l.messages,
    m.body.checkReferences (l.types.map (·.name)) m.name = .ok () := by
  intro m hm
  obtain ⟨header, -, h⟩ := bind_eq_ok_iff.1 h
  obtain ⟨types, -, h⟩ := bind_eq_ok_iff.1 h
  obtain ⟨messages, hmessages, h⟩ := bind_eq_ok_iff.1 h
  cases h
  obtain ⟨tokens, -, h⟩ := exists_of_mem_mapM hmessages hm
  obtain ⟨m', -, h⟩ := bind_eq_ok_iff.1 h
  obtain ⟨⟨⟩, hcheck, h⟩ := bind_eq_ok_iff.1 h
  cases h
  exact hcheck

/-- The types inside the header and inside the composites among a layout's own types. -/
theorem mem_inlineTypes {t : TypeLayout} (h : t ∈ l.inlineTypes) :
    l.header.composite.Holds t ∨ ∃ c, .composite c ∈ l.types ∧ c.Holds t := by
  have hheld := mem_of_mem_newTypes h
  obtain ⟨c, hc, ht⟩ := List.mem_flatMap.1 hheld
  have hholds : c.Holds t := CompositeLayout.holds_iff.2 (List.mem_flatMap.1 ht)
  rcases List.mem_cons.1 (List.mem_reverse.1 hc) with rfl | hc
  · exact .inl hholds
  · obtain ⟨u, hu, hcomposite⟩ := List.mem_filterMap.1 hc
    cases u with
    | composite d =>
      cases hcomposite
      exact .inr ⟨c, hu, hholds⟩
    | enumeration e => simp [TypeLayout.composite?] at hcomposite
    | set s => simp [TypeLayout.composite?] at hcomposite

theorem exists_sourceType_header (l : SchemaLayout) :
    ∃ t ∈ l.sourceTypes, t.name = l.header.composite.typeName := by
  unfold sourceTypes
  by_cases hnamed : (l.typeNamed? l.header.composite.typeName).isNone
  · exact ⟨.composite l.header.composite, by simp [hnamed], rfl⟩
  · obtain ⟨t, ht⟩ := Option.ne_none_iff_exists'.1 (by simpa using hnamed)
    have hname := List.find?_some ht
    exact ⟨t, by simp [List.mem_of_find?_eq_some ht], by simpa using hname⟩

theorem exists_sourceType_of_holds {c : CompositeLayout} {t : TypeLayout}
    (hc : c ∈ l.header.composite :: l.types.filterMap (·.composite?)) (h : c.Holds t) :
    ∃ u ∈ l.sourceTypes, u.name = t.name := by
  have hheld : t ∈ (l.header.composite :: l.types.filterMap (·.composite?)).reverse.flatMap
      fun c => c.selfAndNested.flatMap (·.memberTypes) :=
    List.mem_flatMap.2
      ⟨c, List.mem_reverse.2 hc, List.mem_flatMap.2 (CompositeLayout.holds_iff.1 h)⟩
  rcases exists_mem_newTypes (l.header.composite.typeName :: l.types.map (·.name)) hheld
    with hknown | ⟨u, hu, hname⟩
  · rcases List.mem_cons.1 hknown with hheader | hknown
    · rw [hheader]
      exact l.exists_sourceType_header
    · obtain ⟨u, hu, hname⟩ := List.mem_map.1 hknown
      exact ⟨u, by simp [sourceTypes, hu], hname⟩
  · exact ⟨u, List.mem_append_right _ hu, hname⟩

/-- The types that files are written for: the header, a layout's own types, and those inside them. -/
theorem of_mem_sourceTypes {t : TypeLayout} (h : t ∈ l.sourceTypes) :
    t = .composite l.header.composite ∨ t ∈ l.types ∨ l.header.composite.Holds t
      ∨ ∃ c, .composite c ∈ l.types ∧ c.Holds t := by
  unfold sourceTypes at h
  simp only [List.mem_append] at h
  rcases h with (h | h) | h
  · split at h
    · exact .inl (List.mem_singleton.1 h)
    · exact absurd h List.not_mem_nil
  · exact .inr (.inl h)
  · exact .inr (.inr (mem_inlineTypes h))

/-- The names that a layout mentions are those of the types that files are written for. -/
theorem mentions_iff (h : resolve s = .ok l) {name : String} :
    l.Mentions name ↔ ∃ t ∈ l.sourceTypes, t.name = name := by
  constructor
  · intro hname
    cases hname with
    | @entry t ht => exact ⟨t, by simp [sourceTypes, ht], rfl⟩
    | field hm hb hf hname =>
      have hknown := (BodyLayout.checkReferences_eq_ok_iff _).1 (checkReferences_of_resolve h _ hm)
        _ hb _ hf _ hname
      obtain ⟨t, ht, hname⟩ := List.mem_map.1 hknown
      exact ⟨t, by simp [sourceTypes, ht], hname⟩
    | header => exact l.exists_sourceType_header
    | inHeader ht => exact exists_sourceType_of_holds List.mem_cons_self ht
    | @inType c t hc ht =>
      have hmem : c ∈ l.types.filterMap (·.composite?) := List.mem_filterMap.2 ⟨_, hc, rfl⟩
      exact exists_sourceType_of_holds (List.mem_cons_of_mem _ hmem) ht
  · rintro ⟨t, ht, rfl⟩
    rcases of_mem_sourceTypes ht with rfl | ht | ht | ⟨c, hc, ht⟩
    · exact .header
    · exact .entry ht
    · exact .inHeader ht
    · exact .inType hc ht

/-- What a composite refers to for which there is a file. -/
theorem mentions_of_sourceType {c : CompositeLayout} (h : .composite c ∈ l.sourceTypes)
    {f : FieldLayout} (hf : f ∈ c.members) {name : String} (hname : f.kind.typeName? = some name) :
    l.Mentions name := by
  obtain ⟨t, hk, rfl⟩ := FieldKind.typeName?_eq_some_iff.1 hname
  have hholds : c.Holds t := .member hf hk
  rcases of_mem_sourceTypes h with h | h | h | ⟨d, hd, h⟩
  · cases h
    exact .inHeader hholds
  · exact .inType h hholds
  · exact .inHeader (h.trans hholds)
  · exact .inType hd (h.trans hholds)

end SchemaLayout

end SimpleBinary
