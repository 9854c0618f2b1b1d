import Mathlib
import SimpleBinary.Proofs.Frames
import SimpleBinary.Proofs.Versions

/-!
# Fields that are left out

A value may leave out a field that is optional; the null value is written in its place, once for
each element.  Reading looks for the null value in a single element alone, so a single element
whose type has the null value is read as nothing again (`PrimitiveLayout.Vanishes`), while a text
or an array is always read as one.  The places of a message are those of its value: the block, the
elements of its groups, the composites in them (`Value.part?`, `BodyLayout.fieldsAt?`), and what
is found at each is read of what was written there (`BodyLayout.exists_part?_of_seen?`).
-/

namespace SimpleBinary

/-! ## Places in a value -/

/-- A step into a value: to a member of an object, or to an element of a group in it. -/
inductive Step where
  | member (name : String)
  | element (group : String) (index : Nat)
deriving DecidableEq, Repr

/-- The part of a value at a place. -/
def Value.part? : List Step → Value → Option Value
  | [], v => some v
  | .member name :: place, v => (v.field? name).bind fun u => part? place u
  | .element group index :: place, v =>
    ((v.field? group).bind (·.item? index)).bind fun u => part? place u

/-- The fields at a place in a block, into composites; of fields with one name the last counts. -/
def fieldsWithin? : List Step → List FieldLayout → Option (List FieldLayout)
  | [], fields => some fields
  | .member name :: place, fields =>
    match fields.reverse.find? (·.name == name) with
    | some ⟨_, _, _, _, _, .composite c⟩ => fieldsWithin? place c.members
    | _ => none
  | .element _ _ :: _, _ => none

/-- The fields at a place in a body, into the elements of its groups and into composites. -/
def BodyLayout.fieldsAt? : List Step → BodyLayout → Option (List FieldLayout)
  | .element group _ :: place, b =>
    (b.groups.reverse.find? (·.name == group)).bind fun g => fieldsAt? place g.body
  | place, b => fieldsWithin? place b.fields

/-! ## Null values -/

/-- A field that is read as nothing where it is left out: a single element of a type that has the
null value. -/
structure PrimitiveLayout.Vanishes (p : PrimitiveLayout) : Prop where
  optional : p.isOptional
  not_text : ¬p.isText
  not_array : ¬p.isArray
  null : p.primitive.Represents p.nullValue

def FieldKind.Vanishes : FieldKind → Prop
  | .primitive p => p.Vanishes
  | _ => False

theorem PrimitiveLayout.eq_none_iff_vanishes {p : PrimitiveLayout} (hp : p.Laid) {x : Option Value}
    (h : (p.image? none).bind p.value? = some x) : x = none ↔ p.Vanishes := by
  obtain ⟨w, hw, hx⟩ := Option.bind_eq_some_iff.1 h
  by_cases hc : p.isConstant
  · obtain ⟨l, hl⟩ := Option.isSome_iff_exists.1 (hp.2 hc)
    rw [value?, constant?, if_pos hc, hl] at hx
    cases hx
    refine ⟨fun h0 => absurd h0 (by simp), fun hv => ?_⟩
    have hopt := hv.optional
    simp only [isConstant, isOptional, beq_iff_eq] at hc hopt
    simp [hc] at hopt
  by_cases ht : p.isText
  · rw [value?_text hc ht] at hx
    obtain ⟨y, -, rfl⟩ := Option.map_eq_some_iff.1 hx
    exact ⟨fun h0 => absurd h0 (by simp), fun hv => absurd ht hv.not_text⟩
  by_cases ha : p.isArray
  · rw [value?_array hc ht ha] at hx
    cases hx
    exact ⟨fun h0 => absurd h0 (by simp), fun hv => absurd ha hv.not_array⟩
  · obtain ⟨l, l', hwritten, hkeeps, hvalue⟩ := value?_of_scalar hp hc ht ha hw
    rw [hvalue] at hx
    cases hx
    rw [written?, arrayLength_eq_one hp ha, Option.ite_none_right_eq_some] at hwritten
    obtain ⟨hopt, hnull⟩ := hwritten
    cases hnull
    rw [hopt, Bool.true_and, ite_eq_left_iff]
    constructor
    · intro hagrees
      obtain ⟨word, hword, rfl⟩ := hkeeps
      refine ⟨hopt, ht, ha, word, Primitive.word?_lt hword, ?_⟩
      by_contra hne
      exact absurd (hagrees hne) (by simp)
    · intro hv hne
      exact absurd (hv.null.agrees_of_keeps hkeeps) hne

/-- What is read of a field that was left out is nothing just if the field vanishes. -/
theorem FieldKind.eq_none_iff_vanishes {k : FieldKind} (hk : k.Laid) {x : Option Value}
    (h : k.seen? none = some x) : x = none ↔ k.Vanishes := by
  cases k with
  | primitive p =>
    rw [FieldKind.Laid] at hk
    rw [FieldKind.seen?] at h
    exact p.eq_none_iff_vanishes hk h
  | composite c =>
    obtain ⟨typeName, encodedLength, members, description⟩ := c
    rw [FieldKind.seen?] at h
    cases h
  | enumeration e =>
    rw [FieldKind.seen?] at h
    cases h
  | set s =>
    rw [FieldKind.seen?] at h
    cases h

/-! ## What is found under a name -/

section Names

variable {v : Value} {n : String}

/-- The last of a list is that of its rest, if the rest has one. -/
theorem find?_reverse_cons {α : Type} {p : α → Bool} {x y : α} {xs : List α}
    (h : (x :: xs).reverse.find? p = some y) : xs.reverse.find? p = some y
      ∨ x = y ∧ p x ∧ ∀ z ∈ xs, ¬p z := by
  rw [List.reverse_cons, List.find?_append] at h
  cases hrest : xs.reverse.find? p with
  | some z =>
    rw [hrest, Option.some_or] at h
    exact .inl h
  | none =>
    rw [hrest, Option.none_or, List.find?_singleton] at h
    split at h
    · cases h
      exact .inr ⟨rfl, ‹_›, by simpa using hrest⟩
    · cases h

/-- The last of a name is one of them and has the name. -/
theorem mem_and_eq_of_find?_reverse {α : Type} {name : α → String} {x : α} {xs : List α}
    (h : xs.reverse.find? (name · == n) = some x) : x ∈ xs ∧ name x = n := by
  have hname := List.find?_some h
  rw [beq_iff_eq] at hname
  exact ⟨List.mem_reverse.1 (List.mem_of_find?_eq_some h), hname⟩

theorem lookup_fieldsSeen?_of_notMem : ∀ {fields : List FieldLayout} {acc acc' : Fields},
    fieldsSeen? v acc fields = some acc' → (∀ f ∈ fields, f.name ≠ n) →
    acc'.lookup n = acc.lookup n
  | [], _, _, h, _ => by
    rw [fieldsSeen?] at h
    cases h
    rfl
  | ⟨name, id, since, offset, description, kind⟩ :: fields, acc, acc', h, hn => by
    obtain ⟨hname, hn⟩ := List.forall_mem_cons.1 hn
    rw [fieldsSeen?] at h
    obtain ⟨x, -, h⟩ := Option.bind_eq_some_iff.1 h
    rw [lookup_fieldsSeen?_of_notMem h hn, lookup_addField_of_ne hname.symm]

/-- Of the fields of a name, the last that is read as something is found. -/
theorem lookup_fieldsSeen?_of_last {f : FieldLayout} : ∀ {fields : List FieldLayout}
    {acc acc' : Fields}, fieldsSeen? v acc fields = some acc' →
    fields.reverse.find? (·.name == n) = some f →
    ∃ x, f.kind.seen? (v.field? n) = some x ∧ ∀ y, x = some y → acc'.lookup n = some y
  | [], _, _, _, hf => by simp at hf
  | ⟨name, id, since, offset, description, kind⟩ :: fields, acc, acc', h, hf => by
    rw [fieldsSeen?] at h
    obtain ⟨x, hx, h⟩ := Option.bind_eq_some_iff.1 h
    rcases find?_reverse_cons hf with hrest | ⟨rfl, hname, hrest⟩
    · exact lookup_fieldsSeen?_of_last h hrest
    · rw [beq_iff_eq] at hname
      subst hname
      refine ⟨x, hx, ?_⟩
      rintro y rfl
      rw [lookup_fieldsSeen?_of_notMem h fun g hg => by simpa using hrest g hg]
      exact lookup_insertField_self _ _ _

/-- Nothing is found under a name that a value leaves out if every field of the name vanishes. -/
theorem lookup_fieldsSeen?_eq_none_iff (hv : v.field? n = none) : ∀ {fields : List FieldLayout}
    {acc acc' : Fields}, (∀ f ∈ fields, f.kind.Laid) → fieldsSeen? v acc fields = some acc' →
    (acc'.lookup n = none ↔ acc.lookup n = none ∧ ∀ f ∈ fields, f.name = n → f.kind.Vanishes)
  | [], acc, acc', _, h => by
    rw [fieldsSeen?] at h
    cases h
    simp
  | ⟨name, id, since, offset, description, kind⟩ :: fields, acc, acc', hk, h => by
    obtain ⟨hkind, hk⟩ := List.forall_mem_cons.1 hk
    rw [fieldsSeen?] at h
    obtain ⟨x, hx, h⟩ := Option.bind_eq_some_iff.1 h
    have hfirst : (name = n → x = none) ↔ (name = n → kind.Vanishes) := by
      refine imp_congr_right ?_
      rintro rfl
      rw [hv] at hx
      exact FieldKind.eq_none_iff_vanishes hkind hx
    rw [lookup_fieldsSeen?_eq_none_iff hv hk h, lookup_addField_eq_none_iff, List.forall_mem_cons,
      hfirst, and_assoc]

theorem lookup_groupsSeen?_of_ne_array : ∀ {groups : List GroupLayout} {acc acc' : Fields},
    groupsSeen? groups v acc = some acc' → (∀ g ∈ groups, ∀ elements, g.name = n →
      v.field? n ≠ some (.array elements)) → acc'.lookup n = acc.lookup n
  | [], _, _, h, _ => by
    rw [groupsSeen?] at h
    cases h
    rfl
  | ⟨name, id, since, dimension, body, description⟩ :: groups, acc, acc', h, hn => by
    obtain ⟨hname, hn⟩ := List.forall_mem_cons.1 hn
    rw [groupsSeen?] at h
    split at h
    · rename_i elements hfield
      obtain ⟨seen, -, h⟩ := Option.bind_eq_some_iff.1 h
      rw [lookup_groupsSeen?_of_ne_array h hn]
      refine lookup_insertField_of_ne ?_ _ _
      rintro rfl
      exact hname elements rfl hfield
    · cases h

/-- Of the groups of a name, the last is found. -/
theorem lookup_groupsSeen?_of_last {g : GroupLayout} : ∀ {groups : List GroupLayout}
    {acc acc' : Fields}, groupsSeen? groups v acc = some acc' →
    groups.reverse.find? (·.name == n) = some g →
    ∃ elements seen, v.field? n = some (.array elements)
      ∧ elements.mapM (fun u => g.body.seen? g.name u) = some seen
      ∧ acc'.lookup n = some (.array seen)
  | [], _, _, _, hg => by simp at hg
  | ⟨name, id, since, dimension, body, description⟩ :: groups, acc, acc', h, hg => by
    rw [groupsSeen?] at h
    split at h
    · rename_i elements hfield
      obtain ⟨seen, hseen, h⟩ := Option.bind_eq_some_iff.1 h
      rcases find?_reverse_cons hg with hrest | ⟨rfl, hname, hrest⟩
      · exact lookup_groupsSeen?_of_last h hrest
      · rw [beq_iff_eq] at hname
        subst hname
        refine ⟨elements, seen, hfield, hseen, ?_⟩
        rw [lookup_groupsSeen?_of_ne_array h fun g hg _ h => absurd h (by simpa using hrest g hg)]
        exact lookup_insertField_self _ _ _
    · cases h

/-- Var-data has a text or bytes. -/
theorem lookup_varDataSeen?_of_no_payload
    (hv : ∀ d : VarDataLayout, d.payload? (v.field? n) = none) :
    ∀ {ds : List VarDataLayout} {acc acc' : Fields}, varDataSeen? v acc ds = some acc' →
    acc'.lookup n = acc.lookup n
  | [], _, _, h => by
    cases h
    rfl
  | d :: ds, acc, acc', h => by
    rw [varDataSeen?] at h
    obtain ⟨x, hx, h⟩ := Option.bind_eq_some_iff.1 h
    obtain ⟨payload, hpayload, -⟩ := Option.bind_eq_some_iff.1 hx
    rw [lookup_varDataSeen?_of_no_payload hv h]
    refine lookup_insertField_of_ne ?_ _ _
    rintro rfl
    rw [hv d] at hpayload
    cases hpayload

end Names

/-! ## What is read of what was written -/

theorem exists_getElem?_of_mapM {α β : Type} {f : α → Option β} {xs : List α} {ys : List β}
    (h : xs.mapM f = some ys) {i : Nat} {x : α} (hx : xs[i]? = some x) :
    ∃ y, ys[i]? = some y ∧ f x = some y := by
  obtain ⟨hi, rfl⟩ := List.getElem?_eq_some_iff.1 hx
  obtain ⟨hlength, hget⟩ := List.forall₂_iff_get.1 (mapM_eq_some_iff.1 h)
  exact ⟨ys[i], List.getElem?_eq_getElem (hlength ▸ hi), hget i hi (hlength ▸ hi)⟩

theorem mapM_of_parseItems?_concat? {f : Value → Option Bytes}
    {parse : Bytes → Option (Value × Bytes)} {seen? : Value → Option Value}
    (h : ∀ {v : Value} {w : Bytes}, f v = some w → ∀ {post x rest},
      parse (w ++ post) = some (x, rest) → rest = post ∧ seen? v = some x) :
    ∀ {vs : List Value} {w : Bytes}, concat? f vs = some w → ∀ {post rest : Bytes} {xs},
    parseItems? parse vs.length (w ++ post) = some (xs, rest) →
    rest = post ∧ vs.mapM seen? = some xs
  | [], _, hw, _, _, _, hp => by
    cases hw
    cases hp
    exact ⟨rfl, rfl⟩
  | v :: vs, w, hw, post, rest, xs, hp => by
    obtain ⟨bs, ws, hb, hws, rfl⟩ := concat?_cons_eq_some_iff.1 hw
    rw [List.append_assoc, List.length_cons, parseItems?] at hp
    obtain ⟨⟨x, rest'⟩, hx, hp⟩ := Option.bind_eq_some_iff.1 hp
    obtain ⟨⟨xs', rest''⟩, hxs, hp⟩ := Option.bind_eq_some_iff.1 hp
    cases hp
    obtain ⟨rfl, hv⟩ := h hb hx
    obtain ⟨rfl, hvs⟩ := mapM_of_parseItems?_concat? h hws hxs
    refine ⟨rfl, ?_⟩
    rw [List.mapM_cons, hv, hvs]
    rfl

theorem BodyLayout.seen?_eq_some_iff {b : BodyLayout} {name : String} {v W : Value} :
    b.seen? name v = some W ↔ ∃ acc₁ acc₂ acc₃, fieldsSeen? v [] b.fields = some acc₁
      ∧ groupsSeen? b.groups v acc₁ = some acc₂ ∧ varDataSeen? v acc₂ b.varData = some acc₃
      ∧ W = .object name acc₃ := by
  obtain ⟨blockLength, fields, groups, varData⟩ := b
  rw [BodyLayout.seen?]
  simp only [Option.bind_eq_bind, Option.bind_eq_some_iff, Option.pure_def, Option.some.injEq]
  grind

mutual

/-- Where the bytes of a value are read at all, they are read as what is seen of it. -/
theorem BodyLayout.seen?_of_parse?_image? : ∀ {b : BodyLayout}, b.Laid → ∀ {v : Value} {w : Bytes},
    b.image? v = some w → ∀ {name : String} {post rest : Bytes} {x : Value},
    b.parse? b.blockLength name (w ++ post) = some (x, rest) →
    rest = post ∧ b.seen? name v = some x
  | ⟨blockLength, fields, groups, varData⟩, hb, v, w, h, name, post, rest, x, hp => by
    rw [BodyLayout.Laid] at hb
    obtain ⟨-, block, elements, data, hf, hg, hd, rfl⟩ := BodyLayout.image?_eq_some_iff.1 h
    have hblock := length_padTo_fieldsImage? hb.1 hf
    obtain ⟨-, acc₁, acc₂, acc₃, rest₂, h₁, h₂, h₃, rfl⟩ := BodyLayout.parse?_eq_some_iff.1 hp
    simp only [List.append_assoc] at h₁ h₂
    rw [List.take_left' hblock, fieldsValue?_padTo_image? hb.1 hf] at h₁
    rw [List.drop_left' hblock] at h₂
    obtain ⟨rfl, hgroups⟩ := groupsSeen?_of_parseGroups?_image? hb.2 hg h₂
    rw [parseVarData?_image? (isInteger_of_parseVarData? h₃) hd] at h₃
    obtain ⟨acc₄, hdata, h₃⟩ := Option.map_eq_some_iff.1 h₃
    cases h₃
    exact ⟨rfl, BodyLayout.seen?_eq_some_iff.2 ⟨acc₁, acc₂, _, h₁, hgroups, hdata, rfl⟩⟩

theorem groupsSeen?_of_parseGroups?_image? {v : Value} : ∀ {groups : List GroupLayout},
    groupsLaid groups → ∀ {w : Bytes}, groupsImage? groups v = some w →
    ∀ {acc acc' : Fields} {post rest : Bytes},
    parseGroups? groups acc (w ++ post) = some (acc', rest) →
    rest = post ∧ groupsSeen? groups v acc = some acc'
  | [], _, w, h, acc, acc', post, rest, hp => by
    rw [groupsImage?] at h
    cases h
    rw [parseGroups?] at hp
    cases hp
    exact ⟨rfl, by rw [groupsSeen?]⟩
  | ⟨name, _, _, dimension, body, _⟩ :: groups, hg, w, h, acc, acc', post, rest, hp => by
    rw [groupsLaid] at hg
    obtain ⟨given, header, items, others, hfield, hh, hi, ho, rfl⟩ :=
      groupsImage?_cons_eq_some_iff.1 h
    simp only [List.append_assoc] at hp
    obtain ⟨header', rest₁, elements, rest₂, hheader, hitems, hp⟩ :=
      parseGroups?_cons_eq_some_iff.1 hp
    obtain ⟨rfl, rfl⟩ := DimensionLayout.eq_of_parse?_image? hg.1 hh hheader
    obtain ⟨rfl, hseen⟩ := mapM_of_parseItems?_concat? (fun hv _ _ _ hx =>
      BodyLayout.seen?_of_parse?_image? hg.2.1 hv hx) hi hitems
    obtain ⟨hrest, hgroups⟩ := groupsSeen?_of_parseGroups?_image? hg.2.2 ho hp
    refine ⟨hrest, ?_⟩
    rw [groupsSeen?, hfield]
    dsimp only
    rw [hseen]
    exact hgroups

end

/-! ## Places in what is read -/

section Places

variable {n : String} {target : List FieldLayout} {x : Value}

/-- At a place in a block, what is read lacks what was left out there just if all its fields vanish.
`W` has what was read of the fields where these have objects or nothing. -/
theorem exists_part?_of_fieldsSeen? : ∀ {place : List Step} {fields : List FieldLayout}
    {cursor limit : Nat} {v W : Value} {acc : Fields} {w : Bytes},
    fieldsWithin? place fields = some target → fieldsLaid cursor limit fields →
    fieldsImage? cursor v fields = some w → fieldsSeen? v [] fields = some acc →
    (∀ k, (∀ u, v.field? k = some u → u.isObject) → W.field? k = acc.lookup k) →
    v.part? place = some x → x.field? n = none →
    ∃ y, W.part? place = some y
      ∧ (y.field? n = none ↔ ∀ f ∈ target, f.name = n → f.kind.Vanishes)
  | [], fields, cursor, limit, v, W, acc, w, ht, hl, _, hseen, hW, hx, hn => by
    rw [fieldsWithin?] at ht
    rw [Value.part?] at hx
    cases ht
    cases hx
    refine ⟨W, by rw [Value.part?], ?_⟩
    rw [hW n (fun u hu => absurd (hn.symm.trans hu) (by simp)),
      lookup_fieldsSeen?_eq_none_iff hn (laid_of_mem hl) hseen]
    simp
  | .member k :: place, fields, cursor, limit, v, W, acc, w, ht, hl, hw, hseen, hW, hx, hn => by
    rw [fieldsWithin?] at ht
    split at ht
    · rename_i name id since offset description c hfind
      obtain ⟨typeName, encodedLength, members, about⟩ := c
      rw [Value.part?] at hx
      obtain ⟨u, hu, hx⟩ := Option.bind_eq_some_iff.1 hx
      -- the last field of the name is a composite, written and read as an object
      obtain ⟨hmem, hname⟩ := mem_and_eq_of_find?_reverse hfind
      obtain ⟨own, hown, -, -⟩ := take_drop_fieldsImage? hl hw hmem
      obtain ⟨read, hread, hfound⟩ := lookup_fieldsSeen?_of_last hseen hfind
      have hlaid := laid_of_mem hl _ hmem
      dsimp only at hname hown hread hlaid
      rw [hname, hu, FieldKind.image?, Option.bind_some, Option.ite_none_right_eq_some] at hown
      obtain ⟨hobject, hown⟩ := hown
      obtain ⟨inner, hinner, -⟩ := Option.map_eq_some_iff.1 hown
      rw [hu, FieldKind.seen?, Option.bind_some] at hread
      obtain ⟨acc', hacc', rfl⟩ := Option.map_eq_some_iff.1 hread
      rw [FieldKind.Laid] at hlaid
      have hWk : W.field? k = some (.object typeName acc') := by
        rw [hW k (fun u' hu' => Option.some.inj (hu.symm.trans hu') ▸ hobject)]
        exact hfound _ rfl
      obtain ⟨y, hy, hiff⟩ := exists_part?_of_fieldsSeen? (W := .object typeName acc') ht hlaid
        hinner hacc' (fun _ _ => rfl) hx hn
      exact ⟨y, by rw [Value.part?, hWk, Option.bind_some, hy], hiff⟩
    · cases ht
  | .element _ _ :: _, _, _, _, _, _, _, _, ht, _, _, _, _, _, _ => by
    rw [fieldsWithin?] at ht
    cases ht

theorem BodyLayout.exists_part?_of_fieldsWithin? {place : List Step} {b : BodyLayout}
    {name : String} {v W : Value} {w : Bytes} (ht : fieldsWithin? place b.fields = some target)
    (hb : b.Laid) (hw : b.image? v = some w) (hseen : b.seen? name v = some W)
    (hx : v.part? place = some x) (hn : x.field? n = none) : ∃ y, W.part? place = some y
      ∧ (y.field? n = none ↔ ∀ f ∈ target, f.name = n → f.kind.Vanishes) := by
  obtain ⟨acc₁, acc₂, acc₃, h₁, h₂, h₃, rfl⟩ := seen?_eq_some_iff.1 hseen
  obtain ⟨blockLength, fields, groups, varData⟩ := b
  obtain ⟨-, block, -, -, hblock, -⟩ := image?_eq_some_iff.1 hw
  refine exists_part?_of_fieldsSeen? ht (laid_iff.1 hb).1 hblock h₁ (fun k hk => ?_) hx hn
  rw [Value.field?, lookup_varDataSeen?_of_no_payload ?_ h₃,
    lookup_groupsSeen?_of_ne_array h₂ ?_]
  · rintro g - elements - harray
    exact absurd (hk _ harray) (by simp [Value.isObject])
  · intro d
    cases hu : v.field? k with
    | none => rfl
    | some u =>
      have hobject := hk u hu
      cases u <;> first | rfl | exact absurd hobject (by simp [Value.isObject])

/-- At every place of a body, what is read lacks what was left out there just if all fields of its
name vanish. -/
theorem BodyLayout.exists_part?_of_seen? : ∀ {place : List Step} {b : BodyLayout} {name : String}
    {v W : Value} {w : Bytes}, b.fieldsAt? place = some target → b.Laid → b.image? v = some w →
    b.seen? name v = some W → v.part? place = some x → x.field? n = none →
    ∃ y, W.part? place = some y
      ∧ (y.field? n = none ↔ ∀ f ∈ target, f.name = n → f.kind.Vanishes)
  | [], b, name, v, W, w, ht, hb, hw, hseen, hx, hn => by
    rw [fieldsAt?] at ht
    · exact exists_part?_of_fieldsWithin? ht hb hw hseen hx hn
    · simp
  | .member k :: place, b, name, v, W, w, ht, hb, hw, hseen, hx, hn => by
    rw [fieldsAt?] at ht
    · exact exists_part?_of_fieldsWithin? ht hb hw hseen hx hn
    · simp
  | .element k i :: place, b, name, v, W, w, ht, hb, hw, hseen, hx, hn => by
    rw [fieldsAt?] at ht
    obtain ⟨g, hfind, ht⟩ := Option.bind_eq_some_iff.1 ht
    rw [Value.part?] at hx
    obtain ⟨u, hu, hx⟩ := Option.bind_eq_some_iff.1 hx
    obtain ⟨array, harray, hu⟩ := Option.bind_eq_some_iff.1 hu
    obtain ⟨acc₁, acc₂, acc₃, -, h₂, h₃, rfl⟩ := seen?_eq_some_iff.1 hseen
    -- the last group of the name has the elements, written and read one by one
    obtain ⟨elements, seen, hfield, hitems, hfound⟩ := lookup_groupsSeen?_of_last h₂ hfind
    rw [harray] at hfield
    cases hfield
    obtain ⟨y, hy, hread⟩ := exists_getElem?_of_mapM hitems hu
    obtain ⟨hmem, hname⟩ := mem_and_eq_of_find?_reverse hfind
    obtain ⟨inner, hinner⟩ : ∃ inner, g.body.image? u = some inner := by
      obtain ⟨blockLength, fields, groups, varData⟩ := b
      obtain ⟨-, -, bytes, -, -, hgroups, -⟩ := image?_eq_some_iff.1 hw
      rw [groupsImage?_eq_concat?] at hgroups
      obtain ⟨own, hown⟩ := exists_of_mem_concat? hgroups g hmem
      rw [GroupLayout.image?, hname, harray] at hown
      obtain ⟨header, -, hown⟩ := Option.bind_eq_some_iff.1 hown
      obtain ⟨items, hall, -⟩ := Option.bind_eq_some_iff.1 hown
      exact exists_of_mem_concat? hall u (List.mem_of_getElem? hu)
    have hbody := (groupsLaid_iff.1 (laid_iff.1 hb).2 g hmem).2
    obtain ⟨z, hz, hiff⟩ := exists_part?_of_seen? ht hbody hinner hread hx hn
    refine ⟨z, ?_, hiff⟩
    have hW : (Value.object name acc₃).field? k = some (.array seen) := by
      rw [Value.field?, lookup_varDataSeen?_of_no_payload (fun d => by rw [harray]; rfl) h₃, hfound]
    rw [Value.part?, hW, Option.bind_some]
    rw [show (Value.array seen).item? i = some y from hy, Option.bind_some, hz]

end Places

/-! ## Messages -/

/-- Where a value leaves out a field, at whatever place of a message, the value that is decoded from
its bytes has nothing of that name just if all fields of the name are single elements that may be
left out and whose types have their null values. -/
theorem MessageCodec.exists_part?_of_decodeBody {m : MessageCodec} {tokens : List Token}
    (ht : MessageLayout.ofTokens tokens = .ok m.message) {v w : Value} {bs : Bytes}
    (hbs : m.encodeBody v = .ok bs)
    (hw : m.decodeBody bs m.message.body.blockLength = .ok w) {place : List Step}
    {fields : List FieldLayout} (hfields : m.message.body.fieldsAt? place = some fields) {x : Value}
    (hx : v.part? place = some x) {name : String} (hn : x.field? name = none) :
    ∃ y, w.part? place = some y
      ∧ (y.field? name = none ↔ ∀ f ∈ fields, f.name = name → f.kind.Vanishes) := by
  have hb := MessageLayout.laid_of_ofTokens ht
  have himage := (encodeBody_eq_ok_iff hb).1 hbs
  obtain ⟨rest, hp⟩ := (decodeBody_eq_ok_iff hb).1 hw
  rw [← List.append_nil bs] at hp
  obtain ⟨-, hseen⟩ := BodyLayout.seen?_of_parse?_image? hb himage hp
  exact BodyLayout.exists_part?_of_seen? hfields hb himage hseen hx hn

namespace Parcels

/-- A parcel has a place, and of that a zone, a grid of four numbers and a label may be left out. -/
def definition : MessageDef where
  name := "Parcel"
  id := 1
  fields := [{ name := "place", id := 1, type := .composite "Place" [
    .primitive { name := "zone", primitive := .uint8, presence := .optional },
    .primitive { name := "grid", primitive := .uint8, arrayLength := 4, presence := .optional },
    .primitive { name := "label", primitive := .char, arrayLength := 2, presence := .optional }] }]

def zone : PrimitiveLayout := ⟨.uint8, .littleEndian, 1, .optional, none, .uint 255, none⟩

def grid : PrimitiveLayout := ⟨.uint8, .littleEndian, 4, .optional, none, .uint 255, none⟩

def label : PrimitiveLayout := ⟨.char, .littleEndian, 2, .optional, none, .uint 0, none⟩

def members : List FieldLayout :=
  [⟨"zone", -1, 0, 0, none, .primitive zone⟩, ⟨"grid", -1, 0, 1, none, .primitive grid⟩,
    ⟨"label", -1, 0, 5, none, .primitive label⟩]

def codec : MessageCodec where
  header := Orders.header
  message := {
    name := "Parcel"
    id := 1
    sinceVersion := 0
    semanticType := none
    description := none
    body := ⟨7, [⟨"place", 1, 0, 0, none, .composite ⟨"Place", 7, members, none⟩⟩], [], []⟩ }
  schemaId := 1
  version := 0

theorem ofTokens_parcel :
    MessageLayout.ofTokens (definition.tokens .littleEndian) = .ok codec.message := by
  refine MessageDef.ofTokens_tokens_of_layout? ⟨⟨?_, by simp [definition]⟩, trivial⟩ rfl
  simp [definition, TypeDef.Sound, membersSound, PrimitiveDef.Sound]

/-- What a parcel of an unknown place is written as. -/
def unplaced : Bytes := [255, 255, 255, 255, 255, 0, 0]

/-- Of a place of which all is left out the zone stays out, but the grid and the label come back. -/
theorem exists_part?_of_unplaced : ∃ w y, codec.decodeBody unplaced 7 = .ok w
    ∧ w.part? [.member "place"] = some y ∧ y.field? "zone" = none ∧ y.field? "grid" ≠ none
    ∧ y.field? "label" ≠ none := by
  have hencode :
      codec.encodeBody (.object "Parcel" [("place", .object "Place" [])]) = .ok unplaced := rfl
  obtain ⟨w, hw⟩ : ∃ w, codec.decodeBody unplaced 7 = .ok w := by
    simp only [← toOption_eq_some_iff, ← Option.isSome_iff_exists]
    decide +kernel
  have hfields : codec.message.body.fieldsAt? [.member "place"] = some members := rfl
  have hplace : (Value.object "Parcel" [("place", .object "Place" [])]).part? [.member "place"]
      = some (.object "Place" []) := rfl
  have hpart := fun name (hn : (Value.object "Place" []).field? name = none) =>
    MessageCodec.exists_part?_of_decodeBody ofTokens_parcel hencode hw hfields hplace hn
  obtain ⟨y, hy, hzone⟩ := hpart "zone" rfl
  obtain ⟨y', hy', hgrid⟩ := hpart "grid" rfl
  obtain ⟨y'', hy'', hlabel⟩ := hpart "label" rfl
  cases hy.symm.trans hy'
  cases hy.symm.trans hy''
  refine ⟨w, y, hw, hy, hzone.2 ?_, hgrid.not.2 fun h => ?_, hlabel.not.2 fun h => ?_⟩
  · have hvanishes : zone.Vanishes := ⟨rfl, by decide, by decide, 255, by decide, by decide⟩
    simp [members, FieldKind.Vanishes, hvanishes]
  · exact (h ⟨"grid", -1, 0, 1, none, .primitive grid⟩ (by simp [members]) rfl).not_array rfl
  · exact (h ⟨"label", -1, 0, 5, none, .primitive label⟩ (by simp [members]) rfl).not_text rfl

end Parcels

end SimpleBinary
