import Mathlib
import SimpleBinary.Proofs.Stable

/-!
# Readers in step

Two layouts that differ in the fields of their blocks only are compared level by level
(`BodyLayout.AtEveryLevel`).  Their readers go through the same bytes in step
(`BodyLayout.parse?_mapLevels`): the block lengths that they act by are those of the bytes, so each
finds the groups and the var-data where the other does.  What has been read by the one is at any time
what the change of values makes of what has been read by the other, but for the names still to come
(`Tracks`).
-/

namespace SimpleBinary

/-! ## Layouts level by level -/

/-- Changes each item of an array. -/
def Value.mapItems (f : Value → Value) : Value → Value
  | .array items => .array (items.map f)
  | v => v

mutual

/-- Two bodies are related, and so are those of their groups, which correspond one to one. -/
def BodyLayout.AtEveryLevel (R : BodyLayout → BodyLayout → Prop) :
    BodyLayout → BodyLayout → Prop
  | ⟨blockLength, fields, groups, varData⟩, b =>
    R ⟨blockLength, fields, groups, varData⟩ b ∧ groupsAtEveryLevel R groups b.groups

def groupsAtEveryLevel (R : BodyLayout → BodyLayout → Prop) :
    List GroupLayout → List GroupLayout → Prop
  | [], [] => True
  | ⟨_, _, _, _, body, _⟩ :: groups, ⟨_, _, _, _, body', _⟩ :: groups' =>
    body.AtEveryLevel R body' ∧ groupsAtEveryLevel R groups groups'
  | _, _ => False

end

mutual

/-- Changes the fields of a body's value and of the elements of its groups, on the way from one layout
to another. -/
def BodyLayout.mapLevels (own : BodyLayout → BodyLayout → Fields → Fields) :
    BodyLayout → BodyLayout → Value → Value
  | ⟨blockLength, fields, groups, varData⟩, b, .object name fs =>
    .object name (groupsMapLevels own groups b.groups (own ⟨blockLength, fields, groups, varData⟩ b fs))
  | _, _, v => v

def groupsMapLevels (own : BodyLayout → BodyLayout → Fields → Fields) :
    List GroupLayout → List GroupLayout → Fields → Fields
  | ⟨name, _, _, _, body, _⟩ :: groups, ⟨_, _, _, _, body', _⟩ :: groups', fs =>
    groupsMapLevels own groups groups'
      (modifyField name (Value.mapItems (body.mapLevels own body')) fs)
  | _, _, fs => fs

end

section AtEveryLevel

variable {R R' : BodyLayout → BodyLayout → Prop}

theorem BodyLayout.AtEveryLevel.here : ∀ {b b' : BodyLayout}, b.AtEveryLevel R b' → R b b'
  | ⟨blockLength, fields, groups, varData⟩, b', h => by
    rw [BodyLayout.AtEveryLevel] at h
    exact h.1

mutual

theorem BodyLayout.AtEveryLevel.imp : ∀ {b b' : BodyLayout},
    (∀ c ∈ b.bodies, ∀ c', R c c' → R' c c') → b.AtEveryLevel R b' → b.AtEveryLevel R' b'
  | ⟨blockLength, fields, groups, varData⟩, b', hR, h => by
    rw [BodyLayout.AtEveryLevel] at h ⊢
    rw [BodyLayout.bodies, List.forall_mem_cons] at hR
    exact ⟨hR.1 _ h.1, groupsAtEveryLevel_imp hR.2 h.2⟩

theorem groupsAtEveryLevel_imp : ∀ {groups groups' : List GroupLayout},
    (∀ c ∈ groupsBodies groups, ∀ c', R c c' → R' c c') → groupsAtEveryLevel R groups groups' →
    groupsAtEveryLevel R' groups groups'
  | [], [], _, _ => by rw [groupsAtEveryLevel]; trivial
  | [], _ :: _, _, h => by simp [groupsAtEveryLevel] at h
  | ⟨_, _, _, _, _, _⟩ :: _, [], _, h => by simp [groupsAtEveryLevel] at h
  | ⟨_, _, _, _, body, _⟩ :: groups, ⟨_, _, _, _, body', _⟩ :: groups', hR, h => by
    rw [groupsAtEveryLevel] at h ⊢
    rw [groupsBodies, List.forall_mem_append] at hR
    exact ⟨h.1.imp hR.1, groupsAtEveryLevel_imp hR.2 h.2⟩

end

mutual

theorem BodyLayout.AtEveryLevel.and : ∀ {b b' : BodyLayout}, b.AtEveryLevel R b' →
    b.AtEveryLevel R' b' → b.AtEveryLevel (fun c c' => R c c' ∧ R' c c') b'
  | ⟨blockLength, fields, groups, varData⟩, b', h, h' => by
    rw [BodyLayout.AtEveryLevel] at h h' ⊢
    exact ⟨⟨h.1, h'.1⟩, groupsAtEveryLevel_and h.2 h'.2⟩

theorem groupsAtEveryLevel_and : ∀ {groups groups' : List GroupLayout},
    groupsAtEveryLevel R groups groups' → groupsAtEveryLevel R' groups groups' →
    groupsAtEveryLevel (fun c c' => R c c' ∧ R' c c') groups groups'
  | [], [], _, _ => by rw [groupsAtEveryLevel]; trivial
  | [], _ :: _, h, _ => by simp [groupsAtEveryLevel] at h
  | ⟨_, _, _, _, _, _⟩ :: _, [], h, _ => by simp [groupsAtEveryLevel] at h
  | ⟨_, _, _, _, body, _⟩ :: groups, ⟨_, _, _, _, body', _⟩ :: groups', h, h' => by
    rw [groupsAtEveryLevel] at h h' ⊢
    exact ⟨h.1.and h'.1, groupsAtEveryLevel_and h.2 h'.2⟩

end

mutual

theorem BodyLayout.AtEveryLevel.symm : ∀ {b b' : BodyLayout}, b.AtEveryLevel R b' →
    b'.AtEveryLevel (fun c c' => R c' c) b
  | ⟨blockLength, fields, groups, varData⟩, ⟨blockLength', fields', groups', varData'⟩, h => by
    rw [BodyLayout.AtEveryLevel] at h ⊢
    exact ⟨h.1, groupsAtEveryLevel_symm h.2⟩

theorem groupsAtEveryLevel_symm : ∀ {groups groups' : List GroupLayout},
    groupsAtEveryLevel R groups groups' → groupsAtEveryLevel (fun c c' => R c' c) groups' groups
  | [], [], _ => by rw [groupsAtEveryLevel]; trivial
  | [], _ :: _, h => by simp [groupsAtEveryLevel] at h
  | ⟨_, _, _, _, _, _⟩ :: _, [], h => by simp [groupsAtEveryLevel] at h
  | ⟨_, _, _, _, body, _⟩ :: groups, ⟨_, _, _, _, body', _⟩ :: groups', h => by
    rw [groupsAtEveryLevel] at h ⊢
    exact ⟨h.1.symm, groupsAtEveryLevel_symm h.2⟩

end

end AtEveryLevel

/-! ## Changes of fields, each by itself -/

/-- A change of fields that keeps their order and makes of each what that one alone determines. -/
structure Fieldwise (T : Fields → Fields) : Prop where
  ordered : ∀ {fs : Fields}, Ordered fs → Ordered (T fs)
  lookup_congr : ∀ {fs fs' : Fields} {n : String}, fs.lookup n = fs'.lookup n →
    (T fs).lookup n = (T fs').lookup n

/-- Under every name that is not still to come, `t` has what the change makes of `s`. -/
structure Tracks (T : Fields → Fields) (pending : List String) (s t : Fields) : Prop where
  source : Ordered s
  target : Ordered t
  lookup : ∀ n ∉ pending, t.lookup n = (T s).lookup n

section Tracks

variable {T : Fields → Fields} {pending : List String} {s t : Fields}

/-- Putting what comes next keeps the two in step. -/
theorem Tracks.insertField (hT : Fieldwise T) {name : String} {v v' : Value}
    (h : Tracks T (name :: pending) s t)
    (hv : (T (insertField name v s)).lookup name = some v') :
    Tracks T pending (insertField name v s) (insertField name v' t) where
  source := h.source.insertField
  target := h.target.insertField
  lookup n hn := by
    by_cases hne : n = name
    · subst hne
      rw [lookup_insertField_self, hv]
    · rw [lookup_insertField_of_ne hne, h.lookup n (by simp [hne, hn])]
      exact hT.lookup_congr (lookup_insertField_of_ne hne v s).symm

theorem Tracks.eq (hT : Fieldwise T) (h : Tracks T [] s t) : t = T s :=
  h.target.ext (hT.ordered h.source) fun n => h.lookup n List.not_mem_nil

end Tracks

section MapLevels

variable {own : BodyLayout → BodyLayout → Fields → Fields}

theorem fieldwise_groupsMapLevels : ∀ groups groups' : List GroupLayout,
    Fieldwise (groupsMapLevels own groups groups')
  | [], _ => by
    refine ⟨fun h => ?_, fun h => ?_⟩ <;> simpa only [groupsMapLevels] using h
  | ⟨_, _, _, _, _, _⟩ :: _, [] => by
    refine ⟨fun h => ?_, fun h => ?_⟩ <;> simpa only [groupsMapLevels] using h
  | ⟨name, _, _, _, body, _⟩ :: groups, ⟨_, _, _, _, body', _⟩ :: groups' => by
    have ih := fieldwise_groupsMapLevels groups groups'
    refine ⟨fun h => ?_, fun h => ?_⟩
    · rw [groupsMapLevels]
      exact ih.ordered h.modifyField
    · rw [groupsMapLevels, groupsMapLevels]
      exact ih.lookup_congr (by rw [lookup_modifyField, lookup_modifyField, h])

theorem lookup_groupsMapLevels_of_notMem {n : String} : ∀ {groups groups' : List GroupLayout}
    {fs : Fields}, n ∉ groups.map (·.name) →
    (groupsMapLevels own groups groups' fs).lookup n = fs.lookup n
  | [], _, _, _ => by rw [groupsMapLevels]; simp
  | ⟨_, _, _, _, _, _⟩ :: _, [], _, _ => by rw [groupsMapLevels]; simp
  | ⟨name, _, _, _, body, _⟩ :: groups, ⟨_, _, _, _, body', _⟩ :: groups', fs, hn => by
    rw [List.map_cons, List.mem_cons, not_or] at hn
    rw [groupsMapLevels, lookup_groupsMapLevels_of_notMem hn.2, lookup_modifyField, if_neg hn.1]

end MapLevels

/-! ## Readers in step -/

/-- Fields that are read alike. -/
def FieldLayout.Same (f g : FieldLayout) : Prop :=
  f.name = g.name ∧ f.offset = g.offset ∧ f.kind = g.kind

/-- Groups with the same header. -/
def GroupLayout.Same (g h : GroupLayout) : Prop := g.name = h.name ∧ g.dimension = h.dimension

/-- Var-data that is read alike. -/
def VarDataLayout.Same (d e : VarDataLayout) : Prop :=
  d.name = e.name ∧ d.length = e.length ∧ d.characterEncoding = e.characterEncoding

theorem fieldsValue?_congr {limit : Option Nat} {block : Bytes} {fields fields' : List FieldLayout}
    (h : List.Forall₂ FieldLayout.Same fields fields') : ∀ acc : Fields,
    fieldsValue? limit block acc fields = fieldsValue? limit block acc fields' := by
  induction h with
  | nil => exact fun _ => rfl
  | @cons f g fields fields' hfg _ ih =>
    intro acc
    obtain ⟨name, _, _, offset, _, kind⟩ := f
    obtain ⟨name', _, _, offset', _, kind'⟩ := g
    obtain ⟨rfl, rfl, rfl⟩ : name = name' ∧ offset = offset' ∧ kind = kind' := hfg
    simp only [fieldsValue?, ih]

theorem fieldsValue?_append {limit : Option Nat} {block : Bytes} (fields' : List FieldLayout) :
    ∀ (fields : List FieldLayout) (acc : Fields),
    fieldsValue? limit block acc (fields ++ fields')
      = (fieldsValue? limit block acc fields).bind fun acc => fieldsValue? limit block acc fields'
  | [], acc => by rw [List.nil_append, fieldsValue?, Option.bind_some]
  | ⟨name, _, _, offset, _, kind⟩ :: fields, acc => by
    rw [List.cons_append, fieldsValue?, fieldsValue?]
    split
    · simp only [Option.bind_eq_bind, Option.bind_assoc]
      exact congrArg _ (funext fun x => fieldsValue?_append fields' fields _)
    · exact fieldsValue?_append fields' fields acc

theorem ordered_fieldsValue? {limit : Option Nat} {block : Bytes} :
    ∀ {fields : List FieldLayout} {acc acc' : Fields}, Ordered acc →
    fieldsValue? limit block acc fields = some acc' → Ordered acc'
  | [], _, _, hacc, h => by
    rw [fieldsValue?] at h
    cases h
    exact hacc
  | ⟨name, _, _, offset, _, kind⟩ :: fields, acc, acc', hacc, h => by
    rw [fieldsValue?] at h
    split at h
    · obtain ⟨x, -, h⟩ := Option.bind_eq_some_iff.1 h
      exact ordered_fieldsValue? hacc.addField h
    · exact ordered_fieldsValue? hacc h

theorem VarDataLayout.Same.parse?_eq {d e : VarDataLayout} (h : d.Same e) (bs : Bytes) :
    d.parse? bs = e.parse? bs := by
  obtain ⟨name, _, _, _, length, encoding, _⟩ := d
  obtain ⟨name', _, _, _, length', encoding', _⟩ := e
  obtain ⟨rfl, rfl, rfl⟩ : name = name' ∧ length = length' ∧ encoding = encoding' := h
  rfl

theorem map_eq_of_forall₂ {α β : Type} {R : α → α → Prop} {f : α → β}
    (hR : ∀ {x y}, R x y → f x = f y) {xs ys : List α} (h : List.Forall₂ R xs ys) :
    xs.map f = ys.map f := by
  induction h with
  | nil => rfl
  | cons h _ ih => rw [List.map_cons, List.map_cons, hR h, ih]

/-- Elements with the same headers take the same bytes behind their blocks. -/
theorem BodyLayout.trailerLength_congr {b b' : BodyLayout}
    (hg : List.Forall₂ GroupLayout.Same b.groups b'.groups)
    (hd : List.Forall₂ VarDataLayout.Same b.varData b'.varData) :
    b.trailerLength = b'.trailerLength := by
  have hgroups : b.groups.map (·.dimension.encodedLength)
      = b'.groups.map (·.dimension.encodedLength) :=
    map_eq_of_forall₂ (fun h => congrArg DimensionLayout.encodedLength h.2) hg
  have hdata : b.varData.map (·.headerLength) = b'.varData.map (·.headerLength) :=
    map_eq_of_forall₂ (fun h => congrArg (fun s : HeaderSlot => s.offset + s.width) h.2.1) hd
  have hsum : ∀ c : BodyLayout, c.trailerLength = (c.groups.map (·.dimension.encodedLength)).sum
      + (c.varData.map (·.headerLength)).sum := fun c => by
    rw [trailerLength, List.sum_eq_foldr, List.sum_eq_foldr, List.foldr_map, List.foldr_map]
  rw [hsum, hsum, hgroups, hdata]

/-- What a reader of `b` reads, changed by `own`, is what a reader of `b'` reads of the same bytes,
for blocks of a length that passes a test. -/
structure Converts (own : BodyLayout → BodyLayout → Fields → Fields)
    (P : BodyLayout → Nat → Prop) (b b' : BodyLayout) : Prop where
  fields : ∀ {blockLength : Nat} {block : Bytes} {acc : Fields}, P b blockLength →
    fieldsValue? (some blockLength) block [] b.fields = some acc →
    ∃ acc', fieldsValue? (some blockLength) block [] b'.fields = some acc'
      ∧ ∀ n, acc'.lookup n = (own b b' acc).lookup n
  groups : List.Forall₂ GroupLayout.Same b.groups b'.groups
  varData : List.Forall₂ VarDataLayout.Same b.varData b'.varData
  distinct : (b.groups.map (·.name) ++ b.varData.map (·.name)).Nodup
  fieldwise : Fieldwise (own b b')
  kept : ∀ n ∈ b.groups.map (·.name) ++ b.varData.map (·.name), ∀ fs : Fields,
    (own b b' fs).lookup n = fs.lookup n

section InStep

variable {own : BodyLayout → BodyLayout → Fields → Fields} {P : BodyLayout → Nat → Prop}

theorem parseItems?_map {pass : Bytes → Prop} {parse parse' : Bytes → Option (Value × Bytes)}
    {f : Value → Value} (h : ∀ bs v rest, pass bs → parse bs = some (v, rest) →
      parse' bs = some (f v, rest)) : ∀ {count : Nat} {bs rest : Bytes} {vs : List Value},
    itemsPass pass parse count bs → parseItems? parse count bs = some (vs, rest) →
    parseItems? parse' count bs = some (vs.map f, rest)
  | 0, _, _, _, _, hp => by
    cases hp
    rfl
  | count + 1, bs, rest, vs, hpass, hp => by
    rw [parseItems?] at hp
    obtain ⟨⟨v, rest'⟩, hv, hp⟩ := Option.bind_eq_some_iff.1 hp
    obtain ⟨⟨vs', rest''⟩, hvs, hp⟩ := Option.bind_eq_some_iff.1 hp
    cases hp
    rw [parseItems?, h bs v rest' hpass.1 hv, Option.bind_eq_bind, Option.bind_some]
    dsimp only
    rw [parseItems?_map h (hpass.2 v rest' hv) hvs]
    rfl

theorem parseVarData?_tracks {T : Fields → Fields} (hT : Fieldwise T)
    {ds ds' : List VarDataLayout} (h : List.Forall₂ VarDataLayout.Same ds ds') :
    (∀ d ∈ ds, ∀ fs : Fields, (T fs).lookup d.name = fs.lookup d.name) →
    ∀ {s s' t : Fields} {bs rest : Bytes}, Tracks T (ds.map (·.name)) s t →
    parseVarData? ds s bs = some (s', rest) → parseVarData? ds' t bs = some (T s', rest) := by
  induction h with
  | nil =>
    intro _ s s' t bs rest ht hs
    cases hs
    rw [parseVarData?, ht.eq hT]
  | @cons d e ds ds' hde _ ih =>
    intro hkept s s' t bs rest ht hs
    obtain ⟨hd, hkept⟩ := List.forall_mem_cons.1 hkept
    rw [parseVarData?] at hs
    obtain ⟨⟨v, rest'⟩, hv, hs⟩ := Option.bind_eq_some_iff.1 hs
    rw [parseVarData?, ← hde.parse?_eq, hv, ← hde.1]
    exact ih hkept (ht.insertField hT (by rw [hd, lookup_insertField_self])) hs

mutual

/-- Two readers take the same bytes and differ by the change of values alone. -/
theorem BodyLayout.parse?_mapLevels : ∀ {b b' : BodyLayout}, b.AtEveryLevel (Converts own P) b' →
    ∀ {blockLength : Nat} {name : String} {bs rest : Bytes} {v : Value}, P b blockLength →
    b.Meets P blockLength bs → b.parse? blockLength name bs = some (v, rest) →
    b'.parse? blockLength name bs = some (b.mapLevels own b' v, rest)
  | ⟨length, fields, groups, varData⟩, ⟨length', fields', groups', varData'⟩, h, blockLength, name,
      bs, rest, v, hP, hmeets, hparse => by
    rw [BodyLayout.AtEveryLevel] at h
    obtain ⟨hc, hgroups⟩ := h
    rw [BodyLayout.Meets] at hmeets
    obtain ⟨hlen, s₁, s₂, s₃, rest₂, hs₁, hs₂, hs₃, rfl⟩ :=
      BodyLayout.parse?_eq_some_iff.1 hparse
    obtain ⟨t₁, ht₁, hlookup⟩ := hc.fields hP hs₁
    have hmap : Fieldwise (groupsMapLevels own groups groups') := fieldwise_groupsMapLevels _ _
    have hT : Fieldwise fun fs => groupsMapLevels own groups groups'
        (own ⟨length, fields, groups, varData⟩ ⟨length', fields', groups', varData'⟩ fs) :=
      ⟨fun h => hmap.ordered (hc.fieldwise.ordered h),
        fun h => hmap.lookup_congr (hc.fieldwise.lookup_congr h)⟩
    obtain ⟨hng, -, hgd⟩ := List.nodup_append.1 hc.distinct
    have htracks : Tracks (fun fs => groupsMapLevels own groups groups'
        (own ⟨length, fields, groups, varData⟩ ⟨length', fields', groups', varData'⟩ fs))
        (groups.map (·.name) ++ varData.map (·.name)) s₁ t₁ :=
      ⟨ordered_fieldsValue? List.Pairwise.nil hs₁, ordered_fieldsValue? List.Pairwise.nil ht₁,
        fun n hn => by
          rw [lookup_groupsMapLevels_of_notMem fun h => hn (List.mem_append_left _ h), hlookup]⟩
    obtain ⟨t₂, ht₂, htracks⟩ := parseGroups?_tracks hT hgroups hc.groups hng
      (fun n hn fs => hmap.lookup_congr (hc.kept n (List.mem_append_left _ hn) fs)) hmeets htracks
      hs₂
    have ht₃ := parseVarData?_tracks hT hc.varData (fun d hd fs => by
      have hname := List.mem_map_of_mem (f := VarDataLayout.name) hd
      rw [lookup_groupsMapLevels_of_notMem fun h => hgd _ h _ hname rfl,
        hc.kept _ (List.mem_append_right _ hname)]) htracks hs₃
    rw [BodyLayout.parse?_eq_some_iff, BodyLayout.mapLevels]
    exact ⟨hlen, t₁, t₂, _, rest₂, ht₁, ht₂, ht₃, rfl⟩

theorem parseGroups?_tracks {T : Fields → Fields} (hT : Fieldwise T) {pending : List String} :
    ∀ {groups groups' : List GroupLayout}, groupsAtEveryLevel (Converts own P) groups groups' →
    List.Forall₂ GroupLayout.Same groups groups' → (groups.map (·.name)).Nodup →
    (∀ n ∈ groups.map (·.name), ∀ fs : Fields,
      (T fs).lookup n = (groupsMapLevels own groups groups' fs).lookup n) →
    ∀ {s s' t : Fields} {bs rest : Bytes}, groupsMeet P groups bs →
    Tracks T (groups.map (·.name) ++ pending) s t → parseGroups? groups s bs = some (s', rest) →
    ∃ t', parseGroups? groups' t bs = some (t', rest) ∧ Tracks T pending s' t'
  | [], [], _, _, _, _, s, s', t, bs, rest, _, ht, h => by
    rw [parseGroups?] at h
    cases h
    exact ⟨t, by rw [parseGroups?], ht⟩
  | [], _ :: _, h, _, _, _, _, _, _, _, _, _, _, _ => by simp [groupsAtEveryLevel] at h
  | ⟨_, _, _, _, _, _⟩ :: _, [], h, _, _, _, _, _, _, _, _, _, _, _ => by
    simp [groupsAtEveryLevel] at h
  | ⟨name, _, _, dimension, body, _⟩ :: groups, ⟨name', _, _, dimension', body', _⟩ :: groups', h,
      hsame, hn, hT', s, s', t, bs, rest, hmeets, ht, hs => by
    rw [groupsAtEveryLevel] at h
    obtain ⟨hbody, hgroups⟩ := h
    obtain ⟨hhead, hothers⟩ := List.forall₂_cons.1 hsame
    obtain ⟨rfl, rfl⟩ : name = name' ∧ dimension = dimension' := hhead
    rw [List.map_cons, List.nodup_cons] at hn
    rw [groupsMeet] at hmeets
    obtain ⟨header, rest₁, elements, rest₂, hh, hi, hs⟩ := parseGroups?_cons_eq_some_iff.1 hs
    obtain ⟨hP, hitems, hrest⟩ := hmeets header rest₁ hh
    have hi' := parseItems?_map (fun bs v rest hpass
      (hv : body.parse? header.blockLength name bs = some (v, rest)) =>
      BodyLayout.parse?_mapLevels hbody hP hpass hv) hitems hi
    have hput : (T (insertField name (.array elements) s)).lookup name
        = some (.array (elements.map (body.mapLevels own body'))) := by
      rw [hT' name List.mem_cons_self, groupsMapLevels, lookup_groupsMapLevels_of_notMem hn.1,
        lookup_modifyField, if_pos rfl, lookup_insertField_self]
      rfl
    have htail : ∀ n ∈ groups.map (·.name), ∀ fs : Fields,
        (T fs).lookup n = (groupsMapLevels own groups groups' fs).lookup n := fun n hmem fs => by
      have hne : n ≠ name := fun h => hn.1 (h ▸ hmem)
      rw [hT' n (List.mem_cons_of_mem _ hmem), groupsMapLevels]
      refine (fieldwise_groupsMapLevels groups groups').lookup_congr ?_
      rw [lookup_modifyField, if_neg hne]
    obtain ⟨t', ht', htracks⟩ := parseGroups?_tracks hT hgroups hothers hn.2 htail
      (hrest elements rest₂ hi) (ht.insertField hT hput) hs
    have htrailer := BodyLayout.trailerLength_congr hbody.here.groups hbody.here.varData
    refine ⟨t', ?_, htracks⟩
    rw [parseGroups?_cons_eq_some_iff, ← htrailer]
    exact ⟨header, rest₁, _, rest₂, hh, hi', ht'⟩

end

end InStep

end SimpleBinary
