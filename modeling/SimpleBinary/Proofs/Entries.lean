import Mathlib
import SimpleBinary.Proofs.Imports
import SimpleBinary.Proofs.Occurrences

/-!
# Fields and the types among a schema's own

A message has tokens of its own for the type of each field, and a schema resolves if the names of
those types are among its own types (`SchemaLayout.exists_resolve_iff`).  The tokens are not
compared: a field is laid out by those in its message, and as the schema's type of that name is if
the two are copies of each other.
-/

namespace SimpleBinary

/-! ## Fields beside their tokens -/

section Fields

variable {tokens : List Token}

/-- Each field has a property at the index where its type starts, one behind its own first token;
the fields' tokens stand one behind the other from `i` on. -/
def fieldsEach (P : Nat → FieldLayout → Prop) (tokens : List Token) (i : Nat) :
    List FieldLayout → Prop
  | [] => True
  | f :: fields => P (i + 1) f ∧ fieldsEach P tokens (behind tokens 1 i) fields

mutual

/-- Each field of a body and of its groups has a property at the index where its type starts. -/
def BodyLayout.EachField (P : Nat → FieldLayout → Prop) (tokens : List Token) (i : Nat) :
    BodyLayout → Prop
  | ⟨_, fields, groups, _⟩ =>
    fieldsEach P tokens i fields ∧ groupsEach P tokens (behind tokens fields.length i) groups

def groupsEach (P : Nat → FieldLayout → Prop) (tokens : List Token) (i : Nat) :
    List GroupLayout → Prop
  | [] => True
  | ⟨_, _, _, _, body, _⟩ :: groups => body.EachField P tokens (behind tokens 1 (i + 1))
    ∧ groupsEach P tokens (behind tokens 1 i) groups

end

/-- A field is read of the run of tokens of its type. -/
theorem exists_run_of_fieldAt {s : Span} {cursor : Nat} {f : FieldLayout}
    (h : fieldAt tokens s cursor = .ok f) : ∃ run, HasAt tokens (s.start + 1) run
      ∧ spanAt tokens (s.start + 1) = .ok ⟨s.start + 1, s.start + 1 + run.length⟩
      ∧ kindAt tokens ⟨s.start + 1, s.start + 1 + run.length⟩ = .ok f.kind := by
  obtain ⟨t, -, h⟩ := bind_eq_ok_iff.1 h
  obtain ⟨type, htype, h⟩ := bind_eq_ok_iff.1 h
  split at h
  · exact absurd h throw_ne_ok
  obtain ⟨kind, hkind, h⟩ := bind_eq_ok_iff.1 h
  cases h
  have hspan := spanAt_of_take htype
  obtain ⟨hstart, hlt, hle⟩ := spanAt_bounds hspan
  have hat : HasAt tokens type.start (type.tokens tokens) := hasAt_tokens (by omega) hle
  have hlength : (type.tokens tokens).length = type.stop - type.start := length_tokens hle
  have htypeEq : type = ⟨s.start + 1, s.start + 1 + (type.tokens tokens).length⟩ := by
    rw [hlength, ← hstart, Nat.add_sub_cancel' (by omega)]
  rw [htypeEq] at hspan hkind
  rw [hstart] at hat
  exact ⟨type.tokens tokens, hat, hspan, hkind⟩

/-- The field whose type starts at an index is read of the run of tokens there. -/
def ReadOfRun (tokens : List Token) (i : Nat) (f : FieldLayout) : Prop :=
  ∃ run, HasAt tokens i run ∧ spanAt tokens i = .ok ⟨i, i + run.length⟩
    ∧ kindAt tokens ⟨i, i + run.length⟩ = .ok f.kind

theorem fieldsEach_of_fieldsAt : ∀ {spans : List Span} {i j cursor : Nat}
    {fields : List FieldLayout}, Successive tokens i spans j →
    fieldsAt tokens cursor spans = .ok fields → fieldsEach (ReadOfRun tokens) tokens i fields
  | [], _, _, _, _, _, h => by
    cases h
    trivial
  | s :: ss, i, j, cursor, fields, hs, h => by
    obtain ⟨f, hf, h⟩ := bind_eq_ok_iff.1 h
    obtain ⟨rest, hrest, h⟩ := bind_eq_ok_iff.1 h
    cases h
    have hrun := exists_run_of_fieldAt hf
    obtain ⟨rfl, t, ht, -, hstop, hss⟩ := hs
    rw [fieldsEach, behind_one ht, ← hstop]
    exact ⟨hrun, fieldsEach_of_fieldsAt hss hrest⟩

theorem groupsEach_of_forall₂ {P : Nat → FieldLayout → Prop} {spans : List Span}
    {groups : List GroupLayout} (h : List.Forall₂ (fun s (g : GroupLayout) =>
      g.body.EachField P tokens (behind tokens 1 (s.start + 1))) spans groups) :
    ∀ {i j : Nat}, Successive tokens i spans j → groupsEach P tokens i groups := by
  induction h with
  | nil =>
    intro i j _
    rw [groupsEach]
    trivial
  | @cons s g ss gs hg _ ih =>
    rintro i j ⟨rfl, t, ht, -, hstop, hss⟩
    obtain ⟨name, id, sinceVersion, dimension, body, description⟩ := g
    rw [groupsEach, behind_one ht, ← hstop]
    exact ⟨hg, ih hss⟩

/-- Each field of a body is read of its run of tokens if those of its groups are. -/
theorem bodySteps_eachField :
    BodySteps tokens (fun s b => b.EachField (ReadOfRun tokens) tokens s.start)
      fun s g => g.body.EachField (ReadOfRun tokens) tokens (behind tokens 1 (s.start + 1)) where
  body := by
    intro s blockLength spans fields groups varData hs hf hg _ _
    obtain ⟨j, k, hfields, hgroups, -⟩ := successive_splitBody hs
    rw [BodyLayout.EachField, (fieldsDeclaredAt_of_fieldsAt hfields hf).2, hfields.behind_eq]
    exact ⟨fieldsEach_of_fieldsAt hfields hf, groupsEach_of_forall₂ hg hgroups⟩
  group := by
    intro s d t first dimension body _ hd _ _ _ _ hbody
    obtain ⟨u, hu, -, rfl⟩ := exists_of_spanAt (spanAt_of_take hd)
    rw [behind_one hu]
    exact hbody

theorem BodyLayout.eachField_of_ofTokens {m : MessageLayout}
    (h : MessageLayout.ofTokens tokens = .ok m) :
    m.body.EachField (ReadOfRun tokens) tokens 1 := by
  obtain ⟨s, t, hs, -, hbody, -⟩ := MessageLayout.exists_bodyAt h
  have heach := bodySteps_eachField.of_bodyAt _ hbody
  rw [(enclosed_of_wholeSpan hs).2] at heach
  exact heach

theorem fieldsEach.imp {P Q : Nat → FieldLayout → Prop} (hPQ : ∀ i f, P i f → Q i f) :
    ∀ {fields : List FieldLayout} {i : Nat}, fieldsEach P tokens i fields →
      fieldsEach Q tokens i fields
  | [], _, _ => trivial
  | _ :: _, _, h => ⟨hPQ _ _ h.1, fieldsEach.imp hPQ h.2⟩

mutual

theorem BodyLayout.EachField.imp {P Q : Nat → FieldLayout → Prop} (hPQ : ∀ i f, P i f → Q i f) :
    ∀ {b : BodyLayout} {i : Nat}, b.EachField P tokens i → b.EachField Q tokens i
  | ⟨blockLength, fields, groups, varData⟩, i, h => by
    rw [BodyLayout.EachField] at h ⊢
    exact ⟨fieldsEach.imp hPQ h.1, groupsEach.imp hPQ h.2⟩

theorem groupsEach.imp {P Q : Nat → FieldLayout → Prop} (hPQ : ∀ i f, P i f → Q i f) :
    ∀ {groups : List GroupLayout} {i : Nat}, groupsEach P tokens i groups →
      groupsEach Q tokens i groups
  | [], i, _ => by
    rw [groupsEach]
    trivial
  | ⟨name, id, sinceVersion, dimension, body, description⟩ :: groups, i, h => by
    rw [groupsEach] at h ⊢
    exact ⟨BodyLayout.EachField.imp hPQ h.1, groupsEach.imp hPQ h.2⟩

end

end Fields

/-! ## Copies of a schema's types -/

theorem TypeLayout.kind_inj {t u : TypeLayout} : t.kind = u.kind ↔ t = u := by
  cases t <;> cases u <;> simp [kind]

/-- A stream that is read as a type with a name where it stands is one on its own. -/
theorem TypeLayout.ofTokens_of_kindAt {tokens : List Token} {o : Option TypeLayout} {t : TypeLayout}
    (ho : TypeLayout.ofTokens tokens = .ok o)
    (hk : kindAt tokens ⟨0, tokens.length⟩ = .ok t.kind) : o = some t := by
  rcases o with _ | u
  -- A stream that is no type with a name is one element, which has no such kind.
  · rcases tokens with _ | ⟨first, rest⟩
    · exact absurd ho throw_ne_ok
    have hsignal : first.signal = .encoding := by
      unfold TypeLayout.ofTokens at ho
      dsimp only at ho
      split at ho
      · obtain ⟨c, -, ho⟩ := bind_eq_ok_iff.1 ho
        cases ho
      · obtain ⟨s, -, ho⟩ := bind_eq_ok_iff.1 ho
        obtain ⟨e, -, ho⟩ := bind_eq_ok_iff.1 ho
        cases ho
      · obtain ⟨s, -, ho⟩ := bind_eq_ok_iff.1 ho
        obtain ⟨l, -, ho⟩ := bind_eq_ok_iff.1 ho
        cases ho
      · assumption
      · exact absurd ho throw_ne_ok
    rw [kindAt, show tokenAt (first :: rest) 0 = .ok first from rfl, ok_bind, hsignal] at hk
    obtain ⟨p, -, hk⟩ := bind_eq_ok_iff.1 hk
    cases t <;> cases hk
  · have hu := (ofTokens_eq_some_iff.1 ho).2
    rw [hk] at hu
    rw [kind_inj.1 (Except.ok.inj hu)]

/-- The field whose type starts at an index is read of the run of tokens there, and as a schema's
type if its stream is a copy of the run. -/
def EntryOfCopy (types : List (List Token)) (entries : List TypeLayout) (tokens : List Token)
    (i : Nat) (f : FieldLayout) : Prop :=
  ∃ run, HasAt tokens i run ∧ spanAt tokens i = .ok ⟨i, i + run.length⟩
    ∧ kindAt tokens ⟨i, i + run.length⟩ = .ok f.kind
    ∧ ∀ name, f.kind.typeName? = some name → ∀ u ∈ types, CopyOf run u →
      ∃ t ∈ entries, TypeLayout.ofTokens u = .ok (some t) ∧ t.name = name ∧ f.kind = t.kind

theorem entryOfCopy_of_readOfRun {types : List (List Token)} {layouts : List (Option TypeLayout)}
    (ht : types.mapM TypeLayout.ofTokens = .ok layouts) {tokens : List Token} {i : Nat}
    {f : FieldLayout} (h : ReadOfRun tokens i f) :
    EntryOfCopy types (layouts.filterMap fun t => t) tokens i f := by
  obtain ⟨run, hat, hspan, hkind⟩ := h
  refine ⟨run, hat, hspan, hkind, fun name hname u hu hcopy => ?_⟩
  obtain ⟨o, ho, hu⟩ := exists_mem_of_mapM ht hu
  obtain ⟨t, hf, hname⟩ := FieldKind.typeName?_eq_some_iff.1 hname
  have hsame := kindAt_of_copy hcopy hat (hasAt_self u)
  rw [hkind, hf, toOption_ok, eq_comm, toOption_eq_some_iff, Nat.zero_add] at hsame
  obtain rfl := TypeLayout.ofTokens_of_kindAt hu hsame
  exact ⟨t, List.mem_filterMap.2 ⟨_, ho, rfl⟩, hu, hname, hf⟩

namespace SchemaLayout

/-- A name is that of a type whose stream a schema has. -/
def NamesType (s : Schema) (name : String) : Prop :=
  ∃ u ∈ s.types, ∃ t, TypeLayout.ofTokens u = .ok (some t) ∧ t.name = name

theorem resolve_eq_ok_iff {s : Schema} {l : SchemaLayout} : resolve s = .ok l ↔
    ∃ header layouts messages, HeaderLayout.ofTokens s.header = .ok header
      ∧ s.types.mapM TypeLayout.ofTokens = .ok layouts
      ∧ s.messages.mapM MessageLayout.ofTokens = .ok messages
      ∧ (∀ m ∈ messages, ∀ b ∈ m.body.bodies, ∀ f ∈ b.fields, ∀ name,
        f.kind.typeName? = some name → ∃ t ∈ layouts.filterMap fun t => t, t.name = name)
      ∧ l = {
        package := s.package, id := s.id, version := s.version, byteOrder := s.byteOrder, header
        types := layouts.filterMap fun t => t, messages } := by
  unfold resolve
  simp only [bind_eq_ok_iff, mapM_check_eq_ok_iff, pure_eq_ok_iff,
    BodyLayout.checkReferences_eq_ok_iff, List.mem_map]
  constructor
  · rintro ⟨header, hheader, layouts, hlayouts, messages, ⟨hmessages, hknown⟩, rfl⟩
    exact ⟨header, layouts, messages, hheader, hlayouts, hmessages, hknown, rfl⟩
  · rintro ⟨header, layouts, messages, hheader, hlayouts, hmessages, hknown, rfl⟩
    exact ⟨header, hheader, layouts, hlayouts, messages, ⟨hmessages, hknown⟩, rfl⟩

/-- A schema resolves just if its header, its types and its messages are laid out, and the name of
each field's type is that of one of its types. -/
theorem exists_resolve_iff (s : Schema) : (∃ l, resolve s = .ok l) ↔
    (∃ header, HeaderLayout.ofTokens s.header = .ok header)
      ∧ (∀ u ∈ s.types, ∃ t, TypeLayout.ofTokens u = .ok t)
      ∧ ∀ tokens ∈ s.messages, ∃ m, MessageLayout.ofTokens tokens = .ok m
        ∧ ∀ b ∈ m.body.bodies, ∀ f ∈ b.fields, ∀ name, f.kind.typeName? = some name →
          NamesType s name := by
  have hnames : ∀ {layouts}, s.types.mapM TypeLayout.ofTokens = .ok layouts → ∀ name,
      (∃ t ∈ layouts.filterMap fun t => t, t.name = name) ↔ NamesType s name := by
    intro layouts hlayouts name
    constructor
    · rintro ⟨t, ht, rfl⟩
      obtain ⟨o, ho, rfl⟩ := List.mem_filterMap.1 ht
      obtain ⟨u, hu, h⟩ := exists_of_mem_mapM hlayouts ho
      exact ⟨u, hu, t, h, rfl⟩
    · rintro ⟨u, hu, t, h, rfl⟩
      obtain ⟨o, ho, h'⟩ := exists_mem_of_mapM hlayouts hu
      rw [h] at h'
      cases h'
      exact ⟨t, List.mem_filterMap.2 ⟨_, ho, rfl⟩, rfl⟩
  constructor
  · rintro ⟨l, h⟩
    obtain ⟨header, layouts, messages, hheader, hlayouts, hmessages, hknown, -⟩ :=
      resolve_eq_ok_iff.1 h
    refine ⟨⟨header, hheader⟩, exists_mapM_ok_iff.1 ⟨_, hlayouts⟩, fun tokens htokens => ?_⟩
    obtain ⟨m, hm, htokens⟩ := exists_mem_of_mapM hmessages htokens
    refine ⟨m, htokens, fun b hb f hf name hname => ?_⟩
    exact (hnames hlayouts name).1 (hknown m hm b hb f hf name hname)
  · rintro ⟨⟨header, hheader⟩, htypes, hmessages⟩
    obtain ⟨layouts, hlayouts⟩ := exists_mapM_ok_iff.2 htypes
    obtain ⟨messages, hm⟩ := exists_mapM_ok_iff.2 fun tokens htokens =>
      (hmessages tokens htokens).imp fun _ h => h.1
    refine ⟨_, resolve_eq_ok_iff.2 ⟨header, layouts, messages, hheader, hlayouts, hm, ?_, rfl⟩⟩
    intro m hmem b hb f hf name hname
    obtain ⟨tokens, htokens, h⟩ := exists_of_mem_mapM hm hmem
    obtain ⟨m', h', hnamed⟩ := hmessages tokens htokens
    rw [h] at h'
    cases h'
    exact (hnames hlayouts name).2 (hnamed b hb f hf name hname)

/-- In a schema that resolves each field, at any depth of groups, has a type whose name is among the
schema's own.  It is laid out by the tokens in its message, and as the schema's type of that name if
they are a copy of it.  The tokens are not compared: a schema resolves just if what it consists of
is laid out and the names are known. -/
theorem entryOfCopy_of_resolve (s : Schema) :
    (∀ l, resolve s = .ok l → ∀ m ∈ l.messages, ∃ tokens ∈ s.messages,
      MessageLayout.ofTokens tokens = .ok m
      ∧ (∀ b ∈ m.body.bodies, ∀ f ∈ b.fields, ∀ name, f.kind.typeName? = some name →
        ∃ t ∈ l.types, t.name = name)
      ∧ m.body.EachField (EntryOfCopy s.types l.types tokens) tokens 1)
    ∧ ((∃ l, resolve s = .ok l) ↔ (∃ header, HeaderLayout.ofTokens s.header = .ok header)
      ∧ (∀ u ∈ s.types, ∃ t, TypeLayout.ofTokens u = .ok t)
      ∧ ∀ tokens ∈ s.messages, ∃ m, MessageLayout.ofTokens tokens = .ok m
        ∧ ∀ b ∈ m.body.bodies, ∀ f ∈ b.fields, ∀ name, f.kind.typeName? = some name →
          NamesType s name) := by
  refine ⟨fun l hl m hm => ?_, exists_resolve_iff s⟩
  obtain ⟨header, layouts, messages, -, hlayouts, hmessages, hknown, rfl⟩ := resolve_eq_ok_iff.1 hl
  obtain ⟨tokens, htokens, h⟩ := exists_of_mem_mapM hmessages hm
  exact ⟨tokens, htokens, h, hknown m hm, (BodyLayout.eachField_of_ofTokens h).imp
    fun i f => entryOfCopy_of_readOfRun hlayouts⟩

end SchemaLayout

/-- The side of an order is laid out as the type of that name. -/
theorem Orders.entryOfCopy_market : ∃ tokens ∈ market.flatten.messages,
    MessageLayout.ofTokens tokens = .ok definedMessage
      ∧ (∀ b ∈ definedMessage.body.bodies, ∀ f ∈ b.fields, ∀ name,
        f.kind.typeName? = some name → ∃ t ∈ marketLayout.types, t.name = name)
      ∧ definedMessage.body.EachField
        (EntryOfCopy market.flatten.types marketLayout.types tokens) tokens 1 :=
  (SchemaLayout.entryOfCopy_of_resolve market.flatten).1 _ resolve_market _ List.mem_cons_self

namespace Sides

/-- The sides of an order by their numbers. -/
def sides (buy sell : UInt64) : TypeDef :=
  .enumeration "Side" .uint8 [("BUY", .uint buy), ("SELL", .uint sell)]

/-- The sides as they are read. -/
def layout (buy sell : UInt64) : EnumLayout where
  typeName := "Side"
  encoding := .uint8
  byteOrder := .littleEndian
  values := [⟨"BUY", .uint buy⟩, ⟨"SELL", .uint sell⟩]
  nullValue := .uint 255
  description := none

def order : MessageDef where
  name := "Order"
  id := 1
  fields := [{ name := "side", id := 1, type := sides 2 1 }]

def orderLayout : MessageLayout :=
  ⟨"Order", 1, 0, none, none, ⟨1, [⟨"side", 1, 0, 0, none, .enumeration (layout 2 1)⟩], [], []⟩⟩

/-- Orders in which the sides have the numbers of each other. -/
def opposed : SchemaDef where
  id := 1
  version := 0
  types := [sides 1 2]
  messages := [order]

theorem resolve_opposed : SchemaLayout.resolve opposed.flatten = .ok {
    package := none, id := 1, version := 0, byteOrder := .littleEndian, header := Orders.header
    types := [.enumeration (layout 1 2)], messages := [orderLayout] } := by
  have htype : TypeLayout.ofTokens ((sides 1 2).tokens .littleEndian 0)
      = .ok (some (.enumeration (layout 1 2))) :=
    TypeLayout.ofTokens_tokens trivial rfl
  have hsound : order.Sound := by
    simp [order, MessageDef.Sound, BlockSound, sides, TypeDef.Sound, groupsSound]
  exact SchemaDef.resolve_flatten Orders.ofTokens_header (.cons htype .nil)
    (.cons ⟨hsound, rfl⟩ .nil) (List.forall_mem_singleton.2 rfl) rfl

/-- The schema resolves, and the side of an order is laid out otherwise than the type. -/
theorem exists_resolve_opposed : ∃ l, SchemaLayout.resolve opposed.flatten = .ok l
    ∧ ∃ m ∈ l.messages, ∃ f ∈ m.body.fields, f.kind.typeName? = some "Side"
      ∧ ∀ t ∈ l.types, t.name = "Side" → f.kind ≠ t.kind := by
  refine ⟨_, resolve_opposed, _, List.mem_cons_self, _, List.mem_cons_self, rfl, ?_⟩
  intro t ht _ h
  obtain rfl := List.mem_singleton.1 ht
  have hvalues : layout 2 1 = layout 1 2 := FieldKind.enumeration.inj h
  exact absurd hvalues (by decide)

end Sides

end SimpleBinary
