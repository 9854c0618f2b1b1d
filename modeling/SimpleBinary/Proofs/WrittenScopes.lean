import Mathlib
import SimpleBinary.Proofs.Declarations.Python
import SimpleBinary.Proofs.Declarations.Rust
import SimpleBinary.Proofs.Declarations.TypeScript

/-!
# Written scopes

The scopes of a package are those of its schema, in order: each declares what it should, one name
for each of the schema's, and has the numbers of its literals (`Namer.Writes`).
-/

namespace SimpleBinary

/-! ## Written scopes -/

/-- Lines of which one has the number of a literal under its name. -/
def Namer.HasNumber (n : Namer) (lines : Lines) (d : DeclaredNumber) : Prop :=
  ∃ name, n.declare d.name = .ok name
    ∧ n.language.HasNumber lines d.place (name, d.value.sourceInt d.kind)

/-- A scope in lines that is the one which was to be declared. -/
structure Namer.Writes (n : Namer) (d : DeclaredScope) (sc : Scope) : Prop where
  isType : sc.isType = d.isType
  type : n.declare d.type = .ok sc.type
  names : n.Spells d.names (n.language.names sc.lines)
  numbers : ∀ number ∈ d.numbers, n.HasNumber sc.lines number

/-- Lines of which the scopes are those to be declared. -/
def Namer.Declares (n : Namer) (lines : Lines) (ds : List DeclaredScope) : Prop :=
  ∃ scopes, n.language.Opens lines scopes ∧ List.Forall₂ n.Writes ds scopes

namespace Namer

variable {n : Namer} {lines lines' : Lines} {ds ds' : List DeclaredScope}

namespace Declares

theorem append (h : n.Declares lines ds) (h' : n.Declares lines' ds') :
    n.Declares (lines ++ lines') (ds ++ ds') := by
  obtain ⟨scopes, hopens, hwrites⟩ := h
  obtain ⟨scopes', hopens', hwrites'⟩ := h'
  exact ⟨_, hopens.append hopens', List.rel_append hwrites hwrites'⟩

theorem none (h : n.language.Opens lines []) : n.Declares lines [] := ⟨[], h, .nil⟩

theorem none_append (h : n.language.Opens lines []) (h' : n.Declares lines' ds) :
    n.Declares (lines ++ lines') ds := (none h).append h'

theorem append_blank (h : n.Declares lines ds) : n.Declares (lines ++ [""]) ds := by
  have hboth := h.append (none .blank)
  rwa [List.append_nil] at hboth

end Declares

/-! ## Types -/

theorem declare_type {raw type : String} (h : n.type raw = .ok type) (suffix : String) :
    n.declare (.type [raw] suffix) = .ok (type ++ suffix) := by
  show (do
    let types ← [raw].mapM n.type
    return types.foldl (· ++ ·) "" ++ suffix) = _
  rw [List.mapM_cons, h]
  show Except.ok (("" ++ type) ++ suffix) = _
  rw [String.empty_append]

theorem declare_type_self {raw type : String} (h : n.type raw = .ok type) :
    n.declare (.type [raw] "") = .ok type := by
  rw [declare_type h, String.append_empty]

theorem declare_type_append {parts : List String} {raw front type : String}
    (hfront : n.declare (.type parts "") = .ok front) (h : n.type raw = .ok type) :
    n.declare (.type (parts ++ [raw]) "") = .ok (front ++ type) := by
  obtain ⟨types, htypes, hfront⟩ := bind_eq_ok_iff.1 hfront
  cases hfront
  show (do
    let types ← (parts ++ [raw]).mapM n.type
    return types.foldl (· ++ ·) "" ++ "") = _
  have hboth : (parts ++ [raw]).mapM n.type = .ok (types ++ [type]) :=
    mapM_eq_ok_iff.2 (List.rel_append (mapM_eq_ok_iff.1 htypes) (.cons h .nil))
  rw [hboth]
  show Except.ok ((types ++ [type]).foldl (· ++ ·) "" ++ "") = _
  rw [List.foldl_append, List.foldl_cons, List.foldl_nil, String.append_empty, String.append_empty]

theorem declare_type_suffix {parts : List String} {type : String}
    (h : n.declare (.type parts "") = .ok type) (suffix : String) :
    n.declare (.type parts suffix) = .ok (type ++ suffix) := by
  obtain ⟨types, htypes, h⟩ := bind_eq_ok_iff.1 h
  cases h
  show (do
    let types ← parts.mapM n.type
    return types.foldl (· ++ ·) "" ++ suffix) = _
  rw [htypes, String.append_empty]
  rfl

theorem declare_type_plain {parts : List String} {type : String}
    (h : n.declare (.type parts "") = .ok type) : IsPlain type := by
  obtain ⟨types, hparts, h⟩ := bind_eq_ok_iff.1 h
  cases h
  have htypes : ∀ type ∈ types, IsPlain type := fun type htype => by
    obtain ⟨raw, -, hraw⟩ := exists_of_mem_mapM hparts htype
    exact plain_of_identifier .type hraw
  have hall : ∀ front, IsPlain front → IsPlain (types.foldl (· ++ ·) front) := by
    clear h hparts
    induction types with
    | nil => exact fun front hfront => hfront
    | cons type types ih =>
      rw [List.forall_mem_cons] at htypes
      exact fun front hfront => ih htypes.2 _ (hfront.append htypes.1)
  rw [String.append_empty]
  exact hall "" (IsPlain.ofList rfl)

end Namer

theorem BodyLayout.allScopes_eq (language : Language) (isMessage : Bool) (parts : List String)
    (b : BodyLayout) : b.allScopes language isMessage parts
      = b.scopes language isMessage parts ++ groupScopes language parts b.groups := by
  cases b
  rw [allScopes]

namespace Language

def elementLines : Language → SchemaLayout → NamedElement → Lines
  | .rust => Rust.elementLines
  | .typeScript => TypeScript.elementLines
  | .python => Python.elementLines

/-- The constants of fields. -/
def constantLines : Language → (owner : String) → List NamedField → Lines
  | .rust, owner, fields => (Rust.FieldCode.ofFields owner fields).constants
  | .typeScript, _, fields => (TypeScript.FieldCode.ofFields fields).constants
  | .python, _, fields => (Python.FieldCode.ofFields fields).constants

/-- The lines that make the members of a type null. -/
def nullLines : Language → (owner : String) → List NamedField → Lines
  | .rust, owner, fields => (Rust.FieldCode.ofFields owner fields).reads.map (·.asNull)
  | .typeScript, _, _ => []
  | .python, _, fields => (Python.FieldCode.ofFields fields).reads.map (·.asNull)

end Language

namespace Namer

variable {n : Namer} {type : String}

theorem plainNames_of_fields {fields : List FieldLayout} {named : List NamedField}
    (h : fields.mapM n.field = .ok named) : ∀ f ∈ named, f.PlainNames := by
  intro f hf
  obtain ⟨layout, -, hlayout⟩ := exists_of_mem_mapM h hf
  exact plainNames_of_field hlayout

/-- The constants of fields have the numbers of their literals. -/
theorem hasNumber_constants (owner : String) {fields : List FieldLayout} {named : List NamedField}
    (h : fields.mapM n.field = .ok named) {d : DeclaredNumber}
    (hd : d ∈ fields.flatMap (·.constantNumbers)) :
    n.HasNumber (n.language.constantLines owner named) d := by
  obtain ⟨f, hf, hd⟩ := List.mem_flatMap.1 hd
  obtain ⟨g, hg, hfg⟩ := exists_mem_of_mapM h hf
  obtain ⟨p, constant, hk, hv, hplace, hkind, hname⟩ := exists_of_mem_constantNumbers hfg hd
  have hplain := plainNames_of_field hfg
  refine ⟨_, hname, ?_⟩
  rw [hplace, hkind]
  obtain ⟨language, policy⟩ := n
  cases language with
  | rust =>
    obtain ⟨line, hline, hnumber⟩ := Rust.exists_number_constants owner hplain hk hv
    refine ⟨line, ?_, hnumber⟩
    show line ∈ (Rust.FieldCode.ofFields owner named).constants
    rw [Rust.constants_ofFields]
    exact List.mem_flatMap_of_mem hg hline
  | typeScript =>
    obtain ⟨line, hline, hnumber⟩ := TypeScript.exists_number_constants hplain hk hv
    refine ⟨line, ?_, hnumber⟩
    show line ∈ (TypeScript.FieldCode.ofFields named).constants
    rw [TypeScript.constants_ofFields]
    exact List.mem_flatMap_of_mem hg hline
  | python =>
    obtain ⟨line, hline, hnumber⟩ := Python.exists_number_constants hplain hk hv
    refine ⟨line, ?_, hnumber⟩
    show line ∈ (Python.FieldCode.ofFields named).constants
    rw [Python.constants_ofFields]
    exact List.mem_flatMap_of_mem hg hline

/-- What makes fields null has the numbers of their null values. -/
theorem hasNumber_nulls (owner : String) {fields : List FieldLayout} {named : List NamedField}
    (h : fields.mapM n.field = .ok named) {d : DeclaredNumber}
    (hd : d ∈ fields.flatMap (·.nullNumbers n.language)) :
    d.place = .null ∧ n.HasNumber (n.language.nullLines owner named) d := by
  obtain ⟨f, hf, hd⟩ := List.mem_flatMap.1 hd
  obtain ⟨g, hg, hfg⟩ := exists_mem_of_mapM h hf
  obtain ⟨p, constant, hk, hv, hplace, hkind, hname⟩ := exists_of_mem_nullNumbers hfg hd
  refine ⟨hplace, _, hname, ?_⟩
  rw [hplace, hkind]
  obtain ⟨language, policy⟩ := n
  cases language with
  | rust =>
    obtain ⟨r, hr, hnumber⟩ := Rust.exists_number_null owner (plainNames_of_field hfg) hk hv
    exact ⟨_, List.mem_map_of_mem (Rust.reads_ofFields owner named ▸
      List.mem_flatMap_of_mem hg hr), hnumber⟩
  | typeScript => exact absurd rfl (PrimitiveLayout.of_nullLiteral? hv).2.2.2.1
  | python =>
    obtain ⟨r, hr, hnumber⟩ := Python.exists_number_null (plain_of_field hfg) hk hv
    exact ⟨_, List.mem_map_of_mem (Python.reads_ofFields named ▸
      List.mem_flatMap_of_mem hg hr), hnumber⟩

theorem declares_composite (l : SchemaLayout) {c : CompositeLayout} {members : List NamedField}
    (htype : n.type c.typeName = .ok type) (hmembers : c.members.mapM n.field = .ok members) :
    n.Declares (n.language.elementLines l (.composite type c members)) (c.scopes n.language) := by
  have hplain : IsPlain type := plain_of_identifier .type htype
  have hfields := plainNames_of_fields hmembers
  have hnames := spells_flatMap (fun _ _ => spells_members) hmembers
  have hconstants := (spells_fixed (n := n) ["ENCODED_LENGTH"]).append
    (spells_flatMap (fun _ _ => spells_constants) hmembers)
  have hfunctions := spells_fixed (n := n) n.language.compositeFunctions
  have htype' := declare_type_self htype
  have hcodec := declare_type htype "Codec"
  have hnumbers : ∀ {lines : Lines},
      (∀ place p, n.language.HasNumber (n.language.constantLines c.typeName members) place p →
        n.language.HasNumber lines place p) →
      (∀ p, n.language.HasNumber (n.language.nullLines c.typeName members) .null p →
        n.language.HasNumber lines .null p) →
      ∀ number ∈ c.members.flatMap (·.constantNumbers)
        ++ c.members.flatMap (·.nullNumbers n.language), n.HasNumber lines number := by
    intro lines hcopied hcopiedNulls
    refine List.forall_mem_append.2 ⟨fun number hmem => ?_, fun number hmem => ?_⟩
    · obtain ⟨name, hname, hnumber⟩ := hasNumber_constants c.typeName hmembers hmem
      exact ⟨name, hname, hcopied _ _ hnumber⟩
    · obtain ⟨hplace, name, hname, hnumber⟩ := hasNumber_nulls c.typeName hmembers hmem
      rw [hplace] at hnumber
      exact ⟨name, hname, hplace ▸ hcopiedNulls _ hnumber⟩
  obtain ⟨language, policy⟩ := n
  cases language with
  | rust =>
    obtain ⟨_, _, hopens, hfirst, hall, hcopied, hnulls⟩ :=
      Rust.exists_opens_composite hplain c hfields
    exact ⟨_, hopens, .cons ⟨rfl, htype', hfirst ▸ hnames, List.forall_mem_nil _⟩
      (.cons ⟨rfl, htype', hall ▸ hconstants.append hfunctions, hnumbers hcopied hnulls⟩ .nil)⟩
  | typeScript =>
    obtain ⟨_, _, hopens, hfirst, hall, hcopied⟩ :=
      TypeScript.exists_opens_composite hplain c hfields
    have hnulls : ∀ lines p, Language.typeScript.HasNumber [] .null p →
        Language.typeScript.HasNumber lines .null p := fun _ _ h => h.mono (List.nil_subset _)
    exact ⟨_, hopens, .cons ⟨rfl, htype', hfirst ▸ hnames, List.forall_mem_nil _⟩
      (.cons ⟨rfl, hcodec, hall ▸ hconstants.append hfunctions, hnumbers hcopied (hnulls _)⟩ .nil)⟩
  | python =>
    obtain ⟨_, hopens, hall, hcopied, hnulls⟩ := Python.exists_opens_composite hplain c hfields
    exact ⟨_, hopens, .cons ⟨rfl, htype', hall ▸ (hconstants.append hnames).append hfunctions,
      hnumbers hcopied hnulls⟩ .nil⟩

theorem declare_variant {v : EnumValue} {p : String × Literal}
    (h : (do return (← n.variant v.name, v.value)) = Except.ok p) :
    n.declare (.named .variant v.name) = .ok p.1 ∧ p.2 = v.value := by
  obtain ⟨name, hname, h⟩ := bind_eq_ok_iff.1 h
  cases h
  exact ⟨hname, rfl⟩

section Values

variable {e : EnumLayout} {values : List (String × Literal)} {lines : Lines}
  (hvalues : (e.values.mapM fun v => do return (← n.variant v.name, v.value)) = .ok values)

include hvalues

/-- Lines that have the number of every spelled value have the numbers of the enum's values. -/
theorem hasNumber_values {place : NumberPlace} (hlines : ∀ p ∈ values,
      n.language.HasNumber lines place (p.1, p.2.sourceInt e.encoding.kind)) :
    ∀ number ∈ e.valueNumbers place, n.HasNumber lines number := by
  intro number hmem
  obtain ⟨v, hv, rfl⟩ := List.mem_map.1 hmem
  obtain ⟨p, hp, hvp⟩ := exists_mem_of_mapM hvalues hv
  obtain ⟨hname, hvalue⟩ := declare_variant hvp
  exact ⟨p.1, hname, hvalue ▸ hlines p hp⟩

/-- So they have the numbers of the enum if they have the one of its null value too. -/
theorem hasNumber_numbers {null : String} (hnull : n.variant EnumLayout.nullName = .ok null)
    (hlines : e.encoding.kind ≠ .float →
      n.language.HasNumber lines .constant (null, e.nullValue.sourceInt e.encoding.kind)
        ∧ ∀ p ∈ values,
          n.language.HasNumber lines .constant (p.1, p.2.sourceInt e.encoding.kind)) :
    ∀ number ∈ e.numbers .typeScript, n.HasNumber lines number := by
  unfold EnumLayout.numbers
  split
  · exact List.forall_mem_nil _
  · rename_i hkind
    obtain ⟨hnullNumber, hnumbers⟩ := hlines hkind
    exact List.forall_mem_append.2 ⟨hasNumber_values hvalues hnumbers,
      List.forall_mem_singleton.2 ⟨null, hnull, hnullNumber⟩⟩

end Values

theorem declares_enumeration (l : SchemaLayout) {e : EnumLayout} {constant null : String}
    {values : List (String × Literal)} (htype : n.type e.typeName = .ok type)
    (hvalues : (e.values.mapM fun v => do return (← n.variant v.name, v.value)) = .ok values)
    (hnull : n.variant EnumLayout.nullName = .ok null)
    (hconstant : n.constant e.typeName = .ok constant) :
    n.Declares (n.language.elementLines l (.enumeration type constant e values null))
      (e.scopes n.language) := by
  have hplain : IsPlain type := plain_of_identifier .type htype
  have hvalue : ∀ v ∈ values, IsPlain v.1 := by
    intro p hp
    obtain ⟨v, -, hv⟩ := exists_of_mem_mapM hvalues hp
    exact plain_of_identifier .variant (declare_variant hv).1
  have hnullPlain : IsPlain null := plain_of_identifier .variant hnull
  have hnames : n.Spells
      (e.values.map (.named .variant ·.name) ++ [.named .variant EnumLayout.nullName])
      (values.map (·.1) ++ [null]) :=
    (spells_map (fun _ _ h => (declare_variant h).1) hvalues).append (spells_singleton hnull)
  have htype' := declare_type_self htype
  obtain ⟨language, policy⟩ := n
  cases language with
  | rust =>
    obtain ⟨_, _, hopens, hvariants, hall, hnumbers⟩ :=
      Rust.exists_opens_enum hplain e hvalue hnullPlain
    refine ⟨_, hopens, .cons ⟨rfl, htype', hvariants ▸ hnames, List.forall_mem_nil _⟩
      (.cons ⟨rfl, htype', hall ▸ spells_fixed _, ?_⟩ .nil)⟩
    unfold EnumLayout.numbers
    split
    · exact List.forall_mem_nil _
    · rename_i hkind
      obtain ⟨hnullNumber, hnumbers⟩ := hnumbers hkind
      exact List.forall_mem_append.2 ⟨List.forall_mem_append.2
        ⟨List.forall_mem_singleton.2 ⟨_, rfl, hnullNumber⟩,
          hasNumber_values hvalues fun p hp => (hnumbers p hp).1⟩,
        hasNumber_values hvalues fun p hp => (hnumbers p hp).2⟩
  | typeScript =>
    obtain ⟨_, hopens, hvariants, hnumbers⟩ :=
      TypeScript.exists_opens_enum hplain constant e hvalue hnullPlain
    exact ⟨_, hopens, .cons ⟨rfl, htype', hvariants ▸ hnames,
      hasNumber_numbers hvalues hnull hnumbers⟩ .nil⟩
  | python =>
    obtain ⟨_, hopens, hall, hnumbers⟩ := Python.exists_opens_enum hplain
      (plain_of_identifier .constant hconstant) e hvalue hnullPlain
    exact ⟨_, hopens, .cons ⟨rfl, htype', hall ▸ hnames.append (spells_fixed ["from_raw"]),
      hasNumber_numbers hvalues hnull hnumbers⟩ .nil⟩

theorem declares_set (l : SchemaLayout) {s : SetLayout} {choices : List NamedChoice}
    (htype : n.type s.typeName = .ok type)
    (hchoices : (s.choices.mapM fun c => do
      return NamedChoice.mk (← n.member c.name) (← n.member ("set_" ++ c.name)) c.bit)
        = .ok choices) :
    n.Declares (n.language.elementLines l (.set type s choices)) (s.scopes n.language) := by
  have hplain : IsPlain type := plain_of_identifier .type htype
  have hchoice : ∀ (c : Choice) (named : NamedChoice),
      (do return NamedChoice.mk (← n.member c.name) (← n.member ("set_" ++ c.name)) c.bit)
        = Except.ok named → n.declare (.named .member c.name) = .ok named.getter
          ∧ n.declare (.named .member ("set_" ++ c.name)) = .ok named.setter := by
    intro c named h
    obtain ⟨getter, hgetter, h⟩ := bind_eq_ok_iff.1 h
    obtain ⟨setter, hsetter, h⟩ := bind_eq_ok_iff.1 h
    cases h
    exact ⟨hgetter, hsetter⟩
  have hplainChoices : ∀ c ∈ choices, IsPlain c.getter ∧ IsPlain c.setter := by
    intro c hc
    obtain ⟨layout, -, hlayout⟩ := exists_of_mem_mapM hchoices hc
    obtain ⟨hgetter, hsetter⟩ := hchoice layout c hlayout
    exact ⟨plain_of_identifier .member hgetter, plain_of_identifier .member hsetter⟩
  have haccessors : n.Spells (s.choices.flatMap (·.accessors))
      (choices.flatMap fun c => [c.getter, c.setter]) :=
    spells_flatMap (fun c named h => .cons (hchoice c named h).1
      (spells_singleton (hchoice c named h).2)) hchoices
  have hgetters : n.Spells (s.choices.map (.named .member ·.name)) (choices.map (·.getter)) :=
    spells_map (fun c named h => (hchoice c named h).1) hchoices
  have htype' := declare_type_self htype
  have hcodec := declare_type htype "Codec"
  obtain ⟨language, policy⟩ := n
  cases language with
  | rust =>
    obtain ⟨_, hopens, hall⟩ := Rust.exists_opens_set hplain s hplainChoices
    exact ⟨_, hopens, .cons ⟨rfl, htype', .nil, List.forall_mem_nil _⟩
      (.cons ⟨rfl, htype', hall ▸ (spells_fixed ["ENCODED_LENGTH"]).append haccessors,
        List.forall_mem_nil _⟩ .nil)⟩
  | typeScript =>
    obtain ⟨_, _, hopens, hmembers, hall⟩ := TypeScript.exists_opens_set hplain s
      fun c hc => (hplainChoices c hc).1
    exact ⟨_, hopens, .cons ⟨rfl, htype', hmembers ▸ hgetters, List.forall_mem_nil _⟩
      (.cons ⟨rfl, hcodec, hall ▸ spells_fixed _, List.forall_mem_nil _⟩ .nil)⟩
  | python =>
    obtain ⟨_, hopens, hall⟩ := Python.exists_opens_set hplain s hplainChoices
    exact ⟨_, hopens, .cons ⟨rfl, htype', hall ▸ (spells_fixed _).append haccessors,
      List.forall_mem_nil _⟩ .nil⟩

/-! ## Bodies -/

/-- A body whose type is made of some names, and whose members are those of its layout. -/
structure NamesBody (n : Namer) (parts : List String) (layout : BodyLayout) (b : NamedBody) :
    Prop where
  type : n.declare (.type parts "") = .ok b.type
  fields : layout.fields.mapM n.field = .ok b.fields
  groups : n.Spells (layout.groups.map (.named .member ·.name)) (b.groups.map (·.member))
  varData : n.Spells (layout.varData.map (.named .member ·.name)) (b.varData.map (·.member))

theorem plain_of_spells {α β : Type} {role : NameRole} {raw : α → String} {name : β → String}
    {as : List α} {bs : List β} (h : n.Spells (as.map (.named role <| raw ·)) (bs.map name)) :
    ∀ b ∈ bs, IsPlain (name b) := by
  intro b hb
  obtain ⟨d, hd, hdeclare⟩ := exists_of_mem_mapM (mapM_eq_ok_iff.2 h) (List.mem_map_of_mem hb)
  obtain ⟨a, -, rfl⟩ := List.mem_map.1 hd
  exact plain_of_identifier role hdeclare

theorem declares_body (l : SchemaLayout) (message : Option MessageLayout) {parts : List String}
    {layout : BodyLayout} {b : NamedBody} (h : n.NamesBody parts layout b) :
    n.Declares (n.language.bodyLines l message b)
      (layout.scopes n.language message.isSome parts) := by
  have hplain : b.PlainNames := ⟨declare_type_plain h.type, plainNames_of_fields h.fields,
    plain_of_spells h.groups, plain_of_spells h.varData⟩
  have hmembers := ((spells_flatMap (fun _ _ => spells_members) h.fields).append h.groups).append
    h.varData
  have hconstants := (spells_fixed (n := n)
    ("BLOCK_LENGTH" :: messageConstantNames message.isSome)).append
    (spells_flatMap (fun _ _ => spells_constants) h.fields)
  have hfunctions := spells_fixed (n := n) (Language.bodyFunctions message.isSome n.language)
  have htype := h.type
  have hcodec := declare_type_suffix htype "Codec"
  have hnumbers : ∀ {lines : Lines},
      (∀ place p, n.language.HasNumber (n.language.constantLines b.path b.fields) place p →
        n.language.HasNumber lines place p) →
      ∀ number ∈ layout.fields.flatMap (·.constantNumbers), n.HasNumber lines number := by
    intro lines hcopied number hmem
    obtain ⟨name, hname, hnumber⟩ := hasNumber_constants b.path h.fields hmem
    exact ⟨name, hname, hcopied _ _ hnumber⟩
  obtain ⟨language, policy⟩ := n
  cases language with
  | rust =>
    obtain ⟨_, _, hopens, hnames, hall, hcopied⟩ := Rust.exists_opens_body l message hplain
    exact ⟨_, hopens, .cons ⟨rfl, htype, hnames ▸ hmembers, List.forall_mem_nil _⟩
      (.cons ⟨rfl, htype, hall ▸ hconstants.append hfunctions, hnumbers hcopied⟩ .nil)⟩
  | typeScript =>
    obtain ⟨_, _, hopens, hnames, hall, hcopied⟩ := TypeScript.exists_opens_body l message hplain
    exact ⟨_, hopens, .cons ⟨rfl, htype, hnames ▸ hmembers, List.forall_mem_nil _⟩
      (.cons ⟨rfl, hcodec, hall ▸ hconstants.append hfunctions, hnumbers hcopied⟩ .nil)⟩
  | python =>
    obtain ⟨_, hopens, hall, hcopied⟩ := Python.exists_opens_body l message hplain
    exact ⟨_, hopens, .cons ⟨rfl, htype, hall ▸ (hconstants.append hmembers).append hfunctions,
      hnumbers hcopied⟩ .nil⟩

section

variable (l : SchemaLayout) {gap : Lines}

mutual

/-- A body's groups are declared behind it, at every depth. -/
theorem declares_of_body (hgap : n.language.Opens gap []) : ∀ {b : BodyLayout}
    {parts : List String} {type path : String} {named : NamedBody},
    n.body type path b = .ok named → n.declare (.type parts "") = .ok type →
      n.NamesBody parts b named
        ∧ n.Declares (named.nested.flatMap fun g => gap ++ n.language.bodyLines l none g)
          (groupScopes n.language parts b.groups)
  | ⟨blockLength, fields, groups, varData⟩, parts, type, path, named, h, htype => by
    obtain ⟨_, _, _, _, hfields, -, hdata, hgroups, rfl⟩ := parts_of_body h
    obtain ⟨hnames, hnested⟩ := declares_of_groupBodies hgap hgroups htype
    have hvarData : ∀ (d : VarDataLayout) (named : NamedVarData), n.varData path d = .ok named →
        n.declare (.named .member d.name) = .ok named.member := by
      intro d named h
      obtain ⟨member, hmember, h⟩ := bind_eq_ok_iff.1 h
      cases h
      exact hmember
    exact ⟨⟨htype, hfields, hnames, spells_map hvarData hdata⟩, hnested⟩

theorem declares_of_groupBodies (hgap : n.language.Opens gap []) : ∀ {groups : List GroupLayout}
    {parts : List String} {type path : String} {named : List NamedGroup},
    n.groupBodies type path groups = .ok named →
      n.declare (.type parts "") = .ok type →
        n.Spells (groups.map (.named .member ·.name)) (named.map (·.member))
          ∧ n.Declares ((nestedBodies named).flatMap fun g => gap ++ n.language.bodyLines l none g)
            (groupScopes n.language parts groups)
  | [], _, _, _, named, h, _ => by
    cases h
    exact ⟨.nil, .none .nil⟩
  | ⟨name, _, _, dimension, body, _⟩ :: groups, parts, type, path, named, h, htype => by
    obtain ⟨_, _, _, _, hmember, hsuffix, hbody, hgroups, rfl⟩ := parts_of_groupBodies h
    obtain ⟨hnames, hnested⟩ := declares_of_body hgap hbody (declare_type_append htype hsuffix)
    obtain ⟨hrest, hothers⟩ := declares_of_groupBodies hgap hgroups htype
    refine ⟨.cons hmember hrest, ?_⟩
    have hfirst := Declares.none_append hgap (declares_body l none hnames)
    rw [nestedBodies, List.flatMap_append, List.flatMap_cons, groupScopes,
      BodyLayout.allScopes_eq]
    exact (hfirst.append hnested).append hothers

end

theorem declares_typeUnit {t : TypeLayout} {u : SourceUnit} (h : n.typeUnit t = .ok u) :
    n.Declares (n.language.elementLines l u.element) (t.scopes n.language) := by
  cases t with
  | composite c =>
    obtain ⟨_, _, _, _, htype, hmembers, -, -, rfl⟩ := parts_of_composite h
    exact declares_composite l htype hmembers
  | enumeration e =>
    obtain ⟨_, _, _, _, _, htype, hvalues, hnull, hconstant, -, rfl⟩ := parts_of_enumeration h
    exact declares_enumeration l htype hvalues hnull hconstant
  | set s =>
    obtain ⟨_, _, _, htype, hchoices, -, rfl⟩ := parts_of_set h
    exact declares_set l htype hchoices

theorem declares_message {m : MessageLayout} {type path : String} {b : NamedBody}
    (htype : n.type m.name = .ok type) (h : n.body type path m.body = .ok b) :
    n.Declares (n.language.elementLines l (.message m b)) (m.scopes n.language) := by
  have htype' := declare_type_self htype
  have hgap : ∀ gap : Lines, n.language.Opens gap [] →
      n.Declares (n.language.bodyLines l (some m) b
        ++ (b.nested.flatMap fun g => gap ++ n.language.bodyLines l none g) ++ [""])
        (m.scopes n.language) := by
    intro gap hgap
    obtain ⟨hnames, hnested⟩ := declares_of_body l hgap h htype'
    rw [MessageLayout.scopes, BodyLayout.allScopes_eq]
    exact ((declares_body l (some m) hnames).append hnested).append_blank
  obtain ⟨language, policy⟩ := n
  cases language with
  | rust => exact hgap [""] .blank
  | typeScript => exact hgap [""] .blank
  | python => exact hgap ["", ""] (Language.Opens.blank.append .blank)

theorem declares_messageUnit {m : MessageLayout} {u : SourceUnit} (h : n.message m = .ok u) :
    n.Declares (n.language.elementLines l u.element) (m.scopes n.language) := by
  obtain ⟨_, _, _, _, htype, hbody, -, -, rfl⟩ := parts_of_message h
  exact declares_message l htype hbody

end

end Namer

/-! ## Units -/

namespace Language

variable {language : Language}

theorem Opens.silent_map {α : Type} {f : α → String} {as : List α}
    (h : ∀ a ∈ as, language.Opens [f a] []) : language.Opens (as.map f) [] := by
  induction as with
  | nil => exact .nil
  | cons a as ih =>
    rw [List.forall_mem_cons] at h
    exact h.1.append (ih h.2)

theorem Opens.fixed {c : Char} {cs : List Char}
    (hc : c ≠ ' ' ∧ ∀ w ∈ language.scopeWords, w.toList.head? ≠ some c) :
    language.Opens [String.ofList (c :: cs)] [] :=
  .silent_of_head .first hc

/-- What stands in front of an element in its file opens no scope. -/
theorem exists_opens_unitLines (language : Language) (l : SchemaLayout) (u : SourceUnit) : ∃ front,
    language.unitLines l u = front ++ language.elementLines l u.element
      ∧ language.Opens front [] := by
  cases language with
  | rust =>
    refine ⟨_, rfl, ?_⟩
    exact (Opens.fixed (by decide)).append ((Opens.fixed (by decide)).append
      (Opens.blank.append ((Opens.fixed (by decide)).append .blank)))
  | typeScript =>
    refine ⟨_, rfl, ?_⟩
    have himport : ∀ i : Import, Language.typeScript.Opens [TypeScript.importLine i] [] := fun i =>
      .silent_of_head (c := 'i') (.append (.append (.append (.append .first _) _) _) _)
        (by decide)
    exact ((Opens.append (.fixed (by decide)) (.append .blank (.fixed (by decide)))).append
      (.silent_map fun i _ => himport i)).append .blank
  | python =>
    refine ⟨_, rfl, ?_⟩
    have himport : ∀ i : Import, Language.python.Opens [Python.importLine i] [] := fun i =>
      .silent_of_head (c := 'f') (.append (.append (.append .first _) _) _) (by decide)
    have hfixed : ∀ {c : Char} {cs : List Char}, c ≠ ' ' ∧ c ≠ 'c' →
        Language.python.Opens [String.ofList (c :: cs)] [] := fun hc =>
      .fixed ⟨hc.1, fun w hw => by
        rw [List.mem_singleton.1 hw]
        exact fun h => hc.2 (Option.some.inj h).symm⟩
    have hpreamble : Language.python.Opens Python.preamble [] :=
      (hfixed (by decide)).append ((hfixed (by decide)).append (Opens.blank.append
        ((hfixed (by decide)).append ((hfixed (by decide)).append ((hfixed (by decide)).append
          ((hfixed (by decide)).append ((hfixed (by decide)).append (Opens.blank.append
            (.silent_of_head (c := 'f') (.append .first _) (by decide))))))))))
    exact (hpreamble.append (.silent_map fun i _ => himport i)).append (Opens.blank.append .blank)

end Language

namespace Namer

variable {n : Namer}

theorem Declares.forall₂_scopes {lines : Lines} {ds : List DeclaredScope}
    (h : n.Declares lines ds) : List.Forall₂ n.Writes ds (n.language.scopes lines) := by
  obtain ⟨scopes, hopens, hwrites⟩ := h
  rw [hopens.scopes_eq]
  exact hwrites

theorem declares_unitLines {l : SchemaLayout} {u : SourceUnit} {ds : List DeclaredScope}
    (h : n.Declares (n.language.elementLines l u.element) ds) :
    n.Declares (n.language.unitLines l u) ds := by
  obtain ⟨front, hlines, hfront⟩ := n.language.exists_opens_unitLines l u
  rw [hlines]
  exact .none_append hfront h

/-- The scopes of units are those of their elements. -/
theorem forall₂_scopes_flatMap {α : Type} {l : SchemaLayout} {f : α → Except NameError SourceUnit}
    {declared : α → List DeclaredScope}
    (h : ∀ a u, f a = .ok u → n.Declares (n.language.elementLines l u.element) (declared a))
    {as : List α} {units : List SourceUnit} (hunits : as.mapM f = .ok units) :
    List.Forall₂ n.Writes (as.flatMap declared)
      (units.flatMap fun u => n.language.scopes (n.language.unitLines l u)) := by
  have hall := mapM_eq_ok_iff.1 hunits
  clear hunits
  induction hall with
  | nil => exact .nil
  | cons hau _ ih =>
    exact List.rel_append (declares_unitLines (h _ _ hau)).forall₂_scopes ih

theorem forall₂_scopes {l : SchemaLayout} {units : List SourceUnit}
    (h : l.sourceUnits n = .ok units) :
    List.Forall₂ n.Writes (l.scopes n.language)
      (units.flatMap fun u => n.language.scopes (n.language.unitLines l u)) := by
  obtain ⟨types, messages, htypes, hmessages, rfl⟩ := SchemaLayout.sourceUnits_eq_ok_iff.1 h
  rw [List.flatMap_append]
  exact List.rel_append (forall₂_scopes_flatMap (fun _ _ => declares_typeUnit l) htypes)
    (forall₂_scopes_flatMap (fun _ _ => declares_messageUnit l) hmessages)

end Namer

/-- The files of a package hold a text for every type and every message, and the scopes in these
texts are those of the layout. -/
theorem Schema.exists_texts {s : Schema} {config : SourceConfig} {files : List SourceFile}
    (h : s.sources config = .ok files) : ∃ l, SchemaLayout.resolve s = .ok l ∧
      ∃ texts : List Lines, texts.length = l.sourceTypes.length + l.messages.length
        ∧ (texts.map joinLines).Sublist (files.map (·.contents))
        ∧ List.Forall₂ config.namer.Writes (l.scopes config.language)
          (texts.flatMap config.language.scopes) := by
  obtain ⟨l, units, hl, hunits, rfl, -⟩ := Schema.sources_eq_ok_iff.1 h
  obtain ⟨types, messages, htypes, hmessages, rfl⟩ := SchemaLayout.sourceUnits_eq_ok_iff.1 hunits
  refine ⟨l, hl, (types ++ messages).map (config.language.unitLines l), ?_, ?_, ?_⟩
  · rw [List.length_map, List.length_append, (mapM_eq_ok_iff.1 htypes).length_eq,
      (mapM_eq_ok_iff.1 hmessages).length_eq]
  · rw [SchemaLayout.map_contents]
    exact (List.sublist_append_of_sublist_left (List.sublist_append_right _ _)).map joinLines
  · rw [List.flatMap_map]
    exact Namer.forall₂_scopes hunits

end SimpleBinary
