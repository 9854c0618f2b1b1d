import Mathlib
import SimpleBinary.Proofs.Elements
import SimpleBinary.Proofs.WrittenScopes

/-!
# Numbers of literals

The number that is written for a literal is the literal's integer where it has one of its type's
kind, and zero where it has none: nothing is refused.  So a number agrees with its literal unless
the literal has no such integer and is no zero either (`Literal.StandsFor`,
`Schema.exists_numbers`).  The numbers are integers: those of floats are not read, and an enum whose
encoding is one has none here.
-/

namespace SimpleBinary

/-! ## Literals -/

namespace Literal

/-- The integer of a literal for a type with a sign, or for one without. -/
def integerOf? (v : Literal) (kind : PrimitiveKind) : Option Int :=
  if kind = .signed then v.toInt? else v.toNat?.map Int.ofNat

/-- The literal of an integer. -/
def ofInt (i : Int) : Literal :=
  if 0 ≤ i then .uint (UInt64.ofNat i.toNat) else .int (Int64.ofInt i)

/-- A number that is written for a literal: if the literal is numeric, its integer, or zero.  It
agrees with the literal if that has an integer, or is a zero without one. -/
def StandsFor (i : Int) (v : Literal) (kind : PrimitiveKind) : Prop :=
  v.toBytes? = none → i = (v.integerOf? kind).getD 0
    ∧ ((ofInt i).agrees v ↔ (v.integerOf? kind).isSome ∨ (Literal.uint 0).agrees v)

variable {v : Literal} {kind : PrimitiveKind} {i : Int}

theorem sourceInt_eq (hv : v.toBytes? = none) :
    v.sourceInt kind = (v.integerOf? kind).getD 0 := by
  unfold sourceInt integerOf?
  split
  · rfl
  · rw [hv]
    cases v.toNat? <;> rfl

theorem integer?_of_integerOf? (h : v.integerOf? kind = some i) : v.integer? = some i := by
  unfold integerOf? at h
  split at h
  · exact toInt?_eq_some h
  · obtain ⟨n, hn, rfl⟩ := Option.map_eq_some_iff.1 h
    exact toNat?_eq_some hn

/-- An integer of a literal is the integer of the literal that is made of it. -/
theorem integer?_ofInt (h : v.integer? = some i) : (ofInt i).integer? = some i := by
  unfold ofInt
  cases v with
  | int x =>
    cases h
    have hmax := x.toInt_le
    split
    · rename_i hpos
      have hlt : x.toInt.toNat < UInt64.size := by
        have hbound : (Int64.maxValue.toInt : Int) < UInt64.size := by decide
        omega
      rw [integer?, UInt64.toNat_ofNat_of_lt' hlt, Int.toNat_of_nonneg hpos]
    · rw [integer?, Int64.ofInt_toInt]
  | uint x =>
    cases h
    rw [if_pos (Int.natCast_nonneg _), Int.toNat_natCast, UInt64.ofNat_toNat]
    rfl
  | float x => cases h
  | bytes bs => cases h

theorem agrees_ofInt (h : v.integer? = some i) : (ofInt i).agrees v := by
  have hi := integer?_ofInt h
  rw [agrees_congr_right h hi]
  exact agrees_self_of_integer? hi

theorem standsFor_sourceInt (v : Literal) (kind : PrimitiveKind) :
    StandsFor (v.sourceInt kind) v kind := by
  intro hv
  rw [sourceInt_eq hv]
  refine ⟨rfl, ?_⟩
  cases h : v.integerOf? kind with
  | none => simp [ofInt]
  | some i => simp [agrees_ofInt (integer?_of_integerOf? h)]

end Literal

/-! ## Null values -/

namespace Namer

variable {n : Namer}

/-- An initializer whose null is the number that stands for the field's null value. -/
def GuardsWith (n : Namer) (f : FieldLayout) (i : Initializer) : Prop :=
  ∀ number ∈ f.nullNumbers n.language, n.declare number.name = .ok i.member
    ∧ ∃ stop null k, i.guard = some (stop, null) ∧ numeral? null.toList = some k
      ∧ Literal.StandsFor k number.value number.kind

theorem guardsWith_initializer {owner : String} {f : FieldLayout} {named : NamedField}
    (h : n.field f = .ok named) : n.GuardsWith f (n.language.initializer owner named) := by
  intro number hmem
  obtain ⟨p, constant, hk, hv, -, hkind, hname⟩ := exists_of_mem_nullNumbers h hmem
  refine ⟨hname, named.stop, ?_⟩
  have hstands := Literal.standsFor_sourceInt number.value number.kind
  obtain ⟨language, policy⟩ := n
  obtain ⟨hp, -, hvalue, hlanguage, hchar⟩ := PrimitiveLayout.of_nullLiteral? hv
  rw [hvalue, hkind] at hstands ⊢
  cases language with
  | rust =>
    have hnull := Rust.numeral?_nullText hk hp endsNumeral_nil
    rw [List.append_nil] at hnull
    exact ⟨_, _, rfl, hnull, hstands⟩
  | typeScript => exact absurd rfl hlanguage
  | python =>
    have hnull := Python.numeral?_nullText hk hp (hchar rfl) endsNumeral_nil
    rw [List.append_nil] at hnull
    exact ⟨_, _, rfl, hnull, hstands⟩

theorem Names.forall₂_guardsWith {b : NamedBody} (h : n.Names b) :
    List.Forall₂ n.GuardsWith (b.layout.fields.filter (!·.isConstant))
      ((b.fields.filter (!·.isConstant)).map (n.language.initializer b.path)) := by
  rw [List.forall₂_map_right_iff]
  exact h.forall₂_fields.imp fun f named hf => guardsWith_initializer hf

end Namer

/-! ## Packages -/

/-- In the sources of every type and every message the number of each integer constant, of each
integer null value and of each value of an enum of integers or characters stands for its literal: so
does the null of every initializer.  A literal that has no integer of its type is written as zero.  Of
an enum that is encoded in floats nothing is said. -/
theorem Schema.exists_numbers {s : Schema} {config : SourceConfig} {files : List SourceFile}
    (h : s.sources config = .ok files) : ∃ l, SchemaLayout.resolve s = .ok l
      ∧ (∃ texts : List Lines, texts.length = l.sourceTypes.length + l.messages.length
        ∧ (texts.map joinLines).Sublist (files.map (·.contents))
        ∧ List.Forall₂ (fun d sc => ∀ number ∈ d.numbers, ∃ name i,
            config.namer.declare number.name = .ok name
              ∧ config.language.HasNumber sc.lines number.place (name, i)
              ∧ Literal.StandsFor i number.value number.kind)
          (l.scopes config.language) (texts.flatMap config.language.scopes))
      ∧ ∀ m ∈ l.messages, ∃ f ∈ files, ∃ lines b, f.contents = joinLines lines
        ∧ (b :: b.nested).map (·.layout) = m.body.bodies
        ∧ ∀ c ∈ b :: b.nested, config.language.coders c <:+: lines ∧ ∃ inits rest,
          config.language.initializers (config.language.decoder c) = inits ++ rest
            ∧ List.Forall₂ config.namer.GuardsWith (c.layout.fields.filter (!·.isConstant))
              inits := by
  obtain ⟨l, hl, texts, hlength, htexts, hwrites⟩ := Schema.exists_texts h
  obtain ⟨l', hl', hcoders⟩ := Schema.exists_coders h
  cases hl.symm.trans hl'
  refine ⟨l, hl, ⟨texts, hlength, htexts, hwrites.imp fun d sc hd number hmem => ?_⟩,
    fun m hm => ?_⟩
  · obtain ⟨name, hname, hnumber⟩ := hd.numbers number hmem
    exact ⟨name, _, hname, hnumber, Literal.standsFor_sourceInt number.value number.kind⟩
  · obtain ⟨f, hf, lines, b, hlines, hlayouts, hbodies⟩ := hcoders m hm
    refine ⟨f, hf, lines, b, hlines, hlayouts, fun c hc => ?_⟩
    obtain ⟨hnames, hlies⟩ := hbodies c hc
    obtain ⟨rest, hinits, -⟩ := Language.initializesFields hnames.plain hnames.plainGroups
      hnames.plainVarData config.language
    exact ⟨hlies, _, rest, hinits, hnames.forall₂_guardsWith⟩

namespace Lots

/-- Five as a double. -/
def five : Literal := .float (.ofWord 0x4014000000000000)

/-- A message whose one field is a constant of eight bits, with a double for its value. -/
def definition : MessageDef where
  name := "Order"
  id := 1
  fields := [{ name := "quantity", id := 1, type := .primitive {
    name := "uint8", primitive := .uint8, presence := .constant, constValue := some five } }]

def schema : SchemaDef where
  id := 1
  version := 0
  messages := [definition]

def quantity : PrimitiveLayout :=
  ⟨.uint8, .littleEndian, 1, .constant, some five, .uint 255, none⟩

def message : MessageLayout where
  name := "Order"
  id := 1
  sinceVersion := 0
  semanticType := none
  description := none
  body := ⟨0, [⟨"quantity", 1, 0, 0, none, .primitive quantity⟩], [], []⟩

def layout : SchemaLayout where
  package := none
  id := 1
  version := 0
  byteOrder := .littleEndian
  header := Orders.header
  types := []
  messages := [message]

theorem resolve_schema : SchemaLayout.resolve schema.flatten = .ok layout := by
  have hsound : definition.Sound := by
    refine ⟨⟨?_, by simp [definition]⟩, trivial⟩
    simp [definition, TypeDef.Sound, PrimitiveDef.Sound]
  exact SchemaDef.resolve_flatten Orders.ofTokens_header .nil (.cons ⟨hsound, rfl⟩ .nil)
    (List.forall_mem_singleton.2 rfl) rfl

/-- The constant is five in the schema and zero in the source. -/
theorem exists_numbers_schema : ∃ files, schema.flatten.sources ⟨.rust, ⟨none⟩, none⟩ = .ok files
    ∧ ∃ texts : List Lines, (texts.map joinLines).Sublist (files.map (·.contents))
      ∧ ∃ sc ∈ texts.flatMap Language.rust.scopes,
        Language.rust.HasNumber sc.lines .constant ("QUANTITY", 0)
          ∧ (Literal.ofInt 0).agrees five = false := by
  obtain ⟨files, hfiles⟩ : ∃ files, schema.flatten.sources ⟨.rust, ⟨none⟩, none⟩ = .ok files :=
    Schema.exists_sources resolve_schema (by decide +kernel)
  obtain ⟨l, hl, ⟨texts, -, htexts, hnumbers⟩, -⟩ := Schema.exists_numbers hfiles
  cases resolve_schema.symm.trans hl
  obtain ⟨d, hd, hnumber⟩ : ∃ d ∈ layout.scopes .rust,
      ⟨.constant, .named .constant "quantity", five, .unsigned⟩ ∈ d.numbers := by
    decide +kernel
  obtain ⟨sc, hsc, hall⟩ := exists_of_mem_forall₂ hnumbers d hd
  obtain ⟨name, i, hname, hline, hstands⟩ := hall _ hnumber
  have hidentifier : Namer.declare ⟨.rust, ⟨none⟩⟩ (.named .constant "quantity")
      = .ok "QUANTITY" := by
    decide +kernel
  cases hidentifier.symm.trans hname
  obtain ⟨hi, -⟩ := hstands rfl
  have hzero : i = 0 := hi
  rw [hzero] at hline
  exact ⟨files, hfiles, texts, htexts, sc, hsc, hline, by decide +kernel⟩

end Lots

end SimpleBinary
