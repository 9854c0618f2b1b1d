import Mathlib
import SimpleBinary.Proofs.Initializers.Fields

/-!
# Initializers of bodies

The initializers of a decoder are those of its fields, and none for a constant: in Rust and in Python
the field of every body is guarded with its own end, in TypeScript none is
(`Schema.exists_initializers`).
-/

namespace SimpleBinary

/-! ## Decoders -/

/-- What some of a list's elements give one thing for and the others nothing. -/
theorem flatMap_eq_map_filter {α β : Type} {p : α → Bool} {f : α → List β} {g : α → β} :
    ∀ {as : List α}, (∀ a ∈ as, p a = false → f a = [g a]) → (∀ a ∈ as, p a → f a = []) →
      as.flatMap f = (as.filter (!p ·)).map g
  | [], _, _ => rfl
  | a :: as, hone, hnone => by
    obtain ⟨ha, has⟩ := List.forall_mem_cons.1 hone
    obtain ⟨ha', has'⟩ := List.forall_mem_cons.1 hnone
    rw [List.flatMap_cons, flatMap_eq_map_filter has has', List.filter_cons]
    cases hp : p a with
    | false => rw [ha hp]; rfl
    | true => rw [ha' hp]; rfl

namespace Language

/-- The text of a field's null value in the decoder of a body; TypeScript has none. -/
def nullText? : Language → NamedField → Option String
  | .rust, f => some (Rust.nullText f)
  | .typeScript, _ => none
  | .python, f => some (Python.nullText f)

/-- The lines that read a field of the body at `owner`. -/
def readLines : Language → (owner : String) → NamedField → Lines
  | .rust, owner, f => (Rust.FieldCode.ofField owner f).reads.flatMap (·.read)
  | .typeScript, _, f => [TypeScript.readText f]
  | .python, _, f => (Python.FieldCode.ofField f).reads.map (·.read)

/-- The initializer of a field of the body at `owner`. -/
def initializer (language : Language) (owner : String) (f : NamedField) : Initializer :=
  ⟨f.member, (language.nullText? f).map fun null => (f.stop, null), language.readLines owner f⟩

/-- The lines that start groups and var-data empty, taken apart. -/
theorem map_members (groups : List NamedGroup) (varData : List NamedVarData)
    (emptyGroup tail : String) (emptyData : NamedVarData → String)
    (h : tail = ": " ++ (emptyGroup ++ ",")) :
    groups.map (fun g => s!"{g.member}{tail}")
        ++ varData.map (fun d => d.member ++ ": " ++ emptyData d ++ ",")
      = (groups.map (fun g => (g.member, emptyGroup))
          ++ varData.map fun d => (d.member, emptyData d)).map
        fun p => p.1 ++ (": " ++ (p.2 ++ ",")) := by
  rw [h]
  simp [toString, String.append_assoc, Function.comp_def]

theorem plain_members {b : NamedBody} (hgroups : ∀ g ∈ b.groups, IsPlain g.member)
    (hvarData : ∀ d ∈ b.varData, IsPlain d.member) (emptyGroup : String)
    (emptyData : NamedVarData → String) {P : String → Prop} (hgroup : P emptyGroup)
    (hdata : ∀ d, P (emptyData d)) :
    ∀ p ∈ b.groups.map (fun g => (g.member, emptyGroup))
      ++ b.varData.map (fun d => (d.member, emptyData d)), IsPlain p.1 ∧ P p.2 := by
  rw [List.forall_mem_append, List.forall_mem_map, List.forall_mem_map]
  exact ⟨fun g hg => ⟨hgroups g hg, hgroup⟩, fun d hd => ⟨hvarData d hd, hdata d⟩⟩

/-- The decoder of a body has an initializer for each field that is not constant, then others without
a guard. -/
def InitializesFields (language : Language) (b : NamedBody) : Prop :=
  ∃ rest, language.initializers (language.decoder b)
      = (b.fields.filter (!·.isConstant)).map (language.initializer b.path) ++ rest
    ∧ ∀ i ∈ rest, i.guard = none

section

variable {b : NamedBody} (hfields : ∀ f ∈ b.fields, f.Plain)
  (hgroups : ∀ g ∈ b.groups, IsPlain g.member) (hvarData : ∀ d ∈ b.varData, IsPlain d.member)

include hfields hgroups hvarData

theorem initializesFields_rust : rust.InitializesFields b := by
  have hinits := (Rust.divides_decodeBody b
    (Rust.FieldCode.ofFields b.path b.fields).reads).inits_eq
  have hmap : (Rust.FieldCode.ofFields b.path b.fields).reads.map
      (fun r => Initializer.mk r.member (some (r.stop, r.null)) r.read)
      = (b.fields.filter (!·.isConstant)).map (rust.initializer b.path) := by
    rw [Rust.reads_ofFields, List.map_flatMap]
    refine flatMap_eq_map_filter (fun f hf h => ?_) fun f hf h => ?_
    · obtain ⟨read, hreads⟩ := Rust.reads_ofField b.path h
      simp [hreads, initializer, nullText?, readLines]
    · rw [Rust.reads_ofConstant b.path h]
      rfl
  have hplain : ∀ r ∈ (Rust.FieldCode.ofFields b.path b.fields).reads, IsPlain r.member := by
    intro r hr
    have hmem := hmap ▸ List.mem_map_of_mem (f := fun r : Rust.FieldRead =>
      Initializer.mk r.member (some (r.stop, r.null)) r.read) hr
    obtain ⟨f, hf, heq⟩ := List.mem_map.1 hmem
    have hmember : f.member = r.member := congrArg Initializer.member heq
    exact hmember ▸ (hfields f (List.mem_of_mem_filter hf)).member
  have hmembers := plain_members hgroups hvarData "Vec::new()"
    (fun d => if d.layout.isText then "String::new()" else "Vec::new()")
    (P := fun s => (" " ++ s ++ ",").toList.dropPrefix? " if block_length >= ".toList = none)
    rfl (fun d => by split <;> rfl)
  refine ⟨_, ?_, Rust.guard_initializers hmembers⟩
  rw [← hmap, initializers, decoder]
  simp only [hinits]
  rw [List.append_assoc, Rust.initializers_reads hplain,
    map_members _ _ "Vec::new()" ": Vec::new()," _ rfl]

theorem initializesFields_typeScript : typeScript.InitializesFields b := by
  have hinits := (TypeScript.divides_decodeBody b
    (TypeScript.FieldCode.ofFields b.fields).decode).inits_eq
  have hmap : (TypeScript.FieldCode.ofFields b.fields).decode.filterMap TypeScript.initializer?
      = (b.fields.filter (!·.isConstant)).map (typeScript.initializer b.path) := by
    rw [TypeScript.decode_ofFields, List.filterMap_flatMap]
    refine flatMap_eq_map_filter (fun f hf h => ?_) fun f hf h => ?_
    · have hinit := TypeScript.initializer?_plain (hfields f hf).member
        (TypeScript.notMem_readText (hfields f hf))
      simp [TypeScript.decode_ofField h, hinit, initializer, nullText?, readLines, toString,
        String.append_assoc]
    · rw [TypeScript.decode_ofConstant h]
      rfl
  have hmembers := plain_members hgroups hvarData "[]"
    (fun d => if d.layout.isText then "''" else "new Uint8Array(0)")
    (P := fun s => '?' ∉ s.toList) (by decide) (fun d => by split <;> decide)
  refine ⟨_, ?_, TypeScript.guard_initializers hmembers⟩
  rw [← hmap, initializers, decoder]
  simp only [hinits]
  rw [List.append_assoc, List.filterMap_append, map_members _ _ "[]" ": []," _ rfl]

omit hgroups hvarData in
theorem initializesFields_python : python.InitializesFields b := by
  have hinits := (Python.divides_decodeBody b (Python.FieldCode.ofFields b.fields).reads).inits_eq
  have hmap : ((Python.FieldCode.ofFields b.fields).reads.map (·.within)).filterMap
      Python.initializer? = (b.fields.filter (!·.isConstant)).map (python.initializer b.path) := by
    rw [Python.reads_ofFields, List.map_flatMap, List.filterMap_flatMap]
    refine flatMap_eq_map_filter (fun f hf h => ?_) fun f hf h => ?_
    · obtain ⟨read, hreads, hread⟩ := Python.reads_ofField (hfields f hf) h
      have hinit := Python.initializer?_within (r := ⟨f.member, f.stop, read, Python.nullText f⟩)
        (hfields f hf).member hread
      simp [hreads, hinit, initializer, nullText?, readLines]
    · rw [Python.reads_ofConstant h]
      rfl
  refine ⟨[], ?_, by simp⟩
  rw [List.append_nil, ← hmap, initializers, decoder]
  simp only [hinits]
  exact List.filterMap_cons_none rfl

theorem initializesFields (language : Language) : language.InitializesFields b := by
  cases language with
  | rust => exact initializesFields_rust hfields hgroups hvarData
  | typeScript => exact initializesFields_typeScript hfields hgroups hvarData
  | python => exact initializesFields_python hfields

end

end Language

/-! ## Packages -/

namespace Namer

variable {n : Namer} {f : FieldLayout} {named : NamedField}

theorem plain_of_kind {name : String} {k : FieldKind} {named : NamedKind}
    (h : n.NamesKind name k named) : (∀ type, named = .composite type → IsPlain type)
      ∧ (∀ e type null, named = .enumeration e type null → IsPlain type)
      ∧ ∀ s type, named = .set s type → IsPlain type := by
  cases h with
  | primitive => simp
  | composite htype | enumeration htype | set htype => simp [plain_of_identifier .type htype]

theorem plain_of_field (h : n.field f = .ok named) : named.Plain := by
  obtain ⟨member, kind, hmember, hkind, rfl⟩ := parts_of_field h
  obtain ⟨hcomposite, henumeration, hset⟩ := plain_of_kind hkind
  exact ⟨plain_of_identifier .member hmember, hcomposite, henumeration, hset⟩

theorem stop_of_field (h : n.field f = .ok named) : named.stop = f.stop := by
  obtain ⟨member, kind, -, -, rfl⟩ := parts_of_field h
  rfl

theorem isConstant_of_field (h : n.field f = .ok named) : named.isConstant = f.isConstant := by
  obtain ⟨member, kind, -, hkind, rfl⟩ := parts_of_field h
  obtain ⟨name, id, sinceVersion, offset, description, k⟩ := f
  cases hkind <;> rfl

/-- An initializer that reads a field of the body at `owner`.  Where the block does not hold the
field whole, the member gets the field's null if the language writes one, and else what it reads
all the same. -/
def Initializes (n : Namer) (owner : String) (f : FieldLayout) (i : Initializer) : Prop :=
  ∃ named, n.field f = .ok named ∧ i.member = named.member
    ∧ i.read = n.language.readLines owner named
    ∧ ∀ blockLength, i.value blockLength
      = if f.kind.isWithin (some blockLength) f.offset then i.read
        else (n.language.nullText? named).elim i.read ([·])

theorem initializes_initializer (owner : String) (hconstant : f.isConstant = false)
    (h : n.field f = .ok named) : n.Initializes owner f (n.language.initializer owner named) := by
  refine ⟨named, h, rfl, rfl, fun blockLength => ?_⟩
  have hwithin : f.kind.isWithin (some blockLength) f.offset ↔ f.stop ≤ blockLength := by
    have hkind : f.kind.isConstant = false := hconstant
    simp [isWithin_iff, hkind, FieldLayout.stop, FieldLayout.width]
  simp only [hwithin]
  unfold Initializer.value Language.initializer
  rw [stop_of_field h]
  cases n.language.nullText? named with
  | none => exact (ite_self _).symm
  | some null => rfl

/-- The fields of a body that are not constant are named in order. -/
theorem Names.forall₂_fields {b : NamedBody} (h : n.Names b) :
    List.Forall₂ (fun f named => n.field f = .ok named)
      (b.layout.fields.filter (!·.isConstant)) (b.fields.filter (!·.isConstant)) :=
  List.rel_filter (fun f named hf => by simp [isConstant_of_field hf]) (mapM_eq_ok_iff.1 h.fields)

/-- The fields of a body that are not constant, and their initializers. -/
theorem Names.forall₂_initializers {b : NamedBody} (h : n.Names b) :
    List.Forall₂ (n.Initializes b.path) (b.layout.fields.filter (!·.isConstant))
      ((b.fields.filter (!·.isConstant)).map (n.language.initializer b.path)) := by
  have hfields := h.forall₂_fields
  rw [List.forall₂_map_right_iff, List.forall₂_iff_zip]
  refine ⟨hfields.length_eq, fun {f named} hmem => ?_⟩
  have hconstant : f.isConstant = false := by
    simpa using List.of_mem_filter (List.of_mem_zip hmem).1
  exact initializes_initializer b.path hconstant ((List.forall₂_iff_zip.1 hfields).2 hmem)

theorem Names.plain {b : NamedBody} (h : n.Names b) : ∀ f ∈ b.fields, f.Plain := by
  intro f hf
  obtain ⟨layout, -, hlayout⟩ := exists_of_mem_mapM h.fields hf
  exact plain_of_field hlayout

end Namer

/-- In the sources of every message the decoder of each body, at any depth, has an initializer for
each field that is not constant, and guards no other member.  In Rust and Python it gives the field
its null where the block does not hold the field whole; in TypeScript it reads the field however
short the block is. -/
theorem Schema.exists_initializers {s : Schema} {config : SourceConfig}
    {files : List SourceFile} (h : s.sources config = .ok files) :
    ∃ l, SchemaLayout.resolve s = .ok l ∧ ∀ m ∈ l.messages, ∃ f ∈ files, ∃ lines b,
      f.contents = joinLines lines ∧ (b :: b.nested).map (·.layout) = m.body.bodies
        ∧ ∀ c ∈ b :: b.nested, config.language.coders c <:+: lines
          ∧ ∃ inits rest, config.language.initializers (config.language.decoder c) = inits ++ rest
            ∧ List.Forall₂ (config.namer.Initializes c.path)
              (c.layout.fields.filter (!·.isConstant)) inits
            ∧ ∀ i ∈ rest, i.guard = none := by
  obtain ⟨l, hl, hcoders⟩ := Schema.exists_coders h
  refine ⟨l, hl, fun m hm => ?_⟩
  obtain ⟨f, hf, lines, b, hlines, hlayouts, hbodies⟩ := hcoders m hm
  refine ⟨f, hf, lines, b, hlines, hlayouts, fun c hc => ?_⟩
  obtain ⟨hnames, hlies⟩ := hbodies c hc
  obtain ⟨rest, hinits, hrest⟩ := Language.initializesFields hnames.plain hnames.plainGroups
    hnames.plainVarData config.language
  exact ⟨hlies, _, rest, hinits, hnames.forall₂_initializers, hrest⟩

namespace Orders

/-- In TypeScript the symbol of an order is read from a block of no bytes at all. -/
theorem exists_initializers_market : ∃ files,
    market.flatten.sources ⟨.typeScript, ⟨some "_"⟩, none⟩ = .ok files
      ∧ ∃ f ∈ files, ∃ lines b, f.contents = joinLines lines
        ∧ Language.typeScript.coders b <:+: lines
        ∧ ∃ i ∈ Language.typeScript.initializers (Language.typeScript.decoder b),
          i.value 0 = ["sbe.readChars(view, offset, 4)"] := by
  obtain ⟨files, hfiles⟩ : ∃ files,
      market.flatten.sources ⟨.typeScript, ⟨some "_"⟩, none⟩ = .ok files :=
    Schema.exists_sources resolve_market (by decide +kernel)
  obtain ⟨l, hl, hmessages⟩ := Schema.exists_initializers hfiles
  cases resolve_market.symm.trans hl
  obtain ⟨f, hf, lines, b, hlines, hlayouts, hbodies⟩ := hmessages _ List.mem_cons_self
  obtain ⟨hlies, inits, rest, hinits, hfields, -⟩ := hbodies b List.mem_cons_self
  have hlayout : b.layout = definedMessage.body := (List.cons.inj hlayouts).1
  rw [hlayout] at hfields
  have hfields' : definedMessage.body.fields.filter (!·.isConstant)
      = [⟨"symbol", 1, 0, 0, none, .primitive symbol⟩, ⟨"side", 2, 0, 4, none, .enumeration side⟩] :=
    rfl
  rw [hfields'] at hfields
  obtain ⟨i, is, hi, -, rfl⟩ := List.forall₂_cons_left_iff.1 hfields
  obtain ⟨named, hnamed, -, hread, hvalue⟩ := hi
  refine ⟨files, hfiles, f, hf, lines, b, hlines, hlies, i, ?_, ?_⟩
  · rw [hinits]
    exact List.mem_cons_self
  · obtain ⟨member, -, hnamed⟩ := bind_eq_ok_iff.1 hnamed
    obtain ⟨kind, hkind, hnamed⟩ := bind_eq_ok_iff.1 hnamed
    obtain ⟨constant, -, hkind⟩ := bind_eq_ok_iff.1 hkind
    cases hkind
    cases hnamed
    rw [hvalue, if_neg (by decide)]
    exact hread

end Orders

end SimpleBinary
