import Mathlib
import SimpleBinary.Proofs.Declarations

/-!
# What Rust sources declare

A struct declares the members of its fields, the implementation behind it constants and functions.
What the lines of a composite, an enum, a set or a body open is found line by line
(`Rust.exists_opens_body`), and the numbers in constants and nulls are read off them.
-/

namespace SimpleBinary

namespace Rust

variable {line name head : String} {lines : Lines}

theorem members_ofFields (owner : String) : ∀ fields : List NamedField,
    (FieldCode.ofFields owner fields).members
      = fields.flatMap fun f => (FieldCode.ofField owner f).members
  | [] => rfl
  | f :: fields => by
    rw [List.flatMap_cons, ← members_ofFields owner fields]
    rfl

theorem constants_ofFields (owner : String) : ∀ fields : List NamedField,
    (FieldCode.ofFields owner fields).constants
      = fields.flatMap fun f => (FieldCode.ofField owner f).constants
  | [] => rfl
  | f :: fields => by
    rw [List.flatMap_cons, ← constants_ofFields owner fields]
    rfl

/-- A line with a name between a lead and a colon. -/
theorem names_colon {front : List Char} (hname : IsPlain name)
    (h : Leads (front ++ (name.toList ++ [':'])) line) (hlead : isLead front) :
    Language.rust.names [line] = [name] :=
  Language.names_of_prefix _ h hlead hname rfl (by decide)

/-- A function declares its own name and nothing inside. -/
theorem names_block (front : List Char) (hname : IsPlain name) (body : Lines)
    (h : Leads (front ++ (name.toList ++ ['('])) (head ++ " \x7b")) (hlead : isLead front) :
    Language.rust.names (block head body) = [name] := by
  have hclose : Language.rust.names ["\x7d" ++ ""] = [] := rfl
  have hbody : Language.rust.names (Lines.indent 4 body) = [] := Language.names_indent .rust body
  rw [block, Lines.braced, Language.names_append, hclose, Language.names_cons,
    Language.names_of_prefix _ h hlead hname rfl (by decide), hbody]
  rfl

theorem members_ofPrimitive {f : NamedField} (hmember : IsPlain f.member) {p : PrimitiveLayout}
    (hp : p.isConstant = false) (constant path : String) :
    Language.rust.names (FieldCode.ofPrimitive f p constant path).members = [f.member] := by
  have hoptional : ∀ (line : String) (code : FieldCode),
      (if p.isOptional then FieldCode.append ⟨[], [line], [], []⟩ code else code).members
        = code.members := by
    intro line code
    split <;> rfl
  unfold FieldCode.ofPrimitive
  simp only [hp, Bool.false_eq_true, if_false, hoptional]
  split
  · exact names_colon hmember (.append (.append .name_between _) _) rfl
  · split
    · exact names_colon hmember (.append (.append .name_between _) _) rfl
    · exact names_colon hmember
        (.append (.append (.append (.append .name_between _) _) _) _) rfl

theorem constants_ofPrimitive (f : NamedField) (p : PrimitiveLayout) {constant : String}
    (hconstant : IsPlain constant) (path : String) :
    Language.rust.names (FieldCode.ofPrimitive f p constant path).constants
      = if p.isConstant then [constant]
        else if p.isOptional then [constant ++ "_NULL_VALUE"] else [] := by
  unfold FieldCode.ofPrimitive
  dsimp only
  split
  · unfold FieldCode.ofConstant
    dsimp only
    split
    · exact names_colon hconstant (.append (.append .name_between _) _) rfl
    · exact names_colon hconstant
        (.append (.append (.append (.append .name_between _) _) _) _) rfl
  · obtain ⟨code, hcode, hnone⟩ : ∃ code : FieldCode, (if !p.isArray then
        FieldCode.ofNumber f p.primitive p.byteOrder path (typeName p.primitive) s!"self.{f.member}"
          (fun r => r) (number p.nullValue p.primitive)
        else if typeName p.primitive = "u8" then FieldCode.ofBytes f p path
        else FieldCode.ofItems f p path) = code ∧ code.constants = [] := by
      split
      · exact ⟨_, rfl, rfl⟩
      · split <;> exact ⟨_, rfl, rfl⟩
    rw [hcode]
    split
    · have hnull : ∀ type value : String,
          s!"pub const {constant}_NULL_VALUE: {type} = {value};" = "pub const "
            ++ (constant ++ "_NULL_VALUE") ++ ": " ++ type ++ " = " ++ value ++ ";" := by
        intro type value
        simp only [toString, String.append_assoc]
        rfl
      simp only [FieldCode.append, hnone, List.append_nil, hnull]
      exact names_colon (hconstant.append (.ofList rfl))
        (.append (.append (.append (.append .name_between _) _) _) _) rfl
    · rw [hnone, Language.names_nil]

theorem names_members (owner : String) {f : NamedField} (h : f.PlainNames) :
    Language.rust.names (FieldCode.ofField owner f).members = f.memberNames := by
  obtain ⟨raw, member, offset, stop, kind⟩ := f
  have hmember : IsPlain member := h.member
  cases kind with
  | primitive p constant =>
    cases hp : p.isConstant with
    | true => simp [FieldCode.ofField, FieldCode.ofPrimitive, FieldCode.ofConstant,
        NamedField.memberNames, NamedField.isConstant, hp]
    | false =>
      rw [NamedField.memberNames, if_neg (by simp [NamedField.isConstant, hp])]
      exact members_ofPrimitive hmember hp _ _
  | composite type | enumeration e type null | set s type =>
    exact names_colon hmember (.append (.append .name_between _) _) rfl

theorem names_constants (owner : String) {f : NamedField} (h : f.PlainNames) :
    Language.rust.names (FieldCode.ofField owner f).constants = f.constantNames := by
  obtain ⟨raw, member, offset, stop, kind⟩ := f
  cases kind with
  | primitive p constant => exact constants_ofPrimitive _ p (h.constant p constant rfl) _
  | composite type | enumeration e type null | set s type => rfl

theorem names_ofFields (owner : String) {fields : List NamedField}
    (h : ∀ f ∈ fields, f.PlainNames) :
    Language.rust.names (FieldCode.ofFields owner fields).members
        = fields.flatMap (·.memberNames)
      ∧ Language.rust.names (FieldCode.ofFields owner fields).constants
        = fields.flatMap (·.constantNames) := by
  rw [members_ofFields, constants_ofFields, Language.names_flatMap, Language.names_flatMap]
  exact ⟨List.flatMap_congr fun f hf => names_members owner (h f hf),
    List.flatMap_congr fun f hf => names_constants owner (h f hf)⟩

theorem notMem_typeName (p : Primitive) : '=' ∉ (typeName p).toList := by
  cases p <;> decide

theorem number_eq {p : Primitive} (h : p.kind ≠ .float) (v : Literal) :
    number v p = toString (v.sourceInt p.kind) := Literal.sourceNumber_eq_toString h v _

theorem number?_constant {name : String} (hname : IsPlain name) {p : Primitive}
    (hp : p.kind ≠ .float) (v : Literal) : Language.rust.number? .constant
      ("pub const " ++ name ++ ": " ++ typeName p ++ " = " ++ number v p ++ ";")
        = some (name, v.sourceInt p.kind) := by
  have hfront : '=' ∉ ("pub const " ++ name ++ ": " ++ typeName p).toList :=
    notMem_append (notMem_append (notMem_append (by decide) (hname.notMem (by decide)))
      (by decide)) (notMem_typeName _)
  have htail : EndsNumeral ";".toList := endsNumeral_mark (by decide)
  rw [number_eq hp]
  exact Language.number?_constant (names_colon hname
    (.append (.append (.append (.append .name_between _) _) _) _) rfl) rfl hfront htail

/-- A constant that is one integer is a line with its number. -/
theorem exists_number_constants (owner : String) {f : NamedField} (h : f.PlainNames)
    {p : PrimitiveLayout} {constant : String} (hk : f.kind = .primitive p constant) {v : Literal}
    (hv : p.constantLiteral? = some v) : ∃ line ∈ (FieldCode.ofField owner f).constants,
      Language.rust.number? .constant line
        = some (if p.isConstant then constant else constant ++ "_NULL_VALUE",
          v.sourceInt p.primitive.kind) := by
  obtain ⟨raw, member, offset, stop, kind⟩ := f
  dsimp only at hk
  subst hk
  have hplain := h.constant p constant rfl
  obtain ⟨hkind, hv⟩ := PrimitiveLayout.of_constantLiteral? hv
  cases hp : p.isConstant with
  | true =>
    rw [if_pos hp] at hv
    refine ⟨_, ?_, number?_constant hplain hkind v⟩
    simp [FieldCode.ofField, FieldCode.ofPrimitive, FieldCode.ofConstant, hp, hv.1, hv.2.1,
      hv.2.2, toString]
  | false =>
    rw [if_neg (by simp [hp])] at hv
    refine ⟨_, ?_, number?_constant (hplain.append (.ofList rfl)) hkind v⟩
    simp [FieldCode.ofField, FieldCode.ofPrimitive, hp, hv.1, hv.2, FieldCode.append, toString,
      String.append_assoc]

theorem numeral?_nullText {f : NamedField} {p : PrimitiveLayout} {constant : String}
    (hk : f.kind = .primitive p constant) (hp : p.primitive.kind ≠ .float) {rest : List Char}
    (hrest : EndsNumeral rest) :
    numeral? ((nullText f).toList ++ rest) = some (p.nullValue.sourceInt p.primitive.kind) := by
  unfold nullText
  rw [hk]
  simp only [number_eq hp]
  split
  · have hlist : EndsNumeral ("; ".toList ++ ((toString p.arrayLength).toList
        ++ ("]".toList ++ rest))) := endsNumeral_mark (by decide)
    rw [← numeral?_bracket _ hlist]
    simp [toString]
  · exact numeral?_toString _ hrest

/-- What makes an integer null is a line with its null value. -/
theorem exists_number_null (owner : String) {f : NamedField} (h : f.PlainNames)
    {p : PrimitiveLayout} {constant : String} (hk : f.kind = .primitive p constant) {v : Literal}
    (hv : p.nullLiteral? .rust = some v) : ∃ r ∈ (FieldCode.ofField owner f).reads,
      Language.rust.number? .null r.asNull = some (f.member, v.sourceInt p.primitive.kind) := by
  obtain ⟨hkind, hp, rfl, -⟩ := PrimitiveLayout.of_nullLiteral? hv
  obtain ⟨read, hreads⟩ := reads_ofField owner
    (show f.isConstant = false by rw [NamedField.isConstant, hk]; exact hp)
  refine ⟨_, hreads ▸ List.mem_singleton_self _, ?_⟩
  have hend : EndsNumeral ",".toList := endsNumeral_mark (by decide)
  have hmark : ':' = if Language.rust = .python then '=' else ':' := rfl
  refine Language.number?_null hmark h.member ?_
    ((numeral?_blank _).trans (numeral?_nullText hk hkind hend))
  simp [FieldRead.asNull, toString]

theorem opens_block {front : List Char} {type : String} (body : Lines) (htype : IsPlain type)
    (h : Leads (front ++ (type.toList ++ [' '])) (head ++ " \x7b"))
    (hword : String.ofList front ∈ Language.rust.scopeWords) :
    Language.rust.Opens (block head body)
      [⟨String.ofList front, type, body.filter (!·.isEmpty)⟩] :=
  .braced body hword h htype

/-- What stands in front of a constant. -/
def constantLead : List Char := ['p', 'u', 'b', ' ', 'c', 'o', 'n', 's', 't', ' ']

/-- What stands in front of a function. -/
def functionLead : List Char := ['p', 'u', 'b', ' ', 'f', 'n', ' ']

theorem names_fixedConstant {cs whole : List Char} (h : Leads whole line)
    (hwhole : (constantLead ++ (cs ++ [':'])).isPrefixOf whole) (hcs : cs.all isIdentifierRest) :
    Language.rust.names [line] = [String.ofList cs] :=
  Language.names_fixed constantLead h hwhole rfl hcs rfl (by decide)

theorem names_fixedBlock {cs whole : List Char} (body : Lines)
    (h : Leads whole (head ++ " \x7b"))
    (hwhole : (functionLead ++ (cs ++ ['('])).isPrefixOf whole) (hcs : cs.all isIdentifierRest) :
    Language.rust.names (block head body) = [String.ofList cs] := by
  refine names_block functionLead (.ofList hcs) body ?_ rfl
  rw [String.toList_ofList]
  exact h.of_isPrefixOf hwhole

theorem names_comments {lines : Lines} (h : ∀ line ∈ lines, Leads ['/'] line) :
    Language.rust.names lines = [] := by
  induction lines with
  | nil => rfl
  | cons line lines ih =>
    rw [List.forall_mem_cons] at h
    exact Language.names_cons_eq [] [] (Language.names_comment (.inl rfl) h.1) (ih h.2)

theorem names_messageConstants (l : SchemaLayout) (m : MessageLayout) :
    Language.rust.names (messageConstants l m)
      = ["TEMPLATE_ID", "SCHEMA_ID", "SCHEMA_VERSION"] := by
  refine Language.names_cons_eq ["TEMPLATE_ID"] ["SCHEMA_ID", "SCHEMA_VERSION"] ?_
    (Language.names_cons_eq ["SCHEMA_ID"] ["SCHEMA_VERSION"] ?_ ?_)
  all_goals exact names_fixedConstant (.append (.append (.append (.append .fixed _) _) _) _) rfl rfl

theorem names_messageEntry (l : SchemaLayout) (m : MessageLayout) :
    Language.rust.names (messageEntry l m) = ["encode", "decode"] := by
  refine Language.names_append_left ?_ rfl
  refine Language.names_append_eq ["encode"] ["decode"] ?_
    (names_fixedBlock _ (.append .fixed _) rfl rfl)
  refine Language.names_append_left (Language.names_append_left ?_ rfl) (names_comments ?_)
  · exact Language.names_append_eq [] ["encode"] (Language.names_comment (.inl rfl) .first)
      (names_fixedBlock _ (.append .fixed _) rfl rfl)
  · exact List.forall_mem_cons.2 ⟨.first, List.forall_mem_singleton.2 .first⟩

theorem names_encodeBody (b : NamedBody) (fields : Lines) :
    Language.rust.names (encodeBody b fields) = ["encode_body"] :=
  Language.names_cons_eq [] ["encode_body"] (Language.names_comment (.inl rfl) .first)
    (names_fixedBlock _ (.append .fixed _) rfl rfl)

theorem names_decodeBody (b : NamedBody) (reads : List FieldRead) :
    Language.rust.names (decodeBody b reads) = ["decode_body"] := by
  refine Language.names_append_eq [] ["decode_body"] (names_comments ?_)
    (names_fixedBlock _ (.append (.append .fixed _) _) rfl rfl)
  refine List.forall_mem_cons.2 ⟨.first, List.forall_mem_cons.2 ⟨.first, ?_⟩⟩
  exact List.forall_mem_cons.2 ⟨.first, List.forall_mem_singleton.2 .first⟩

/-- The scopes of a body are its struct and its implementation. -/
theorem exists_opens_body (l : SchemaLayout) (message : Option MessageLayout) {b : NamedBody}
    (h : b.PlainNames) : ∃ members constants,
      Language.rust.Opens (bodyLines l message b)
        [⟨"pub struct ", b.type, members⟩, ⟨"impl ", b.type, constants⟩]
      ∧ Language.rust.names members = b.memberNames
      ∧ Language.rust.names constants
        = "BLOCK_LENGTH" :: messageConstantNames message.isSome
          ++ b.fields.flatMap (·.constantNames) ++ Language.bodyFunctions message.isSome .rust
      ∧ ∀ place p, Language.rust.HasNumber (FieldCode.ofFields b.path b.fields).constants place p →
        Language.rust.HasNumber constants place p := by
  obtain ⟨hmembers, hconstants⟩ := names_ofFields b.path h.fields
  have habout : ∀ about : String, Leads ['/'] s!"/// {about}" := fun _ => Leads.first.append _
  have hderive : Leads ['#'] "#[derive(Debug, Clone, PartialEq)]" := .first
  refine ⟨_, _, (((Language.Opens.append (.silent_of_head (habout _) (by decide))
    (.silent_of_head hderive (by decide))).append
    (opens_block _ h.type .name_between (by decide))).append .blank).append
    (opens_block _ h.type .name_between (by decide)), ?_, ?_, fun place p hp => ?_⟩
  · rw [Language.names_filter, Language.names_append, Language.names_append, hmembers]
    refine congrArg₂ _ (congrArg₂ _ rfl (Language.names_map fun g hg => ?_))
      (Language.names_map fun d hd => ?_)
    · exact names_colon (h.groups g hg) (.append (.append .name_between _) _) rfl
    · exact names_colon (h.varData d hd) (.append (.append .name_between _) _) rfl
  · have hlength : Language.rust.names [s!"pub const BLOCK_LENGTH: usize = {b.layout.blockLength};"]
        = ["BLOCK_LENGTH"] := names_fixedConstant (.append (.append .fixed _) _) rfl rfl
    rw [Language.names_filter]
    simp only [Language.names_append, hlength, hconstants, Language.names_blank, Language.names_nil,
      names_encodeBody, names_decodeBody, List.append_nil]
    cases message with
    | none => simp [messageConstantNames, Language.bodyFunctions]
    | some m =>
      simp [messageConstantNames, Language.bodyFunctions, names_messageConstants,
        names_messageEntry]
  · refine (hp.mono fun line hline => ?_).filter
    simp only [List.mem_append, hline, true_or, or_true]

theorem opens_documented (description : Option String) :
    Language.rust.Opens (documented description) [] := by
  cases description with
  | none => exact .nil
  | some d => exact .silent_of_head (Leads.first.append d) (by decide)

theorem exists_opens_composite {type : String} (htype : IsPlain type) (c : CompositeLayout)
    {fields : List NamedField} (hfields : ∀ f ∈ fields, f.PlainNames) : ∃ members constants,
      Language.rust.Opens (compositeLines type c fields)
        [⟨"pub struct ", type, members⟩, ⟨"impl ", type, constants⟩]
      ∧ Language.rust.names members = fields.flatMap (·.memberNames)
      ∧ Language.rust.names constants
        = "ENCODED_LENGTH" :: fields.flatMap (·.constantNames) ++ ["encode", "decode", "null"]
      ∧ (∀ place p, Language.rust.HasNumber (FieldCode.ofFields c.typeName fields).constants place p →
        Language.rust.HasNumber constants place p)
      ∧ ∀ p, Language.rust.HasNumber
          ((FieldCode.ofFields c.typeName fields).reads.map (·.asNull)) .null p →
        Language.rust.HasNumber constants .null p := by
  obtain ⟨hmembers, hconstants⟩ := names_ofFields c.typeName hfields
  have hderive : Leads ['#'] "#[derive(Debug, Clone, Copy, PartialEq)]" := .first
  refine ⟨_, _, (((((opens_documented _).append (.silent_of_head hderive (by decide))).append
    (opens_block _ htype .name_between (by decide))).append .blank).append
    (opens_block _ htype .name_between (by decide))).append .blank, ?_, ?_, fun place p hp => ?_,
    fun p hp => ?_⟩
  · rw [Language.names_filter, hmembers]
  · have hlength : Language.rust.names [s!"pub const ENCODED_LENGTH: usize = {c.encodedLength};"]
        = ["ENCODED_LENGTH"] := names_fixedConstant (.append (.append .fixed _) _) rfl rfl
    rw [Language.names_filter]
    have hfront := Language.names_append_eq ["ENCODED_LENGTH"] _ hlength hconstants
    have hcomment : ∀ {cs : List Char}, Language.rust.names [String.ofList ('/' :: cs)] = [] :=
      Language.names_comment (.inl rfl) .first
    obtain ⟨front, hnames⟩ : ∃ front,
        front = "ENCODED_LENGTH" :: fields.flatMap (·.constantNames) := ⟨_, rfl⟩
    rw [← hnames]
    refine (Language.names_append_eq (front ++ ["encode", "decode"]) ["null"]
      (Language.names_append_left (Language.names_append_left ?_ rfl) hcomment)
      (names_fixedBlock _ (.append .fixed _) rfl rfl)).trans (by simp)
    refine (Language.names_append_eq (front ++ ["encode"]) ["decode"]
      (Language.names_append_left ?_ rfl)
      (names_fixedBlock _ (.append .fixed _) rfl rfl)).trans (by simp)
    refine Language.names_append_eq front ["encode"] (Language.names_append_left
      (Language.names_append_left ?_ rfl) hcomment)
      (names_fixedBlock _ (.append .fixed _) rfl rfl)
    rw [hnames]
    exact hfront
  · refine (hp.mono fun line hline => ?_).filter
    simp only [List.mem_append, hline, true_or, or_true]
  · exact (((hp.braced (by decide) 4 _ _).braced (by decide) 4 _ _).append_right _).filter

theorem exists_opens_enum {type null : String} (htype : IsPlain type) (e : EnumLayout)
    {values : List (String × Literal)} (hvalues : ∀ v ∈ values, IsPlain v.1)
    (hnull : IsPlain null) : ∃ variants constants, Language.rust.Opens (enumLines type e values null)
        [⟨"pub enum ", type, variants⟩, ⟨"impl ", type, constants⟩]
      ∧ Language.rust.names variants = values.map (·.1) ++ [null]
      ∧ Language.rust.names constants = ["ENCODED_LENGTH", "NULL_VALUE", "from_raw", "to_raw"]
      ∧ (e.encoding.kind ≠ .float →
        Language.rust.HasNumber constants .constant
          ("NULL_VALUE", e.nullValue.sourceInt e.encoding.kind)
        ∧ ∀ v ∈ values,
          Language.rust.HasNumber constants .read (v.1, v.2.sourceInt e.encoding.kind)
          ∧ Language.rust.HasNumber constants .written (v.1, v.2.sourceInt e.encoding.kind)) := by
  have hderive : Leads ['#'] "#[derive(Debug, Clone, Copy, PartialEq, Eq, Hash, Default)]" := .first
  have hvariant : ∀ {name : String}, IsPlain name → Language.rust.names [s!"{name},"] = [name] :=
    fun h => Language.names_of_prefix [] .name_first rfl h rfl (by decide)
  refine ⟨_, _, (((((opens_documented _).append (.silent_of_head hderive (by decide))).append
    (opens_block _ htype .name_between (by decide))).append .blank).append
    (opens_block _ htype .name_between (by decide))).append .blank, ?_, ?_,
    fun hkind => ⟨?_, fun v hv => ⟨?_, ?_⟩⟩⟩
  · rw [Language.names_filter]
    refine Language.names_append_eq _ [null]
      (Language.names_map fun v hv => hvariant (hvalues v hv))
      (Language.names_cons_eq [] [null] (Language.names_comment (.inl rfl) .first) ?_)
    exact Language.names_cons_eq [] [null] rfl (hvariant hnull)
  · rw [Language.names_filter]
    refine Language.names_append_eq ["ENCODED_LENGTH", "NULL_VALUE", "from_raw"] ["to_raw"] ?_
      (names_fixedBlock _ (.append (.append .fixed _) _) rfl rfl)
    refine Language.names_append_left (Language.names_append_eq ["ENCODED_LENGTH", "NULL_VALUE"]
      ["from_raw"] ?_ (names_fixedBlock _ (.append (.append (.append .fixed _) _) _) rfl rfl)) rfl
    refine Language.names_cons_eq ["ENCODED_LENGTH"] ["NULL_VALUE"]
      (names_fixedConstant (.append (.append .fixed _) _) rfl rfl)
      (Language.names_cons_eq ["NULL_VALUE"] [] ?_ rfl)
    exact names_fixedConstant (.append (.append (.append (.append .fixed _) _) _) _) rfl rfl
  · have hname : IsPlain "NULL_VALUE" := .ofList rfl
    have hnull := number?_constant hname hkind e.nullValue
    have hline : Language.rust.HasNumber [s!"pub const ENCODED_LENGTH: usize = {e.width};",
        s!"pub const NULL_VALUE: {typeName e.encoding} = {number e.nullValue e.encoding};", ""]
        .constant ("NULL_VALUE", e.nullValue.sourceInt e.encoding.kind) :=
      ⟨_, List.mem_cons_of_mem _ List.mem_cons_self, hnull⟩
    exact (((hline.append_left _).append_left _).append_left _).filter
  · have harm : Language.rust.HasNumber
        (values.map fun v => s!"{number v.2 e.encoding} => Self::{v.1},") .read
        (v.1, v.2.sourceInt e.encoding.kind) := by
      refine ⟨_, List.mem_map_of_mem hv, ?_⟩
      rw [number_eq hkind]
      exact Language.number?_read (hvalues v hv) _
    exact (((((harm.append_left _).braced (by decide) 4 _ _).braced (by decide) 4 _ _).append_right
      _).append_left _ |>.append_left _).filter
  · have harm : Language.rust.HasNumber
        (values.map fun v => s!"Self::{v.1} => {number v.2 e.encoding},") .written
        (v.1, v.2.sourceInt e.encoding.kind) := by
      refine ⟨_, List.mem_map_of_mem hv, ?_⟩
      rw [number_eq hkind]
      exact Language.number?_written (hvalues v hv) _
    exact ((((harm.append_left _).braced (by decide) 4 _ _).braced (by decide) 4 _ _).append_right
      _).filter

theorem names_choiceLines {c : NamedChoice} (hgetter : IsPlain c.getter)
    (hsetter : IsPlain c.setter) : Language.rust.names (choiceLines c) = [c.getter, c.setter] := by
  refine Language.names_append_eq [c.getter] [c.setter] (Language.names_append_left ?_ rfl)
    (names_block _ hsetter _ (.append .name_between _) rfl)
  exact Language.names_append_eq [] [c.getter] rfl
    (names_block _ hgetter _ (.append .name_between _) rfl)

theorem exists_opens_set {type : String} (htype : IsPlain type) (s : SetLayout)
    {choices : List NamedChoice} (hchoices : ∀ c ∈ choices, IsPlain c.getter ∧ IsPlain c.setter) :
    ∃ constants, Language.rust.Opens (setLines type s choices)
        [⟨"pub struct ", type, []⟩, ⟨"impl ", type, constants⟩]
      ∧ Language.rust.names constants
        = "ENCODED_LENGTH" :: choices.flatMap fun c => [c.getter, c.setter] := by
  have hderive : Leads ['#'] "#[derive(Debug, Clone, Copy, PartialEq, Eq, Hash, Default)]" := .first
  have hstruct : Language.rust.Opens
      [s!"pub struct {type}(pub {typeName s.encoding});"] [⟨"pub struct ", type, []⟩] :=
    .headed [] (by decide) (.append (.append .name_between _) _) htype (by decide)
  refine ⟨_, (((opens_documented _).append (.append (.silent_of_head hderive (by decide))
    (.append hstruct .blank))).append
    (opens_block _ htype .name_between (by decide))).append .blank, ?_⟩
  rw [Language.names_filter]
  refine Language.names_cons_eq ["ENCODED_LENGTH"] _
    (names_fixedConstant (.append (.append .fixed _) _) rfl rfl) ?_
  rw [Language.names_flatMap]
  exact List.flatMap_congr fun c hc => names_choiceLines (hchoices c hc).1 (hchoices c hc).2

end Rust

end SimpleBinary
