import Mathlib
import SimpleBinary.Proofs.Declarations

/-!
# What TypeScript sources declare

An interface declares the members of its fields, the class of its codec constants and functions
(`TypeScript.exists_opens_body`).  Numbers stand in constants, and behind the names of an enum.
-/

namespace SimpleBinary

namespace TypeScript

variable {line name head : String} {lines : Lines}

theorem members_ofFields : ∀ fields : List NamedField,
    (FieldCode.ofFields fields).members = fields.flatMap fun f => (FieldCode.ofField f).members
  | [] => rfl
  | f :: fields => by
    rw [List.flatMap_cons, ← members_ofFields fields]
    rfl

theorem constants_ofFields : ∀ fields : List NamedField,
    (FieldCode.ofFields fields).constants = fields.flatMap fun f => (FieldCode.ofField f).constants
  | [] => rfl
  | f :: fields => by
    rw [List.flatMap_cons, ← constants_ofFields fields]
    rfl

/-- What stands in front of a constant. -/
def constantLead : List Char :=
  ['s', 't', 'a', 't', 'i', 'c', ' ', 'r', 'e', 'a', 'd', 'o', 'n', 'l', 'y', ' ']

/-- What stands in front of a function. -/
def functionLead : List Char := ['s', 't', 'a', 't', 'i', 'c', ' ']

theorem names_member (hname : IsPlain name) (h : Leads (name.toList ++ [':']) line) :
    Language.typeScript.names [line] = [name] :=
  Language.names_of_prefix [] h rfl hname rfl (by decide)

theorem names_constant (front : List Char) (hname : IsPlain name)
    (h : Leads (front ++ (name.toList ++ [' ', '='])) line) (hlead : isLead front) :
    Language.typeScript.names [line] = [name] := Language.names_of_equals _ h hlead hname

theorem names_fixedConstant {cs whole : List Char} (h : Leads whole line)
    (hwhole : (constantLead ++ (cs ++ [' ', '='])).isPrefixOf whole)
    (hcs : cs.all isIdentifierRest) : Language.typeScript.names [line] = [String.ofList cs] :=
  Language.names_fixed_equals constantLead h hwhole rfl hcs

theorem names_fixedBlock {cs whole : List Char} (body : Lines) (h : Leads whole (head ++ " \x7b"))
    (hwhole : (functionLead ++ (cs ++ ['('])).isPrefixOf whole) (hcs : cs.all isIdentifierRest) :
    Language.typeScript.names (block head body) = [String.ofList cs] := by
  have hclose : Language.typeScript.names ["\x7d" ++ ""] = [] := rfl
  have hbody : Language.typeScript.names (Lines.indent 2 body) = [] :=
    Language.names_indent .typeScript body
  rw [block, Lines.braced, Language.names_append, hclose, Language.names_cons,
    Language.names_fixed functionLead h hwhole rfl hcs rfl (by decide), hbody]
  rfl

theorem members_ofPrimitive {f : NamedField} (hmember : IsPlain f.member) {p : PrimitiveLayout}
    (hp : p.isConstant = false) (constant : String) :
    Language.typeScript.names (FieldCode.ofPrimitive f p constant).members = [f.member] := by
  have hoptional : ∀ (line : String) (code : FieldCode),
      (if p.isOptional then FieldCode.append ⟨[], [line], [], []⟩ code else code).members
        = code.members := by
    intro line code
    split <;> rfl
  unfold FieldCode.ofPrimitive
  simp only [hp, Bool.false_eq_true, if_false, hoptional]
  split
  · exact names_member hmember (.append (.append .name_first _) _)
  · split
    · exact names_member hmember .name_first
    · exact names_member hmember (.append (.append .name_first _) _)

theorem constants_ofPrimitive (f : NamedField) (p : PrimitiveLayout) {constant : String}
    (hconstant : IsPlain constant) :
    Language.typeScript.names (FieldCode.ofPrimitive f p constant).constants
      = if p.isConstant then [constant]
        else if p.isOptional then [constant ++ "_NULL_VALUE"] else [] := by
  unfold FieldCode.ofPrimitive
  dsimp only
  split
  · exact names_constant _ hconstant (.append (.append .equals_between _) _) rfl
  · obtain ⟨code, hcode, hnone⟩ : ∃ code : FieldCode, (if !p.isArray then FieldCode.ofNumber f p
        else if p.primitive = .char then FieldCode.ofChars f p
        else FieldCode.ofItems f p) = code ∧ code.constants = [] := by
      split
      · exact ⟨_, rfl, rfl⟩
      · split <;> exact ⟨_, rfl, rfl⟩
    rw [hcode]
    split
    · have hnull : s!"static readonly {constant}_NULL_VALUE = {number p.nullValue p.primitive};"
          = "static readonly " ++ (constant ++ "_NULL_VALUE") ++ " = "
            ++ number p.nullValue p.primitive ++ ";" := by
        simp only [toString, String.append_assoc]
        rfl
      simp only [FieldCode.append, hnone, List.append_nil, hnull]
      exact names_constant _ (hconstant.append (.ofList rfl))
        (.append (.append .equals_between _) _) rfl
    · rw [hnone, Language.names_nil]

theorem names_members {f : NamedField} (h : f.PlainNames) :
    Language.typeScript.names (FieldCode.ofField f).members = f.memberNames := by
  obtain ⟨raw, member, offset, stop, kind⟩ := f
  have hmember : IsPlain member := h.member
  cases kind with
  | primitive p constant =>
    cases hp : p.isConstant with
    | true => simp [FieldCode.ofField, FieldCode.ofPrimitive, FieldCode.ofConstant,
        NamedField.memberNames, NamedField.isConstant, hp]
    | false =>
      rw [NamedField.memberNames, if_neg (by simp [NamedField.isConstant, hp])]
      exact members_ofPrimitive hmember hp _
  | composite type | enumeration e type null | set s type =>
    exact names_member hmember (.append (.append .name_first _) _)

theorem names_constants {f : NamedField} (h : f.PlainNames) :
    Language.typeScript.names (FieldCode.ofField f).constants = f.constantNames := by
  obtain ⟨raw, member, offset, stop, kind⟩ := f
  cases kind with
  | primitive p constant => exact constants_ofPrimitive _ p (h.constant p constant rfl)
  | composite type | enumeration e type null | set s type => rfl

theorem names_ofFields {fields : List NamedField} (h : ∀ f ∈ fields, f.PlainNames) :
    Language.typeScript.names (FieldCode.ofFields fields).members = fields.flatMap (·.memberNames)
      ∧ Language.typeScript.names (FieldCode.ofFields fields).constants
        = fields.flatMap (·.constantNames) := by
  rw [members_ofFields, constants_ofFields, Language.names_flatMap, Language.names_flatMap]
  exact ⟨List.flatMap_congr fun f hf => names_members (h f hf),
    List.flatMap_congr fun f hf => names_constants (h f hf)⟩

theorem plainNumber_eq {p : Primitive} (h : p.kind ≠ .float) (v : Literal) :
    plainNumber v p = toString (v.sourceInt p.kind) := Literal.sourceNumber_eq_toString h v _

theorem number?_constant {name : String} (hname : IsPlain name) {p : Primitive}
    (hp : p.kind ≠ .float) (v : Literal) : Language.typeScript.number? .constant
      ("static readonly " ++ name ++ " = " ++ number v p ++ ";") = some (name, v.sourceInt p.kind) := by
  have hfront : '=' ∉ ("static readonly " ++ name).toList :=
    notMem_append (by decide) (hname.notMem (by decide))
  have hnames : Language.typeScript.names ["static readonly " ++ name ++ " = " ++ number v p ++ ";"]
      = [name] := names_constant _ hname (.append (.append .equals_between _) _) rfl
  have hwide : EndsNumeral "n;".toList := endsNumeral_mark (by decide)
  have hplain : EndsNumeral ";".toList := endsNumeral_mark (by decide)
  unfold number at hnames ⊢
  rw [plainNumber_eq hp] at hnames ⊢
  split at hnames
  · rename_i hp
    rw [if_pos hp]
    refine Language.number?_constant hnames ?_ hfront hwide
    have hend : "n;" = "n" ++ ";" := rfl
    rw [hend]
    simp only [String.append_assoc]
  · rename_i hp
    rw [if_neg hp]
    exact Language.number?_constant hnames rfl hfront hplain

/-- A value of an enum is a line with its number. -/
theorem number?_variant {name : String} (hname : IsPlain name) {p : Primitive}
    (hp : p.kind ≠ .float) (v : Literal) : Language.typeScript.number? .constant
      s!"{name} = {plainNumber v p}," = some (name, v.sourceInt p.kind) := by
  have hend : EndsNumeral ",".toList := endsNumeral_mark (by decide)
  rw [plainNumber_eq hp]
  exact Language.number?_constant (names_constant [] hname (.append (.append .equals_first _) _) rfl)
    rfl (hname.notMem (by decide)) hend

/-- A constant that is one integer is a line with its number. -/
theorem exists_number_constants {f : NamedField} (h : f.PlainNames) {p : PrimitiveLayout}
    {constant : String} (hk : f.kind = .primitive p constant) {v : Literal}
    (hv : p.constantLiteral? = some v) : ∃ line ∈ (FieldCode.ofField f).constants,
      Language.typeScript.number? .constant line
        = some (if p.isConstant then constant else constant ++ "_NULL_VALUE",
          v.sourceInt p.primitive.kind) := by
  obtain ⟨raw, member, offset, stop, kind⟩ := f
  dsimp only at hk
  subst hk
  have hplain := h.constant p constant rfl
  obtain ⟨hkind, hv⟩ := PrimitiveLayout.of_constantLiteral? hv
  cases hp : p.isConstant with
  | true =>
    rw [if_pos hp] at hv
    refine ⟨_, ?_, number?_constant hplain hkind v⟩
    cases hb : v.toBytes? <;> simp [FieldCode.ofField, FieldCode.ofPrimitive, FieldCode.ofConstant,
      hp, hv.1, hv.2.1, hv.2.2, hb, toString]
  | false =>
    rw [if_neg (by simp [hp])] at hv
    refine ⟨_, ?_, number?_constant (hplain.append (.ofList rfl)) hkind v⟩
    simp [FieldCode.ofField, FieldCode.ofPrimitive, hp, hv.1, hv.2, FieldCode.append, toString,
      String.append_assoc]

theorem opens_block {front : List Char} {type : String} (body : Lines) (htype : IsPlain type)
    (h : Leads (front ++ (type.toList ++ [' '])) (head ++ " \x7b"))
    (hword : String.ofList front ∈ Language.typeScript.scopeWords) :
    Language.typeScript.Opens (block head body)
      [⟨String.ofList front, type, body.filter (!·.isEmpty)⟩] :=
  .braced body hword h htype

/-- The class that is made for a type. -/
theorem opens_codec {type : String} (body : Lines) (htype : IsPlain type) :
    Language.typeScript.Opens (block s!"export class {type}Codec" body)
      [⟨"export class ", type ++ "Codec", body.filter (!·.isEmpty)⟩] := by
  have hhead : s!"export class {type}Codec" ++ " \x7b"
      = "export class " ++ (type ++ "Codec") ++ " \x7b" := by
    simp only [toString, String.append_assoc]
  refine opens_block body (htype.append (.ofList rfl)) ?_ (by decide)
  rw [hhead]
  exact .name_between

theorem names_messageConstants (l : SchemaLayout) (m : MessageLayout) :
    Language.typeScript.names (messageConstants l m)
      = ["TEMPLATE_ID", "SCHEMA_ID", "SCHEMA_VERSION"] := by
  refine Language.names_cons_eq ["TEMPLATE_ID"] ["SCHEMA_ID", "SCHEMA_VERSION"] ?_
    (Language.names_cons_eq ["SCHEMA_ID"] ["SCHEMA_VERSION"] ?_ ?_)
  all_goals exact names_fixedConstant (.append (.append .fixed _) _) rfl rfl

theorem names_messageEntry (l : SchemaLayout) (type : String) (m : MessageLayout) :
    Language.typeScript.names (messageEntry l type m) = ["encode", "decode"] := by
  refine Language.names_append_left (Language.names_append_eq ["encode"] ["decode"]
    (Language.names_append_left ?_ rfl)
    (names_fixedBlock _ (.append (.append .fixed _) _) rfl rfl)) rfl
  exact Language.names_cons_eq [] ["encode"] (Language.names_comment (.inl rfl) .first)
    (names_fixedBlock _ (.append (.append (.append .fixed _) _) _) rfl rfl)

theorem names_encodeBody (b : NamedBody) (fields : Lines) :
    Language.typeScript.names (encodeBody b fields) = ["encodeBody"] :=
  names_fixedBlock _ (.append (.append (.append .fixed _) _) _) rfl rfl

theorem names_decodeBody (b : NamedBody) (fields : Lines) :
    Language.typeScript.names (decodeBody b fields) = ["decodeBody"] :=
  Language.names_cons_eq [] ["decodeBody"] (Language.names_comment (.inl rfl) .first)
    (names_fixedBlock _ (.append (.append .fixed _) _) rfl rfl)

theorem opens_documented (description : Option String) :
    Language.typeScript.Opens (documented description) [] := by
  cases description with
  | none => exact .nil
  | some d => exact .silent_of_head (.append (Leads.first.append d) _) (by decide)

/-- The scopes of a body are its interface and its class. -/
theorem exists_opens_body (l : SchemaLayout) (message : Option MessageLayout) {b : NamedBody}
    (h : b.PlainNames) : ∃ members constants,
      Language.typeScript.Opens (bodyLines l message b)
        [⟨"export interface ", b.type, members⟩, ⟨"export class ", b.type ++ "Codec", constants⟩]
      ∧ Language.typeScript.names members = b.memberNames
      ∧ Language.typeScript.names constants
        = "BLOCK_LENGTH" :: messageConstantNames message.isSome
          ++ b.fields.flatMap (·.constantNames)
          ++ Language.bodyFunctions message.isSome .typeScript
      ∧ ∀ place p, Language.typeScript.HasNumber (FieldCode.ofFields b.fields).constants place p →
        Language.typeScript.HasNumber constants place p := by
  obtain ⟨hmembers, hconstants⟩ := names_ofFields h.fields
  refine ⟨_, _, (((opens_documented _).append
    (opens_block _ h.type .name_between (by decide))).append .blank).append
    (opens_codec _ h.type), ?_, ?_, fun place p hp => ?_⟩
  · rw [Language.names_filter, Language.names_append, Language.names_append, hmembers]
    refine congrArg₂ _ (congrArg₂ _ rfl (Language.names_map fun g hg => ?_))
      (Language.names_map fun d hd => ?_)
    · exact names_member (h.groups g hg) (.append (.append .name_first _) _)
    · exact names_member (h.varData d hd) (.append (.append .name_first _) _)
  · have hlength : Language.typeScript.names
        [s!"static readonly BLOCK_LENGTH = {b.layout.blockLength};"] = ["BLOCK_LENGTH"] :=
      names_fixedConstant (.append (.append .fixed _) _) rfl rfl
    rw [Language.names_filter]
    simp only [Language.names_append, hlength, hconstants, Language.names_blank, Language.names_nil,
      names_encodeBody, names_decodeBody, List.append_nil]
    cases message with
    | none => simp [messageConstantNames, Language.bodyFunctions]
    | some m =>
      simp [messageConstantNames, Language.bodyFunctions, names_messageConstants,
        names_messageEntry]
  · refine (hp.mono fun line hline => ?_).filter
    simp only [List.mem_append, hline, true_or, or_true]

theorem exists_opens_composite {type : String} (htype : IsPlain type) (c : CompositeLayout)
    {fields : List NamedField} (hfields : ∀ f ∈ fields, f.PlainNames) : ∃ members constants,
      Language.typeScript.Opens (compositeLines type c fields)
        [⟨"export interface ", type, members⟩, ⟨"export class ", type ++ "Codec", constants⟩]
      ∧ Language.typeScript.names members = fields.flatMap (·.memberNames)
      ∧ Language.typeScript.names constants
        = "ENCODED_LENGTH" :: fields.flatMap (·.constantNames) ++ ["decode", "encode"]
      ∧ ∀ place p, Language.typeScript.HasNumber (FieldCode.ofFields fields).constants place p →
        Language.typeScript.HasNumber constants place p := by
  obtain ⟨hmembers, hconstants⟩ := names_ofFields hfields
  refine ⟨_, _, ((((opens_documented _).append
    (opens_block _ htype .name_between (by decide))).append .blank).append
    (opens_codec _ htype)).append .blank, ?_, ?_, fun place p hp => ?_⟩
  · rw [Language.names_filter, hmembers]
  · have hlength : Language.typeScript.names
        [s!"static readonly ENCODED_LENGTH = {c.encodedLength};"] = ["ENCODED_LENGTH"] :=
      names_fixedConstant (.append (.append .fixed _) _) rfl rfl
    have hfront := Language.names_append_eq ["ENCODED_LENGTH"] _ hlength hconstants
    obtain ⟨front, hnames⟩ : ∃ front,
        front = "ENCODED_LENGTH" :: fields.flatMap (·.constantNames) := ⟨_, rfl⟩
    rw [Language.names_filter, ← hnames]
    refine (Language.names_append_eq (front ++ ["decode"]) ["encode"]
      (Language.names_append_left ?_ rfl)
      (names_fixedBlock _ (.append (.append (.append .fixed _) _) _) rfl rfl)).trans (by simp)
    refine Language.names_append_eq front ["decode"] (Language.names_append_left ?_ rfl)
      (names_fixedBlock _ (.append (.append .fixed _) _) rfl rfl)
    rw [hnames]
    exact hfront
  · refine (hp.mono fun line hline => ?_).filter
    simp only [List.mem_append, hline, true_or, or_true]

/-- A line at the top that declares the length of an enum. -/
theorem opens_length (constant : String) (n : Nat) : Language.typeScript.Opens
    [s!"export const {constant}_ENCODED_LENGTH = {n};"] [] := by
  have hline : Leads ['e', 'x', 'p', 'o', 'r', 't', ' ', 'c', 'o', 'n']
      s!"export const {constant}_ENCODED_LENGTH = {n};" :=
    .append (.append (.append (.append (Leads.fixed.of_isPrefixOf rfl) _) _) _) _
  have hhead : Leads ['e'] s!"export const {constant}_ENCODED_LENGTH = {n};" :=
    hline.of_isPrefixOf rfl
  refine .silent (Lines.isOuter_of_head? hhead.head? (by decide) (by decide))
    (Language.scopeHead?_eq_none fun w hw hprefix => ?_)
  have hother : ∀ w ∈ Language.typeScript.scopeWords,
      w.toList.isPrefixOf ['e', 'x', 'p', 'o', 'r', 't', ' ', 'c', 'o', 'n'] = false
        ∧ ['e', 'x', 'p', 'o', 'r', 't', ' ', 'c', 'o', 'n'].isPrefixOf w.toList = false := by
    decide +kernel
  obtain ⟨hnot, hnot'⟩ := hother w hw
  rcases List.prefix_or_prefix_of_prefix hprefix hline with h | h
  · exact absurd (List.isPrefixOf_iff_prefix.2 h) (by simp [hnot])
  · exact absurd (List.isPrefixOf_iff_prefix.2 h) (by simp [hnot'])

theorem exists_opens_enum {type null : String} (htype : IsPlain type) (constant : String)
    (e : EnumLayout) {values : List (String × Literal)} (hvalues : ∀ v ∈ values, IsPlain v.1)
    (hnull : IsPlain null) : ∃ variants,
      Language.typeScript.Opens (enumLines type constant e values null)
        [⟨"export enum ", type, variants⟩]
      ∧ Language.typeScript.names variants = values.map (·.1) ++ [null]
      ∧ (e.encoding.kind ≠ .float →
        Language.typeScript.HasNumber variants .constant
          (null, e.nullValue.sourceInt e.encoding.kind)
        ∧ ∀ v ∈ values, Language.typeScript.HasNumber variants .constant
            (v.1, v.2.sourceInt e.encoding.kind)) := by
  have hvariant : ∀ {name : String}, IsPlain name → ∀ text : String,
      Language.typeScript.names [s!"{name} = {text},"] = [name] :=
    fun h text => names_constant [] h (.append (.append .equals_first _) _) rfl
  refine ⟨_, ((opens_documented _).append (opens_block _ htype .name_between (by decide))).append
    (.append .blank (.append (opens_length constant e.width) .blank)), ?_, fun hkind => ⟨?_, ?_⟩⟩
  · rw [Language.names_filter]
    exact Language.names_append_eq _ [null]
      (Language.names_map fun v hv => hvariant (hvalues v hv) _) (hvariant hnull _)
  · have hline : Language.typeScript.HasNumber [s!"{null} = {plainNumber e.nullValue e.encoding},"]
        .constant (null, e.nullValue.sourceInt e.encoding.kind) :=
      ⟨_, List.mem_singleton_self _, number?_variant hnull hkind _⟩
    exact (hline.append_right _).filter
  · intro v hv
    have hline : Language.typeScript.HasNumber
        (values.map fun v => s!"{v.1} = {plainNumber v.2 e.encoding},") .constant
        (v.1, v.2.sourceInt e.encoding.kind) :=
      ⟨_, List.mem_map_of_mem hv, number?_variant (hvalues v hv) hkind _⟩
    exact (hline.append_left _).filter

theorem exists_opens_set {type : String} (htype : IsPlain type) (s : SetLayout)
    {choices : List NamedChoice} (hchoices : ∀ c ∈ choices, IsPlain c.getter) :
    ∃ members constants, Language.typeScript.Opens (setLines type s choices)
        [⟨"export interface ", type, members⟩, ⟨"export class ", type ++ "Codec", constants⟩]
      ∧ Language.typeScript.names members = choices.map (·.getter)
      ∧ Language.typeScript.names constants = ["ENCODED_LENGTH", "decode", "encode"] := by
  refine ⟨_, _, ((((opens_documented _).append
    (opens_block _ htype .name_between (by decide))).append .blank).append
    (opens_codec _ htype)).append .blank, ?_, ?_⟩
  · rw [Language.names_filter]
    exact Language.names_map fun c hc => names_member (hchoices c hc) .name_first
  · rw [Language.names_filter]
    refine Language.names_append_eq ["ENCODED_LENGTH", "decode"] ["encode"]
      (Language.names_append_left (Language.names_append_eq ["ENCODED_LENGTH"] ["decode"] ?_
        (names_fixedBlock _ (.append (.append .fixed _) _) rfl rfl)) rfl)
      (names_fixedBlock _ (.append (.append (.append .fixed _) _) _) rfl rfl)
    exact Language.names_cons_eq ["ENCODED_LENGTH"] []
      (names_fixedConstant (.append (.append .fixed _) _) rfl rfl) rfl

end TypeScript

end SimpleBinary
