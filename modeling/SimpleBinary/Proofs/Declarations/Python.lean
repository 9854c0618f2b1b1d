import Mathlib
import SimpleBinary.Proofs.Declarations

/-!
# What Python sources declare

A class declares everything: the constants of its fields, their members and its functions
(`Python.exists_opens_body`).  Numbers stand in constants and in the function that gives a null.
-/

namespace SimpleBinary

namespace Python

variable {line name head : String} {lines : Lines}

theorem members_ofFields : ∀ fields : List NamedField,
    (FieldCode.ofFields fields).members = fields.flatMap fun f => (FieldCode.ofField f).members
  | [] => rfl
  | f :: fields => by
    rw [List.flatMap_cons, ← members_ofFields fields]
    rfl

theorem constants_ofFields : ∀ fields : List NamedField,
    (FieldCode.ofFields fields).constants = fields.flatMap fun f => (FieldCode.ofField f).constants
  | [] => rfl
  | f :: fields => by
    rw [List.flatMap_cons, ← constants_ofFields fields]
    rfl

theorem names_member (hname : IsPlain name) (h : Leads (name.toList ++ [':']) line) :
    Language.python.names [line] = [name] :=
  Language.names_of_prefix [] h rfl hname rfl (by decide)

theorem names_constant (hname : IsPlain name) (h : Leads (name.toList ++ [' ', '=']) line) :
    Language.python.names [line] = [name] := Language.names_of_equals [] h rfl hname

theorem names_fixedConstant {cs whole : List Char} (h : Leads whole line)
    (hwhole : (cs ++ [' ', '=']).isPrefixOf whole) (hcs : cs.all isIdentifierRest) :
    Language.python.names [line] = [String.ofList cs] :=
  Language.names_fixed_equals [] h hwhole rfl hcs

/-- What stands in front of a function. -/
def functionLead : List Char := ['d', 'e', 'f', ' ']

theorem names_block (front : List Char) (hname : IsPlain name) (body : Lines)
    (h : Leads (front ++ (name.toList ++ ['('])) (head ++ ":")) (hlead : isLead front) :
    Language.python.names (block head body) = [name] := by
  have hbody : Language.python.names (Lines.indent 4 body) = [] :=
    Language.names_indent .python body
  rw [block, Language.names_cons, Language.names_of_prefix _ h hlead hname rfl (by decide), hbody,
    List.append_nil]

theorem names_fixedBlock {cs whole : List Char} (body : Lines) (h : Leads whole (head ++ ":"))
    (hwhole : (functionLead ++ (cs ++ ['('])).isPrefixOf whole) (hcs : cs.all isIdentifierRest) :
    Language.python.names (block head body) = [String.ofList cs] := by
  refine names_block functionLead (.ofList hcs) body ?_ rfl
  rw [String.toList_ofList]
  exact h.of_isPrefixOf hwhole

theorem names_fixedClassmethod {cs whole : List Char} (body : Lines) (h : Leads whole (head ++ ":"))
    (hwhole : (functionLead ++ (cs ++ ['('])).isPrefixOf whole) (hcs : cs.all isIdentifierRest) :
    Language.python.names (classmethod head body) = [String.ofList cs] :=
  Language.names_cons_eq [] [String.ofList cs] rfl (names_fixedBlock body h hwhole hcs)

theorem members_ofPrimitive {f : NamedField} (hmember : IsPlain f.member) {p : PrimitiveLayout}
    (hp : p.isConstant = false) (constant : String) :
    Language.python.names (FieldCode.ofPrimitive f p constant).members = [f.member] := by
  have hoptional : ∀ (line : String) (code : FieldCode),
      (if p.isOptional then FieldCode.append ⟨[], [line], [], []⟩ code else code).members
        = code.members := by
    intro line code
    split <;> rfl
  unfold FieldCode.ofPrimitive
  simp only [hp, Bool.false_eq_true, if_false, hoptional]
  split
  · exact names_member hmember (.append (.append (.append .name_first _) _) _)
  · split
    · exact names_member hmember .name_first
    · exact names_member hmember (.append (.append (.append .name_first _) _) _)

theorem constants_ofPrimitive (f : NamedField) (p : PrimitiveLayout) {constant : String}
    (hconstant : IsPlain constant) :
    Language.python.names (FieldCode.ofPrimitive f p constant).constants
      = if p.isConstant then [constant]
        else if p.isOptional then [constant ++ "_NULL_VALUE"] else [] := by
  unfold FieldCode.ofPrimitive
  dsimp only
  split
  · exact names_constant hconstant (.append .equals_first _)
  · obtain ⟨code, hcode, hnone⟩ : ∃ code : FieldCode, (if !p.isArray then FieldCode.ofNumber f p
        else if p.primitive = .char then FieldCode.ofChars f p
        else FieldCode.ofItems f p) = code ∧ code.constants = [] := by
      split
      · exact ⟨_, rfl, rfl⟩
      · split <;> exact ⟨_, rfl, rfl⟩
    rw [hcode]
    split
    · have hnull : s!"{constant}_NULL_VALUE = {number p.nullValue p.primitive}"
          = (constant ++ "_NULL_VALUE") ++ " = " ++ number p.nullValue p.primitive := by
        simp only [toString, String.append_assoc]
        rfl
      simp only [FieldCode.append, hnone, List.append_nil, hnull]
      exact names_constant (hconstant.append (.ofList rfl)) (.append .equals_first _)
    · rw [hnone, Language.names_nil]

theorem names_members {f : NamedField} (h : f.PlainNames) :
    Language.python.names (FieldCode.ofField f).members = f.memberNames := by
  obtain ⟨raw, member, offset, stop, kind⟩ := f
  have hmember : IsPlain member := h.member
  cases kind with
  | primitive p constant =>
    cases hp : p.isConstant with
    | true => simp [FieldCode.ofField, FieldCode.ofPrimitive, FieldCode.ofConstant,
        NamedField.memberNames, NamedField.isConstant, hp]
    | false =>
      rw [NamedField.memberNames, if_neg (by simp [NamedField.isConstant, hp])]
      exact members_ofPrimitive hmember hp _
  | composite type | set s type =>
    exact names_member hmember (.append (.append (.append (.append .name_first _) _) _) _)
  | enumeration e type null =>
    exact names_member hmember
      (.append (.append (.append (.append (.append .name_first _) _) _) _) _)

theorem names_constants {f : NamedField} (h : f.PlainNames) :
    Language.python.names (FieldCode.ofField f).constants = f.constantNames := by
  obtain ⟨raw, member, offset, stop, kind⟩ := f
  cases kind with
  | primitive p constant => exact constants_ofPrimitive _ p (h.constant p constant rfl)
  | composite type | enumeration e type null | set s type => rfl

theorem names_ofFields {fields : List NamedField} (h : ∀ f ∈ fields, f.PlainNames) :
    Language.python.names (FieldCode.ofFields fields).members = fields.flatMap (·.memberNames)
      ∧ Language.python.names (FieldCode.ofFields fields).constants
        = fields.flatMap (·.constantNames) := by
  rw [members_ofFields, constants_ofFields, Language.names_flatMap, Language.names_flatMap]
  exact ⟨List.flatMap_congr fun f hf => names_members (h f hf),
    List.flatMap_congr fun f hf => names_constants (h f hf)⟩

theorem number_eq {p : Primitive} (h : p.kind ≠ .float) (v : Literal) :
    number v p = toString (v.sourceInt p.kind) := Literal.sourceNumber_eq_toString h v _

theorem number?_constant {name : String} (hname : IsPlain name) {p : Primitive}
    (hp : p.kind ≠ .float) (v : Literal) : Language.python.number? .constant
      (name ++ " = " ++ number v p) = some (name, v.sourceInt p.kind) := by
  have hend : EndsNumeral "".toList := endsNumeral_nil
  rw [number_eq hp, ← String.append_empty (s := name ++ " = " ++ toString (v.sourceInt p.kind))]
  exact Language.number?_constant (names_constant hname (.append (.append .equals_first _) _)) rfl
    (hname.notMem (by decide)) hend

/-- A constant that is one integer is a line with its number. -/
theorem exists_number_constants {f : NamedField} (h : f.PlainNames) {p : PrimitiveLayout}
    {constant : String} (hk : f.kind = .primitive p constant) {v : Literal}
    (hv : p.constantLiteral? = some v) : ∃ line ∈ (FieldCode.ofField f).constants,
      Language.python.number? .constant line
        = some (if p.isConstant then constant else constant ++ "_NULL_VALUE",
          v.sourceInt p.primitive.kind) := by
  obtain ⟨raw, member, offset, stop, kind⟩ := f
  dsimp only at hk
  subst hk
  have hplain := h.constant p constant rfl
  obtain ⟨hkind, hv⟩ := PrimitiveLayout.of_constantLiteral? hv
  cases hp : p.isConstant with
  | true =>
    rw [if_pos hp] at hv
    refine ⟨_, ?_, number?_constant hplain hkind v⟩
    cases hb : v.toBytes? <;> simp [FieldCode.ofField, FieldCode.ofPrimitive, FieldCode.ofConstant,
      hp, hv.1, hv.2.1, hv.2.2, hb, toString]
  | false =>
    rw [if_neg (by simp [hp])] at hv
    refine ⟨_, ?_, number?_constant (hplain.append (.ofList rfl)) hkind v⟩
    simp [FieldCode.ofField, FieldCode.ofPrimitive, hp, hv.1, hv.2, FieldCode.append, toString,
      String.append_assoc]

theorem numeral?_nullText {f : NamedField} {p : PrimitiveLayout} {constant : String}
    (hk : f.kind = .primitive p constant) (hp : p.primitive.kind ≠ .float)
    (hchar : p.isArray = true → p.primitive ≠ .char) {rest : List Char}
    (hrest : EndsNumeral rest) :
    numeral? ((nullText f).toList ++ rest) = some (p.nullValue.sourceInt p.primitive.kind) := by
  unfold nullText
  rw [hk]
  simp only [number_eq hp]
  split
  · exact numeral?_toString _ hrest
  · rename_i harray
    rw [if_neg (hchar (by simpa using harray))]
    have hlist : EndsNumeral ("] * ".toList ++ ((toString p.arrayLength).toList ++ rest)) :=
      endsNumeral_mark (by decide)
    rw [← numeral?_bracket _ hlist]
    simp [toString]

/-- What makes an integer null is a line with its null value. -/
theorem exists_number_null {f : NamedField} (hf : f.Plain) {p : PrimitiveLayout} {constant : String}
    (hk : f.kind = .primitive p constant) {v : Literal} (hv : p.nullLiteral? .python = some v) :
    ∃ r ∈ (FieldCode.ofField f).reads,
      Language.python.number? .null r.asNull = some (f.member, v.sourceInt p.primitive.kind) := by
  obtain ⟨hkind, hp, rfl, -, hchar⟩ := PrimitiveLayout.of_nullLiteral? hv
  obtain ⟨read, hreads, -⟩ := reads_ofField hf
    (show f.isConstant = false by rw [NamedField.isConstant, hk]; exact hp)
  refine ⟨_, hreads ▸ List.mem_singleton_self _, ?_⟩
  have hend : EndsNumeral ",".toList := endsNumeral_mark (by decide)
  have hmark : '=' = if Language.python = .python then '=' else ':' := rfl
  refine Language.number?_null hmark hf.member ?_ (numeral?_nullText hk hkind (hchar rfl) hend)
  simp [FieldRead.asNull, toString]

theorem hasNumber_call {place : NumberPlace} (hplace : place ≠ .constant) (head : String)
    {p : String × Int} (hp : Language.python.HasNumber lines place p) :
    Language.python.HasNumber (call head lines) place p :=
  ((hp.indent hplace 4).mono (List.subset_cons_self _ _)).append_left _

theorem hasNumber_classmethod {place : NumberPlace} (hplace : place ≠ .constant) (head : String)
    {p : String × Int} (hp : Language.python.HasNumber lines place p) :
    Language.python.HasNumber (classmethod head lines) place p :=
  ((hp.indent hplace 4).mono (List.subset_cons_self _ _)).mono (List.subset_cons_self _ _)

theorem names_messageConstants (l : SchemaLayout) (m : MessageLayout) :
    Language.python.names (messageConstants l m)
      = ["TEMPLATE_ID", "SCHEMA_ID", "SCHEMA_VERSION"] := by
  refine Language.names_cons_eq ["TEMPLATE_ID"] ["SCHEMA_ID", "SCHEMA_VERSION"] ?_
    (Language.names_cons_eq ["SCHEMA_ID"] ["SCHEMA_VERSION"] ?_ ?_)
  all_goals exact names_fixedConstant (.append .fixed _) rfl rfl

theorem names_messageEntry (l : SchemaLayout) (type : String) (m : MessageLayout) :
    Language.python.names (messageEntry l type m) = ["encode", "decode"] :=
  Language.names_append_left (Language.names_append_eq ["encode"] ["decode"]
    (Language.names_append_left (names_fixedBlock _ (.append .fixed _) rfl rfl) rfl)
    (names_fixedClassmethod _ (.append (.append .fixed _) _) rfl rfl)) rfl

theorem names_encodeBody (b : NamedBody) (fields : Lines) :
    Language.python.names (encodeBody b fields) = ["encode_body"] :=
  names_fixedBlock _ (.append .fixed _) rfl rfl

theorem names_decodeBody (b : NamedBody) (reads : List FieldRead) :
    Language.python.names (decodeBody b reads) = ["decode_body"] :=
  names_fixedClassmethod _ (.append (.append .fixed _) _) rfl rfl

/-- The documentation of a class declares nothing. -/
theorem names_documented (description : Option String) :
    Language.python.names (documented description) = [] := by
  cases description with
  | none => rfl
  | some d =>
    refine Language.names_cons_eq [] [] (Language.names_comment (.inr rfl) ?_) rfl
    unfold quoted
    exact .first

/-- The class of a type. -/
theorem opens_class {type : String} (body : Lines) (htype : IsPlain type) :
    Language.python.Opens (["@dataclass"] ++ block s!"class {type}" body)
      [⟨"class ", type, body.filter (!·.isEmpty)⟩] :=
  .append (.silent_of_head (.first : Leads ['@'] _) (by decide))
    (.headed body (by decide) .name_between htype (by decide))

/-- The scope of a body is its class. -/
theorem exists_opens_body (l : SchemaLayout) (message : Option MessageLayout) {b : NamedBody}
    (h : b.PlainNames) : ∃ lines,
      Language.python.Opens (bodyLines l message b) [⟨"class ", b.type, lines⟩]
      ∧ Language.python.names lines
        = "BLOCK_LENGTH" :: messageConstantNames message.isSome
          ++ b.fields.flatMap (·.constantNames) ++ b.memberNames
          ++ Language.bodyFunctions message.isSome .python
      ∧ ∀ place p, Language.python.HasNumber (FieldCode.ofFields b.fields).constants place p →
        Language.python.HasNumber lines place p := by
  obtain ⟨hmembers, hconstants⟩ := names_ofFields h.fields
  refine ⟨_, opens_class _ h.type, ?_, fun place p hp => ?_⟩
  rotate_left
  · refine (hp.mono fun line hline => ?_).filter
    simp only [List.mem_append, hline, true_or, or_true]
  have hlength : Language.python.names [s!"BLOCK_LENGTH = {b.layout.blockLength}"]
      = ["BLOCK_LENGTH"] := names_fixedConstant (.append .fixed _) rfl rfl
  have hgroups : Language.python.names (b.groups.map fun g =>
      s!"{g.member}: List[{g.body.type}] = field(default_factory=list)")
      = b.groups.map (·.member) :=
    Language.names_map fun g hg => names_member (h.groups g hg) (.append (.append .name_first _) _)
  have hvarData : ∀ type : NamedVarData → String,
      Language.python.names (b.varData.map fun d => s!"{d.member}: {type d}")
        = b.varData.map (·.member) := fun _ =>
    Language.names_map fun d hd => names_member (h.varData d hd) (.append .name_first _)
  rw [Language.names_filter]
  simp only [Language.names_append, hlength, hmembers, hconstants, hgroups, hvarData,
    Language.names_blank, Language.names_nil, names_documented, names_encodeBody, names_decodeBody,
    List.append_nil]
  cases message with
  | none => simp [messageConstantNames, Language.bodyFunctions, NamedBody.memberNames]
  | some m =>
    simp [messageConstantNames, Language.bodyFunctions, NamedBody.memberNames,
      names_messageConstants, names_messageEntry]

theorem exists_opens_composite {type : String} (htype : IsPlain type) (c : CompositeLayout)
    {fields : List NamedField} (hfields : ∀ f ∈ fields, f.PlainNames) : ∃ lines,
      Language.python.Opens (compositeLines type c fields) [⟨"class ", type, lines⟩]
      ∧ Language.python.names lines
        = "ENCODED_LENGTH" :: fields.flatMap (·.constantNames) ++ fields.flatMap (·.memberNames)
          ++ ["encode", "decode", "null"]
      ∧ (∀ place p, Language.python.HasNumber (FieldCode.ofFields fields).constants place p →
        Language.python.HasNumber lines place p)
      ∧ ∀ p, Language.python.HasNumber ((FieldCode.ofFields fields).reads.map (·.asNull)) .null p →
        Language.python.HasNumber lines .null p := by
  obtain ⟨hmembers, hconstants⟩ := names_ofFields hfields
  refine ⟨_, (opens_class _ htype).append .blank, ?_, fun place p hp => ?_, fun p hp => ?_⟩
  rotate_left
  · refine (hp.mono fun line hline => ?_).filter
    simp only [List.mem_append, hline, true_or, or_true]
  · exact ((hasNumber_classmethod (by decide) _ ((hasNumber_call (by decide) _ hp).mono
      (List.subset_cons_self _ _))).append_right _).filter
  have hlength : Language.python.names [s!"ENCODED_LENGTH = {c.encodedLength}"]
      = ["ENCODED_LENGTH"] := names_fixedConstant (.append .fixed _) rfl rfl
  have hencode : ∀ body, Language.python.names
      (block "def encode(self, buf: bytearray, offset: int) -> None" body) = ["encode"] :=
    fun _ => names_fixedBlock _ (.append .fixed _) rfl rfl
  have hdecode : ∀ body, Language.python.names
      (classmethod s!"def decode(cls, buf, offset: int) -> {type}" body) = ["decode"] :=
    fun _ => names_fixedClassmethod _ (.append (.append .fixed _) _) rfl rfl
  have hnull : ∀ body, Language.python.names
      (classmethod s!"def null(cls) -> {type}" body) = ["null"] :=
    fun _ => names_fixedClassmethod _ (.append (.append .fixed _) _) rfl rfl
  rw [Language.names_filter]
  simp only [Language.names_append, hlength, hmembers, hconstants, hencode, hdecode, hnull,
    Language.names_blank, Language.names_nil, names_documented, List.append_nil]
  simp

/-- A line at the top that declares the length of an enum starts with a name that is longer than the
word for a class. -/
theorem opens_length {constant : String} (h : IsPlain constant) (n : Nat) :
    Language.python.Opens [s!"{constant}_ENCODED_LENGTH = {n}"] [] := by
  have hname : IsPlain (constant ++ "_ENCODED_LENGTH") := h.append (.ofList rfl)
  have hlength : 5 < (constant ++ "_ENCODED_LENGTH").toList.length := by
    rw [String.toList_append, List.length_append]
    exact Nat.lt_of_lt_of_le (by decide) (Nat.le_add_left _ _)
  have hline : s!"{constant}_ENCODED_LENGTH = {n}"
      = (constant ++ "_ENCODED_LENGTH") ++ (" = " ++ toString n) := by
    simp only [toString, String.append_assoc]
    rfl
  have hchars : (s!"{constant}_ENCODED_LENGTH = {n}").toList
      = (constant ++ "_ENCODED_LENGTH").toList ++ ' ' :: ("= " ++ toString n).toList := by
    rw [hline, String.toList_append, String.toList_append (s := "= "),
      String.toList_append (s := " = ")]
    rfl
  obtain ⟨c, cs, hcs⟩ := List.exists_cons_of_length_pos (Nat.lt_trans (by decide) hlength)
  have hhead : (s!"{constant}_ENCODED_LENGTH = {n}").toList.head? = some c := by
    rw [hchars, hcs]
    rfl
  have hc : c ≠ ' ' := by
    rintro rfl
    exact absurd (hname ' ' (hcs ▸ List.mem_cons_self)) (by decide)
  refine .silent (Lines.isOuter_of_head? hhead hc (by decide))
    (Language.scopeHead?_eq_none fun w hw hprefix => ?_)
  rw [List.mem_singleton.1 hw] at hprefix
  obtain ⟨rest, hrest⟩ := hprefix
  have hword : marked? ' ' (s!"{constant}_ENCODED_LENGTH = {n}").toList
      = some (['c', 'l', 'a', 's', 's'], rest) := by
    rw [← hrest]
    exact marked?_append (by decide : ' ' ∉ ['c', 'l', 'a', 's', 's']) rest
  rw [hchars, marked?_append (hname.notMem (by decide)), Option.some.injEq, Prod.mk.injEq] at hword
  rw [hword.1] at hlength
  exact absurd hlength (by decide)

theorem exists_opens_enum {type constant null : String} (htype : IsPlain type)
    (hconstant : IsPlain constant) (e : EnumLayout) {values : List (String × Literal)}
    (hvalues : ∀ v ∈ values, IsPlain v.1) (hnull : IsPlain null) : ∃ lines,
      Language.python.Opens (enumLines type constant e values null) [⟨"class ", type, lines⟩]
      ∧ Language.python.names lines = values.map (·.1) ++ [null] ++ ["from_raw"]
      ∧ (e.encoding.kind ≠ .float →
        Language.python.HasNumber lines .constant (null, e.nullValue.sourceInt e.encoding.kind)
        ∧ ∀ v ∈ values,
          Language.python.HasNumber lines .constant (v.1, v.2.sourceInt e.encoding.kind)) := by
  have hvariant : ∀ {name : String}, IsPlain name → ∀ text : String,
      Language.python.names [s!"{name} = {text}"] = [name] :=
    fun h text => names_constant h (.append .equals_first _)
  have hclass : ∀ body, Language.python.Opens (block s!"class {type}(enum.IntEnum)" body)
      [⟨"class ", type, body.filter (!·.isEmpty)⟩] := fun body =>
    .headed body (by decide) (.append .name_between _) htype (by decide)
  refine ⟨_, (hclass _).append (.append .blank (.append (opens_length hconstant e.width) .blank)),
    ?_, fun hkind => ⟨?_, ?_⟩⟩
  · rw [Language.names_filter]
    refine Language.names_append_eq _ ["from_raw"] ?_
      (names_fixedClassmethod _ (.append (.append .fixed _) _) rfl rfl)
    refine Language.names_append_eq _ [null] (Language.names_append_eq [] _ (names_documented _)
      (Language.names_map fun v hv => hvariant (hvalues v hv) _)) ?_
    exact Language.names_cons_eq [null] [] (hvariant hnull _) rfl
  · have hline : Language.python.HasNumber [s!"{null} = {number e.nullValue e.encoding}", ""]
        .constant (null, e.nullValue.sourceInt e.encoding.kind) :=
      ⟨_, List.mem_cons_self, number?_constant hnull hkind _⟩
    exact ((hline.append_right _).append_left _).filter
  · intro v hv
    have hline : Language.python.HasNumber
        (values.map fun v => s!"{v.1} = {number v.2 e.encoding}") .constant
        (v.1, v.2.sourceInt e.encoding.kind) :=
      ⟨_, List.mem_map_of_mem hv, number?_constant (hvalues v hv) hkind _⟩
    exact (((hline.append_right _).append_left _).append_left _).filter

theorem names_choiceLines {type : String} {c : NamedChoice} (hgetter : IsPlain c.getter)
    (hsetter : IsPlain c.setter) :
    Language.python.names (choiceLines type c) = [c.getter, c.setter] := by
  refine Language.names_append_eq [c.getter] [c.setter] (Language.names_append_left ?_ rfl)
    (names_block _ hsetter _ (.append (.append .name_between _) _) rfl)
  exact Language.names_append_eq [] [c.getter] rfl
    (names_block _ hgetter _ (.append .name_between _) rfl)

theorem exists_opens_set {type : String} (htype : IsPlain type) (s : SetLayout)
    {choices : List NamedChoice} (hchoices : ∀ c ∈ choices, IsPlain c.getter ∧ IsPlain c.setter) :
    ∃ lines, Language.python.Opens (setLines type s choices) [⟨"class ", type, lines⟩]
      ∧ Language.python.names lines
        = ["ENCODED_LENGTH", "bits"] ++ choices.flatMap fun c => [c.getter, c.setter] := by
  refine ⟨_, (opens_class _ htype).append .blank, ?_⟩
  rw [Language.names_filter]
  refine Language.names_append_eq ["ENCODED_LENGTH", "bits"] _
    (Language.names_append_eq [] ["ENCODED_LENGTH", "bits"] (names_documented _) ?_) ?_
  · refine Language.names_cons_eq ["ENCODED_LENGTH"] ["bits"]
      (names_fixedConstant (.append .fixed _) rfl rfl) ?_
    exact Language.names_cons_eq [] ["bits"] rfl
      (names_member (.ofList rfl) (Leads.fixed.of_isPrefixOf rfl))
  · rw [Language.names_flatMap]
    exact List.flatMap_congr fun c hc => names_choiceLines (hchoices c hc).1 (hchoices c hc).2

end Python

end SimpleBinary
