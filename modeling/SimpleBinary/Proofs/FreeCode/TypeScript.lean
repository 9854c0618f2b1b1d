import Mathlib
import SimpleBinary.Proofs.FreeCode

/-!
# Free texts in the lines of a TypeScript unit

Descriptions are written into block comments, and the encodings of var-data as literals.  Every line
leads from code back to code (`Settled`), so what is written as a literal is read as one; that takes
that the names around it are spelled as identifiers.  A text that ends its comment goes on as code
(`TypeScript.codeOf_documented`).
-/

namespace SimpleBinary

namespace TypeScript

/-- Lines that lead from code back to code. -/
def Settled (lines : Lines) : Prop :=
  ∀ line ∈ lines, Slashed.typeScript.Leads .code line .code

namespace Settled

variable {line : String} {lines lines' : Lines}

theorem nil : Settled [] := List.forall_mem_nil _

theorem cons (h : Slashed.typeScript.Leads .code line .code) (hlines : Settled lines) :
    Settled (line :: lines) := List.forall_mem_cons.2 ⟨h, hlines⟩

theorem bland (h : Bland line) (hlines : Settled lines) : Settled (line :: lines) :=
  .cons (.bland h) hlines

theorem alike (h : Settled lines) : Slashed.typeScript.AlikeLines lines lines := .refl h

theorem append (h : Settled lines) (h' : Settled lines') : Settled (lines ++ lines') :=
  List.forall_mem_append.2 ⟨h, h'⟩

theorem map {α : Type} {as : List α} {f : α → String}
    (h : ∀ a ∈ as, Slashed.typeScript.Leads .code (f a) .code) : Settled (as.map f) :=
  List.forall_mem_map.2 h

theorem flatMap {α : Type} {as : List α} {f : α → Lines} (h : ∀ a ∈ as, Settled (f a)) :
    Settled (as.flatMap f) := by
  intro line hline
  obtain ⟨a, ha, hline⟩ := List.mem_flatMap.1 hline
  exact h a ha line hline

theorem indent (h : Settled lines) (width : Nat) : Settled (lines.indent width) := by
  refine List.forall_mem_map.2 fun line hline => ?_
  split
  · exact h line hline
  · exact (Slashed.leads_blanks width).append (h line hline)

theorem block {head : String} (hhead : Slashed.typeScript.Leads .code head .code)
    (h : Settled lines) : Settled (block head lines) :=
  append (cons (hhead.append (.fixed rfl)) (h.indent 2))
    (bland ((Bland.fixed rfl).append (.fixed rfl)) nil)

theorem item {head : String} (hhead : Bland head) (h : Settled lines) :
    Settled (item head lines) :=
  append (bland (hhead.append (.fixed rfl)) (h.indent 2))
    (bland ((Bland.fixed rfl).append (.fixed rfl)) nil)

theorem scope (h : Settled lines) : Settled (scope lines) :=
  append (bland (.fixed rfl) (h.indent 2)) (bland (.fixed rfl) nil)

end Settled

/-! ## Parts of lines -/

section Parts

variable {place value : String} (hplace : Bland place) (hvalue : Bland value)

theorem bland_accessor (p : Primitive) : Bland (accessor p) := by cases p <;> exact .fixed rfl

theorem bland_typeName (p : Primitive) : Bland (typeName p) := by cases p <;> exact .fixed rfl

theorem bland_orderArgument (p : Primitive) (order : ByteOrder) :
    Bland (orderArgument p order) := by
  cases order <;> cases p <;> exact .fixed rfl

theorem bland_number (v : Literal) (p : Primitive) : Bland (number v p) := by
  have hplain : Bland (plainNumber v p) :=
    .number (.fixed rfl) (.fixed rfl) (.fixed rfl) (.fixed rfl) v p
  unfold number
  split
  · exact hplain.append (.fixed rfl)
  · exact hplain

theorem bland_maxCount (s : HeaderSlot) : Bland (maxCount s) := by
  have hbound : ∀ bound : Nat,
      Bland (if maxSafeInteger < bound then "Number.MAX_SAFE_INTEGER" else toString bound) := by
    intro bound
    split
    · exact .fixed rfl
    · exact .nat bound
  exact hbound _

include hplace

theorem bland_read (p : Primitive) (order : ByteOrder) : Bland (read p order place) :=
  (((((Bland.fixed rfl).append (bland_accessor p)).append (.fixed rfl)).append hplace).append
    (bland_orderArgument p order)).append (.fixed rfl)

theorem bland_readSlot (s : HeaderSlot) : Bland (readSlot s place) := by
  have hread := bland_read hplace s.primitive s.byteOrder
  unfold readSlot
  dsimp only
  split
  · exact ((Bland.fixed rfl).append hread).append (.fixed rfl)
  · exact hread

include hvalue

theorem bland_write (p : Primitive) (order : ByteOrder) : Bland (write p order place value) :=
  (((((((Bland.fixed rfl).append (bland_accessor p)).append (.fixed rfl)).append hplace).append
    (.fixed rfl)).append hvalue).append (bland_orderArgument p order)).append (.fixed rfl)

theorem bland_writeSlot (s : HeaderSlot) : Bland (writeSlot s place value) := by
  unfold writeSlot
  refine (bland_write hplace ?_ _ _).append (.fixed rfl)
  split
  · exact ((Bland.fixed rfl).append hvalue).append (.fixed rfl)
  · exact hvalue

end Parts

/-! ## Fields -/

/-- The code of a field whose lines lead from code back to code. -/
structure FieldCode.IsSettled (c : FieldCode) : Prop where
  members : Settled c.members
  constants : Settled c.constants
  encode : Settled c.encode
  decode : Settled c.decode

namespace FieldCode

theorem isSettled_none : none.IsSettled := ⟨.nil, .nil, .nil, .nil⟩

theorem IsSettled.append {c d : FieldCode} (hc : c.IsSettled) (hd : d.IsSettled) :
    (c.append d).IsSettled :=
  ⟨hc.members.append hd.members, hc.constants.append hd.constants, hc.encode.append hd.encode,
    hc.decode.append hd.decode⟩

/-- A field adds one line to its interface and one to each function. -/
theorem isSettled_of_lines {member encode decode : String} (hmember : Bland member)
    (hencode : Slashed.typeScript.Leads .code encode .code) (hdecode : Bland decode) :
    (FieldCode.mk [member] [] [encode] [decode]).IsSettled :=
  ⟨.bland hmember .nil, .nil, .cons hencode .nil, .bland hdecode .nil⟩

theorem isSettled_ofConstant {constant : String} (h : IsPlain constant) (p : PrimitiveLayout) :
    (ofConstant p constant).IsSettled := by
  have hnumber : Slashed.typeScript.Leads .code
      (number (p.constValue.getD (.uint 0)) p.primitive) .code := .bland (bland_number _ _)
  refine ⟨.nil, .cons ?_ .nil, .nil, .nil⟩
  refine Slashed.Leads.append (Slashed.Leads.append (.bland ?_) ?_) (.bland (.fixed rfl))
  · exact ((Bland.fixed rfl).append (.of_plain h)).append (.fixed rfl)
  · split
    · split
      · exact Slashed.leads_quoted _
      · exact hnumber
    · exact hnumber

variable {f : NamedField} (hmember : IsPlain f.member)

include hmember

theorem bland_member {type : String} (htype : Bland type) : Bland s!"{f.member}: {type};" :=
  (((Bland.of_plain hmember).append (.fixed rfl)).append htype).append (.fixed rfl)

theorem bland_decode {read : String} (hread : Bland read) : Bland s!"{f.member}: {read}," :=
  (((Bland.of_plain hmember).append (.fixed rfl)).append hread).append (.fixed rfl)

theorem bland_value : Bland s!"value.{f.member}" := (Bland.fixed rfl).append (.of_plain hmember)

theorem isSettled_ofNumber (p : PrimitiveLayout) : (ofNumber f p).IsSettled :=
  isSettled_of_lines (bland_member hmember (bland_typeName _))
    (.bland ((bland_write (.place (.fixed rfl) _) (bland_value hmember) _ _).append (.fixed rfl)))
    (bland_decode hmember (bland_read (.place (.fixed rfl) _) _ _))

theorem isSettled_ofChars (hraw : IsPlain f.raw) (p : PrimitiveLayout) :
    (ofChars f p).IsSettled := by
  have hplace : Bland (placeText "offset" f.offset) := .place (.fixed rfl) _
  refine isSettled_of_lines ((Bland.of_plain hmember).append (.fixed rfl)) ?_ ?_
  · refine Slashed.Leads.append (.bland ?_)
      ((Slashed.leads_singleQuoted (.of_plain hraw)).append (.fixed rfl))
    exact ((((((Bland.fixed rfl).append hplace).append (.fixed rfl)).append (.nat _)).append
      (.fixed rfl)).append (.of_plain hmember)).append (.fixed rfl)
  · exact ((((((Bland.of_plain hmember).append (.fixed rfl)).append hplace).append
      (.fixed rfl)).append (.nat _))).append (.fixed rfl)

theorem isSettled_ofItems (p : PrimitiveLayout) : (ofItems f p).IsSettled := by
  have hplace : Bland (placeText "offset" f.offset ++ s!" + i * {p.primitive.size}") :=
    (Bland.place (.fixed rfl) _).append ((Bland.fixed rfl).append (.nat _))
  refine isSettled_of_lines ?_ (.bland ?_) ?_
  · exact (((Bland.of_plain hmember).append (.fixed rfl)).append (bland_typeName _)).append
      (.fixed rfl)
  · exact ((((((Bland.fixed rfl).append (.of_plain hmember)).append (.fixed rfl)).append
      (.nat _)).append (.fixed rfl)).append (bland_write hplace (.fixed rfl) _ _)).append
      (.fixed rfl)
  · exact ((((Bland.of_plain hmember).append (.fixed rfl)).append (.nat _)).append
      (.fixed rfl)).append ((bland_read hplace _ _).append (.fixed rfl))

theorem isSettled_ofCodec {type : String} (htype : IsPlain type) : (ofCodec f type).IsSettled := by
  have hplace : Bland (placeText "offset" f.offset) := .place (.fixed rfl) _
  refine isSettled_of_lines (bland_member hmember (.of_plain htype)) (.bland ?_) ?_
  · exact ((((((Bland.of_plain htype).append (.fixed rfl)).append hplace).append
      (.fixed rfl)).append (.of_plain hmember))).append (.fixed rfl)
  · exact (((((Bland.of_plain hmember).append (.fixed rfl)).append (.of_plain htype)).append
      (.fixed rfl)).append hplace).append (.fixed rfl)

theorem isSettled_ofEnum {type : String} (htype : IsPlain type) (e : EnumLayout) :
    (ofEnum f e type).IsSettled := by
  have hplace : Bland (placeText "offset" f.offset) := .place (.fixed rfl) _
  refine isSettled_of_lines (bland_member hmember (.of_plain htype))
    (.bland (bland_writeSlot hplace (bland_value hmember) _)) ?_
  exact (((((Bland.of_plain hmember).append (.fixed rfl)).append (bland_readSlot hplace _)).append
    (.fixed rfl)).append (.of_plain htype)).append (.fixed rfl)

theorem isSettled_ofPrimitive (hraw : IsPlain f.raw) {constant : String}
    (hconstant : IsPlain constant) (p : PrimitiveLayout) :
    (ofPrimitive f p constant).IsSettled := by
  have hcode : IsSettled (if !p.isArray then ofNumber f p
      else if p.primitive = .char then ofChars f p else ofItems f p) := by
    split
    · exact isSettled_ofNumber hmember p
    · split
      · exact isSettled_ofChars hmember hraw p
      · exact isSettled_ofItems hmember p
  have hnull : Bland
      s!"static readonly {constant}_NULL_VALUE = {number p.nullValue p.primitive};" :=
    ((((Bland.fixed rfl).append (.of_plain hconstant)).append (.fixed rfl)).append
      (bland_number _ _)).append (.fixed rfl)
  unfold ofPrimitive
  dsimp only
  split
  · exact isSettled_ofConstant hconstant p
  · split
    · exact IsSettled.append ⟨.nil, .bland hnull .nil, .nil, .nil⟩ hcode
    · exact hcode

omit hmember

theorem isSettled_ofField (h : f.IsSpelled) : (ofField f).IsSettled := by
  obtain ⟨⟨hmember, hcomposite, henumeration, hset⟩, ⟨-, hconstant⟩, hraw⟩ := h
  unfold ofField
  split
  · exact isSettled_ofPrimitive hmember hraw (hconstant _ _ ‹_›) _
  · exact isSettled_ofCodec hmember (hcomposite _ ‹_›)
  · exact isSettled_ofEnum hmember (henumeration _ _ _ ‹_›) _
  · exact isSettled_ofCodec hmember (hset _ _ ‹_›)

theorem isSettled_ofFields {fields : List NamedField} (h : ∀ f ∈ fields, f.IsSpelled) :
    (ofFields fields).IsSettled := by
  unfold ofFields
  induction fields with
  | nil => exact isSettled_none
  | cons f fields ih =>
    obtain ⟨hf, hfields⟩ := List.forall_mem_cons.1 h
    exact (isSettled_ofField hf).append (ih hfields)

theorem ofFields_withoutTexts (fields : List NamedField) :
    ofFields (fields.map (·.withoutTexts)) = ofFields fields := by
  have hfield : ∀ f : NamedField, ofField f.withoutTexts = ofField f := by
    rintro ⟨raw, member, offset, stop, kind⟩
    cases kind <;> rfl
  unfold ofFields
  rw [List.map_map]
  exact congrArg (List.foldr append none) (List.map_congr_left fun f _ => hfield f)

end FieldCode

/-! ## Groups and var-data -/

/-- A path between single quotes is a literal. -/
theorem leads_path {front path back : String} (hfront : Bland front) (hpath : IsLine path)
    (hback : Bland back) :
    Slashed.typeScript.Leads .code (front ++ singleQuoted path ++ back) .code :=
  ((Slashed.Leads.bland hfront).append (Slashed.leads_singleQuoted hpath)).append (.bland hback)

theorem settled_encodeGroup {g : NamedGroup} (h : g.IsSpelled) : Settled (encodeGroup g) := by
  have hvalue : Bland s!"value.{g.member}" := (Bland.fixed rfl).append (.of_plain h.member)
  have hlength : Bland s!"value.{g.member}.length" := hvalue.append (.fixed rfl)
  have hblock : Bland s!"{g.body.type}Codec.BLOCK_LENGTH" :=
    (Bland.of_plain h.type).append (.fixed rfl)
  unfold encodeGroup
  refine .append (.scope ?_) (.block ?_ ?_)
  · refine .cons ?_ (.bland ?_ (.bland (.fixed rfl)
      (.bland (bland_writeSlot (.place (.fixed rfl) _) hblock _)
        (.bland (bland_writeSlot (.place (.fixed rfl) _) hlength _) .nil))))
    · refine Slashed.Leads.append (.bland ?_)
        ((Slashed.leads_singleQuoted h.path).append (.fixed rfl))
      exact ((((Bland.fixed rfl).append (.of_plain h.member)).append (.fixed rfl)).append
        (bland_maxCount _)).append (.fixed rfl)
    · exact ((Bland.fixed rfl).append (.nat _)).append (.fixed rfl)
  · exact .bland (((Bland.fixed rfl).append (.of_plain h.member)).append (.fixed rfl))
  · exact .bland ((Bland.of_plain h.type).append (.fixed rfl)) .nil

theorem settled_encodeVarData {d : NamedVarData} (h : d.IsSpelled) :
    Settled (encodeVarData d) := by
  have hbytes : Bland (if d.layout.isText then s!"new TextEncoder().encode(value.{d.member})"
      else s!"value.{d.member}") := by
    have hvalue : Bland s!"value.{d.member}" := (Bland.fixed rfl).append (.of_plain h.member)
    split
    · exact ((Bland.fixed rfl).append (.of_plain h.member)).append (.fixed rfl)
    · exact hvalue
  unfold encodeVarData
  refine .scope (.bland ?_ (.cons ?_ (.bland ?_ (.bland (.fixed rfl)
    (.bland (bland_writeSlot (.fixed rfl) (.fixed rfl) _) (.bland (.fixed rfl) .nil))))))
  · exact ((Bland.fixed rfl).append hbytes).append (.fixed rfl)
  · exact leads_path (((Bland.fixed rfl).append (bland_maxCount _)).append (.fixed rfl)) h.path
      (.fixed rfl)
  · exact ((Bland.fixed rfl).append (.nat _)).append (.fixed rfl)

theorem settled_encodeBody {b : NamedBody} (h : b.IsSpelled) {fields : Lines}
    (hfields : Settled fields) : Settled (encodeBody b fields) := by
  refine .block ?_ (.append (.append (.append (.bland ?_ .nil) ?_) ?_) ?_)
  · exact .bland (((Bland.fixed rfl).append (.of_plain h.type)).append (.fixed rfl))
  · exact ((Bland.fixed rfl).append (.of_plain h.type)).append (.fixed rfl)
  · split
    · exact .nil
    · exact .bland (.fixed rfl) hfields
  · exact .flatMap fun g hg => settled_encodeGroup (h.groups g hg)
  · exact .flatMap fun d hd => settled_encodeVarData (h.varData d hd)

theorem settled_decodeGroup {g : NamedGroup} (h : g.IsSpelled) : Settled (decodeGroup g) := by
  unfold decodeGroup
  refine .scope (.append (.cons ?_ (.bland ?_ (.bland ?_ (.bland ?_ (.cons ?_ .nil)))))
    (.block (.fixed rfl) (.bland ?_ (.bland ?_ (.bland (.fixed rfl) .nil)))))
  · exact leads_path (((Bland.fixed rfl).append (.nat _)).append (.fixed rfl)) h.path (.fixed rfl)
  · exact ((Bland.fixed rfl).append (bland_readSlot (.place (.fixed rfl) _) _)).append (.fixed rfl)
  · exact ((Bland.fixed rfl).append (bland_readSlot (.place (.fixed rfl) _) _)).append (.fixed rfl)
  · exact ((Bland.fixed rfl).append (.nat _)).append (.fixed rfl)
  · exact Slashed.Leads.append (.bland (((Bland.fixed rfl).append (.nat _)).append (.fixed rfl)))
      ((Slashed.leads_singleQuoted h.path).append (.fixed rfl))
  · exact ((Bland.fixed rfl).append (.of_plain h.type)).append (.fixed rfl)
  · exact ((Bland.fixed rfl).append (.of_plain h.member)).append (.fixed rfl)

theorem alike_scope {lines lines' : Lines} (h : Slashed.typeScript.AlikeLines lines lines') :
    Slashed.typeScript.AlikeLines (scope lines) (scope lines') :=
  .append (.append (Settled.bland (.fixed rfl) .nil).alike (h.indent 2))
    (Settled.bland (.fixed rfl) .nil).alike

/-- Of what reads var-data only the literal of the encoding is made of a free text. -/
theorem alike_decodeVarData {d : NamedVarData} (h : d.IsSpelled)
    (hencoding : ∀ e ∈ d.layout.characterEncoding, IsLine e) :
    Slashed.typeScript.AlikeLines (decodeVarData d) (decodeVarData d.withoutTexts) := by
  obtain ⟨member, path, ⟨name, id, sinceVersion, description, length, encoding⟩⟩ := d
  have hmember : Bland s!"value.{member} = " :=
    ((Bland.fixed rfl).append (.of_plain h.member)).append (.fixed rfl)
  have hbounds : Slashed.typeScript.Leads .code
      s!"sbe.checkBounds(view, pos, {length.width}, {singleQuoted path});" .code :=
    leads_path (((Bland.fixed rfl).append (.nat _)).append (.fixed rfl)) h.path (.fixed rfl)
  have hlength : Bland ("const length = " ++ readSlot length "pos" ++ ";") :=
    ((Bland.fixed rfl).append (bland_readSlot (.fixed rfl) _)).append (.fixed rfl)
  have hpos : Bland s!"pos += {length.width};" :=
    ((Bland.fixed rfl).append (.nat _)).append (.fixed rfl)
  have hlines : ∀ {value other : String}, Slashed.typeScript.Alike value other →
      Slashed.typeScript.AlikeLines
        (scope [s!"sbe.checkBounds(view, pos, {length.width}, {singleQuoted path});",
          "const length = " ++ readSlot length "pos" ++ ";", s!"pos += {length.width};",
          s!"value.{member} = {value};", "pos += length;"])
        (scope [s!"sbe.checkBounds(view, pos, {length.width}, {singleQuoted path});",
          "const length = " ++ readSlot length "pos" ++ ";", s!"pos += {length.width};",
          s!"value.{member} = {other};", "pos += length;"]) := by
    intro value other hvalue
    have hend : Slashed.typeScript.Leads .code ";" .code := .fixed rfl
    have hfront := (Settled.cons hbounds (.bland hlength (.bland hpos .nil))).alike
    refine alike_scope (hfront.append
      (.cons ?_ (by simp [toString]) (Settled.bland (.fixed rfl) .nil).alike))
    exact (((Slashed.Leads.bland hmember).alike.append hvalue).append hend.alike).append
      Slashed.leads_newline.alike
  cases encoding with
  | none => exact hlines (leads_path (.fixed rfl) h.path (.fixed rfl)).alike
  | some e =>
    have hfront : Slashed.typeScript.Leads .code "sbe.readText(view, pos, length, " .code :=
      .fixed rfl
    have hcomma : Slashed.typeScript.Leads .code ", " .code := .fixed rfl
    have hend : Slashed.typeScript.Leads .code ")" .code := .fixed rfl
    exact hlines ((((hfront.alike.append
      (Slashed.alike_singleQuoted (hencoding e rfl) isLine_empty)).append hcomma.alike).append
        (Slashed.leads_singleQuoted h.path).alike).append hend.alike)

/-! ## Bodies -/

theorem encodeGroup_withoutTexts (g : NamedGroup) : encodeGroup g.withoutTexts = encodeGroup g := by
  simp [encodeGroup, NamedGroup.withoutTexts]

theorem decodeGroup_withoutTexts (g : NamedGroup) : decodeGroup g.withoutTexts = decodeGroup g := by
  simp [decodeGroup, NamedGroup.withoutTexts]

theorem encodeVarData_withoutTexts (d : NamedVarData) :
    encodeVarData d.withoutTexts = encodeVarData d := by
  unfold encodeVarData
  rw [d.isText_withoutTexts]
  rfl

theorem encodeBody_withoutTexts (b : NamedBody) (fields : Lines) :
    encodeBody b.withoutTexts fields = encodeBody b fields := by
  simp only [encodeBody, NamedBody.type_withoutTexts, NamedBody.groups_withoutTexts,
    NamedBody.varData_withoutTexts, List.flatMap_map, encodeGroup_withoutTexts,
    encodeVarData_withoutTexts]

theorem alike_decodeBody {b : NamedBody} (h : b.IsSpelled) {fields : Lines}
    (hfields : Settled fields)
    (hencodings : ∀ d ∈ b.varData, ∀ e ∈ d.layout.characterEncoding, IsLine e) :
    Slashed.typeScript.AlikeLines (decodeBody b fields) (decodeBody b.withoutTexts fields) := by
  simp only [decodeBody, NamedBody.type_withoutTexts, NamedBody.path_withoutTexts,
    NamedBody.groups_withoutTexts, NamedBody.varData_withoutTexts, List.flatMap_map, List.map_map,
    Function.comp_def, decodeGroup_withoutTexts, NamedVarData.isText_withoutTexts]
  have hdata : Slashed.typeScript.AlikeLines (b.varData.flatMap decodeVarData)
      (b.varData.flatMap fun d => decodeVarData d.withoutTexts) :=
    .flatMap fun d hd => alike_decodeVarData (h.varData d hd) (hencodings d hd)
  have hhead : Slashed.typeScript.Leads .code
      ("static decodeBody(view: DataView, offset: number, blockLength: number): "
        ++ s!"[{b.type}, number]") .code :=
    .bland ((Bland.fixed rfl).append
      (((Bland.fixed rfl).append (.of_plain h.type)).append (.fixed rfl)))
  have hbounds : Slashed.typeScript.Leads .code
      (s!"sbe.checkBounds(view, offset, Math.min(blockLength, {b.type}Codec.BLOCK_LENGTH), "
        ++ s!"{singleQuoted b.path});") .code :=
    Slashed.Leads.append
      (.bland (((Bland.fixed rfl).append (.of_plain h.type)).append (.fixed rfl)))
      ((Slashed.leads_singleQuoted h.path).append (.fixed rfl))
  have hpos : Settled ["let pos = offset + blockLength;"] := .bland (.fixed rfl) .nil
  have hgroups : Settled (b.groups.flatMap decodeGroup) :=
    .flatMap fun g hg => settled_decodeGroup (h.groups g hg)
  refine .cons (Slashed.Leads.append (.fixed rfl) Slashed.leads_newline).alike .rfl
    (.braced hhead (.bland (.fixed rfl)) (.append (.append (Settled.alike (.append (.append
      (.append (.cons hbounds .nil) (.item ?_ (.append (.append hfields ?_) ?_))) hpos) hgroups))
        hdata) (Settled.bland (.fixed rfl) .nil).alike) 2)
  · exact ((Bland.fixed rfl).append (.of_plain h.type)).append (.fixed rfl)
  · exact .map fun g hg => .bland ((Bland.of_plain (h.groups g hg).member).append (.fixed rfl))
  · refine .map fun d hd => ?_
    have hmember : Bland s!"{d.member}: " :=
      (Bland.of_plain (h.varData d hd).member).append (.fixed rfl)
    refine Slashed.Leads.append (Slashed.Leads.append (.bland hmember) ?_) (.bland (.fixed rfl))
    split <;> exact .fixed rfl

theorem settled_messageConstants (l : SchemaLayout) (m : MessageLayout) :
    Settled (messageConstants l m) := by
  refine .bland ?_ (.bland ?_ (.bland ?_ .nil)) <;>
    exact ((Bland.fixed rfl).append (.int _)).append (.fixed rfl)

theorem settled_messageEntry {l : SchemaLayout} {type : String} {m : MessageLayout}
    (htype : IsPlain type) (hheader : IsLine l.header.composite.typeName)
    (hname : IsPlain m.name) : Settled (messageEntry l type m) := by
  unfold messageEntry
  extract_lets h codec slot
  have hcodec : IsPlain codec := htype.append (.ofList rfl)
  have hslot : ∀ (s : HeaderSlot) {value : String}, Bland value → Bland (slot s value) :=
    fun s _ hvalue =>
      bland_writeSlot (.nat _) (((Bland.of_plain hcodec).append (.fixed rfl)).append hvalue) s
  have hread : ∀ s : HeaderSlot, Bland (readSlot s (toString s.offset)) :=
    fun s => bland_readSlot (.nat _) s
  have hthrow : Slashed.typeScript.Leads .code
      (s!"throw new sbe.DecodeError(`{m.name} has template id $\x7b{codec}.TEMPLATE_ID\x7d "
        ++ "but the header says $\x7btemplateId\x7d`);") .code := by
    have hopen : Slashed.typeScript.Leads .code "throw new sbe.DecodeError(`" .template :=
      .fixed rfl
    have hid : Slashed.typeScript.Leads .template " has template id $\x7b" .template := .fixed rfl
    have hconstant : Slashed.typeScript.Leads .template ".TEMPLATE_ID\x7d " .template :=
      .fixed rfl
    have hclose : Slashed.typeScript.Leads .template
        "but the header says $\x7btemplateId\x7d`);" .code := .fixed rfl
    exact ((((hopen.append (.plain_template hname)).append hid).append
      (.plain_template hcodec)).append hconstant).append hclose
  refine .cons (.fixed rfl) (.append (.append (.append (.block ?_ ?_) (.bland (.fixed rfl) .nil))
    (.block ?_ (.append (.append (.bland (.fixed rfl) (.cons ?_ (.bland ?_ .nil)))
      (.block ?_ (.cons hthrow .nil))) (.bland ?_ (.bland ?_ .nil))))) (.bland (.fixed rfl) .nil))
  · exact .bland (((Bland.fixed rfl).append (.of_plain htype)).append (.fixed rfl))
  · refine .bland (.fixed rfl) (.bland ?_ (.bland (.fixed rfl) (.bland (hslot _ (.fixed rfl))
      (.bland (hslot _ (.fixed rfl)) (.bland (hslot _ (.fixed rfl))
        (.bland (hslot _ (.fixed rfl)) (.bland ?_ (.bland (.fixed rfl) .nil))))))))
    · exact ((Bland.fixed rfl).append (.nat _)).append (.fixed rfl)
    · exact (Bland.of_plain hcodec).append (.fixed rfl)
  · exact .bland ((Bland.fixed rfl).append (.of_plain htype))
  · exact leads_path (((Bland.fixed rfl).append (.nat _)).append (.fixed rfl)) hheader (.fixed rfl)
  · exact ((Bland.fixed rfl).append (hread _)).append (.fixed rfl)
  · exact .bland (((Bland.fixed rfl).append (.of_plain hcodec)).append (.fixed rfl))
  · exact ((Bland.fixed rfl).append (hread _)).append (.fixed rfl)
  · exact ((((Bland.fixed rfl).append (.of_plain hcodec)).append (.fixed rfl)).append
      (.nat _)).append (.fixed rfl)

theorem alike_documented {description : Option String}
    (h : ∀ d ∈ description, ¬ ['*', '/'] <:+: d.toList) :
    Slashed.typeScript.AlikeLines (documented description) (documented (emptied description)) := by
  cases description with
  | none => exact .nil
  | some d =>
    have hempty : ¬ ['*', '/'] <:+: "".toList := by decide
    have hback : ∀ p ∈ [Place.block 0, .star 0],
        Slashed.typeScript.read p (" */" ++ "\n").toList = (.code, ['\n']) := by
      decide
    have hread : ∀ {d : String}, ¬ ['*', '/'] <:+: d.toList →
        Slashed.typeScript.read .code (s!"/** {d} */" ++ "\n").toList = (.code, [' ', '\n']) := by
      intro d hd
      show Slashed.typeScript.read .code ("/** " ++ d ++ " */" ++ "\n").toList = _
      rw [String.append_assoc]
      exact Slashed.read_blockComment hd hback
    exact .cons ⟨_, hread (h d rfl), hread hempty⟩ (by simp [toString]) .nil

/-- Behind the end of the comment in a description there is code again. -/
theorem codeOf_documented {d e : String} (hd : ¬ ['*', '/'] <:+: d.toList) {rest : Lines}
    (hrest : rest ≠ []) :
    Slashed.typeScript.codeOf (joinLines (documented (some (d ++ "*/" ++ e)) ++ rest))
      = " " ++ Slashed.typeScript.codeOf (joinLines ((e ++ " */") :: rest)) := by
  have hread : Slashed.typeScript.read .code ("/** " ++ d ++ "*/").toList = (.code, [' ']) :=
    Slashed.read_blockComment hd (by decide)
  have hlines : joinLines (documented (some (d ++ "*/" ++ e)) ++ rest)
      = "/** " ++ d ++ "*/" ++ joinLines ((e ++ " */") :: rest) := by
    show joinLines (("/** " ++ (d ++ "*/" ++ e) ++ " */") :: rest) = _
    rw [Slashed.joinLines_cons _ hrest, Slashed.joinLines_cons _ hrest]
    simp only [String.append_assoc]
  rw [hlines, Slashed.codeOf_append hread]

/-- Of the lines of a body only its comment and the literals of encodings are made of free
texts. -/
theorem alike_bodyLines {l : SchemaLayout} {message : Option MessageLayout} {b : NamedBody}
    (h : b.IsSpelled) (hheader : IsLine l.header.composite.typeName)
    (hname : ∀ m ∈ message, IsPlain m.name)
    (hdescription : ∀ m ∈ message, ∀ d ∈ m.description, ¬ ['*', '/'] <:+: d.toList)
    (hencodings : ∀ d ∈ b.varData, ∀ e ∈ d.layout.characterEncoding, IsLine e) :
    Slashed.typeScript.AlikeLines (bodyLines l message b)
      (bodyLines l.withoutTexts (message.map (·.withoutTexts)) b.withoutTexts) := by
  have hmessage : ∀ f : SchemaLayout → MessageLayout → Lines,
      (∀ m : MessageLayout, f l.withoutTexts m.withoutTexts = f l m) →
      (message.map (·.withoutTexts)).elim [] (f l.withoutTexts) = message.elim [] (f l) := by
    intro f hf
    cases message with
    | none => rfl
    | some m => exact hf m
  have hsettled : ∀ f : MessageLayout → Lines, (∀ m ∈ message, Settled (f m)) →
      Settled (message.elim [] f) := by
    intro f hf
    cases message with
    | none => exact .nil
    | some m => exact hf m rfl
  have hdocumented : Slashed.typeScript.AlikeLines (documented (message.bind (·.description)))
      (documented ((message.map (·.withoutTexts)).bind (·.description))) := by
    cases message with
    | none => exact .nil
    | some m => exact alike_documented (hdescription m rfl)
  have hfields := FieldCode.isSettled_ofFields h.fields
  have hblank : Settled [""] := .bland (.fixed rfl) .nil
  have hgroup : ∀ g : NamedGroup, g.withoutTexts.body.type = g.body.type :=
    fun g => g.body.type_withoutTexts
  simp only [bodyLines, NamedBody.type_withoutTexts, NamedBody.layout_withoutTexts,
    NamedBody.fields_withoutTexts, NamedBody.groups_withoutTexts, NamedBody.varData_withoutTexts,
    BodyLayout.blockLength_withoutTexts, FieldCode.ofFields_withoutTexts, encodeBody_withoutTexts,
    hmessage messageConstants fun _ => rfl, hmessage (messageEntry · b.type) fun _ => rfl,
    List.map_map, Function.comp_def, hgroup, NamedVarData.isText_withoutTexts]
  refine .append (.append (.append hdocumented (Settled.alike (.block ?_ (.append (.append
    hfields.members ?_) ?_)))) hblank.alike) (.braced ?_ (.bland (.fixed rfl)) (.append
      (Settled.alike ?_) (alike_decodeBody h hfields.decode hencodings)) 2)
  · exact .bland ((Bland.fixed rfl).append (.of_plain h.type))
  · refine .map fun g hg => .bland ?_
    exact (((Bland.of_plain (h.groups g hg).member).append (.fixed rfl)).append
      (.of_plain (h.groups g hg).type)).append (.fixed rfl)
  · refine .map fun d hd => .bland ?_
    refine (((Bland.of_plain (h.varData d hd).member).append (.fixed rfl)).append ?_).append
      (.fixed rfl)
    split <;> exact .fixed rfl
  · exact .bland (((Bland.fixed rfl).append (.of_plain h.type)).append (.fixed rfl))
  · have hlength : Settled [s!"static readonly BLOCK_LENGTH = {b.layout.blockLength};"] :=
      .bland (((Bland.fixed rfl).append (.nat _)).append (.fixed rfl)) .nil
    have hconstants := hsettled (messageConstants l) fun m _ => settled_messageConstants l m
    have hentry := hsettled (messageEntry l b.type) fun m hm =>
      settled_messageEntry h.type hheader (hname m hm)
    exact (((((hlength.append hconstants).append hfields.constants).append hblank).append
      hentry).append (settled_encodeBody h hfields.encode)).append hblank

/-! ## Units -/

/-- What an element is written as has the code that it has without its texts. -/
theorem sameCode_elementLines (l : SchemaLayout) {e : NamedElement}
    (hheader : IsLine l.header.composite.typeName)
    (h : ∀ d ∈ e.description, ¬ ['*', '/'] <:+: d.toList)
    (hmessage : ∀ m b, e = .message m b → IsPlain m.name ∧ ∀ c ∈ b :: b.nested, c.IsSpelled
      ∧ ∀ d ∈ c.varData, ∀ encoding ∈ d.layout.characterEncoding, IsLine encoding) :
    Slashed.typeScript.SameCode (elementLines l e)
      (elementLines l.withoutTexts e.withoutTexts) := by
  cases e with
  | composite type c members =>
    simp only [elementLines, NamedElement.withoutTexts, compositeLines,
      CompositeLayout.withoutTexts, FieldCode.ofFields_withoutTexts, List.append_assoc]
    exact .of_alike (alike_documented h) (by simp)
  | enumeration type constant e values null =>
    simp only [elementLines, NamedElement.withoutTexts, enumLines, EnumLayout.withoutTexts,
      EnumLayout.width, List.append_assoc]
    exact .of_alike (alike_documented h) (by simp)
  | set type s choices =>
    simp only [elementLines, NamedElement.withoutTexts, setLines, SetLayout.withoutTexts,
      SetLayout.width, List.append_assoc]
    exact .of_alike (alike_documented h) (by simp)
  | message m b =>
    obtain ⟨hname, hbodies⟩ := hmessage m b rfl
    rw [List.forall_mem_cons] at hbodies
    obtain ⟨⟨hspelled, hencodings⟩, hnested⟩ := hbodies
    have hbody : Slashed.typeScript.AlikeLines (bodyLines l (some m) b)
        (bodyLines l.withoutTexts (some m.withoutTexts) b.withoutTexts) := by
      refine alike_bodyLines hspelled hheader ?_ ?_ hencodings
      · rintro _ ⟨⟩
        exact hname
      · rintro _ ⟨⟩
        exact h
    have hgroups : Slashed.typeScript.AlikeLines
        (b.nested.flatMap fun g => "" :: bodyLines l none g)
        (b.withoutTexts.nested.flatMap fun g => "" :: bodyLines l.withoutTexts none g) := by
      rw [b.nested_withoutTexts, List.flatMap_map]
      refine .flatMap fun g hg => .append (Settled.bland (.fixed rfl) .nil).alike ?_
      exact @alike_bodyLines l none g (hnested g hg).1 hheader (by simp) (by simp)
        (hnested g hg).2
    exact .of_alike (hbody.append hgroups) (by simp)

theorem leads_importLine {i : Import} (htype : IsPlain i.type) (hfile : IsPlain i.file) :
    Slashed.typeScript.Leads .code (importLine i) .code := by
  have hnames : Bland (if i.sort = .enumeration then i.type else s!"{i.type}, {i.type}Codec") := by
    split
    · exact .of_plain htype
    · exact (((Bland.of_plain htype).append (.fixed rfl)).append (.of_plain htype)).append
        (.fixed rfl)
  have hopen : Slashed.typeScript.Leads .code " \x7d from './" (.literal '\'') := .fixed rfl
  have hclose : Slashed.typeScript.Leads (.literal '\'') "';" .code := .fixed rfl
  exact (((Slashed.Leads.bland ((Bland.fixed rfl).append hnames)).append hopen).append
    (.plain_literal hfile (by decide))).append hclose

theorem sameCode_unitLines (l : SchemaLayout) {u : SourceUnit}
    (himports : ∀ i ∈ u.imports, IsPlain i.type ∧ IsPlain i.file)
    (h : Slashed.typeScript.SameCode (elementLines l u.element)
      (elementLines l.withoutTexts u.element.withoutTexts)) :
    Slashed.typeScript.SameCode (unitLines l u) (unitLines l.withoutTexts u.withoutTexts) := by
  have hbanner : Slashed.typeScript.Leads .code banner .line := .fixed rfl
  have himport : Settled (u.imports.map importLine) :=
    .map fun i hi => leads_importLine (himports i hi).1 (himports i hi).2
  have hblank : Settled [""] := .bland (.fixed rfl) .nil
  have hruntime : Settled ["", "import * as sbe from './runtime';"] :=
    .bland (.fixed rfl) (.cons (.fixed rfl) .nil)
  exact .append_left (.append (.append (.cons hbanner.alike_comment .rfl hruntime.alike)
    himport.alike) hblank.alike) h

end TypeScript

end SimpleBinary
