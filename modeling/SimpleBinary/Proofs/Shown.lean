import Mathlib
import SimpleBinary.Proofs.Exchange
import SimpleBinary.Proofs.Grammar
import SimpleBinary.Proofs.Naming

/-!
# What sources do not show

The sources of a message write the length of its own var-data right behind the groups, wherever the
schema puts it, and the Rust sources know of a text's encoding only that there is one.  So schemas
that differ in these alone have the same sources (`sourceFiles_shown`), while the codec follows the
schema.  Under two such schemas a value has the same bytes just if its var-data has
(`sources_eq_and_encodeBody_eq_iff`).
-/

namespace SimpleBinary

/-! ## What is left of a layout -/

/-- What the sources of a language show of a message's own var-data. -/
def VarDataLayout.shown (language : Language) (d : VarDataLayout) : VarDataLayout :=
  { name := d.name
    id := 0
    sinceVersion := 0
    typeName := ""
    length := { d.length with offset := 0 }
    characterEncoding :=
      if language = .rust then d.characterEncoding.map fun _ => "" else d.characterEncoding
    description := none }

def BodyLayout.shown (language : Language) (b : BodyLayout) : BodyLayout :=
  { b with varData := b.varData.map (·.shown language) }

def MessageLayout.shown (language : Language) (m : MessageLayout) : MessageLayout :=
  { m with
    sinceVersion := 0
    semanticType := none
    body := m.body.shown language }

def SchemaLayout.shown (language : Language) (l : SchemaLayout) : SchemaLayout :=
  { l with messages := l.messages.map (·.shown language) }

@[simp]
theorem VarDataLayout.isText_shown (language : Language) (d : VarDataLayout) :
    (d.shown language).isText = d.isText := by
  unfold VarDataLayout.isText VarDataLayout.shown
  split <;> simp

@[simp]
theorem BodyLayout.isFixed_shown (language : Language) (b : BodyLayout) :
    (b.shown language).isFixed = b.isFixed := by
  simp [BodyLayout.isFixed, BodyLayout.shown]

/-! ## Names -/

def NamedVarData.shown (language : Language) (d : NamedVarData) : NamedVarData :=
  { d with layout := d.layout.shown language }

def NamedBody.shown (language : Language) (b : NamedBody) : NamedBody :=
  { b with
    layout := b.layout.shown language
    varData := b.varData.map (·.shown language) }

def NamedElement.shown (language : Language) : NamedElement → NamedElement
  | .message m b => .message (m.shown language) (b.shown language)
  | e => e

def SourceUnit.shown (language : Language) (u : SourceUnit) : SourceUnit :=
  { u with element := u.element.shown language }

/-- A run over changed things gives what the run gives, changed likewise, if each step does. -/
theorem mapM_map_eq {ε α β : Type} {f : α → Except ε β} {g : α → α} {h : β → β}
    (hf : ∀ a, f (g a) = (f a).map h) : ∀ as : List α,
    (as.map g).mapM f = (as.mapM f).map (List.map h)
  | [] => rfl
  | a :: as => by
    rw [List.map_cons, List.mapM_cons, List.mapM_cons, hf, mapM_map_eq hf as]
    cases f a with
    | error e => rfl
    | ok b => cases as.mapM f <;> rfl

namespace Namer

variable (n : Namer) (language : Language)

theorem varData_shown (path : String) (d : VarDataLayout) :
    n.varData path (d.shown language) = (n.varData path d).map (·.shown language) := by
  unfold varData VarDataLayout.shown
  cases n.member d.name <;> rfl

theorem body_shown (type path : String) (b : BodyLayout) :
    n.body type path (b.shown language) = (n.body type path b).map (·.shown language) := by
  obtain ⟨blockLength, fields, groups, varData⟩ := b
  simp only [BodyLayout.shown, body]
  rw [mapM_map_eq (n.varData_shown language path)]
  cases fields.mapM n.field with
  | error e => rfl
  | ok namedFields =>
    cases groups.mapM fun g => n.groupHead g.name with
    | error e => rfl
    | ok heads =>
      cases varData.mapM (n.varData path) with
      | error e => rfl
      | ok namedData => cases n.groupBodies type path groups <;> rfl

theorem message_shown (m : MessageLayout) :
    n.message (m.shown language) = (n.message m).map (·.shown language) := by
  have hfields : (m.body.shown language).allFields = m.body.allFields := by
    obtain ⟨blockLength, fields, groups, varData⟩ := m.body
    simp only [BodyLayout.shown, BodyLayout.allFields]
  simp only [message, MessageLayout.shown, n.body_shown, hfields]
  cases n.type m.name with
  | error e => rfl
  | ok type =>
    simp only [ok_bind]
    cases n.body type m.name m.body with
    | error e => rfl
    | ok body =>
      cases n.imports m.body.allFields with
      | error e => rfl
      | ok imports => cases n.moduleName m.name <;> rfl

end Namer

/-! ## Texts -/

/-- Var-data that is shown is written like the var-data itself. -/
theorem flatMap_shown {language : Language} {f : NamedVarData → Lines}
    (hf : ∀ d, f (d.shown language) = f d) (ds : List NamedVarData) :
    (ds.map (·.shown language)).flatMap f = ds.flatMap f := by
  rw [List.flatMap_map]
  exact List.flatMap_congr fun d _ => hf d

theorem NamedBody.nested_shown (language : Language) (b : NamedBody) :
    (b.shown language).nested = b.nested := by
  obtain ⟨type, path, layout, fields, groups, varData⟩ := b
  simp only [NamedBody.shown, NamedBody.nested]

@[simp]
theorem NamedVarData.isText_shown (language : Language) (d : NamedVarData) :
    (d.shown language).layout.isText = d.layout.isText :=
  d.layout.isText_shown language

namespace Rust

theorem encodeVarData_shown (d : NamedVarData) :
    encodeVarData (d.shown .rust) = encodeVarData d := by
  simp only [encodeVarData, NamedVarData.isText_shown]
  rfl

theorem decodeVarData_shown (d : NamedVarData) :
    decodeVarData (d.shown .rust) = decodeVarData d := by
  simp only [decodeVarData, NamedVarData.isText_shown]
  rfl

theorem bodyLines_shown (schema : SchemaLayout) (m : MessageLayout) (b : NamedBody) :
    bodyLines (schema.shown .rust) (some (m.shown .rust)) (b.shown .rust)
      = bodyLines schema (some m) b := by
  have hencode := flatMap_shown encodeVarData_shown b.varData
  have hdecode := flatMap_shown decodeVarData_shown b.varData
  simp only [bodyLines, encodeBody, decodeBody, NamedBody.shown, hencode, hdecode, List.map_map,
    Function.comp_def, NamedVarData.isText_shown, BodyLayout.isFixed_shown]
  rfl

theorem messageLines_shown (schema : SchemaLayout) (m : MessageLayout) (b : NamedBody) :
    messageLines (schema.shown .rust) (m.shown .rust) (b.shown .rust)
      = messageLines schema m b := by
  rw [messageLines, messageLines, bodyLines_shown, NamedBody.nested_shown]
  rfl

theorem unitFile_shown (schema : SchemaLayout) (u : SourceUnit) :
    unitFile (schema.shown .rust) (u.shown .rust) = unitFile schema u := by
  obtain ⟨file, imports, element⟩ := u
  cases element with
  | message m b =>
    exact congrArg (fun lines => SourceFile.mk _ (joinLines (_ ++ lines)))
      (messageLines_shown schema m b)
  | _ => rfl

end Rust

namespace TypeScript

theorem encodeVarData_shown (d : NamedVarData) :
    encodeVarData (d.shown .typeScript) = encodeVarData d := by
  simp only [encodeVarData, NamedVarData.isText_shown]
  rfl

theorem decodeVarData_shown (d : NamedVarData) :
    decodeVarData (d.shown .typeScript) = decodeVarData d := rfl

theorem bodyLines_shown (schema : SchemaLayout) (m : MessageLayout) (b : NamedBody) :
    bodyLines (schema.shown .typeScript) (some (m.shown .typeScript)) (b.shown .typeScript)
      = bodyLines schema (some m) b := by
  have hencode := flatMap_shown encodeVarData_shown b.varData
  have hdecode := flatMap_shown decodeVarData_shown b.varData
  simp only [bodyLines, encodeBody, decodeBody, NamedBody.shown, hencode, hdecode, List.map_map,
    Function.comp_def, NamedVarData.isText_shown]
  rfl

theorem messageLines_shown (schema : SchemaLayout) (m : MessageLayout) (b : NamedBody) :
    messageLines (schema.shown .typeScript) (m.shown .typeScript) (b.shown .typeScript)
      = messageLines schema m b := by
  rw [messageLines, messageLines, bodyLines_shown, NamedBody.nested_shown]
  rfl

theorem unitFile_shown (schema : SchemaLayout) (u : SourceUnit) :
    unitFile (schema.shown .typeScript) (u.shown .typeScript) = unitFile schema u := by
  obtain ⟨file, imports, element⟩ := u
  cases element with
  | message m b =>
    exact congrArg (fun lines => SourceFile.mk _ (joinLines (_ ++ lines)))
      (messageLines_shown schema m b)
  | _ => rfl

end TypeScript

namespace Python

theorem encodeVarData_shown (d : NamedVarData) :
    encodeVarData (d.shown .python) = encodeVarData d := rfl

theorem decodeVarData_shown (d : NamedVarData) :
    decodeVarData (d.shown .python) = decodeVarData d := rfl

theorem bodyLines_shown (schema : SchemaLayout) (m : MessageLayout) (b : NamedBody) :
    bodyLines (schema.shown .python) (some (m.shown .python)) (b.shown .python)
      = bodyLines schema (some m) b := by
  have hencode := flatMap_shown encodeVarData_shown b.varData
  have hdecode := flatMap_shown decodeVarData_shown b.varData
  simp only [bodyLines, encodeBody, decodeBody, NamedBody.shown, hencode, hdecode, List.map_map,
    Function.comp_def, NamedVarData.isText_shown]
  rfl

theorem messageLines_shown (schema : SchemaLayout) (m : MessageLayout) (b : NamedBody) :
    messageLines (schema.shown .python) (m.shown .python) (b.shown .python)
      = messageLines schema m b := by
  rw [messageLines, messageLines, bodyLines_shown, NamedBody.nested_shown]
  rfl

theorem unitFile_shown (schema : SchemaLayout) (u : SourceUnit) :
    unitFile (schema.shown .python) (u.shown .python) = unitFile schema u := by
  obtain ⟨file, imports, element⟩ := u
  cases element with
  | message m b =>
    exact congrArg (fun lines => SourceFile.mk _ (joinLines (_ ++ lines)))
      (messageLines_shown schema m b)
  | _ => rfl

end Python

/-! ## Packages -/

theorem Language.unitFile_shown (language : Language) (schema : SchemaLayout) (u : SourceUnit) :
    language.dialect.unitFile (schema.shown language) (u.shown language)
      = language.dialect.unitFile schema u := by
  cases language with
  | rust => exact Rust.unitFile_shown schema u
  | typeScript => exact TypeScript.unitFile_shown schema u
  | python => exact Python.unitFile_shown schema u

theorem Language.indexFile_shown (language : Language) (schema : SchemaLayout)
    (files : List SourceFile) : language.dialect.indexFile (schema.shown language) files
      = language.dialect.indexFile schema files := by
  cases language <;> rfl

theorem Namer.typeUnit_shown {n : Namer} {t : TypeLayout} {u : SourceUnit}
    (h : n.typeUnit t = .ok u) (language : Language) : u.shown language = u := by
  cases t with
  | composite c =>
    obtain ⟨_, _, _, _, -, -, -, -, rfl⟩ := parts_of_composite h
    rfl
  | enumeration e =>
    obtain ⟨_, _, _, _, _, -, -, -, -, -, rfl⟩ := parts_of_enumeration h
    rfl
  | set s =>
    obtain ⟨_, _, _, -, -, -, rfl⟩ := parts_of_set h
    rfl

theorem SchemaLayout.sourceUnits_shown (l : SchemaLayout) (n : Namer) (language : Language) :
    (l.shown language).sourceUnits n
      = (l.sourceUnits n).map (List.map (·.shown language)) := by
  have htypes : (l.shown language).sourceTypes = l.sourceTypes := rfl
  rw [sourceUnits, sourceUnits, htypes]
  cases ht : l.sourceTypes.mapM n.typeUnit with
  | error e => rfl
  | ok types =>
    have hshown : types.map (·.shown language) = types := by
      refine (List.map_congr_left fun u hu => ?_).trans (List.map_id types)
      obtain ⟨t, -, ht⟩ := exists_of_mem_mapM ht hu
      exact Namer.typeUnit_shown ht language
    simp only [SchemaLayout.shown, mapM_map_eq (n.message_shown language), ok_bind]
    cases l.messages.mapM n.message with
    | error e => rfl
    | ok messages =>
      simp only [Except.map, ok_bind]
      rw [show (pure (types ++ messages) : Except NameError _) = .ok (types ++ messages) from rfl]
      simp only [List.map_append, hshown]
      rfl

/-- The files of a package show no more than is shown of its layout. -/
theorem SchemaLayout.sourceFiles_shown (l : SchemaLayout) (n : Namer) :
    (l.shown n.language).sourceFiles n = l.sourceFiles n := by
  rw [sourceFiles, sourceFiles, sourceUnits_shown]
  cases l.sourceUnits n with
  | error e => rfl
  | ok units =>
    simp only [Except.map, ok_bind, List.map_map, Function.comp_def,
      n.language.unitFile_shown l, n.language.indexFile_shown l]

/-! ## Bytes -/

theorem find?_of_firstStream? {name : String} {tokens : List Token} {streams : List (List Token)}
    {ms : List MessageLayout}
    (h : List.Forall₂ (fun tokens m => MessageLayout.ofTokens tokens = .ok m) streams ms)
    (hfound : firstStream? streams (fun t => t.name == name) = some tokens) :
    ∃ m, ms.find? (fun m => m.name == name) = some m ∧ MessageLayout.ofTokens tokens = .ok m := by
  induction h with
  | nil => simp [firstStream?] at hfound
  | @cons tokens' m _ _ hm _ ih =>
    obtain ⟨first, rest, rfl, hname, -⟩ := MessageLayout.exists_first_of_ofTokens hm
    rw [firstStream?, List.find?_cons] at hfound
    rw [List.find?_cons, hname]
    by_cases hfirst : first.name == name
    · simp only [List.head?_cons, Option.any_some, hfirst, Option.some.injEq] at hfound ⊢
      rw [← hfound]
      exact ⟨m, rfl, hm⟩
    · simp only [List.head?_cons, Option.any_some, hfirst] at hfound ⊢
      exact ih hfound

theorem MessageCodec.exists_tokens_of_ofName {s : Schema} {name : String} {c : MessageCodec}
    (h : MessageCodec.ofName s name = .ok c) : ∃ tokens, s.messageNamed? name = some tokens
      ∧ MessageLayout.ofTokens tokens = .ok c.message := by
  unfold ofName at h
  split at h
  · rename_i tokens htokens
    exact ⟨tokens, htokens, (of_ofTokens h).2.1⟩
  · simp at h

/-- The message that a codec is for is the first of its name in the schema's layout. -/
theorem find?_of_ofName {s : Schema} {l : SchemaLayout} {name : String} {c : MessageCodec}
    (hl : SchemaLayout.resolve s = .ok l) (hc : MessageCodec.ofName s name = .ok c) :
    l.messages.find? (fun m => m.name == name) = some c.message := by
  obtain ⟨header, -, hl⟩ := bind_eq_ok_iff.1 hl
  obtain ⟨types, -, hl⟩ := bind_eq_ok_iff.1 hl
  obtain ⟨messages, hmessages, hl⟩ := bind_eq_ok_iff.1 hl
  cases hl
  have hlaid : List.Forall₂ (fun tokens m => MessageLayout.ofTokens tokens = .ok m)
      s.messages messages := by
    refine (mapM_eq_ok_iff.1 hmessages).imp fun tokens m h => ?_
    obtain ⟨m', hm', h⟩ := bind_eq_ok_iff.1 h
    obtain ⟨-, -, h⟩ := bind_eq_ok_iff.1 h
    cases h
    exact hm'
  obtain ⟨tokens, htokens, hmessage⟩ := MessageCodec.exists_tokens_of_ofName hc
  obtain ⟨m, hm, hm'⟩ := find?_of_firstStream? hlaid htokens
  rw [hmessage] at hm'
  rw [hm, Except.ok.inj hm']

/-- The bytes of a body end with those of its var-data. -/
theorem BodyLayout.image?_eq_bind (b : BodyLayout) (v : Value) :
    b.image? v = (BodyLayout.image? { b with varData := [] } v).bind fun front =>
      (varDataImage? v b.varData).map (front ++ ·) := by
  obtain ⟨blockLength, fields, groups, varData⟩ := b
  simp only [BodyLayout.image?]
  split
  · cases fieldsImage? 0 v fields with
    | none => rfl
    | some block =>
      cases groupsImage? groups v with
      | none => rfl
      | some elements =>
        cases varDataImage? v varData with
        | none => rfl
        | some data => simp [varDataImage?, concat?]
  · rfl

theorem MessageCodec.toOption_encodeBody {c : MessageCodec} (h : c.message.body.Laid) (v : Value) :
    (c.encodeBody v).toOption = c.message.body.image? v := by
  rw [encodeBody, BodyLayout.toOption_encode h]
  simp

section Pair

variable {s s' : Schema} {l l' : SchemaLayout} {language : Language}

/-- Of messages of one name in schemas of which the same is shown, the same is shown. -/
theorem shown_eq_of_ofName {name : String} {c c' : MessageCodec}
    (hl : SchemaLayout.resolve s = .ok l) (hl' : SchemaLayout.resolve s' = .ok l')
    (hshown : l.shown language = l'.shown language) (hc : MessageCodec.ofName s name = .ok c)
    (hc' : MessageCodec.ofName s' name = .ok c') :
    c.message.shown language = c'.message.shown language := by
  have hfind : ∀ ms : List MessageLayout,
      (ms.map (·.shown language)).find? (fun m => m.name == name)
        = (ms.find? fun m => m.name == name).map (·.shown language) :=
    fun ms => List.find?_map
  have hmessages : l.messages.map (·.shown language) = l'.messages.map (·.shown language) :=
    congrArg SchemaLayout.messages hshown
  have h := hfind l.messages
  rw [hmessages, hfind, find?_of_ofName hl hc, find?_of_ofName hl' hc'] at h
  exact (Option.some.inj h).symm

/-- Schemas of which the sources of a language show the same have the same sources.  Under two such
schemas a value is encoded to the same bytes, or to none, just if its var-data has the same bytes
or what is in front of it has none. -/
theorem sources_eq_and_encodeBody_eq_iff (config : SourceConfig)
    (hl : SchemaLayout.resolve s = .ok l) (hl' : SchemaLayout.resolve s' = .ok l')
    (hshown : l.shown config.language = l'.shown config.language) :
    s.sources config = s'.sources config
      ∧ ∀ name c c', MessageCodec.ofName s name = .ok c → MessageCodec.ofName s' name = .ok c' →
        ∀ v, (c.encodeBody v).toOption = (c'.encodeBody v).toOption
          ↔ BodyLayout.image? { c.message.body with varData := [] } v = none
            ∨ varDataImage? v c.message.body.varData
              = varDataImage? v c'.message.body.varData := by
  constructor
  · have hfiles : l.sourceFiles config.namer = l'.sourceFiles config.namer := by
      rw [← l.sourceFiles_shown config.namer, ← l'.sourceFiles_shown config.namer]
      exact congrArg (·.sourceFiles config.namer) hshown
    rw [Schema.sources, Schema.sources, hl, hl']
    simp only [Except.mapError, ok_bind, hfiles]
  · intro name c c' hc hc' v
    have hbody : c.message.body.shown config.language = c'.message.body.shown config.language :=
      congrArg MessageLayout.body (shown_eq_of_ofName hl hl' hshown hc hc')
    have hfront : ({ c.message.body with varData := [] } : BodyLayout)
        = { c'.message.body with varData := [] } :=
      congrArg (fun b : BodyLayout => { b with varData := [] }) hbody
    obtain ⟨tokens, -, hm⟩ := MessageCodec.exists_tokens_of_ofName hc
    obtain ⟨tokens', -, hm'⟩ := MessageCodec.exists_tokens_of_ofName hc'
    rw [MessageCodec.toOption_encodeBody (MessageLayout.laid_of_ofTokens hm),
      MessageCodec.toOption_encodeBody (MessageLayout.laid_of_ofTokens hm'),
      BodyLayout.image?_eq_bind, BodyLayout.image?_eq_bind c'.message.body, ← hfront]
    cases BodyLayout.image? { c.message.body with varData := [] } v with
    | none => simp
    | some front =>
      simp only [Option.bind_some, reduceCtorEq, false_or]
      exact (Option.map_injective (List.append_right_injective front)).eq_iff

end Pair

namespace Notes

def headerTokens : List Token :=
  Orders.around .composite "messageHeader" 0 {}
    [{ signal := .encoding, name := "blockLength", encoding := Orders.encoding .uint8 },
     { signal := .encoding, name := "templateId", encoding := Orders.encoding .uint8 },
     { signal := .encoding, name := "schemaId", encoding := Orders.encoding .uint8 },
     { signal := .encoding, name := "version", encoding := Orders.encoding .uint8 }]

/-- A schema of the message with the length of its var-data at a place. -/
def schema (place : Nat) : Schema where
  id := 1
  version := 0
  header := headerTokens
  messages := [tokensWith place []]

theorem ofTokens_tokensWith (place : Nat) :
    MessageLayout.ofTokens (tokensWith place []) = .ok (message place) := by
  have hs : splitBody (tokensWith place []) ⟨1, 7⟩ = .ok ⟨[], [], [⟨1, 7⟩]⟩ := by cbv
  have hb : bodyAt (tokensWith place []) ⟨1, 7⟩ 0 "Note" = .ok (message place).body :=
    (bodyAt_of_spans hs (by cbv) rfl (by cbv)).trans (by cbv)
  have hw : wholeSpan (tokensWith place []) .message = .ok ⟨0, 8⟩ := by cbv
  have ht : tokenAt (tokensWith place []) 0 = .ok {
      signal := .opens .message, name := "Note", componentTokenCount := 8 } := rfl
  rw [MessageLayout.ofTokens, hw, ok_bind, ht, ok_bind, show Span.inner ⟨0, 8⟩ = ⟨1, 7⟩ from rfl,
    hb]
  rfl

theorem exists_resolve : ∃ header : HeaderLayout, HeaderLayout.ofTokens headerTokens = .ok header
    ∧ ∀ place, SchemaLayout.resolve (schema place)
      = .ok ⟨none, 1, 0, .littleEndian, header, [], [message place]⟩ := by
  have hm : members headerTokens ⟨1, 5⟩ = .ok [⟨1, 2⟩, ⟨2, 3⟩, ⟨3, 4⟩, ⟨4, 5⟩] := by cbv
  have hw : wholeSpan headerTokens .composite = .ok ⟨0, 6⟩ := by cbv
  obtain ⟨header, hheader⟩ : ∃ header, HeaderLayout.ofTokens headerTokens = .ok header := by
    rw [HeaderLayout.ofTokens, CompositeLayout.ofTokens, hw, ok_bind,
      compositeAt_of_members (s := ⟨0, 6⟩) rfl hm (by cbv)]
    exact ⟨_, rfl⟩
  refine ⟨header, hheader, fun place => ?_⟩
  rw [SchemaLayout.resolve, schema, hheader]
  simp only [ok_bind, List.mapM_cons, List.mapM_nil, ofTokens_tokensWith]
  rfl

/-- A message of one byte. -/
def note : Value := .object "Note" [("text", .bytes [1])]

/-- The codec of the message. -/
def codec (header : HeaderLayout) (place : Nat) : MessageCodec := ⟨header, message place, 1, 0⟩

/-- Wherever the length is put, the sources are the same, and the bytes are not. -/
theorem sources_eq_encodeBody_ne :
    (schema 0).sources ⟨.rust, ⟨none⟩, none⟩ = (schema 4).sources ⟨.rust, ⟨none⟩, none⟩
      ∧ ∃ c c', MessageCodec.ofName (schema 0) "Note" = .ok c
        ∧ MessageCodec.ofName (schema 4) "Note" = .ok c'
        ∧ (c.encodeBody note).toOption ≠ (c'.encodeBody note).toOption := by
  obtain ⟨header, hheader, hresolve⟩ := exists_resolve
  have hcodec : ∀ place, MessageCodec.ofName (schema place) "Note" = .ok (codec header place) := by
    intro place
    have hfound : (schema place).messageNamed? "Note" = some (tokensWith place []) := rfl
    rw [MessageCodec.ofName, hfound]
    simp only [MessageCodec.ofTokens, ofTokens_tokensWith, schema, hheader, ok_bind]
    rfl
  obtain ⟨hsources, hbytes⟩ := sources_eq_and_encodeBody_eq_iff ⟨.rust, ⟨none⟩, none⟩
    (hresolve 0) (hresolve 4) rfl
  refine ⟨hsources, _, _, hcodec 0, hcodec 4, fun heq => ?_⟩
  have hfront : BodyLayout.image? ⟨0, [], [], []⟩ note ≠ none := by decide
  have hdata : varDataImage? note [text 0] ≠ varDataImage? note [text 4] := by decide
  rcases (hbytes "Note" _ _ (hcodec 0) (hcodec 4) note).1 heq with h | h
  · exact hfront h
  · exact hdata h

end Notes

end SimpleBinary
