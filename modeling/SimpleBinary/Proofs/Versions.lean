import Mathlib
import SimpleBinary.Proofs.Versions.Steps

/-!
# Readers of other versions

A newer layout lists the fields of an older one and more of them behind, in every block
(`BodyLayout.Extends`).  A reader of the older layout then sees of any bytes what a reader of the newer
one sees, without the extra fields; and of what the older writes the newer sees the same, with the
constants among the extra fields, if the others end beyond the older block
(`MessageCodec.decodeBody_of_extends`).
-/

namespace SimpleBinary

/-! ## Older and newer layouts -/

/-- The value of a field that is the same in every message. -/
def FieldKind.constant? : FieldKind → Option Value
  | .primitive p => p.constant?.map .ofLiteral
  | _ => none

/-- Puts the constants among fields, on top of `acc`. -/
def putConstants (acc : Fields) : List FieldLayout → Fields
  | [] => acc
  | ⟨name, _, _, _, _, kind⟩ :: fields => putConstants (addField name kind.constant? acc) fields

namespace BodyLayout

/-- The fields of a newer block behind those of the older. -/
def extra (newer older : BodyLayout) : List FieldLayout := newer.fields.drop older.fields.length

/-- A newer body lists the fields of the older first, and has its groups and var-data. -/
structure Covers (newer older : BodyLayout) : Prop where
  fields : List.Forall₂ FieldLayout.Same (newer.fields.take older.fields.length) older.fields
  groups : List.Forall₂ GroupLayout.Same newer.groups older.groups
  varData : List.Forall₂ VarDataLayout.Same newer.varData older.varData

/-- A newer body covers the older, and the bodies of its groups cover those of the older's. -/
def Extends (newer older : BodyLayout) : Prop := newer.AtEveryLevel Covers older

/-- In every block, the extra fields that are not constants end beyond the older block. -/
def ExtraBeyond (newer older : BodyLayout) : Prop :=
  newer.AtEveryLevel (fun newer older =>
    ∀ f ∈ newer.extra older, f.isConstant ∨ older.blockLength < f.stop) older

def dropExtra (newer older : BodyLayout) (fs : Fields) : Fields :=
  fs.filter fun f => f.1 ∉ (newer.extra older).map (·.name)

def addConstants (older newer : BodyLayout) (fs : Fields) : Fields :=
  putConstants fs (newer.extra older)

/-- A newer value without the extra fields, at every level. -/
def withoutExtra (newer older : BodyLayout) : Value → Value := newer.mapLevels dropExtra older

/-- An older value with the constants among the extra fields, at every level. -/
def withExtraConstants (older newer : BodyLayout) : Value → Value :=
  older.mapLevels addConstants newer

end BodyLayout

theorem BodyLayout.lookup_dropExtra (newer older : BodyLayout) (fs : Fields) (n : String) :
    (newer.dropExtra older fs).lookup n
      = if n ∈ (newer.extra older).map (·.name) then none else fs.lookup n := by
  rw [dropExtra, lookup_filter_fields fun n => decide (n ∉ (newer.extra older).map (·.name))]
  by_cases hn : n ∈ (newer.extra older).map (·.name) <;> simp only [hn, not_true, not_false_iff,
    decide_true, decide_false, if_true, if_false, reduceCtorEq]

theorem lookup_putConstants_of_notMem {n : String} : ∀ {fields : List FieldLayout} {acc : Fields},
    n ∉ fields.map (·.name) → (putConstants acc fields).lookup n = acc.lookup n
  | [], _, _ => rfl
  | ⟨name, _, _, _, _, kind⟩ :: fields, acc, hn => by
    rw [List.map_cons, List.mem_cons, not_or] at hn
    rw [putConstants, lookup_putConstants_of_notMem hn.2, lookup_addField_of_ne hn.1]

theorem fieldwise_putConstants : ∀ fields : List FieldLayout,
    Fieldwise fun acc => putConstants acc fields
  | [] => ⟨fun h => h, fun h => h⟩
  | ⟨name, _, _, _, _, kind⟩ :: fields => by
    have ih := fieldwise_putConstants fields
    refine ⟨fun h => ih.ordered h.addField, fun {fs fs' n} h => ih.lookup_congr ?_⟩
    cases kind.constant? with
    | none => exact h
    | some v => simp only [addField, lookup_insertField, h]

theorem FieldKind.value?_constant {k : FieldKind} (hk : k.Laid) (hc : k.isConstant) (bs : Bytes) :
    k.value? bs = some k.constant? := by
  cases k with
  | primitive p =>
    rw [FieldKind.Laid] at hk
    have hne : p.constant? ≠ none := fun h => (PrimitiveLayout.constant?_eq_none_iff hk).1 h hc
    obtain ⟨l, hl⟩ := Option.ne_none_iff_exists'.1 hne
    rw [FieldKind.value?, PrimitiveLayout.value?, FieldKind.constant?, hl]
    rfl
  | composite c => simp [FieldKind.isConstant] at hc
  | enumeration e => simp [FieldKind.isConstant] at hc
  | set s => simp [FieldKind.isConstant] at hc

theorem FieldKind.constant?_of_not {k : FieldKind} (hc : ¬k.isConstant) : k.constant? = none := by
  cases k with
  | primitive p => rw [FieldKind.constant?, PrimitiveLayout.constant?_of_not hc]; rfl
  | _ => rfl

/-- Of fields that end beyond the block only the constants are read. -/
theorem fieldsValue?_of_beyond {limit : Nat} {block : Bytes} : ∀ {fields : List FieldLayout}
    {acc : Fields}, (∀ f ∈ fields, f.kind.Laid) → (∀ f ∈ fields, f.isConstant ∨ limit < f.stop) →
    fieldsValue? (some limit) block acc fields = some (putConstants acc fields)
  | [], _, _, _ => by rw [fieldsValue?, putConstants]
  | ⟨name, id, since, offset, description, kind⟩ :: fields, acc, hl, hb => by
    obtain ⟨hkind, hl⟩ := List.forall_mem_cons.1 hl
    obtain ⟨hstop, hb⟩ := List.forall_mem_cons.1 hb
    rw [fieldsValue?, putConstants]
    by_cases hc : kind.isConstant
    · rw [if_pos (isWithin_iff.2 (.inl hc)), FieldKind.value?_constant hkind hc]
      exact fieldsValue?_of_beyond hl hb
    · have hlt : limit < offset + kind.width := hstop.resolve_left hc
      have hnot : ¬kind.isWithin (some limit) offset := fun h => by
        have := (isWithin_iff.1 h).resolve_left hc limit rfl
        omega
      rw [if_neg hnot, FieldKind.constant?_of_not hc]
      exact fieldsValue?_of_beyond hl hb

namespace BodyLayout.Covers

variable {newer older : BodyLayout}

theorem fieldsValue?_eq (h : newer.Covers older) (limit : Option Nat) (block : Bytes)
    (acc : Fields) : fieldsValue? limit block acc newer.fields
      = (fieldsValue? limit block acc older.fields).bind fun acc =>
        fieldsValue? limit block acc (newer.extra older) := by
  rw [← fieldsValue?_congr h.fields, ← fieldsValue?_append, BodyLayout.extra,
    List.take_append_drop]

theorem names_eq (h : newer.Covers older) : newer.fields.map (·.name)
    = older.fields.map (·.name) ++ (newer.extra older).map (·.name) := by
  rw [← map_eq_of_forall₂ (f := FieldLayout.name) (fun h => h.1) h.fields, ← List.map_append,
    BodyLayout.extra, List.take_append_drop]

/-- No extra field has the name of an older field, of a group or of var-data. -/
theorem notMem_extra (h : newer.Covers older) (hd : newer.Distinct) {n : String}
    (hn : n ∈ older.fields.map (·.name)
      ∨ n ∈ newer.groups.map (·.name) ++ newer.varData.map (·.name)) :
    n ∉ (newer.extra older).map (·.name) := by
  rw [BodyLayout.Distinct, BodyLayout.names_elements, h.names_eq, List.nodup_append] at hd
  obtain ⟨hfields, -, hbehind⟩ := hd
  rcases hn with hn | hn
  · exact fun he => (List.nodup_append.1 hfields).2.2 n hn n he rfl
  · exact fun he => hbehind n (List.mem_append_right _ he) n hn rfl

/-- An older reader leaves out the extra fields that a newer one reads. -/
theorem converts_dropExtra (h : newer.Covers older) (hd : newer.Distinct)
    {P : BodyLayout → Nat → Prop} : Converts dropExtra P newer older where
  fields := by
    intro blockLength block acc _ hacc
    rw [h.fieldsValue?_eq] at hacc
    obtain ⟨acc', hacc', hextra⟩ := Option.bind_eq_some_iff.1 hacc
    refine ⟨acc', hacc', fun n => ?_⟩
    rw [lookup_dropExtra]
    split
    · rename_i hn
      exact lookup_fieldsValue? hacc' fun hm => h.notMem_extra hd (.inl hm) hn
    · rename_i hn
      exact (lookup_fieldsValue? hextra hn).symm
  groups := h.groups
  varData := h.varData
  distinct := by
    rw [BodyLayout.Distinct, BodyLayout.names_elements] at hd
    exact (List.nodup_append.1 hd).2.1
  fieldwise := by
    refine ⟨fun h => List.Pairwise.filter _ h, fun {fs fs' n} h => ?_⟩
    rw [lookup_dropExtra, lookup_dropExtra, h]
  kept n hn fs := by
    rw [lookup_dropExtra, if_neg (h.notMem_extra hd (.inr hn))]

/-- A newer reader of an older block reads the constants besides. -/
theorem converts_addConstants (h : newer.Covers older) (hd : newer.Distinct)
    (hl : ∀ f ∈ newer.fields, f.kind.Laid)
    (hb : ∀ f ∈ newer.extra older, f.isConstant ∨ older.blockLength < f.stop) :
    Converts addConstants (fun b length => length = b.blockLength) older newer where
  fields := by
    rintro blockLength block acc rfl hacc
    refine ⟨addConstants older newer acc, ?_, fun n => rfl⟩
    rw [h.fieldsValue?_eq, hacc, Option.bind_some]
    exact fieldsValue?_of_beyond (fun f hf => hl f (List.mem_of_mem_drop hf)) hb
  groups := List.Forall₂.flip (h.groups.imp fun _ _ h => ⟨h.1.symm, h.2.symm⟩)
  varData := List.Forall₂.flip (h.varData.imp fun _ _ h => ⟨h.1.symm, h.2.1.symm, h.2.2.symm⟩)
  distinct := by
    rw [BodyLayout.Distinct, BodyLayout.names_elements] at hd
    rw [← map_eq_of_forall₂ (f := GroupLayout.name) (fun h => h.1) h.groups,
      ← map_eq_of_forall₂ (f := VarDataLayout.name) (fun h => h.1) h.varData]
    exact (List.nodup_append.1 hd).2.1
  fieldwise := fieldwise_putConstants _
  kept n hn fs := by
    rw [← map_eq_of_forall₂ (f := GroupLayout.name) (fun h => h.1) h.groups,
      ← map_eq_of_forall₂ (f := VarDataLayout.name) (fun h => h.1) h.varData] at hn
    exact lookup_putConstants_of_notMem (h.notMem_extra hd (.inr hn))

end BodyLayout.Covers

/-! ## The encoder's own headers -/

/-- A group's header that is read at all is read as it was written. -/
theorem DimensionLayout.eq_of_parse?_image? {d : DimensionLayout} (hd : d.Laid)
    {blockLength count : Nat} {header : Bytes} (h : d.image? blockLength count = some header)
    {trailerLength : Nat} {rest rest' : Bytes} {header' : GroupHeader}
    (hp : d.parse? trailerLength (header ++ rest) = some (header', rest')) :
    header' = ⟨blockLength, count⟩ ∧ rest' = rest := by
  obtain ⟨hlength, hcount, hrest⟩ := value?_of_parse? hp
  obtain ⟨hlength', hcount'⟩ := value?_image? hd (HeaderSlot.isInteger_of_value? hlength)
    (HeaderSlot.isInteger_of_value? hcount) h rest
  rw [hlength] at hlength'
  rw [hcount] at hcount'
  obtain ⟨length', count'⟩ := header'
  cases hlength'
  cases hcount'
  exact ⟨rfl, by rw [hrest, List.drop_left' (length_image? hd h)]⟩

theorem isInteger_of_parseVarData? : ∀ {ds : List VarDataLayout} {acc acc' : Fields}
    {bs rest : Bytes}, parseVarData? ds acc bs = some (acc', rest) →
    ∀ d ∈ ds, d.length.primitive.IsInteger
  | [], _, _, _, _, _, _, hd => absurd hd List.not_mem_nil
  | d :: ds, acc, acc', bs, rest, h, e, he => by
    rw [parseVarData?] at h
    obtain ⟨⟨x, rest'⟩, hx, h⟩ := Option.bind_eq_some_iff.1 h
    rcases List.mem_cons.1 he with rfl | he
    · rw [VarDataLayout.parse?, Option.ite_none_left_eq_some] at hx
      obtain ⟨length, hl, -⟩ := Option.bind_eq_some_iff.1 hx.2
      exact HeaderSlot.isInteger_of_value? hl
    · exact isInteger_of_parseVarData? h e he

theorem rest_eq_of_parseVarData?_image? {v : Value} {ds : List VarDataLayout} {w : Bytes}
    (h : varDataImage? v ds = some w) {acc acc' : Fields} {post rest : Bytes}
    (hp : parseVarData? ds acc (w ++ post) = some (acc', rest)) : rest = post := by
  rw [parseVarData?_image? (isInteger_of_parseVarData? hp) h] at hp
  obtain ⟨seen, -, hp⟩ := Option.map_eq_some_iff.1 hp
  cases hp
  rfl

theorem itemsPass_of_concat? {f : Value → Option Bytes} {pass : Bytes → Prop}
    {parse : Bytes → Option (Value × Bytes)}
    (h : ∀ {v : Value} {w : Bytes}, f v = some w → ∀ {post x rest},
      parse (w ++ post) = some (x, rest) → rest = post ∧ pass (w ++ post)) :
    ∀ {vs : List Value} {w : Bytes}, concat? f vs = some w → ∀ {post rest : Bytes} {xs},
    parseItems? parse vs.length (w ++ post) = some (xs, rest) →
    rest = post ∧ itemsPass pass parse vs.length (w ++ post)
  | [], _, hw, _, _, _, hp => by
    cases hw
    cases hp
    exact ⟨rfl, trivial⟩
  | v :: vs, w, hw, post, rest, xs, hp => by
    obtain ⟨bs, ws, hb, hws, rfl⟩ := concat?_cons_eq_some_iff.1 hw
    rw [List.append_assoc] at hp ⊢
    rw [List.length_cons, parseItems?] at hp
    obtain ⟨⟨x, rest'⟩, hx, hp⟩ := Option.bind_eq_some_iff.1 hp
    obtain ⟨⟨xs', rest''⟩, hxs, hp⟩ := Option.bind_eq_some_iff.1 hp
    cases hp
    obtain ⟨rfl, hpass⟩ := h hb hx
    obtain ⟨hrest, hitems⟩ := itemsPass_of_concat? h hws hxs
    refine ⟨hrest, hpass, fun y rest₂ hy => ?_⟩
    rw [(h hb hy).1]
    exact hitems

mutual

/-- In the bytes of a value that can be read, every header gives the layout's own block length. -/
theorem BodyLayout.meets_image? : ∀ {b : BodyLayout}, b.Laid → ∀ {v : Value} {w : Bytes},
    b.image? v = some w → ∀ {name : String} {post rest : Bytes} {x : Value},
    b.parse? b.blockLength name (w ++ post) = some (x, rest) →
    rest = post ∧ b.Meets (fun b length => length = b.blockLength) b.blockLength (w ++ post)
  | ⟨blockLength, fields, groups, varData⟩, hb, v, w, h, name, post, rest, x, hp => by
    rw [BodyLayout.Laid] at hb
    obtain ⟨-, block, elements, data, hf, hg, hd, rfl⟩ := BodyLayout.image?_eq_some_iff.1 h
    have hblock := length_padTo_fieldsImage? hb.1 hf
    obtain ⟨-, acc₁, acc₂, acc₃, rest₂, -, h₂, h₃, rfl⟩ := BodyLayout.parse?_eq_some_iff.1 hp
    simp only [List.append_assoc] at h₂ ⊢
    rw [List.drop_left' hblock] at h₂
    obtain ⟨rfl, hmeets⟩ := groupsMeet_image? hb.2 hg h₂
    rw [BodyLayout.Meets, List.drop_left' hblock]
    exact ⟨rest_eq_of_parseVarData?_image? hd h₃, hmeets⟩

theorem groupsMeet_image? {v : Value} : ∀ {groups : List GroupLayout}, groupsLaid groups →
    ∀ {w : Bytes}, groupsImage? groups v = some w → ∀ {acc acc' : Fields} {post rest : Bytes},
    parseGroups? groups acc (w ++ post) = some (acc', rest) →
    rest = post ∧ groupsMeet (fun b length => length = b.blockLength) groups (w ++ post)
  | [], _, w, h, acc, acc', post, rest, hp => by
    rw [groupsImage?] at h
    cases h
    rw [parseGroups?] at hp
    cases hp
    exact ⟨rfl, by rw [groupsMeet]; trivial⟩
  | ⟨name, _, _, dimension, body, _⟩ :: groups, hg, w, h, acc, acc', post, rest, hp => by
    rw [groupsLaid] at hg
    obtain ⟨given, header, items, others, -, hh, hi, ho, rfl⟩ := groupsImage?_cons_eq_some_iff.1 h
    simp only [List.append_assoc] at hp ⊢
    obtain ⟨header', rest₁, elements, rest₂, hheader, hitems, hp⟩ :=
      parseGroups?_cons_eq_some_iff.1 hp
    obtain ⟨rfl, rfl⟩ := DimensionLayout.eq_of_parse?_image? hg.1 hh hheader
    obtain ⟨rfl, hpass⟩ := itemsPass_of_concat? (fun hv _ _ _ hx =>
      BodyLayout.meets_image? hg.2.1 hv hx) hi hitems
    obtain ⟨hrest, hmeets⟩ := groupsMeet_image? hg.2.2 ho hp
    rw [groupsMeet]
    refine ⟨hrest, fun header'' rest₃ hheader' => ?_⟩
    obtain ⟨rfl, rfl⟩ := DimensionLayout.eq_of_parse?_image? hg.1 hh hheader'
    refine ⟨rfl, hpass, fun elements' rest₄ hitems' => ?_⟩
    rw [hitems] at hitems'
    cases hitems'
    exact hmeets

end

/-! ## Messages -/

theorem itemsPass_of_forall {pass : Bytes → Prop} {parse : Bytes → Option (Value × Bytes)}
    (h : ∀ bs, pass bs) : ∀ {count : Nat} {bs : Bytes}, itemsPass pass parse count bs
  | 0, _ => trivial
  | _ + 1, bs => ⟨h bs, fun _ _ _ => itemsPass_of_forall h⟩

mutual

theorem BodyLayout.meets_of_forall {P : BodyLayout → Nat → Prop} (hP : ∀ b length, P b length) :
    ∀ {b : BodyLayout} {blockLength : Nat} {bs : Bytes}, b.Meets P blockLength bs
  | ⟨_, _, groups, _⟩, _, _ => by
    rw [BodyLayout.Meets]
    exact groupsMeet_of_forall hP

theorem groupsMeet_of_forall {P : BodyLayout → Nat → Prop} (hP : ∀ b length, P b length) :
    ∀ {groups : List GroupLayout} {bs : Bytes}, groupsMeet P groups bs
  | [], _ => by rw [groupsMeet]; trivial
  | ⟨_, _, _, _, body, _⟩ :: groups, bs => by
    rw [groupsMeet]
    exact fun header rest _ => ⟨hP body _, itemsPass_of_forall fun _ =>
      BodyLayout.meets_of_forall hP, fun _ _ _ => groupsMeet_of_forall hP⟩

end

/-- An older reader sees of any bytes what a newer one sees, without the extra fields; and a newer
reader sees of what the older writes what the older sees, and the extra constants, if no other extra
field fits in the older blocks. -/
theorem MessageCodec.decodeBody_of_extends {newer older : MessageCodec}
    {tokens tokens' : List Token} (hn : MessageLayout.ofTokens tokens = .ok newer.message)
    (ho : MessageLayout.ofTokens tokens' = .ok older.message)
    (hname : newer.message.name = older.message.name)
    (he : newer.message.body.Extends older.message.body)
    (hd : ∀ b ∈ newer.message.body.bodies, b.Distinct) :
    (∀ bs blockLength v, newer.decodeBody bs blockLength = .ok v →
      older.decodeBody bs blockLength
        = .ok (newer.message.body.withoutExtra older.message.body v))
    ∧ (newer.message.body.ExtraBeyond older.message.body → ∀ u bs w, older.encodeBody u = .ok bs →
      older.decodeBody bs older.message.body.blockLength = .ok w →
      newer.decodeBody bs older.message.body.blockLength
        = .ok (older.message.body.withExtraConstants newer.message.body w)) := by
  have hlaid := MessageLayout.laid_of_ofTokens hn
  have hlaid' := MessageLayout.laid_of_ofTokens ho
  refine ⟨fun bs blockLength v hv => ?_, fun hb u bs w hbs hw => ?_⟩
  · obtain ⟨rest, hv⟩ := (decodeBody_eq_ok_iff hlaid).1 hv
    have hconverts : newer.message.body.AtEveryLevel
        (Converts BodyLayout.dropExtra fun _ _ => True) older.message.body :=
      he.imp fun c hc c' h => h.converts_dropExtra (hd c hc)
    rw [hname] at hv
    exact (decodeBody_eq_ok_iff hlaid').2 ⟨rest, BodyLayout.parse?_mapLevels hconverts trivial
      (BodyLayout.meets_of_forall fun _ _ => trivial) hv⟩
  · obtain ⟨rest, hw⟩ := (decodeBody_eq_ok_iff hlaid').1 hw
    have himage := (encodeBody_eq_ok_iff hlaid').1 hbs
    have hmeets := BodyLayout.meets_image? hlaid' himage (by rwa [List.append_nil bs])
    have hconverts : older.message.body.AtEveryLevel
        (Converts BodyLayout.addConstants fun b length => length = b.blockLength)
        newer.message.body :=
      BodyLayout.AtEveryLevel.symm ((he.and hb).imp fun c hc c' h =>
        h.1.converts_addConstants (hd c hc)
          (BodyLayout.kind_laid (BodyLayout.laid_of_mem_bodies hlaid c hc)) h.2)
    rw [List.append_nil] at hmeets
    rw [← hname] at hw
    exact (decodeBody_eq_ok_iff hlaid).2 ⟨rest, BodyLayout.parse?_mapLevels hconverts rfl hmeets.2 hw⟩

namespace Orders

/-- A message with a venue and a constant tier besides, and a fee in each fill. -/
def newerTokens : List Token :=
  tokensWith 6
    (around .field "venue" 0 {} [{ signal := .encoding, name := "uint8", encoding := encoding .uint8 }]
      ++ around .field "tier" 0 {}
        [{ signal := .encoding, name := "uint8", encoding := byteEncoding 3 }])
    2 (around .field "fee" 0 {} [{ signal := .encoding, name := "int8", encoding := encoding .int8 }])

def newerFills : GroupLayout :=
  { fills with body := ⟨2, [⟨"quantity", -1, 0, 0, none, .primitive quantity⟩,
    ⟨"fee", -1, 0, 1, none, .primitive ⟨.int8, .littleEndian, 1, .required, none, .int (-128), none⟩⟩],
    [], []⟩ }

def newerMessage : MessageLayout :=
  { message with body := {
      blockLength := 6
      fields := [⟨"symbol", -1, 0, 0, none, .primitive symbol⟩,
        ⟨"side", -1, 0, 4, none, .enumeration side⟩, ⟨"lot", -1, 0, 5, none, .primitive lot⟩,
        ⟨"venue", -1, 0, 5, none,
          .primitive ⟨.uint8, .littleEndian, 1, .required, none, .uint 255, none⟩⟩,
        ⟨"tier", -1, 0, 6, none,
          .primitive ⟨.uint8, .littleEndian, 1, .constant, some (.uint 3), .uint 255, none⟩⟩]
      groups := [newerFills]
      varData := [note] } }

theorem groupAt_newerTokens : groupAt newerTokens ⟨19, 31⟩ = .ok newerFills := by
  have hm : members newerTokens ⟨21, 23⟩ = .ok [⟨21, 22⟩, ⟨22, 23⟩] := by cbv
  have hdim : dimensionAt newerTokens ⟨20, 24⟩ = .ok fills.dimension := by
    rw [dimensionAt, compositeAt_of_members rfl hm (by cbv)]
    cbv
  have hs : splitBody newerTokens ⟨24, 30⟩ = .ok ⟨[⟨24, 27⟩, ⟨27, 30⟩], [], []⟩ := by cbv
  have hb : bodyAt newerTokens ⟨24, 30⟩ 2 "fills" = .ok newerFills.body :=
    (bodyAt_of_spans hs (by cbv) rfl rfl).trans (by cbv)
  have ht : tokenAt newerTokens 19 = .ok {
      signal := .opens .group, name := "fills", encodedLength := 2, componentTokenCount := 12 } := rfl
  have hd : spanAt (newerTokens.take 31) 20 = .ok ⟨20, 24⟩ := by cbv
  exact groupAt_of_body (s := ⟨19, 31⟩) ht hd rfl rfl hdim hb

theorem ofTokens_newerTokens : MessageLayout.ofTokens newerTokens = .ok newerMessage := by
  have hs : splitBody newerTokens ⟨1, 37⟩
      = .ok ⟨[⟨1, 4⟩, ⟨4, 10⟩, ⟨10, 13⟩, ⟨13, 16⟩, ⟨16, 19⟩], [⟨19, 31⟩], [⟨31, 37⟩]⟩ := by cbv
  have hb : bodyAt newerTokens ⟨1, 37⟩ 6 "Order" = .ok newerMessage.body :=
    (bodyAt_of_spans hs (by cbv) (by rw [List.mapM_cons, groupAt_newerTokens]; rfl)
      (by cbv)).trans (by cbv)
  have hw : wholeSpan newerTokens .message = .ok ⟨0, 38⟩ := by cbv
  have ht : tokenAt newerTokens 0 = .ok {
      signal := .opens .message, name := "Order", encodedLength := 6, componentTokenCount := 38 } :=
    rfl
  rw [MessageLayout.ofTokens, hw, ok_bind, ht, ok_bind, show Span.inner ⟨0, 38⟩ = ⟨1, 37⟩ from rfl,
    hb]
  rfl

theorem newerMessage_extends : newerMessage.body.Extends message.body := by
  have hfills : newerFills.body.Covers fills.body :=
    ⟨.cons ⟨rfl, rfl, rfl⟩ .nil, .nil, .nil⟩
  have hbody : newerMessage.body.Covers message.body :=
    ⟨.cons ⟨rfl, rfl, rfl⟩ (.cons ⟨rfl, rfl, rfl⟩ (.cons ⟨rfl, rfl, rfl⟩ .nil)),
      .cons ⟨rfl, rfl⟩ .nil, .cons ⟨rfl, rfl, rfl⟩ .nil⟩
  exact ⟨hbody, ⟨hfills, trivial⟩, trivial⟩

theorem newerMessage_extraBeyond : newerMessage.body.ExtraBeyond message.body :=
  ⟨by decide, ⟨by decide, trivial⟩, trivial⟩

theorem newerMessage_distinct : ∀ b ∈ newerMessage.body.bodies, b.Distinct := by
  have hbodies : newerMessage.body.bodies = [newerMessage.body, newerFills.body] := rfl
  rw [hbodies, List.forall_mem_cons, List.forall_mem_singleton]
  exact ⟨by unfold BodyLayout.Distinct; decide, by unfold BodyLayout.Distinct; decide⟩

/-- The codec of newer orders. -/
def newerCodec : MessageCodec := { codec with message := newerMessage }

/-- An order of a newer sender, and one of an older, are read by either reader. -/
theorem decodeBody_newerCodec : ∃ v bs w,
    newerCodec.decodeBody [65, 0, 0, 0, 2, 7, 2, 1, 251, 9, 0] 6 = .ok v
    ∧ codec.decodeBody [65, 0, 0, 0, 2, 7, 2, 1, 251, 9, 0] 6
      = .ok (newerMessage.body.withoutExtra message.body v)
    ∧ codec.encodeBody (.object "Order" sell) = .ok bs ∧ codec.decodeBody bs 5 = .ok w
    ∧ newerCodec.decodeBody bs 5 = .ok (message.body.withExtraConstants newerMessage.body w) := by
  obtain ⟨hdrop, hadd⟩ := @MessageCodec.decodeBody_of_extends newerCodec codec newerTokens tokens
    ofTokens_newerTokens ofTokens_tokens rfl newerMessage_extends newerMessage_distinct
  obtain ⟨v, hv⟩ : ∃ v, newerCodec.decodeBody [65, 0, 0, 0, 2, 7, 2, 1, 251, 9, 0] 6 = .ok v := by
    simp only [← toOption_eq_some_iff, ← Option.isSome_iff_exists]
    decide +kernel
  have hbs : codec.encodeBody (.object "Order" sell)
      = .ok [65, 66, 67, 0, 2, 1, 2, 251, 128, 4, 110, 195, 169, 101] := rfl
  obtain ⟨w, hw⟩ : ∃ w, codec.decodeBody [65, 66, 67, 0, 2, 1, 2, 251, 128, 4, 110, 195, 169, 101] 5
      = .ok w := by
    simp only [← toOption_eq_some_iff, ← Option.isSome_iff_exists]
    decide +kernel
  exact ⟨v, _, w, hv, hdrop _ _ _ hv, hbs, hw, hadd newerMessage_extraBeyond _ _ _ hbs hw⟩

end Orders

end SimpleBinary
