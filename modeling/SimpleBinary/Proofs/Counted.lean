import Mathlib
import SimpleBinary.Proofs.Flattening
import SimpleBinary.Proofs.Seen

/-!
# How many elements bytes can hold

What is read of a body is followed group by group: `BodyLayout.groupsMet` are the groups that are met
in some bytes, at any depth, each with its header, the trailer of its elements and the bytes left
behind the header.  The blocks and trailers of all elements are bytes of their own
(`BodyLayout.taken_le`), so the elements that have any of these are at most as many as there are
bytes.  An element that has neither takes nothing, and only its own group is bounded, by the bytes
left where it starts (`MessageCodec.elementCount_le_of_decodeBody`): groups of such elements share
those bytes (`Ticks.exists_length_lt_elementCount`).
-/

namespace SimpleBinary

/-! ## Elements of a value -/

mutual

/-- The elements of groups in a value, at any depth: the objects that are items of arrays. -/
def Value.elementCount : Value → Nat
  | .array items => elementCountOfItems items
  | .object _ fields => elementCountOfFields fields
  | _ => 0

def elementCountOfItems : List Value → Nat
  | [] => 0
  | v :: vs => (if v.isObject then 1 else 0) + v.elementCount + elementCountOfItems vs

def elementCountOfFields : List (String × Value) → Nat
  | [] => 0
  | (_, v) :: fields => v.elementCount + elementCountOfFields fields

end

theorem elementCountOfFields_insertField (name : String) (v : Value) : ∀ fs : Fields,
    elementCountOfFields (insertField name v fs) ≤ v.elementCount + elementCountOfFields fs
  | [] => by simp [insertField, elementCountOfFields]
  | (n, w) :: fs => by
    have ih := elementCountOfFields_insertField name v fs
    rw [insertField]
    split
    · exact le_rfl
    · split
      · simp only [elementCountOfFields]
        omega
      · simp only [elementCountOfFields]
        omega

/-! ## Groups that are met -/

/-- A group as a reader meets it: its header, the least bytes that an element has beside its block,
and the bytes left behind the header. -/
structure GroupMet where
  header : GroupHeader
  trailerLength : Nat
  left : Nat

namespace GroupMet

/-- The number of its elements. -/
def count (g : GroupMet) : Nat := g.header.count

/-- The bytes that an element has at the least. -/
def elementBytes (g : GroupMet) : Nat := g.header.blockLength + g.trailerLength

end GroupMet

/-- The elements of groups in all. -/
def totalCount (gs : List GroupMet) : Nat := (gs.map (·.count)).sum

/-- The bytes of the blocks and trailers of all elements. -/
def totalBytes (gs : List GroupMet) : Nat := (gs.map fun g => g.count * g.elementBytes).sum

@[simp]
theorem totalCount_nil : totalCount [] = 0 := rfl

@[simp]
theorem totalCount_cons (g : GroupMet) (gs : List GroupMet) :
    totalCount (g :: gs) = g.count + totalCount gs := by simp [totalCount]

@[simp]
theorem totalCount_append (gs gs' : List GroupMet) :
    totalCount (gs ++ gs') = totalCount gs + totalCount gs' := by simp [totalCount]

@[simp]
theorem totalBytes_nil : totalBytes [] = 0 := rfl

@[simp]
theorem totalBytes_cons (g : GroupMet) (gs : List GroupMet) :
    totalBytes (g :: gs) = g.count * g.elementBytes + totalBytes gs := by simp [totalBytes]

@[simp]
theorem totalBytes_append (gs gs' : List GroupMet) :
    totalBytes (gs ++ gs') = totalBytes gs + totalBytes gs' := by simp [totalBytes]

/-- Elements that have bytes are at most as many as these. -/
theorem totalCount_filter_le : ∀ gs : List GroupMet,
    totalCount (gs.filter fun g => 1 ≤ g.elementBytes) ≤ totalBytes gs
  | [] => le_rfl
  | g :: gs => by
    have ih := totalCount_filter_le gs
    rw [List.filter_cons]
    split
    · rename_i h
      rw [decide_eq_true_eq] at h
      have := Nat.le_mul_of_pos_right g.count h
      rw [totalCount_cons, totalBytes_cons]
      omega
    · rw [totalBytes_cons]
      omega

/-- The groups met in items that are read in turn. -/
def itemsMet (met : Bytes → List GroupMet) (parse : Bytes → Option (Value × Bytes)) :
    (count : Nat) → Bytes → List GroupMet
  | 0, _ => []
  | count + 1, bs =>
    met bs ++ (parse bs).elim [] fun (_, rest) => itemsMet met parse count rest

mutual

/-- The groups met in the bytes of a body whose block takes `blockLength` of them, at any depth. -/
def BodyLayout.groupsMet : BodyLayout → (blockLength : Nat) → Bytes → List GroupMet
  | ⟨_, _, groups, _⟩, blockLength, bs => groupsMetIn groups (bs.drop blockLength)

def groupsMetIn : List GroupLayout → Bytes → List GroupMet
  | [], _ => []
  | ⟨name, _, _, dimension, body, _⟩ :: groups, bs =>
    (dimension.parse? body.trailerLength bs).elim [] fun (header, rest) =>
      ⟨header, body.trailerLength, rest.length⟩
        :: itemsMet (fun bs => body.groupsMet header.blockLength bs)
          (fun bs => body.parse? header.blockLength name bs) header.count rest
        ++ (parseItems? (fun bs => body.parse? header.blockLength name bs) header.count rest).elim []
          fun (_, rest) => groupsMetIn groups rest

end

/-! ## Bytes that are taken -/

theorem DimensionLayout.parse?_eq_some {d : DimensionLayout} {trailerLength : Nat}
    {bs rest : Bytes} {header : GroupHeader} (h : d.parse? trailerLength bs = some (header, rest)) :
    d.encodedLength + rest.length = bs.length
      ∧ header.count * elementLength header.blockLength trailerLength ≤ rest.length := by
  obtain ⟨hlen, -, -, hroom, rfl⟩ := parse?_eq_some_iff.1 h
  refine ⟨?_, hroom⟩
  rw [List.length_drop]
  omega

theorem VarDataLayout.taken_le {d : VarDataLayout} {bs rest : Bytes} {v : Value}
    (h : d.parse? bs = some (v, rest)) : d.headerLength + rest.length ≤ bs.length := by
  obtain ⟨hlen, length, -, -, -, rfl⟩ := parse?_eq_some_iff.1 h
  simp only [List.length_drop]
  omega

theorem taken_le_of_parseVarData? : ∀ {ds : List VarDataLayout} {acc acc' : Fields}
    {bs rest : Bytes}, parseVarData? ds acc bs = some (acc', rest) →
    ds.foldr (·.headerLength + ·) 0 + rest.length ≤ bs.length
  | [], _, _, _, _, h => by
    cases h
    simp
  | d :: ds, acc, acc', bs, rest, h => by
    obtain ⟨⟨x, rest₁⟩, hx, h⟩ := Option.bind_eq_some_iff.1 h
    have h1 := VarDataLayout.taken_le hx
    have h2 := taken_le_of_parseVarData? h
    rw [List.foldr_cons]
    omega

/-- Items take `n` bytes each and those of the groups met in them. -/
theorem taken_le_of_parseItems? {met : Bytes → List GroupMet}
    {parse : Bytes → Option (Value × Bytes)} {n : Nat}
    (h : ∀ bs rest v, parse bs = some (v, rest) →
      totalBytes (met bs) + n + rest.length ≤ bs.length) :
    ∀ {count : Nat} {bs rest : Bytes} {vs : List Value},
    parseItems? parse count bs = some (vs, rest) →
    totalBytes (itemsMet met parse count bs) + count * n + rest.length ≤ bs.length
  | 0, _, _, _, hp => by
    cases hp
    simp [itemsMet]
  | count + 1, bs, rest, vs, hp => by
    obtain ⟨⟨v, rest₁⟩, hv, hp⟩ := Option.bind_eq_some_iff.1 hp
    obtain ⟨⟨vs₁, rest₂⟩, hvs, hp⟩ := Option.bind_eq_some_iff.1 hp
    cases hp
    have h1 := h _ _ _ hv
    have h2 := taken_le_of_parseItems? h hvs
    rw [itemsMet, hv, Option.elim_some, totalBytes_append, Nat.succ_mul]
    dsimp only at h1 h2 ⊢
    omega

mutual

/-- A body takes its block, its trailer, and the blocks and trailers of all elements in it. -/
theorem BodyLayout.taken_le : ∀ {b : BodyLayout} {blockLength : Nat} {name : String}
    {bs rest : Bytes} {v : Value}, b.parse? blockLength name bs = some (v, rest) →
    totalBytes (b.groupsMet blockLength bs) + (blockLength + b.trailerLength) + rest.length
      ≤ bs.length
  | ⟨_, fields, groups, varData⟩, blockLength, name, bs, rest, v, h => by
    obtain ⟨hlen, acc₁, acc₂, acc₃, rest₂, -, h₂, h₃, rfl⟩ := BodyLayout.parse?_eq_some_iff.1 h
    have hgroups := taken_le_of_parseGroups? h₂
    have hdata := taken_le_of_parseVarData? h₃
    rw [List.length_drop] at hgroups
    rw [BodyLayout.groupsMet, BodyLayout.trailerLength]
    dsimp only
    omega

theorem taken_le_of_parseGroups? : ∀ {groups : List GroupLayout} {acc acc' : Fields}
    {bs rest : Bytes}, parseGroups? groups acc bs = some (acc', rest) →
    totalBytes (groupsMetIn groups bs) + groups.foldr (·.dimension.encodedLength + ·) 0
      + rest.length ≤ bs.length
  | [], acc, acc', bs, rest, h => by
    rw [parseGroups?] at h
    cases h
    rw [groupsMetIn]
    simp
  | ⟨name, _, _, dimension, body, _⟩ :: groups, acc, acc', bs, rest, h => by
    obtain ⟨header, rest₁, elements, rest₂, hheader, helements, h⟩ :=
      parseGroups?_cons_eq_some_iff.1 h
    have hitem : ∀ bs rest v, body.parse? header.blockLength name bs = some (v, rest) →
        totalBytes (body.groupsMet header.blockLength bs)
          + (header.blockLength + body.trailerLength) + rest.length ≤ bs.length :=
      fun _ _ _ hv => BodyLayout.taken_le hv
    have hitems : totalBytes (itemsMet (fun bs => body.groupsMet header.blockLength bs)
        (fun bs => body.parse? header.blockLength name bs) header.count rest₁)
        + header.count * (header.blockLength + body.trailerLength) + rest₂.length ≤ rest₁.length :=
      taken_le_of_parseItems? hitem helements
    have hrest := taken_le_of_parseGroups? h
    have hd := (DimensionLayout.parse?_eq_some hheader).1
    rw [groupsMetIn, hheader, Option.elim_some]
    dsimp only at helements hrest ⊢
    rw [helements, Option.elim_some, totalBytes_append, totalBytes_cons, List.foldr_cons]
    dsimp only [GroupMet.count, GroupMet.elementBytes]
    omega

end

/-! ## Elements that are counted -/

/-- The count of a group is within the bytes behind its header, and these within the bytes. -/
def GroupMet.Bounded (g : GroupMet) (length : Nat) : Prop := g.count ≤ g.left ∧ g.left ≤ length

theorem GroupMet.Bounded.mono {g : GroupMet} {m n : Nat} (h : g.Bounded m) (hmn : m ≤ n) :
    g.Bounded n :=
  ⟨h.1, h.2.trans hmn⟩

theorem bounded_of_mem_itemsMet {met : Bytes → List GroupMet}
    {parse : Bytes → Option (Value × Bytes)}
    (h : ∀ bs, ∀ g ∈ met bs, g.Bounded bs.length)
    (hparse : ∀ bs rest v, parse bs = some (v, rest) → rest.length ≤ bs.length) :
    ∀ {count : Nat} {bs : Bytes}, ∀ g ∈ itemsMet met parse count bs, g.Bounded bs.length
  | 0, _, g, hg => absurd hg List.not_mem_nil
  | count + 1, bs, g, hg => by
    rw [itemsMet, List.mem_append] at hg
    rcases hg with hg | hg
    · exact h bs g hg
    · cases hp : parse bs with
      | none =>
        rw [hp] at hg
        exact absurd hg List.not_mem_nil
      | some r =>
        rw [hp] at hg
        exact (bounded_of_mem_itemsMet h hparse g hg).mono (hparse _ _ _ hp)

theorem parse?_length_le {b : BodyLayout} {blockLength : Nat} {name : String}
    {bs rest : Bytes} {v : Value} (h : b.parse? blockLength name bs = some (v, rest)) :
    rest.length ≤ bs.length := by
  have := BodyLayout.taken_le h
  omega

mutual

theorem BodyLayout.bounded_of_mem_groupsMet : ∀ (b : BodyLayout) (blockLength : Nat) (bs : Bytes),
    ∀ g ∈ b.groupsMet blockLength bs, g.Bounded bs.length
  | ⟨_, fields, groups, varData⟩, blockLength, bs, g, hg => by
    rw [BodyLayout.groupsMet] at hg
    refine (bounded_of_mem_groupsMetIn groups _ g hg).mono ?_
    rw [List.length_drop]
    omega

theorem bounded_of_mem_groupsMetIn : ∀ (groups : List GroupLayout) (bs : Bytes),
    ∀ g ∈ groupsMetIn groups bs, g.Bounded bs.length
  | [], bs, g, hg => by
    rw [groupsMetIn] at hg
    exact absurd hg List.not_mem_nil
  | ⟨name, _, _, dimension, body, _⟩ :: groups, bs, g, hg => by
    rw [groupsMetIn] at hg
    cases hheader : dimension.parse? body.trailerLength bs with
    | none =>
      rw [hheader] at hg
      exact absurd hg List.not_mem_nil
    | some r =>
      obtain ⟨header, rest⟩ := r
      obtain ⟨hlen, hroom⟩ := DimensionLayout.parse?_eq_some hheader
      rw [hheader, Option.elim_some, List.mem_append, List.mem_cons] at hg
      have hrest : rest.length ≤ bs.length := by omega
      rcases hg with (rfl | hg) | hg
      · have := Nat.le_mul_of_pos_right header.count
          (le_max_right _ 1 : 1 ≤ elementLength header.blockLength body.trailerLength)
        exact ⟨this.trans hroom, hrest⟩
      · exact (bounded_of_mem_itemsMet (fun bs => body.bounded_of_mem_groupsMet _ bs)
          (fun _ _ _ hv => parse?_length_le hv) g hg).mono hrest
      · cases hitems : parseItems? (fun bs => body.parse? header.blockLength name bs) header.count
            rest with
        | none =>
          dsimp only at hg
          rw [hitems] at hg
          exact absurd hg List.not_mem_nil
        | some r =>
          have htaken := taken_le_of_parseItems? (fun _ _ _ hv => BodyLayout.taken_le hv) hitems
          dsimp only at hg
          rw [hitems] at hg
          exact (bounded_of_mem_groupsMetIn groups _ g hg).mono (by omega)

end

/-! ### Fields have no elements -/

@[simp]
theorem Value.elementCount_ofLiteral (l : Literal) : (Value.ofLiteral l).elementCount = 0 := by
  cases l <;> rfl

theorem elementCountOfItems_ofLiteral : ∀ ls : List Literal,
    elementCountOfItems (ls.map Value.ofLiteral) = 0
  | [] => rfl
  | l :: ls => by
    rw [List.map_cons, elementCountOfItems, Value.elementCount_ofLiteral,
      elementCountOfItems_ofLiteral ls]
    cases l <;> rfl

theorem elementCount_of_textValue? {encoding : String} {bs : Bytes} {v : Value}
    (h : textValue? encoding bs = some v) : v.elementCount = 0 := by
  unfold textValue? at h
  split at h
  · cases h
    rfl
  · obtain ⟨cs, -, rfl⟩ := Option.map_eq_some_iff.1 h
    rfl

theorem PrimitiveLayout.elementCount_of_value? {p : PrimitiveLayout} {bs : Bytes} {v : Value}
    (h : p.value? bs = some (some v)) : v.elementCount = 0 := by
  unfold value? at h
  split at h
  · cases h
    exact Value.elementCount_ofLiteral _
  · split at h
    · obtain ⟨x, hx, h⟩ := Option.map_eq_some_iff.1 h
      cases h
      exact elementCount_of_textValue? hx
    · split at h
      · cases h
        exact elementCountOfItems_ofLiteral _
      · dsimp only at h
        split at h
        · simp at h
        · cases h
          exact Value.elementCount_ofLiteral _

theorem EnumLayout.elementCount_of_value? {e : EnumLayout} {bs : Bytes} {v : Value}
    (h : e.value? bs = some v) : v.elementCount = 0 := by
  unfold value? at h
  dsimp only at h
  split at h
  · cases h
    rfl
  · split at h
    · cases h
      rfl
    · simp at h

theorem elementCountOfFields_addField (name : String) (v : Option Value) (fs : Fields)
    (h : ∀ x ∈ v, x.elementCount = 0) :
    elementCountOfFields (addField name v fs) ≤ elementCountOfFields fs := by
  cases v with
  | none => exact le_rfl
  | some x =>
    have := elementCountOfFields_insertField name x fs
    rw [h x rfl, Nat.zero_add] at this
    exact this

mutual

theorem FieldKind.elementCount_of_value? {bs : Bytes} {v : Value} : ∀ {k : FieldKind},
    k.value? bs = some (some v) → v.elementCount = 0
  | .primitive p, h => by
    rw [FieldKind.value?] at h
    exact PrimitiveLayout.elementCount_of_value? h
  | .composite ⟨typeName, _, members, _⟩, h => by
    rw [FieldKind.value?] at h
    obtain ⟨fields, hfields, h⟩ := Option.map_eq_some_iff.1 h
    cases h
    have := elementCount_of_fieldsValue? hfields
    rw [elementCountOfFields, Nat.le_zero] at this
    rw [Value.elementCount, this]
  | .enumeration e, h => by
    rw [FieldKind.value?] at h
    obtain ⟨x, hx, h⟩ := Option.map_eq_some_iff.1 h
    cases h
    exact EnumLayout.elementCount_of_value? hx
  | .set s, h => by
    rw [FieldKind.value?] at h
    cases h
    rfl

theorem elementCount_of_fieldsValue? {limit : Option Nat} {block : Bytes} :
    ∀ {fields : List FieldLayout} {acc acc' : Fields},
    fieldsValue? limit block acc fields = some acc' →
    elementCountOfFields acc' ≤ elementCountOfFields acc
  | [], _, _, h => by
    rw [fieldsValue?] at h
    cases h
    exact le_rfl
  | ⟨name, _, _, offset, _, kind⟩ :: fields, acc, acc', h => by
    rw [fieldsValue?] at h
    split at h
    · obtain ⟨x, hx, h⟩ := Option.bind_eq_some_iff.1 h
      refine (elementCount_of_fieldsValue? h).trans (elementCountOfFields_addField name x acc ?_)
      rintro y rfl
      exact FieldKind.elementCount_of_value? hx
    · exact elementCount_of_fieldsValue? h

end

theorem elementCount_of_parseVarData? : ∀ {ds : List VarDataLayout} {acc acc' : Fields}
    {bs rest : Bytes}, parseVarData? ds acc bs = some (acc', rest) →
    elementCountOfFields acc' ≤ elementCountOfFields acc
  | [], _, _, _, _, h => by
    cases h
    exact le_rfl
  | d :: ds, acc, acc', bs, rest, h => by
    obtain ⟨⟨x, rest₁⟩, hx, h⟩ := Option.bind_eq_some_iff.1 h
    have hzero : x.elementCount = 0 := by
      unfold VarDataLayout.parse? at hx
      rw [Option.ite_none_left_eq_some] at hx
      obtain ⟨length, -, hx⟩ := Option.bind_eq_some_iff.1 hx.2
      rw [Option.ite_none_left_eq_some] at hx
      obtain ⟨y, hy, hx⟩ := Option.map_eq_some_iff.1 hx.2
      cases hx
      unfold VarDataLayout.value? at hy
      split at hy
      · cases hy
        rfl
      · exact elementCount_of_textValue? hy
    have hfirst := elementCountOfFields_insertField d.name x acc
    have hrest := elementCount_of_parseVarData? h
    omega

/-! ### Elements of groups -/

theorem elementCount_of_parseItems? {met : Bytes → List GroupMet}
    {parse : Bytes → Option (Value × Bytes)}
    (h : ∀ bs rest v, parse bs = some (v, rest) → v.elementCount ≤ totalCount (met bs)) :
    ∀ {count : Nat} {bs rest : Bytes} {vs : List Value},
    parseItems? parse count bs = some (vs, rest) →
    elementCountOfItems vs ≤ count + totalCount (itemsMet met parse count bs)
  | 0, _, _, _, hp => by
    cases hp
    exact Nat.zero_le _
  | count + 1, bs, rest, vs, hp => by
    obtain ⟨⟨v, rest₁⟩, hv, hp⟩ := Option.bind_eq_some_iff.1 hp
    obtain ⟨⟨vs₁, rest₂⟩, hvs, hp⟩ := Option.bind_eq_some_iff.1 hp
    cases hp
    have h1 := h _ _ _ hv
    have h2 := elementCount_of_parseItems? h hvs
    have hone : (if v.isObject then 1 else 0) ≤ 1 := by
      split <;> simp
    rw [elementCountOfItems, itemsMet, hv, Option.elim_some, totalCount_append]
    dsimp only
    omega

mutual

/-- The elements in a value are those of the groups that were met. -/
theorem BodyLayout.elementCount_of_parse? : ∀ {b : BodyLayout} {blockLength : Nat} {name : String}
    {bs rest : Bytes} {v : Value}, b.parse? blockLength name bs = some (v, rest) →
    v.elementCount ≤ totalCount (b.groupsMet blockLength bs)
  | ⟨_, fields, groups, varData⟩, blockLength, name, bs, rest, v, h => by
    obtain ⟨-, acc₁, acc₂, acc₃, rest₂, h₁, h₂, h₃, rfl⟩ := BodyLayout.parse?_eq_some_iff.1 h
    have hfields := elementCount_of_fieldsValue? h₁
    have hgroups := elementCount_of_parseGroups? h₂
    have hdata := elementCount_of_parseVarData? h₃
    rw [elementCountOfFields] at hfields
    rw [Value.elementCount, BodyLayout.groupsMet]
    omega

theorem elementCount_of_parseGroups? : ∀ {groups : List GroupLayout} {acc acc' : Fields}
    {bs rest : Bytes}, parseGroups? groups acc bs = some (acc', rest) →
    elementCountOfFields acc' ≤ elementCountOfFields acc + totalCount (groupsMetIn groups bs)
  | [], acc, acc', bs, rest, h => by
    rw [parseGroups?] at h
    cases h
    exact Nat.le_add_right _ _
  | ⟨name, _, _, dimension, body, _⟩ :: groups, acc, acc', bs, rest, h => by
    obtain ⟨header, rest₁, elements, rest₂, hheader, helements, h⟩ :=
      parseGroups?_cons_eq_some_iff.1 h
    have hitem : ∀ bs rest v, body.parse? header.blockLength name bs = some (v, rest) →
        v.elementCount ≤ totalCount (body.groupsMet header.blockLength bs) :=
      fun _ _ _ hv => BodyLayout.elementCount_of_parse? hv
    have hitems : elementCountOfItems elements ≤ header.count
        + totalCount (itemsMet (fun bs => body.groupsMet header.blockLength bs)
          (fun bs => body.parse? header.blockLength name bs) header.count rest₁) :=
      elementCount_of_parseItems? hitem helements
    have hrest := elementCount_of_parseGroups? h
    have hinsert := elementCountOfFields_insertField name (.array elements) acc
    rw [Value.elementCount] at hinsert
    rw [groupsMetIn, hheader, Option.elim_some]
    dsimp only at helements hrest ⊢
    rw [helements, Option.elim_some, totalCount_append, totalCount_cons]
    dsimp only [GroupMet.count]
    omega

end

/-! ## Messages -/

/-- The elements in a decoded value are those of the groups met in its bytes.  Of these, the
elements that have a block or a trailer are at most as many as there are bytes, which bounds all of
them if none is empty; and each group on its own has at most as many as there are bytes behind its
header. -/
theorem MessageCodec.elementCount_le_of_decodeBody {m : MessageCodec} {tokens : List Token}
    (ht : MessageLayout.ofTokens tokens = .ok m.message) {bs : Bytes} {blockLength : Nat}
    {v : Value} (hv : m.decodeBody bs blockLength = .ok v) :
    v.elementCount ≤ totalCount (m.message.body.groupsMet blockLength bs)
    ∧ totalCount ((m.message.body.groupsMet blockLength bs).filter fun g => 1 ≤ g.elementBytes)
      ≤ bs.length
    ∧ ((∀ g ∈ m.message.body.groupsMet blockLength bs, 1 ≤ g.elementBytes) →
      v.elementCount ≤ bs.length)
    ∧ ∀ g ∈ m.message.body.groupsMet blockLength bs, g.count ≤ g.left ∧ g.left ≤ bs.length := by
  obtain ⟨rest, hp⟩ := (decodeBody_eq_ok_iff (MessageLayout.laid_of_ofTokens ht)).1 hv
  have hcount := BodyLayout.elementCount_of_parse? hp
  have htaken := BodyLayout.taken_le hp
  have hfilter := totalCount_filter_le (m.message.body.groupsMet blockLength bs)
  refine ⟨hcount, by omega, fun hfull => ?_, m.message.body.bounded_of_mem_groupsMet blockLength bs⟩
  rw [List.filter_eq_self.2 (by simpa using hfull)] at hfilter
  omega

namespace Ticks

/-- Two groups whose elements have no fields. -/
def definition : MessageDef where
  name := "Clock"
  id := 1
  groups := [{ name := "ticks", id := 2 }, { name := "tocks", id := 3 }]

def slot (offset : Nat) : HeaderSlot := ⟨.uint16, .littleEndian, offset⟩

def group (name : String) (id : Int32) : GroupLayout where
  name
  id
  sinceVersion := 0
  dimension := ⟨"groupSizeEncoding", slot 0, slot 2, 4⟩
  body := ⟨0, [], [], []⟩
  description := none

def codec : MessageCodec where
  header := Orders.header
  message := {
    name := "Clock"
    id := 1
    sinceVersion := 0
    semanticType := none
    description := none
    body := ⟨0, [], [group "ticks" 2, group "tocks" 3], []⟩ }
  schemaId := 1
  version := 0

theorem ofTokens_clock :
    MessageLayout.ofTokens (definition.tokens .littleEndian) = .ok codec.message := by
  refine MessageDef.ofTokens_tokens_of_layout? ⟨?_, ?_⟩ rfl
  · simp [BlockSound, definition]
  · have hdimension : TypeDef.groupSize.Sound ∧ TypeDef.groupSize.IsDimension := by
      refine ⟨?_, ⟨_, _, rfl, ?_⟩⟩
      · simp [TypeDef.groupSize, TypeDef.ofPrimitives, TypeDef.Sound, membersSound,
          PrimitiveDef.Sound]
      · simp [TypeDef.name]
    have hblock : BlockSound none [] := by simp [BlockSound]
    exact ⟨⟨hdimension.1, hdimension.2, hblock, trivial⟩,
      ⟨hdimension.1, hdimension.2, hblock, trivial⟩, trivial⟩

/-- Ten ticks and six tocks in front of six bytes. -/
def bytes : Bytes := [0, 0, 10, 0, 0, 0, 6, 0, 1, 2, 3, 4, 5, 6]

/-- A value that was decoded is there if the elements in it can be counted. -/
theorem exists_of_elementCount {m : MessageCodec} {bs : Bytes} {blockLength count : Nat}
    (h : (m.decodeBody bs blockLength).toOption.map Value.elementCount = some count) :
    ∃ v, m.decodeBody bs blockLength = .ok v ∧ v.elementCount = count := by
  obtain ⟨v, hv, hcount⟩ := Option.map_eq_some_iff.1 h
  exact ⟨v, toOption_eq_some_iff.1 hv, hcount⟩

theorem exists_decodeBody_bytes :
    ∃ v, codec.decodeBody bytes 0 = .ok v ∧ v.elementCount = 16 :=
  exists_of_elementCount (by decide +kernel)

/-- The six bytes are enough for the elements of both groups, which are more than all the bytes. -/
theorem exists_length_lt_elementCount :
    MessageLayout.ofTokens (definition.tokens .littleEndian) = .ok codec.message
    ∧ ∃ v, codec.decodeBody bytes 0 = .ok v ∧ bytes.length < v.elementCount := by
  obtain ⟨v, hv, h⟩ := exists_decodeBody_bytes
  refine ⟨ofTokens_clock, v, hv, ?_⟩
  rw [h]
  decide

/-- The codec of orders. -/
def orders : MessageCodec := ⟨Orders.header, Orders.definedMessage, 1, 0⟩

/-- An order with two fills of a byte each, in front of a note of one byte. -/
def filled : Bytes := [65, 66, 67, 0, 2, 1, 2, 251, 128, 1, 110]

theorem exists_decodeBody_filled :
    ∃ v, orders.decodeBody filled 5 = .ok v ∧ v.elementCount = 2 :=
  exists_of_elementCount (by decide +kernel)

/-- Ticks and tocks have no bytes of their own, and each group is within the bytes behind its
header; the two fills of an order have a byte each, so the bytes of the order bound them. -/
theorem elementCount_le_ticks : (∃ v, codec.decodeBody bytes 0 = .ok v
      ∧ v.elementCount ≤ totalCount (codec.message.body.groupsMet 0 bytes)
      ∧ totalCount ((codec.message.body.groupsMet 0 bytes).filter fun g => 1 ≤ g.elementBytes) ≤ 14
      ∧ ((∀ g ∈ codec.message.body.groupsMet 0 bytes, 1 ≤ g.elementBytes) → v.elementCount ≤ 14)
      ∧ ∀ g ∈ codec.message.body.groupsMet 0 bytes, g.count ≤ g.left ∧ g.left ≤ 14)
    ∧ ∃ v, orders.decodeBody filled 5 = .ok v ∧ v.elementCount = 2
      ∧ totalCount ((orders.message.body.groupsMet 5 filled).filter fun g => 1 ≤ g.elementBytes) = 2
      ∧ totalCount ((orders.message.body.groupsMet 5 filled).filter fun g => 1 ≤ g.elementBytes) ≤ 11
      ∧ (∀ g ∈ orders.message.body.groupsMet 5 filled, 1 ≤ g.elementBytes) ∧ v.elementCount ≤ 11
      ∧ ∀ g ∈ orders.message.body.groupsMet 5 filled, g.count ≤ g.left ∧ g.left ≤ 11 := by
  obtain ⟨v, hv, -⟩ := exists_decodeBody_bytes
  obtain ⟨w, hw, hcount⟩ := exists_decodeBody_filled
  obtain ⟨-, hfilter, hfull, hleft⟩ :=
    MessageCodec.elementCount_le_of_decodeBody (m := orders) Orders.ofTokens_definition hw
  have hbytes : ∀ g ∈ orders.message.body.groupsMet 5 filled, 1 ≤ g.elementBytes := by
    decide +kernel
  exact ⟨⟨v, hv, MessageCodec.elementCount_le_of_decodeBody ofTokens_clock hv⟩, w, hw, hcount,
    by decide +kernel, hfilter, hbytes, hfull hbytes, hleft⟩

end Ticks

end SimpleBinary
