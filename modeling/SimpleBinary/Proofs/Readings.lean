import Mathlib
import SimpleBinary.Proofs.Readings.Fields

/-!
# The value of bytes

The value of a body is read off the front of what is left, `BodyLayout.parse?`: its block, then its
groups and its var-data.  The decoder gives this value (`BodyLayout.parses_decode`), and after a body
the cursor stands at what `parse?` leaves.
-/

namespace SimpleBinary

/-! ## Reading on -/

/-- What lies before the cursor is done, and these bytes are left. -/
def Cursor.At (c : Cursor) (bs : Bytes) : Prop :=
  c.index ≤ c.data.length ∧ c.data.drop c.index = bs

theorem Cursor.At.length {c : Cursor} {bs : Bytes} (h : c.At bs) :
    c.index + bs.length = c.data.length := by
  rw [← h.2, List.length_drop]
  have := h.1
  omega

theorem Cursor.At.drop {c : Cursor} {bs : Bytes} (h : c.At bs) {n : Nat} (hn : n ≤ bs.length) :
    Cursor.At ⟨c.data, c.index + n⟩ (bs.drop n) := by
  have := h.length
  refine ⟨by dsimp only; omega, ?_⟩
  rw [← h.2, List.drop_drop]

/-- A step takes its outcome off the front of what is left. -/
def Parses {α : Type} (r : Except CodecError (α × Cursor)) (o : Option (α × Bytes)) : Prop :=
  match r with
  | .ok (a, c) => ∃ rest, o = some (a, rest) ∧ c.At rest
  | .error _ => o = none

namespace Parses

variable {α β : Type} {r : Except CodecError (α × Cursor)} {o : Option (α × Bytes)}

theorem bind {f : α × Cursor → Except CodecError (β × Cursor)}
    {g : α × Bytes → Option (β × Bytes)} (h : Parses r o)
    (hf : ∀ a c rest, c.At rest → Parses (f (a, c)) (g (a, rest))) :
    Parses (r >>= f) (o.bind g) := by
  cases r with
  | error e =>
    cases h
    exact rfl
  | ok p =>
    obtain ⟨rest, rfl, hc⟩ := h
    exact hf _ _ _ hc

theorem ok {a : α} {c : Cursor} {rest : Bytes} (h : c.At rest) :
    Parses (.ok (a, c)) (some (a, rest)) := ⟨rest, rfl, h⟩

theorem toOption_fst (h : Parses r o) : r.toOption.map (·.1) = o.map (·.1) := by
  cases r with
  | error e =>
    cases h
    rfl
  | ok p =>
    obtain ⟨rest, rfl, -⟩ := h
    rfl

end Parses

/-- A step that ends behind the next `n` bytes fails where there are fewer, and takes its outcome off
the front of what is left behind them. -/
structure ParsesBehind {α : Type} (bs : Bytes) (n : Nat) (r : Except CodecError (α × Cursor))
    (o : Option (α × Bytes)) : Prop where
  short : bs.length < n → ∃ e, r = .error e
  outcome : n ≤ bs.length → Parses r o

namespace ParsesBehind

variable {α β : Type} {c : Cursor} {bs : Bytes} {n : Nat}

theorem parses {r : Except CodecError (α × Cursor)} {o : Option (α × Bytes)}
    (h : ParsesBehind bs n r o) : Parses r (if bs.length < n then none else o) := by
  split
  · rename_i hshort
    obtain ⟨e, rfl⟩ := h.short hshort
    rfl
  · exact h.outcome (not_lt.1 ‹_›)

/-- What is read of the bytes before. -/
theorem read (hc : c.At bs) {r : Except CodecError (α × Cursor)} {there : Prop} {o : Option α}
    (h : Reads r c.data there o) (hthere : c.index + n ≤ c.data.length → there)
    {k : α × Cursor → Except CodecError (β × Cursor)} {g : α → Option (β × Bytes)}
    (hk : ∀ a c', c'.data = c.data → ParsesBehind bs n (k (a, c')) (g a)) :
    ParsesBehind bs n (r >>= k) (o.bind g) where
  short hshort := by
    cases r with
    | error e => exact ⟨e, rfl⟩
    | ok p => exact (hk p.1 p.2 (h.data p.1 p.2 rfl)).short hshort
  outcome hle := by
    have hlen := hc.length
    rcases h.cases (hthere (by omega)) with ⟨⟨e, rfl⟩, rfl⟩ | ⟨a, c', rfl, hdata, rfl⟩
    · rfl
    · exact (hk a c' hdata).outcome hle

/-- The cursor moves behind the bytes. -/
theorem seekFor (hc : c.At bs) {c' : Cursor} (hdata : c'.data = c.data) (path : String)
    {f : Cursor → Except CodecError (α × Cursor)} {o : Option (α × Bytes)}
    (hf : ∀ c'', c''.At (bs.drop n) → Parses (f c'') o) :
    ParsesBehind bs n (c'.seekFor path (c.index + n) >>= f) o where
  short hshort := by
    have hlen := hc.length
    rcases seekFor_eq c' path (c.index + n) with ⟨-, e, he⟩ | ⟨hle, -⟩
    · exact ⟨e, by rw [he]; rfl⟩
    · rw [hdata] at hle
      omega
  outcome hle := by
    have hlen := hc.length
    rcases seekFor_eq c' path (c.index + n) with ⟨hlt, -⟩ | ⟨-, he⟩
    · rw [hdata] at hlt
      omega
    · rw [he, ok_bind, hdata]
      exact hf _ (hc.drop hle)

end ParsesBehind

/-- The next `n` bytes are read, behind which the cursor stands then. -/
theorem Parses.readBytes_bind {β : Type} {c : Cursor} {bs : Bytes} (hc : c.At bs) (path : String)
    (n : Nat) {f : Bytes × Cursor → Except CodecError (β × Cursor)} {o : Option (β × Bytes)}
    (hf : ∀ c', c'.At (bs.drop n) → Parses (f (bs.take n, c')) o) :
    Parses ((c.readBytes n).mapError (Underflow.at path) >>= f)
      (if bs.length < n then none else o) := by
  have hlen := hc.length
  rcases readBytes_eq c path n with ⟨hlt, e, he⟩ | ⟨hle, he⟩
  · rw [he, if_pos (by omega)]
    rfl
  · rw [he, if_neg (by omega), ok_bind, hc.2]
    exact hf _ (hc.drop (by omega))

/-- The number in a slot of a header. -/
def HeaderSlot.value? (s : HeaderSlot) (header : Bytes) : Option Nat :=
  (s.primitive.literalOf (s.byteOrder.word ((header.drop s.offset).take s.width))).toNat?

theorem HeaderSlot.reads_read (s : HeaderSlot) (base : Nat) (path : String) (c : Cursor) :
    Reads (s.read base path c) c.data (base + s.offset + s.width ≤ c.data.length)
      (s.value? (c.data.drop base)) := by
  rw [value?, List.drop_drop]
  refine (reads_literalAt c path (base + s.offset) s.primitive s.byteOrder).bind (o := some _)
    (g := Literal.toNat?) fun l c' hc' => ?_
  cases h : l.toNat? with
  | some n =>
    simp only [h]
    exact Reads.ok hc'
  | none =>
    simp only [h]
    exact Reads.error _

/-- The value of a payload, bytes unless it is a text. -/
def VarDataLayout.value? (d : VarDataLayout) (payload : Bytes) : Option Value :=
  match d.characterEncoding with
  | none => some (.bytes payload)
  | some encoding => textValue? encoding payload

/-- Var-data and what is left behind it. -/
def VarDataLayout.parse? (d : VarDataLayout) (bs : Bytes) : Option (Value × Bytes) :=
  if bs.length < d.headerLength then none
  else do
    let length ← d.length.value? bs
    let rest := bs.drop d.headerLength
    if rest.length < length then none
    else (d.value? (rest.take length)).map fun v => (v, rest.drop length)

theorem VarDataLayout.parse?_eq_some_iff {d : VarDataLayout} {bs rest : Bytes} {v : Value} :
    d.parse? bs = some (v, rest) ↔ d.headerLength ≤ bs.length ∧ ∃ length,
      d.length.value? bs = some length ∧ length ≤ (bs.drop d.headerLength).length
        ∧ d.value? ((bs.drop d.headerLength).take length) = some v
        ∧ (bs.drop d.headerLength).drop length = rest := by
  simp only [parse?, Option.ite_none_left_eq_some, not_lt, Option.bind_eq_bind,
    Option.bind_eq_some_iff, Option.map_eq_some_iff, Prod.mk.injEq]
  constructor
  · rintro ⟨hlen, length, hlength, hrest, x, hx, rfl, hr⟩
    exact ⟨hlen, length, hlength, hrest, hx, hr⟩
  · rintro ⟨hlen, length, hlength, hrest, hx, hr⟩
    exact ⟨hlen, length, hlength, hrest, v, hx, rfl, hr⟩

theorem VarDataLayout.parses_decode (d : VarDataLayout) (path : String) {c : Cursor} {bs : Bytes}
    (hc : c.At bs) : Parses (d.decode path c) (d.parse? bs) := by
  have hread := d.length.reads_read c.index path c
  rw [hc.2] at hread
  rw [decode, parse?]
  refine (ParsesBehind.read hc hread (fun h => ?_) fun length c' hdata =>
    .seekFor hc hdata path fun c' hc' => ?_).parses
  · rw [headerLength] at h
    omega
  refine Parses.readBytes_bind hc' path length fun c'' hc'' => ?_
  rw [value?]
  cases d.characterEncoding with
  | none => exact Parses.ok hc''
  | some encoding =>
    dsimp only
    rw [← toOption_decodeText path]
    cases decodeText path encoding ((bs.drop d.headerLength).take length) with
    | error e => rfl
    | ok s? => cases s? <;> exact Parses.ok hc''

def parseVarData? : List VarDataLayout → Fields → Bytes → Option (Fields × Bytes)
  | [], acc, bs => some (acc, bs)
  | d :: ds, acc, bs => do
    let (v, rest) ← d.parse? bs
    parseVarData? ds (insertField d.name v acc) rest

theorem parses_decodeVarData (path : String) : ∀ (ds : List VarDataLayout) (acc : Fields)
    {c : Cursor} {bs : Bytes}, c.At bs →
    Parses (decodeVarData path acc c ds) (parseVarData? ds acc bs)
  | [], acc, c, bs, hc => Parses.ok hc
  | d :: ds, acc, c, bs, hc => by
    rw [decodeVarData, parseVarData?]
    exact (d.parses_decode (childPath path d.name) hc).bind fun v c' rest hc' =>
      parses_decodeVarData path ds (insertField d.name v acc) hc'

/-- The least number of bytes that an element is taken to have. -/
def elementLength (blockLength trailerLength : Nat) : Nat :=
  max (min (blockLength + trailerLength) (UInt64.size - 1)) 1

/-- The header of a group and what is left behind it, if that can hold the elements. -/
def DimensionLayout.parse? (d : DimensionLayout) (trailerLength : Nat) (bs : Bytes) :
    Option (GroupHeader × Bytes) :=
  if bs.length < d.encodedLength then none
  else do
    let blockLength ← d.blockLength.value? bs
    let count ← d.numInGroup.value? bs
    let rest := bs.drop d.encodedLength
    if rest.length < count * elementLength blockLength trailerLength then none
    else some (⟨blockLength, count⟩, rest)

theorem DimensionLayout.parse?_eq_some_iff {d : DimensionLayout} {trailerLength : Nat}
    {bs rest : Bytes} {header : GroupHeader} :
    d.parse? trailerLength bs = some (header, rest) ↔ d.encodedLength ≤ bs.length
      ∧ d.blockLength.value? bs = some header.blockLength
      ∧ d.numInGroup.value? bs = some header.count
      ∧ header.count * elementLength header.blockLength trailerLength
        ≤ (bs.drop d.encodedLength).length
      ∧ bs.drop d.encodedLength = rest := by
  simp only [parse?, Option.ite_none_left_eq_some, not_lt, Option.bind_eq_bind,
    Option.bind_eq_some_iff, Option.some.injEq, Prod.mk.injEq]
  constructor
  · rintro ⟨hlen, blockLength, hb, count, hc, hroom, rfl, hr⟩
    exact ⟨hlen, hb, hc, hroom, hr⟩
  · rintro ⟨hlen, hb, hc, hroom, hr⟩
    exact ⟨hlen, _, hb, _, hc, hroom, rfl, hr⟩

theorem DimensionLayout.parses_decode {d : DimensionLayout} (hd : d.Laid) (trailerLength : Nat)
    (path : String) {c : Cursor} {bs : Bytes} (hc : c.At bs) :
    Parses (d.decode trailerLength path c) (d.parse? trailerLength bs) := by
  have hblockLength := hd.blockLength
  have hnumInGroup := hd.numInGroup
  have hread := d.blockLength.reads_read c.index path c
  rw [hc.2] at hread
  rw [decode, parse?]
  refine (ParsesBehind.read hc hread (fun h => by omega) fun blockLength c₁ hdata₁ => ?_).parses
  have hread₁ := d.numInGroup.reads_read c.index path c₁
  rw [hdata₁, hc.2] at hread₁
  refine .read hc hread₁ (fun h => by omega) fun count c₂ hdata₂ =>
    .seekFor hc hdata₂ path fun c' hc' => ?_
  have hrem : c'.remaining = (bs.drop d.encodedLength).length := by
    have := hc'.length
    unfold Cursor.remaining
    omega
  dsimp only
  rw [hrem]
  unfold elementLength
  split
  · rfl
  · exact Parses.ok hc'

/-- Items that are read in turn and what is left behind them. -/
def parseItems? {α : Type} (parse : Bytes → Option (α × Bytes)) :
    (count : Nat) → Bytes → Option (List α × Bytes)
  | 0, bs => some ([], bs)
  | count + 1, bs => do
    let (v, rest) ← parse bs
    let (vs, rest) ← parseItems? parse count rest
    return (v :: vs, rest)

theorem parses_decodeItems {decode : String → Cursor → Except CodecError (Value × Cursor)}
    {parse : Bytes → Option (Value × Bytes)}
    (h : ∀ path {c : Cursor} {bs : Bytes}, c.At bs → Parses (decode path c) (parse bs))
    (path : String) : ∀ (count index : Nat) {c : Cursor} {bs : Bytes}, c.At bs →
    Parses (decodeItems decode path count index c) (parseItems? parse count bs)
  | 0, index, c, bs, hc => Parses.ok hc
  | count + 1, index, c, bs, hc => by
    rw [decodeItems, parseItems?]
    refine (h (itemPath path index) hc).bind fun v c' rest hc' => ?_
    refine (parses_decodeItems h path count (index + 1) hc').bind fun vs c'' rest' hc'' => ?_
    exact Parses.ok hc''

mutual

/-- The value of a body whose block takes `blockLength` bytes, and what is left behind it. -/
def BodyLayout.parse? : BodyLayout → (blockLength : Nat) → (name : String) → Bytes →
    Option (Value × Bytes)
  | ⟨_, fields, groups, varData⟩, blockLength, name, bs =>
    if bs.length < blockLength then none
    else do
      let acc ← fieldsValue? (some blockLength) (bs.take blockLength) [] fields
      let (acc, rest) ← parseGroups? groups acc (bs.drop blockLength)
      let (acc, rest) ← parseVarData? varData acc rest
      return (.object name acc, rest)

def parseGroups? : List GroupLayout → Fields → Bytes → Option (Fields × Bytes)
  | [], acc, bs => some (acc, bs)
  | ⟨name, _, _, dimension, body, _⟩ :: groups, acc, bs => do
    let (header, rest) ← dimension.parse? body.trailerLength bs
    let (elements, rest) ←
      parseItems? (fun bs => body.parse? header.blockLength name bs) header.count rest
    parseGroups? groups (insertField name (.array elements) acc) rest

end

theorem BodyLayout.parse?_eq_some_iff {own blockLength : Nat} {fields : List FieldLayout}
    {groups : List GroupLayout} {varData : List VarDataLayout} {name : String} {bs rest : Bytes}
    {v : Value} :
    parse? ⟨own, fields, groups, varData⟩ blockLength name bs = some (v, rest) ↔
      blockLength ≤ bs.length ∧ ∃ acc₁ acc₂ acc₃ rest₂,
        fieldsValue? (some blockLength) (bs.take blockLength) [] fields = some acc₁
        ∧ parseGroups? groups acc₁ (bs.drop blockLength) = some (acc₂, rest₂)
        ∧ parseVarData? varData acc₂ rest₂ = some (acc₃, rest) ∧ .object name acc₃ = v := by
  simp only [parse?, Option.ite_none_left_eq_some, not_lt, Option.bind_eq_bind,
    Option.bind_eq_some_iff, Option.pure_def, Option.some.injEq, Prod.mk.injEq, Prod.exists]
  constructor
  · rintro ⟨hlen, acc₁, h₁, acc₂, rest₂, h₂, acc₃, rest₃, h₃, hv, rfl⟩
    exact ⟨hlen, acc₁, acc₂, acc₃, rest₂, h₁, h₂, h₃, hv⟩
  · rintro ⟨hlen, acc₁, acc₂, acc₃, rest₂, h₁, h₂, h₃, hv⟩
    exact ⟨hlen, acc₁, h₁, acc₂, rest₂, h₂, acc₃, rest, h₃, hv, rfl⟩

theorem parseGroups?_cons_eq_some_iff {name : String} {id version : Int32}
    {dimension : DimensionLayout} {body : BodyLayout} {description : Option String}
    {groups : List GroupLayout} {acc : Fields} {bs : Bytes} {r : Fields × Bytes} :
    parseGroups? (⟨name, id, version, dimension, body, description⟩ :: groups) acc bs = some r ↔
      ∃ header rest₁ elements rest₂,
        dimension.parse? body.trailerLength bs = some (header, rest₁)
        ∧ parseItems? (fun bs => body.parse? header.blockLength name bs) header.count rest₁
          = some (elements, rest₂)
        ∧ parseGroups? groups (insertField name (.array elements) acc) rest₂ = some r := by
  simp only [parseGroups?, Option.bind_eq_bind, Option.bind_eq_some_iff, Prod.exists]
  constructor
  · rintro ⟨header, rest₁, hheader, elements, rest₂, helements, h⟩
    exact ⟨header, rest₁, elements, rest₂, hheader, helements, h⟩
  · rintro ⟨header, rest₁, elements, rest₂, hheader, helements, h⟩
    exact ⟨header, rest₁, hheader, elements, rest₂, helements, h⟩

mutual

/-- The decoder takes the value of a body off the front of what is left. -/
theorem BodyLayout.parses_decode : ∀ {b : BodyLayout}, b.Laid → ∀ (blockLength : Nat)
    (name path : String) {c : Cursor} {bs : Bytes}, c.At bs →
    Parses (b.decode blockLength name path c) (b.parse? blockLength name bs)
  | ⟨_, fields, groups, varData⟩, hb, blockLength, name, path, c, bs, hc => by
    rw [BodyLayout.Laid] at hb
    rw [BodyLayout.decode, BodyLayout.parse?]
    have hread := reads_decodeFields (some blockLength) path c.index blockLength [] c
      (laid_of_mem hb.1) (fun f _ hf => by
        rcases isWithin_iff.1 hf with h | h
        · exact .inl h
        · exact .inr (h blockLength rfl))
    rw [hc.2] at hread
    refine (ParsesBehind.read hc hread id fun acc c' hdata =>
      .seekFor hc hdata path fun c hc => ?_).parses
    refine (parses_decodeGroups hb.2 path acc hc).bind fun acc c rest hc => ?_
    refine (parses_decodeVarData path varData acc hc).bind fun acc c rest hc => ?_
    exact Parses.ok hc

theorem parses_decodeGroups : ∀ {groups : List GroupLayout}, groupsLaid groups →
    ∀ (path : String) (acc : Fields) {c : Cursor} {bs : Bytes}, c.At bs →
    Parses (decodeGroups groups path acc c) (parseGroups? groups acc bs)
  | [], _, path, acc, c, bs, hc => by
    rw [decodeGroups, parseGroups?]
    exact Parses.ok hc
  | ⟨name, _, _, dimension, body, _⟩ :: groups, hg, path, acc, c, bs, hc => by
    rw [groupsLaid] at hg
    obtain ⟨hd, hb, hrest⟩ := hg
    rw [decodeGroups, parseGroups?]
    refine (DimensionLayout.parses_decode hd body.trailerLength (childPath path name) hc).bind
      fun header c' rest hc' => ?_
    refine (parses_decodeItems (fun path _ _ hc => BodyLayout.parses_decode hb header.blockLength
      name path hc) (childPath path name) header.count 0 hc').bind fun elements c'' rest' hc'' => ?_
    exact parses_decodeGroups hrest path (insertField name (.array elements) acc) hc''

end

end SimpleBinary
