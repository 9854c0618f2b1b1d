import Mathlib
import SimpleBinary.Codec.Decode
import SimpleBinary.Proofs.Elements
import SimpleBinary.Proofs.Layouts
import SimpleBinary.Proofs.Objects
import SimpleBinary.Proofs.Texts

/-!
# The value of a field

The decoder moves a cursor over a message.  Where a field lies is known from the layout, so its value
is a function of its own bytes, `FieldKind.value?`.  The decoder gives these values
(`reads_decodeFields`); the cursor's place between two fields is of no account.
-/

namespace SimpleBinary

/-! ## Reading at a place -/

/-- A step leaves the data as it is and, if the bytes it needs are `there`, has the outcome `o`. -/
structure Reads {α : Type} (r : Except CodecError (α × Cursor)) (data : Bytes) (there : Prop)
    (o : Option α) : Prop where
  data : ∀ a c, r = .ok (a, c) → c.data = data
  outcome : there → r.toOption.map (·.1) = o

namespace Reads

variable {α β : Type} {r : Except CodecError (α × Cursor)} {data : Bytes} {there : Prop}
  {o : Option α}

theorem ok {a : α} {c : Cursor} (h : c.data = data) : Reads (.ok (a, c)) data there (some a) where
  data _ _ h' := by
    cases h'
    exact h
  outcome _ := rfl

theorem error (e : CodecError) : Reads (.error e : Except CodecError (α × Cursor)) data there none
    where
  data _ _ h := by simp at h
  outcome _ := rfl

theorem bind {f : α × Cursor → Except CodecError (β × Cursor)} {g : α → Option β}
    (h : Reads r data there o) (hf : ∀ a c, c.data = data → Reads (f (a, c)) data there (g a)) :
    Reads (r >>= f) data there (o.bind g) := by
  cases r with
  | error e => exact ⟨fun _ _ h' => by simp [Bind.bind, Except.bind] at h', fun ht => by
      rw [← h.outcome ht]
      rfl⟩
  | ok p =>
    obtain ⟨a, c⟩ := p
    have hc := hf a c (h.data a c rfl)
    exact ⟨hc.data, fun ht => by
      rw [← h.outcome ht]
      exact hc.outcome ht⟩

theorem map {f : α × Cursor → β × Cursor} {g : α → β} (h : Reads r data there o)
    (hf : ∀ a c, f (a, c) = (g a, c)) : Reads (r.map f) data there (o.map g) := by
  cases r with
  | error e => exact ⟨fun _ _ h' => by simp [Except.map] at h', fun ht => by
      rw [← h.outcome ht]
      rfl⟩
  | ok p =>
    obtain ⟨a, c⟩ := p
    refine ⟨fun b c' h' => ?_, fun ht => ?_⟩
    · rw [Except.map, Except.ok.injEq, hf] at h'
      cases h'
      exact h.data a c rfl
    · rw [← h.outcome ht, Except.map, hf]
      rfl

theorem mono {there' : Prop} (h : Reads r data there o) (ht : there' → there) :
    Reads r data there' o :=
  ⟨h.data, fun h' => h.outcome (ht h')⟩

/-- What a step does when the bytes are there. -/
theorem cases (h : Reads r data there o) (ht : there) :
    (∃ e, r = .error e) ∧ o = none ∨ ∃ a c, r = .ok (a, c) ∧ c.data = data ∧ o = some a := by
  rw [← h.outcome ht]
  cases r with
  | error e => exact .inl ⟨⟨e, rfl⟩, rfl⟩
  | ok p => exact .inr ⟨p.1, p.2, rfl, h.data _ _ rfl, rfl⟩

end Reads

theorem seekFor_eq (c : Cursor) (path : String) (index : Nat) :
    (c.data.length < index ∧ ∃ e, c.seekFor path index = .error e)
      ∨ index ≤ c.data.length ∧ c.seekFor path index = .ok { c with index } := by
  rw [Cursor.seekFor, Cursor.seek]
  split
  · exact .inl ⟨‹_›, _, rfl⟩
  · exact .inr ⟨not_lt.1 ‹_›, rfl⟩

theorem readBytes_eq (c : Cursor) (path : String) (n : Nat) :
    (c.data.length < c.index + n ∧ ∃ e, (c.readBytes n).mapError (Underflow.at path) = .error e)
      ∨ c.index + n ≤ c.data.length ∧ (c.readBytes n).mapError (Underflow.at path)
        = .ok ((c.data.drop c.index).take n, ⟨c.data, c.index + n⟩) := by
  rw [Cursor.readBytes]
  split
  · exact .inl ⟨‹_›, _, rfl⟩
  · exact .inr ⟨not_lt.1 ‹_›, rfl⟩

theorem reads_literalAt (c : Cursor) (path : String) (pos : Nat) (p : Primitive)
    (order : ByteOrder) : Reads (c.literalAt path pos p order) c.data
      (pos + p.size ≤ c.data.length)
      (some (p.literalOf (order.word ((c.data.drop pos).take p.size)))) := by
  rw [Cursor.literalAt]
  rcases seekFor_eq c path pos with ⟨hlt, e, he⟩ | ⟨hle, he⟩
  · rw [he]
    exact ⟨fun _ _ h => by simp [bind, Except.bind] at h, fun h => by omega⟩
  · rw [he]
    simp only [bind, Except.bind, Cursor.readLiteral, Cursor.readNumber, Cursor.readBytes]
    split
    · exact ⟨fun _ _ h => by simp [Except.map, Except.mapError] at h, fun h => by omega⟩
    · exact Reads.ok rfl

/-- The literals of elements one behind the other. -/
def literalsIn (p : Primitive) (order : ByteOrder) : (count : Nat) → Bytes → List Literal
  | 0, _ => []
  | count + 1, bs =>
    p.literalOf (order.word (bs.take p.size)) :: literalsIn p order count (bs.drop p.size)

theorem literalsIn_take (p : Primitive) (order : ByteOrder) : ∀ {count n : Nat} (bs : Bytes),
    p.size * count ≤ n → literalsIn p order count (bs.take n) = literalsIn p order count bs
  | 0, _, _, _ => rfl
  | count + 1, n, bs, h => by
    rw [Nat.mul_succ] at h
    rw [literalsIn, literalsIn, List.take_take, min_eq_left (by omega), List.drop_take,
      literalsIn_take p order _ (by omega)]

/-! ## Values of fields -/

namespace PrimitiveLayout

/-- The value of the bytes of a field; nothing for the null value of an optional element. -/
def value? (p : PrimitiveLayout) (bs : Bytes) : Option (Option Value) :=
  match p.constant? with
  | some l => some (some (.ofLiteral l))
  | none =>
    if p.isText then
      (textValue? (p.characterEncoding.getD "US-ASCII") (bs.takeWhile (· != 0))).map some
    else if p.isArray then
      some (some (.array ((literalsIn p.primitive p.byteOrder p.arrayLength bs).map .ofLiteral)))
    else
      let l := p.primitive.literalOf (p.byteOrder.word (bs.take p.primitive.size))
      some (if p.isOptional && l.agrees p.nullValue then none else some (.ofLiteral l))

variable {p : PrimitiveLayout}

theorem reads_readItems (path : String) : ∀ (count index pos : Nat) (c : Cursor),
    Reads (p.readItems path count index pos c) c.data
      (pos + p.primitive.size * count ≤ c.data.length)
      (some ((literalsIn p.primitive p.byteOrder count (c.data.drop pos)).map .ofLiteral))
  | 0, _, _, c => Reads.ok rfl
  | count + 1, index, pos, c => by
    rw [readItems, literalsIn, List.drop_drop, Nat.mul_succ]
    have h := reads_literalAt c (itemPath path index) pos p.primitive p.byteOrder
    refine (h.mono fun ht => by omega).bind
      (g := fun l => some (Value.ofLiteral l :: (literalsIn p.primitive p.byteOrder count
        (c.data.drop (pos + p.primitive.size))).map .ofLiteral)) fun l c' hc' => ?_
    have h' := reads_readItems path count (index + 1) (pos + p.primitive.size) c'
    rw [hc'] at h'
    refine (h'.mono fun (ht : pos + (p.primitive.size * count + p.primitive.size)
      ≤ c.data.length) => by omega).bind (o := some _)
      (g := fun vs => some (Value.ofLiteral l :: vs)) fun vs c'' hc'' => ?_
    exact Reads.ok hc''

theorem reads_readText (path : String) (pos : Nat) (c : Cursor) :
    Reads (p.readText pos path c) c.data (pos + p.arrayLength ≤ c.data.length)
      (textValue? (p.characterEncoding.getD "US-ASCII")
        (((c.data.drop pos).take p.arrayLength).takeWhile (· != 0))) := by
  rw [readText]
  rcases seekFor_eq c path pos with ⟨hlt, e, he⟩ | ⟨hle, he⟩
  · rw [he]
    exact ⟨fun _ _ h => by simp [bind, Except.bind] at h, fun h => by omega⟩
  · rw [he]
    rw [ok_bind]
    rcases readBytes_eq { c with index := pos } path p.arrayLength with
      ⟨hlt, e, he⟩ | ⟨hle, he⟩
    · rw [he]
      exact ⟨fun _ _ h => by simp [bind, Except.bind] at h, fun h => absurd hlt (not_lt.2 h)⟩
    · rw [he, ok_bind, ← toOption_decodeText path]
      dsimp only
      cases decodeText path (p.characterEncoding.getD "US-ASCII")
          (((c.data.drop pos).take p.arrayLength).takeWhile (· != 0)) with
      | error e => exact Reads.error e
      | ok s? => cases s? <;> exact Reads.ok rfl

theorem size_of_isText (h : p.isText) : p.primitive.size = 1 := by
  rw [isText, Bool.and_eq_true, beq_iff_eq] at h
  rw [h.1]
  rfl

theorem arrayLength_eq_one (hp : p.Laid) (h : ¬p.isArray) : p.arrayLength = 1 := by
  have := hp.1
  simp only [isArray, decide_eq_true_eq] at h
  omega

theorem constant?_eq_none_iff (hp : p.Laid) : p.constant? = none ↔ ¬p.isConstant := by
  rw [constant?]
  constructor
  · intro h hc
    have := hp.2 hc
    simp [hc] at h
    simp [h] at this
  · intro h
    rw [if_neg h]

theorem reads_decode (hp : p.Laid) (path : String) (pos : Nat) (c : Cursor) :
    Reads (p.decode pos path c) c.data (p.isConstant ∨ pos + p.width ≤ c.data.length)
      (p.value? ((c.data.drop pos).take p.width)) := by
  rw [decode, value?]
  cases hc : p.constant? with
  | some l => exact Reads.ok rfl
  | none =>
    have hnc := (constant?_eq_none_iff hp).1 hc
    have hw : p.width = p.primitive.size * p.arrayLength := by rw [width, if_neg hnc]
    have hthere : p.isConstant ∨ pos + p.width ≤ c.data.length →
        pos + p.primitive.size * p.arrayLength ≤ c.data.length := by
      rw [← hw]
      rintro (h | h)
      · exact absurd h hnc
      · exact h
    dsimp only
    split
    · rename_i ht
      have hs := size_of_isText ht
      rw [hs, one_mul] at hw hthere
      rw [hw]
      refine ((reads_readText path pos c).mono fun h => hthere (by rwa [hw])).map (g := some)
        fun v c' => ?_
      rfl
    · split
      · rw [literalsIn_take _ _ _ hw.ge]
        refine ((reads_readItems path p.arrayLength 0 pos c).mono hthere).map (o := some _)
          (g := fun vs => some (Value.array vs)) fun vs c' => ?_
        rfl
      · rename_i ha
        rw [arrayLength_eq_one hp ha, mul_one] at hw hthere
        rw [readScalar, hw, List.take_take, min_self]
        refine ((reads_literalAt c path pos p.primitive p.byteOrder).mono fun h =>
          hthere (by rwa [hw])).bind (o := some _) (g := fun l => some
            (if p.isOptional && l.agrees p.nullValue then none else some (Value.ofLiteral l)))
          fun l c' hc' => ?_
        exact Reads.ok hc'

end PrimitiveLayout

/-- The value of the bytes of an enum. -/
def EnumLayout.value? (e : EnumLayout) (bs : Bytes) : Option Value :=
  let raw := e.encoding.literalOf (e.byteOrder.word bs)
  match e.byValue? raw with
  | some v => some (.enumeration e.typeName v.name)
  | none => if raw.agrees e.nullValue then some (.enumeration e.typeName nullName) else none

theorem EnumLayout.reads_decode (e : EnumLayout) (path : String) (pos : Nat) (c : Cursor) :
    Reads (e.decode pos path c) c.data (pos + e.width ≤ c.data.length)
      (e.value? ((c.data.drop pos).take e.width)) := by
  refine (reads_literalAt c path pos e.encoding e.byteOrder).bind (o := some _)
    (g := fun raw => match e.byValue? raw with
      | some v => some (Value.enumeration e.typeName v.name)
      | none =>
        if raw.agrees e.nullValue then some (Value.enumeration e.typeName nullName) else none)
    fun raw c' hc' => ?_
  cases he : e.byValue? raw with
  | some v =>
    simp only [he]
    exact Reads.ok hc'
  | none =>
    simp only [he]
    split
    · exact Reads.ok hc'
    · exact Reads.error _

/-- The value of the bytes of a set. -/
def SetLayout.value (s : SetLayout) (bs : Bytes) : Value :=
  .set s.typeName (s.choicesOf ((s.encoding.literalOf (s.byteOrder.word bs)).toNat?.getD 0))

theorem SetLayout.reads_decode (s : SetLayout) (path : String) (pos : Nat) (c : Cursor) :
    Reads (s.decode pos path c) c.data (pos + s.width ≤ c.data.length)
      (some (s.value ((c.data.drop pos).take s.width))) := by
  refine (reads_literalAt c path pos s.encoding s.byteOrder).bind (o := some _)
    (g := fun raw => some (Value.set s.typeName (s.choicesOf (raw.toNat?.getD 0))))
    fun raw c' hc' => ?_
  exact Reads.ok hc'

mutual

/-- The value of the bytes of a field. -/
def FieldKind.value? (bs : Bytes) : FieldKind → Option (Option Value)
  | .primitive p => p.value? bs
  | .composite ⟨typeName, _, members, _⟩ =>
    (fieldsValue? none bs [] members).map fun fields => some (.object typeName fields)
  | .enumeration e => (e.value? bs).map some
  | .set s => some (some (s.value bs))

/-- The values of the fields in the bytes of a block, of those that lie within `limit`. -/
def fieldsValue? (limit : Option Nat) (block : Bytes) (acc : Fields) :
    List FieldLayout → Option Fields
  | [] => some acc
  | ⟨name, _, _, offset, _, kind⟩ :: fields =>
    if kind.isWithin limit offset then do
      let v ← kind.value? ((block.drop offset).take kind.width)
      fieldsValue? limit block (addField name v acc) fields
    else fieldsValue? limit block acc fields

end

/-- Bytes of a constant are not looked at. -/
theorem FieldKind.value?_of_isConstant {k : FieldKind} (hk : k.Laid) (hc : k.isConstant)
    (bs bs' : Bytes) : k.value? bs = k.value? bs' := by
  cases k with
  | primitive p =>
    rw [FieldKind.Laid] at hk
    rw [FieldKind.value?, FieldKind.value?, PrimitiveLayout.value?, PrimitiveLayout.value?]
    cases h : p.constant? with
    | some l => rfl
    | none => exact absurd hc ((PrimitiveLayout.constant?_eq_none_iff hk).1 h)
  | composite c => simp [FieldKind.isConstant] at hc
  | enumeration e => simp [FieldKind.isConstant] at hc
  | set s => simp [FieldKind.isConstant] at hc

theorem slice_slice (bs : Bytes) {base length offset width : Nat} (h : offset + width ≤ length) :
    (((bs.drop base).take length).drop offset).take width
      = (bs.drop (base + offset)).take width := by
  rw [List.drop_take, List.take_take, List.drop_drop, min_eq_left (by omega)]

theorem isWithin_iff {limit : Option Nat} {offset : Nat} {k : FieldKind} :
    k.isWithin limit offset ↔ k.isConstant ∨ ∀ n ∈ limit, offset + k.width ≤ n := by
  cases limit <;> simp [FieldKind.isWithin]

mutual

/-- A field is read from its own bytes. -/
theorem FieldKind.reads_decode (path : String) (pos : Nat) (c : Cursor) : ∀ {k : FieldKind},
    k.Laid → Reads (k.decode pos path c) c.data (k.isConstant ∨ pos + k.width ≤ c.data.length)
      (k.value? ((c.data.drop pos).take k.width))
  | .primitive p, hk => by
    rw [FieldKind.Laid] at hk
    rw [FieldKind.decode, FieldKind.value?]
    exact p.reads_decode hk path pos c
  | .composite ⟨typeName, encodedLength, members, _⟩, hk => by
    rw [FieldKind.Laid] at hk
    rw [FieldKind.decode, FieldKind.value?, Option.map_eq_bind]
    have h := reads_decodeFields none path pos encodedLength [] c (laid_of_mem hk)
      (fun f hf _ => .inr (stop_le_limit hk f hf))
    refine (h.mono fun ht => ?_).bind fun fields c' hc' => Reads.ok hc'
    exact ht.resolve_left Bool.false_ne_true
  | .enumeration e, _ => by
    rw [FieldKind.decode, FieldKind.value?]
    exact ((e.reads_decode path pos c).mono fun ht => ht.resolve_left Bool.false_ne_true).map
      fun _ _ => rfl
  | .set s, _ => by
    rw [FieldKind.decode, FieldKind.value?]
    exact ((s.reads_decode path pos c).mono fun ht => ht.resolve_left Bool.false_ne_true).map
      (o := some _) fun _ _ => rfl

/-- The fields of a block are read from the bytes of the block. -/
theorem reads_decodeFields (limit : Option Nat) (path : String) (base length : Nat) :
    ∀ {fields : List FieldLayout} (acc : Fields) (c : Cursor), (∀ f ∈ fields, f.kind.Laid) →
    (∀ f ∈ fields, f.kind.isWithin limit f.offset → f.kind.isConstant ∨ f.stop ≤ length) →
    Reads (decodeFields limit base path acc c fields) c.data (base + length ≤ c.data.length)
      (fieldsValue? limit ((c.data.drop base).take length) acc fields)
  | [], acc, c, _, _ => by
    rw [decodeFields, fieldsValue?]
    exact Reads.ok rfl
  | ⟨name, _, _, offset, _, kind⟩ :: fields, acc, c, hk, hl => by
    obtain ⟨hkind, hk⟩ := List.forall_mem_cons.1 hk
    obtain ⟨hstop, hl⟩ := List.forall_mem_cons.1 hl
    rw [decodeFields, fieldsValue?]
    split
    · rename_i hwithin
      have hstop := hstop hwithin
      have hslice : kind.value? ((((c.data.drop base).take length).drop offset).take kind.width)
          = kind.value? ((c.data.drop (base + offset)).take kind.width) := by
        rcases hstop with hc | hle
        · exact FieldKind.value?_of_isConstant hkind hc _ _
        · exact congrArg kind.value? (slice_slice _ hle)
      rw [hslice, Option.bind_eq_bind]
      have hread := FieldKind.reads_decode (childPath path name) (base + offset) c hkind
      refine (hread.mono fun ht => ?_).bind fun v c' hc' => ?_
      · rcases hstop with hc | hle
        · exact .inl hc
        · have hle : offset + kind.width ≤ length := hle
          exact .inr (show base + offset + kind.width ≤ c.data.length by omega)
      · cases v with
        | none =>
          have h := reads_decodeFields limit path base length acc c' hk hl
          rw [hc'] at h
          exact h
        | some v =>
          have h := reads_decodeFields limit path base length (insertField name v acc) c' hk hl
          rw [hc'] at h
          exact h
    · exact reads_decodeFields limit path base length acc c hk hl

end

end SimpleBinary
