import Mathlib
import SimpleBinary.Proofs.Overruns

/-!
# What an error says of the bytes is so

An error of a read past the end names the place, the bytes wanted and the bytes there are; one of
a group names its header's place, what the header says and what is left behind it.  Both are true
of the bytes that were decoded (`CodecError.TrueOf`).  The decoder moves its cursor to places of
the layout and back, but never past the end, and that is what each step is shown to keep, whether
it succeeds or not (`Yields`); a group is read with the numbers in its header, so its error can
repeat them.
-/

namespace SimpleBinary

/-! ## Steps and their errors -/

/-- A step gives something with `Q` or fails with an error that has `T`. -/
def Yields {α : Type} (Q : α → Prop) (T : CodecError → Prop) : Except CodecError α → Prop
  | .ok a => Q a
  | .error e => T e

namespace Yields

variable {α β : Type} {Q Q' : α → Prop} {R : β → Prop} {T T' : CodecError → Prop}
  {r : Except CodecError α}

theorem bind {f : α → Except CodecError β} (h : Yields Q T r) (hf : ∀ a, Q a → Yields R T (f a)) :
    Yields R T (r >>= f) := by
  cases r with
  | error e => exact h
  | ok a => exact hf a h

theorem map {f : α → β} (h : Yields Q T r) (hf : ∀ a, Q a → R (f a)) : Yields R T (r.map f) := by
  cases r with
  | error e => exact h
  | ok a => exact hf a h

theorem mono (h : Yields Q T r) (hQ : ∀ a, Q a → Q' a) (hT : ∀ e, T e → T' e) : Yields Q' T' r := by
  cases r with
  | error e => exact hT e h
  | ok a => exact hQ a h

theorem error {e : CodecError} (h : Yields Q T r) (he : r = .error e) : T e := by
  rw [he] at h
  exact h

end Yields

/-- A cursor on bytes, at their end at the furthest. -/
def Cursor.Within (data : Bytes) (c : Cursor) : Prop := c.data = data ∧ c.index ≤ data.length

/-- What an error says of the bytes and of the groups that `G` has at their paths: that a read
reaches past the end, or that a group's header counts more elements than the bytes behind it can
hold. -/
def CodecError.TrueOf (data : Bytes) (G : String → GroupLayout → Prop) : CodecError → Prop
  | .outOfBounds _ offset needed length =>
    length = data.length ∧ offset ≤ data.length ∧ data.length < offset + needed
  | .groupOverrun path offset count blockLength elementLength remaining =>
    ∃ g, G path g ∧ offset + g.dimension.encodedLength + remaining = data.length
      ∧ g.dimension.blockLength.value? (data.drop offset) = some blockLength
      ∧ g.dimension.numInGroup.value? (data.drop offset) = some count
      ∧ max blockLength 1 ≤ elementLength ∧ remaining < count * elementLength
  | _ => True

/-- The groups of a body at their paths, those of its groups' elements included. -/
inductive BodyLayout.HasGroupAt : BodyLayout → String → String → GroupLayout → Prop
  | own {b : BodyLayout} {path : String} {g : GroupLayout} (h : g ∈ b.groups) :
    HasGroupAt b path (childPath path g.name) g
  | inner {b : BodyLayout} {path own : String} {g g' : GroupLayout} (index : Nat)
    (h : g ∈ b.groups) (hg : HasGroupAt g.body (itemPath (childPath path g.name) index) own g') :
    HasGroupAt b path own g'

theorem CodecError.TrueOf.mono {data : Bytes} {G G' : String → GroupLayout → Prop} {e : CodecError}
    (hG : ∀ path g, G path g → G' path g) (h : e.TrueOf data G) : e.TrueOf data G' := by
  cases e with
  | groupOverrun path offset count blockLength elementLength remaining =>
    obtain ⟨g, hg, hrest⟩ := h
    exact ⟨g, hG path g hg, hrest⟩
  | outOfBounds path offset needed length => exact h
  | _ => trivial

section Decoding

variable {data : Bytes} {G : String → GroupLayout → Prop} {c : Cursor}

/-! ## Moves and elements -/

theorem yields_seekFor (hc : c.Within data) (path : String) (index : Nat) :
    Yields (fun c' => c'.Within data ∧ c'.index = index) (·.TrueOf data G)
      (c.seekFor path index) := by
  obtain ⟨rfl, hindex⟩ := hc
  unfold Cursor.seekFor Cursor.seek
  by_cases hlt : c.data.length < index
  · rw [if_pos hlt]
    exact ⟨rfl, hindex, by dsimp only; omega⟩
  · rw [if_neg hlt]
    exact ⟨⟨rfl, not_lt.1 hlt⟩, rfl⟩

theorem yields_readBytes (hc : c.Within data) (path : String) (n : Nat) :
    Yields (fun r => r.1 = (data.drop c.index).take n ∧ r.2.Within data) (·.TrueOf data G)
      ((c.readBytes n).mapError (Underflow.at path)) := by
  obtain ⟨rfl, hindex⟩ := hc
  unfold Cursor.readBytes
  by_cases hlt : c.data.length < c.index + n
  · rw [if_pos hlt]
    exact ⟨rfl, hindex, hlt⟩
  · rw [if_neg hlt]
    exact ⟨rfl, rfl, not_lt.1 hlt⟩

theorem yields_literalAt (hc : c.Within data) (path : String) (pos : Nat) (p : Primitive)
    (order : ByteOrder) :
    Yields (fun r => r.1 = p.literalOf (order.word ((data.drop pos).take p.size)) ∧ r.2.Within data)
      (·.TrueOf data G) (c.literalAt path pos p order) := by
  refine (yields_seekFor hc path pos).bind ?_
  rintro c' ⟨hc', rfl⟩
  have hread := yields_readBytes (G := G) hc' path p.size
  unfold Cursor.readLiteral Cursor.readNumber
  cases hbytes : c'.readBytes p.size with
  | error u =>
    rw [hbytes] at hread
    exact hread
  | ok r =>
    rw [hbytes] at hread
    obtain ⟨hbs, hr⟩ := hread
    exact ⟨by rw [← hbs]; rfl, hr⟩

/-- A slot's number is read from the header at its base. -/
theorem HeaderSlot.yields_read (s : HeaderSlot) (hc : c.Within data) (base : Nat) (path : String) :
    Yields (fun r => s.value? (data.drop base) = some r.1 ∧ r.2.Within data) (·.TrueOf data G)
      (s.read base path c) := by
  refine (yields_literalAt hc path _ _ _).bind ?_
  rintro ⟨l, c'⟩ ⟨rfl, hc'⟩
  rw [value?, List.drop_drop]
  dsimp only [width]
  split
  · rename_i n hn
    exact ⟨hn, hc'⟩
  · trivial

/-! ## Fields -/

theorem yields_decodeText (path encoding : String) (bs : Bytes) :
    Yields (fun _ => True) (·.TrueOf data G) (decodeText path encoding bs) := by
  unfold decodeText
  split
  · trivial
  · split <;> trivial

namespace PrimitiveLayout

theorem yields_readItems (p : PrimitiveLayout) (path : String) : ∀ {count : Nat} (index pos : Nat)
    {c : Cursor}, c.Within data →
    Yields (·.2.Within data) (·.TrueOf data G) (p.readItems path count index pos c)
  | 0, _, _, _, hc => hc
  | count + 1, index, pos, c, hc => by
    rw [readItems]
    refine (yields_literalAt hc _ pos _ _).bind ?_
    rintro ⟨l, c₁⟩ ⟨-, hc₁⟩
    refine (yields_readItems p path (index + 1) (pos + p.primitive.size) hc₁).bind ?_
    rintro ⟨vs, c₂⟩ hc₂
    exact hc₂

theorem yields_readText (p : PrimitiveLayout) (hc : c.Within data) (pos : Nat) (path : String) :
    Yields (·.2.Within data) (·.TrueOf data G) (p.readText pos path c) := by
  refine (yields_seekFor hc path pos).bind ?_
  rintro c₁ ⟨hc₁, -⟩
  refine (yields_readBytes hc₁ path _).bind ?_
  rintro ⟨raw, c₂⟩ ⟨-, hc₂⟩
  refine (yields_decodeText _ _ _).bind ?_
  rintro (_ | s) -
  · exact hc₂
  · exact hc₂

theorem yields_readScalar (p : PrimitiveLayout) (hc : c.Within data) (pos : Nat) (path : String) :
    Yields (·.2.Within data) (·.TrueOf data G) (p.readScalar pos path c) := by
  refine (yields_literalAt hc path pos _ _).bind ?_
  rintro ⟨l, c'⟩ ⟨-, hc'⟩
  exact hc'

theorem yields_decode (p : PrimitiveLayout) (hc : c.Within data) (pos : Nat) (path : String) :
    Yields (·.2.Within data) (·.TrueOf data G) (p.decode pos path c) := by
  unfold decode
  split
  · exact hc
  · split
    · exact (p.yields_readText hc pos path).map fun _ h => h
    · split
      · exact (p.yields_readItems path 0 pos hc).map fun _ h => h
      · exact p.yields_readScalar hc pos path

end PrimitiveLayout

theorem EnumLayout.yields_decode (e : EnumLayout) (hc : c.Within data) (pos : Nat) (path : String) :
    Yields (·.2.Within data) (·.TrueOf data G) (e.decode pos path c) := by
  refine (yields_literalAt hc path pos _ _).bind ?_
  rintro ⟨raw, c'⟩ ⟨-, hc'⟩
  dsimp only
  split
  · exact hc'
  · split
    · exact hc'
    · trivial

theorem SetLayout.yields_decode (s : SetLayout) (hc : c.Within data) (pos : Nat) (path : String) :
    Yields (·.2.Within data) (·.TrueOf data G) (s.decode pos path c) := by
  refine (yields_literalAt hc path pos _ _).bind ?_
  rintro ⟨raw, c'⟩ ⟨-, hc'⟩
  exact hc'

mutual

theorem FieldKind.yields_decode : ∀ {k : FieldKind} {c : Cursor} (pos : Nat) (path : String),
    c.Within data → Yields (·.2.Within data) (·.TrueOf data G) (k.decode pos path c)
  | .primitive p, c, pos, path, hc => by
    rw [FieldKind.decode]
    exact p.yields_decode hc pos path
  | .composite ⟨typeName, _, members, _⟩, c, pos, path, hc => by
    rw [FieldKind.decode]
    refine (yields_decodeFields none pos path [] hc).bind ?_
    rintro ⟨fields, c'⟩ hc'
    exact hc'
  | .enumeration e, c, pos, path, hc => by
    rw [FieldKind.decode]
    exact (e.yields_decode hc pos path).map fun _ h => h
  | .set s, c, pos, path, hc => by
    rw [FieldKind.decode]
    exact (s.yields_decode hc pos path).map fun _ h => h

theorem yields_decodeFields (limit : Option Nat) (base : Nat) (path : String) :
    ∀ {fields : List FieldLayout} {c : Cursor} (acc : Fields), c.Within data →
    Yields (·.2.Within data) (·.TrueOf data G) (decodeFields limit base path acc c fields)
  | [], c, acc, hc => by
    rw [decodeFields]
    exact hc
  | ⟨name, _, _, offset, _, kind⟩ :: fields, c, acc, hc => by
    rw [decodeFields]
    split
    · refine (FieldKind.yields_decode (base + offset) (childPath path name) hc).bind ?_
      rintro ⟨_ | v, c'⟩ hc'
      · exact yields_decodeFields limit base path acc hc'
      · exact yields_decodeFields limit base path (insertField name v acc) hc'
    · exact yields_decodeFields limit base path acc hc

end

/-! ## Var-data and groups -/

theorem VarDataLayout.yields_decode (d : VarDataLayout) (hc : c.Within data) (path : String) :
    Yields (·.2.Within data) (·.TrueOf data G) (d.decode path c) := by
  refine (d.length.yields_read hc c.index path).bind ?_
  rintro ⟨length, c₁⟩ ⟨-, hc₁⟩
  refine (yields_seekFor hc₁ path (c.index + d.headerLength)).bind ?_
  rintro c₂ ⟨hc₂, -⟩
  refine (yields_readBytes hc₂ path length).bind ?_
  rintro ⟨payload, c₃⟩ ⟨-, hc₃⟩
  dsimp only
  split
  · exact hc₃
  · refine (yields_decodeText _ _ _).bind ?_
    rintro (_ | s) -
    · exact hc₃
    · exact hc₃

theorem yields_decodeVarData (path : String) : ∀ {ds : List VarDataLayout} {c : Cursor}
    (acc : Fields), c.Within data →
    Yields (·.2.Within data) (·.TrueOf data G) (decodeVarData path acc c ds)
  | [], c, acc, hc => hc
  | d :: ds, c, acc, hc => by
    rw [decodeVarData]
    refine (d.yields_decode hc _).bind ?_
    rintro ⟨v, c'⟩ hc'
    exact yields_decodeVarData path _ hc'

/-- The header of a group is refused for what it says itself. -/
theorem GroupLayout.yields_decodeDimension {g : GroupLayout} {path : String} (hg : G path g)
    (hc : c.Within data) : Yields (·.2.Within data) (·.TrueOf data G)
      (g.dimension.decode g.body.trailerLength path c) := by
  refine (g.dimension.blockLength.yields_read hc c.index path).bind ?_
  rintro ⟨blockLength, c₁⟩ ⟨hblock, hc₁⟩
  refine (g.dimension.numInGroup.yields_read hc₁ c.index path).bind ?_
  rintro ⟨count, c₂⟩ ⟨hcount, hc₂⟩
  refine (yields_seekFor hc₂ path (c.index + g.dimension.encodedLength)).bind ?_
  rintro c₃ ⟨⟨rfl, hle⟩, hindex⟩
  dsimp only
  split
  · have h64 : blockLength < UInt64.size := Literal.toNat?_lt hblock
    refine ⟨g, hg, ?_, hblock, hcount, ?_, ‹_›⟩
    · rw [Cursor.remaining, hindex]
      omega
    · omega
  · exact ⟨rfl, hle⟩

theorem yields_decodeItems {decode : String → Cursor → Except CodecError (Value × Cursor)}
    {path : String} (hdecode : ∀ index c, c.Within data →
      Yields (·.2.Within data) (·.TrueOf data G) (decode (itemPath path index) c)) :
    ∀ {count : Nat} (index : Nat) {c : Cursor}, c.Within data →
    Yields (·.2.Within data) (·.TrueOf data G) (decodeItems decode path count index c)
  | 0, _, _, hc => hc
  | count + 1, index, c, hc => by
    rw [decodeItems]
    refine (hdecode index c hc).bind ?_
    rintro ⟨v, c₁⟩ hc₁
    refine (yields_decodeItems hdecode (index + 1) hc₁).bind ?_
    rintro ⟨vs, c₂⟩ hc₂
    exact hc₂

/-! ## Bodies -/

mutual

/-- The errors of a body are true of the bytes and of the body's groups. -/
theorem BodyLayout.yields_decode : ∀ {b : BodyLayout} {c : Cursor} (blockLength : Nat)
    (name path : String), c.Within data →
    Yields (·.2.Within data) (·.TrueOf data (b.HasGroupAt path)) (b.decode blockLength name path c)
  | ⟨_, fields, groups, varData⟩, c, blockLength, name, path, hc => by
    rw [BodyLayout.decode]
    refine (yields_decodeFields (some blockLength) c.index path [] hc).bind ?_
    rintro ⟨acc, c₁⟩ hc₁
    refine (yields_seekFor hc₁ path (c.index + blockLength)).bind ?_
    rintro c₂ ⟨hc₂, -⟩
    refine (yields_decodeGroups path acc hc₂ (fun g hg => .own hg)
      (fun g hg index own g' h => .inner index hg h)).bind ?_
    rintro ⟨acc', c₃⟩ hc₃
    refine (yields_decodeVarData path acc' hc₃).bind ?_
    rintro ⟨acc'', c₄⟩ hc₄
    exact hc₄

theorem yields_decodeGroups {G : String → GroupLayout → Prop} (path : String) :
    ∀ {gs : List GroupLayout} {c : Cursor} (acc : Fields), c.Within data →
    (∀ g ∈ gs, G (childPath path g.name) g) →
    (∀ g ∈ gs, ∀ index own g', g.body.HasGroupAt (itemPath (childPath path g.name) index) own g' →
      G own g') →
    Yields (·.2.Within data) (·.TrueOf data G) (decodeGroups gs path acc c)
  | [], c, acc, hc, _, _ => by
    rw [decodeGroups]
    exact hc
  | ⟨name, id, since, dimension, body, description⟩ :: gs, c, acc, hc, hown, hinner => by
    obtain ⟨hg, hown⟩ := List.forall_mem_cons.1 hown
    obtain ⟨hbody, hinner⟩ := List.forall_mem_cons.1 hinner
    rw [decodeGroups]
    refine (GroupLayout.yields_decodeDimension hg hc).bind ?_
    rintro ⟨header, c₁⟩ hc₁
    refine (yields_decodeItems (fun index c hc => ?_) 0 hc₁).bind ?_
    · exact (BodyLayout.yields_decode header.blockLength name _ hc).mono (fun _ h => h)
        fun e he => he.mono fun own g' h => hbody index own g' h
    · rintro ⟨elements, c₂⟩ hc₂
      exact yields_decodeGroups path _ hc₂ hown hinner

end

end Decoding

/-! ## Messages -/

namespace MessageCodec

variable {m : MessageCodec} {bs : Bytes} {e : CodecError}

theorem trueOf_of_decodeBody {blockLength : Nat} (he : m.decodeBody bs blockLength = .error e) :
    e.TrueOf bs (m.message.body.HasGroupAt m.message.name) := by
  have hc : Cursor.Within bs ⟨bs, 0⟩ := ⟨rfl, Nat.zero_le _⟩
  exact ((BodyLayout.yields_decode blockLength _ _ hc).map (R := fun _ => True)
    fun _ _ => trivial).error he

theorem trueOf_of_decode (he : m.decode bs = .error e) :
    e.TrueOf bs (m.message.body.HasGroupAt m.message.name) := by
  have hc : Cursor.Within bs ⟨bs, 0⟩ := ⟨rfl, Nat.zero_le _⟩
  have hheader : Yields (fun _ => True) (·.TrueOf bs (m.message.body.HasGroupAt m.message.name))
      (MessageHeader.decode m.header bs) := by
    refine (HeaderSlot.yields_read _ hc _ _).bind ?_
    rintro ⟨blockLength, c₁⟩ ⟨-, hc₁⟩
    refine (HeaderSlot.yields_read _ hc₁ _ _).bind ?_
    rintro ⟨templateId, c₂⟩ ⟨-, hc₂⟩
    refine (HeaderSlot.yields_read _ hc₂ _ _).bind ?_
    rintro ⟨schemaId, c₃⟩ ⟨-, hc₃⟩
    refine (HeaderSlot.yields_read _ hc₃ _ _).bind ?_
    rintro ⟨version, c₄⟩ -
    trivial
  refine Yields.error (Q := fun _ => True) (hheader.bind fun header _ => ?_) he
  split
  · trivial
  · refine (yields_seekFor hc _ _).bind ?_
    rintro c' ⟨hc', -⟩
    exact (BodyLayout.yields_decode _ _ _ hc').map fun _ _ => trivial

/-- The bounds that an error of the decoder names are those of the bytes it was given, in a message
with its header and in a body alone. -/
theorem trueOf_of_eq_error
    (he : m.decode bs = .error e ∨ ∃ blockLength, m.decodeBody bs blockLength = .error e) :
    e.TrueOf bs (m.message.body.HasGroupAt m.message.name) := by
  rcases he with he | ⟨blockLength, he⟩
  · exact trueOf_of_decode he
  · exact trueOf_of_decodeBody he

end MessageCodec

namespace Orders

/-- An order that claims two hundred fills of two bytes has four bytes for them, and one of three
bytes ends before its version. -/
theorem trueOf_overfilled :
    (CodecError.groupOverrun "Order.fills" 6 200 2 2 4).TrueOf overfilled
      (codec.message.body.HasGroupAt "Order")
    ∧ (CodecError.outOfBounds "header.version" 3 1 3).TrueOf [5, 0, 7]
      (codec.message.body.HasGroupAt "Order") :=
  ⟨MessageCodec.trueOf_of_eq_error (m := codec) (.inr ⟨6, rfl⟩),
    MessageCodec.trueOf_of_eq_error (m := codec) (.inl rfl)⟩

end Orders

end SimpleBinary
