import Mathlib
import SimpleBinary.Codec.Checking
import SimpleBinary.Proofs.Counted
import SimpleBinary.Proofs.Stable

/-!
# The check of a group's count

Before the elements of a group are read its count is checked against the bytes that are left.  Each
element that is read takes its acting block and its trailer (`BodyLayout.taken_le`), so a count that
is refused would have run out of bytes later on: a decoder that leaves the check out, wherever an
element takes a byte at least, gives the same values (`MessageCodec.decodeBodyUnchecked_eq_ok_iff`).
-/

namespace SimpleBinary

/-! ## All groups checked -/

theorem DimensionLayout.decodeChecking_true (d : DimensionLayout) (trailerLength : Nat)
    (path : String) (c : Cursor) :
    d.decodeChecking (fun _ => true) trailerLength path c = d.decode trailerLength path c := by
  simp only [decodeChecking, decode, true_and]

mutual

theorem BodyLayout.decodeChecking_true : ∀ (b : BodyLayout) (blockLength : Nat) (name path : String)
    (c : Cursor),
    b.decodeChecking (fun _ => true) blockLength name path c = b.decode blockLength name path c
  | ⟨_, fields, groups, varData⟩, blockLength, name, path, c => by
    rw [BodyLayout.decodeChecking, BodyLayout.decode]
    simp only [decodeGroupsChecking_true groups]

theorem decodeGroupsChecking_true : ∀ (groups : List GroupLayout) (path : String) (acc : Fields)
    (c : Cursor),
    decodeGroupsChecking (fun _ => true) groups path acc c = decodeGroups groups path acc c
  | [], path, acc, c => by rw [decodeGroupsChecking, decodeGroups]
  | ⟨name, _, _, dimension, body, _⟩ :: groups, path, acc, c => by
    rw [decodeGroupsChecking, decodeGroups]
    simp only [DimensionLayout.decodeChecking_true, body.decodeChecking_true,
      decodeGroupsChecking_true groups]

end

/-! ## Groups unchecked -/

theorem toOption_bind_congr {ε α β : Type} {x : Except ε α} {f g : α → Except ε β}
    (h : ∀ a, x = .ok a → (f a).toOption = (g a).toOption) :
    (x >>= f).toOption = (x >>= g).toOption := by
  cases x with
  | error e => rfl
  | ok a => exact h a rfl

/-- A header is read as with the check, unless it is left out and would have failed. -/
theorem DimensionLayout.decodeChecking_cases (checks : Nat → Bool) (d : DimensionLayout)
    (trailerLength : Nat) (path : String) (c : Cursor) :
    d.decodeChecking checks trailerLength path c = d.decode trailerLength path c
    ∨ ∃ header rest, d.decodeChecking checks trailerLength path c = .ok (header, rest)
      ∧ (d.decode trailerLength path c).toOption = none
      ∧ checks (header.blockLength + trailerLength) = false
      ∧ rest.index ≤ rest.data.length
      ∧ rest.remaining < header.count * elementLength header.blockLength trailerLength := by
  unfold decodeChecking decode
  dsimp only
  cases d.blockLength.read c.index path c with
  | error e => exact .inl rfl
  | ok r =>
    obtain ⟨blockLength, c₁⟩ := r
    rw [ok_bind, ok_bind]
    dsimp only
    cases d.numInGroup.read c.index path c₁ with
    | error e => exact .inl rfl
    | ok r =>
      obtain ⟨count, c₂⟩ := r
      rw [ok_bind, ok_bind]
      dsimp only
      rcases seekFor_eq c₂ path (c.index + d.encodedLength) with ⟨-, e, he⟩ | ⟨hle, he⟩
      · rw [he]
        exact .inl rfl
      · rw [he, ok_bind, ok_bind]
        by_cases hover : (Cursor.mk c₂.data (c.index + d.encodedLength)).remaining
            < count * max (min (blockLength + trailerLength) (UInt64.size - 1)) 1
        · cases hc : checks (blockLength + trailerLength) with
          | true => exact .inl (by simp)
          | false =>
            refine .inr ⟨⟨blockLength, count⟩, ⟨c₂.data, c.index + d.encodedLength⟩, ?_, ?_, hc,
              hle, hover⟩
            · rw [if_neg (by simp)]
              rfl
            · rw [if_pos hover]
              rfl
        · rw [if_neg hover, if_neg fun h => hover h.2]
          exact .inl rfl

/-- Items are read alike if each is, wherever it starts. -/
theorem toOption_decodeItems_congr {f g : String → Cursor → Except CodecError (Value × Cursor)}
    (hfg : ∀ path c, c.index ≤ c.data.length → (f path c).toOption = (g path c).toOption)
    (hg : ∀ path c r, c.index ≤ c.data.length → g path c = .ok r → r.2.index ≤ r.2.data.length)
    (path : String) : ∀ (count index : Nat) (c : Cursor), c.index ≤ c.data.length →
    (decodeItems f path count index c).toOption = (decodeItems g path count index c).toOption
  | 0, _, _, _ => rfl
  | count + 1, index, c, hc => by
    rw [decodeItems, decodeItems, toOption_bind, hfg _ c hc, ← toOption_bind]
    refine toOption_bind_congr fun r hr => ?_
    rw [toOption_bind, toOption_bind,
      toOption_decodeItems_congr hfg hg path count (index + 1) r.2 (hg _ c r hc hr)]

theorem Cursor.at_self {c : Cursor} (hc : c.index ≤ c.data.length) : c.At (c.data.drop c.index) :=
  ⟨hc, rfl⟩

/-- What was read leaves the cursor within the data. -/
theorem Parses.index_le {α : Type} {r : Except CodecError (α × Cursor)} {o : Option (α × Bytes)}
    {p : α × Cursor} (h : Parses r o) (hr : r = .ok p) : p.2.index ≤ p.2.data.length := by
  rw [hr] at h
  obtain ⟨rest, -, hat⟩ := h
  exact hat.1

/-- Items that are too many for the bytes left are not read. -/
theorem toOption_decodeItems_of_overrun {body : BodyLayout} (hb : body.Laid) {blockLength : Nat}
    {name path : String} {count : Nat} {c : Cursor} (hc : c.index ≤ c.data.length)
    (hpos : 1 ≤ blockLength + body.trailerLength)
    (hover : c.remaining < count * elementLength blockLength body.trailerLength) :
    (decodeItems (fun path c => body.decode blockLength name path c) path count 0 c).toOption
      = none := by
  have hat := Cursor.at_self hc
  have hp := parses_decodeItems
    (fun path _ _ h => BodyLayout.parses_decode hb blockLength name path h) path count 0 hat
  cases hd : decodeItems (fun path c => body.decode blockLength name path c) path count 0 c with
  | error e => rfl
  | ok r =>
    rw [hd] at hp
    obtain ⟨rest, hrest, -⟩ := hp
    have htaken := taken_le_of_parseItems? (fun _ _ _ hv => BodyLayout.taken_le hv) hrest
    have hle := Nat.mul_le_mul_left count (elementLength_le hpos)
    have hlen := hat.length
    unfold Cursor.remaining at hover
    omega

mutual

/-- Without the check the same bodies are read. -/
theorem BodyLayout.toOption_decodeChecking (checks : Nat → Bool) (h0 : checks 0) :
    ∀ {b : BodyLayout}, b.Laid → ∀ (blockLength : Nat) (name path : String) (c : Cursor),
    (b.decodeChecking checks blockLength name path c).toOption
      = (b.decode blockLength name path c).toOption
  | ⟨_, fields, groups, varData⟩, hb, blockLength, name, path, c => by
    rw [BodyLayout.Laid] at hb
    rw [BodyLayout.decodeChecking, BodyLayout.decode]
    refine toOption_bind_congr fun r _ => ?_
    refine toOption_bind_congr fun c' hc' => ?_
    have hle : c'.index ≤ c'.data.length := by
      rcases seekFor_eq r.2 path (c.index + blockLength) with ⟨-, e, he⟩ | ⟨hle, he⟩
      · rw [he] at hc'
        cases hc'
      · rw [he] at hc'
        cases hc'
        exact hle
    rw [toOption_bind, toOption_decodeGroupsChecking checks h0 hb.2 path r.1 c' hle,
      ← toOption_bind]

theorem toOption_decodeGroupsChecking (checks : Nat → Bool) (h0 : checks 0) :
    ∀ {groups : List GroupLayout}, groupsLaid groups → ∀ (path : String) (acc : Fields) (c : Cursor),
    c.index ≤ c.data.length →
    (decodeGroupsChecking checks groups path acc c).toOption
      = (decodeGroups groups path acc c).toOption
  | [], _, path, acc, c, _ => by rw [decodeGroupsChecking, decodeGroups]
  | ⟨name, _, _, dimension, body, _⟩ :: groups, hg, path, acc, c, hc => by
    rw [groupsLaid] at hg
    obtain ⟨hd, hb, hrest⟩ := hg
    rw [decodeGroupsChecking, decodeGroups]
    dsimp only
    have hitems : ∀ (blockLength count : Nat) (c' : Cursor), c'.index ≤ c'.data.length →
        (decodeItems (fun path c => body.decodeChecking checks blockLength name path c)
          (childPath path name) count 0 c').toOption
        = (decodeItems (fun path c => body.decode blockLength name path c) (childPath path name)
          count 0 c').toOption := fun blockLength count c' hc' =>
      toOption_decodeItems_congr
        (fun path c _ => BodyLayout.toOption_decodeChecking checks h0 hb blockLength name path c)
        (fun path c r hc hr => (BodyLayout.parses_decode hb blockLength name path
          (Cursor.at_self hc)).index_le hr) _ count 0 c' hc'
    rcases dimension.decodeChecking_cases checks body.trailerLength (childPath path name) c
      with heq | ⟨header, c', hok, hnone, hcheck, hle, hover⟩
    · rw [heq]
      refine toOption_bind_congr fun r hr => ?_
      have hle := (DimensionLayout.parses_decode hd _ _ (Cursor.at_self hc)).index_le hr
      rw [toOption_bind, hitems _ _ _ hle, ← toOption_bind]
      refine toOption_bind_congr fun r' hr' => ?_
      have hle' := (parses_decodeItems (fun path _ _ h => BodyLayout.parses_decode hb
        r.1.blockLength name path h) _ _ _ (Cursor.at_self hle)).index_le hr'
      exact toOption_decodeGroupsChecking checks h0 hrest path _ r'.2 hle'
    · have hpos : 1 ≤ header.blockLength + body.trailerLength := by
        by_contra hzero
        rw [not_le, Nat.lt_one_iff] at hzero
        rw [hzero, h0] at hcheck
        cases hcheck
      rw [hok, ok_bind, toOption_bind, toOption_bind, hnone]
      dsimp only
      rw [hitems _ _ _ hle, toOption_decodeItems_of_overrun hb hle hpos hover]
      rfl

end

/-! ## Messages -/

/-- The decoder checks every group; without the check, wherever an element takes a byte at least, it
gives the same values. -/
theorem MessageCodec.decodeBodyUnchecked_eq_ok_iff {m : MessageCodec} {tokens : List Token}
    (ht : MessageLayout.ofTokens tokens = .ok m.message) (bs : Bytes) (blockLength : Nat) :
    m.decodeBodyChecking (fun _ => true) bs blockLength = m.decodeBody bs blockLength
    ∧ ∀ v, m.decodeBodyUnchecked bs blockLength = .ok v ↔ m.decodeBody bs blockLength = .ok v := by
  refine ⟨?_, fun v => ?_⟩
  · rw [decodeBodyChecking, BodyLayout.decodeChecking_true, decodeBody, decodeAt]
  · have hlaid := MessageLayout.laid_of_ofTokens ht
    rw [← toOption_eq_some_iff, ← toOption_eq_some_iff, decodeBodyUnchecked, decodeBodyChecking,
      decodeBody, decodeAt, toOption_map, toOption_map,
      BodyLayout.toOption_decodeChecking (· == 0) rfl hlaid]

namespace Orders

/-- An order that claims two hundred fills and has none. -/
def overfilled : Bytes := [65, 0, 200, 7, 1, 99, 2, 200, 128, 9, 1, 120]

/-- An order from elsewhere is read without the check, and one that claims too many fills is read
neither with the check nor without it. -/
theorem decodeBodyUnchecked_foreign : (∃ v, codec.decodeBodyUnchecked foreign 6 = .ok v)
    ∧ ∀ v, codec.decodeBodyUnchecked overfilled 6 ≠ .ok v := by
  obtain ⟨-, hforeign⟩ :=
    MessageCodec.decodeBodyUnchecked_eq_ok_iff (m := codec) ofTokens_tokens foreign 6
  obtain ⟨-, hover⟩ :=
    MessageCodec.decodeBodyUnchecked_eq_ok_iff (m := codec) ofTokens_tokens overfilled 6
  obtain ⟨v, hv⟩ : ∃ v, codec.decodeBody foreign 6 = .ok v := by
    simp only [← toOption_eq_some_iff, ← Option.isSome_iff_exists]
    decide +kernel
  have hnone : (codec.decodeBody overfilled 6).toOption.isNone := by decide +kernel
  refine ⟨⟨v, (hforeign v).2 hv⟩, fun w hw => ?_⟩
  rw [toOption_eq_some_iff.2 ((hover w).1 hw)] at hnone
  exact absurd hnone (by simp)

end Orders

end SimpleBinary
