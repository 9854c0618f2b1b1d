import Mathlib
import SimpleBinary.Proofs.Images

/-!
# How long an encoding is

The block of a body takes its length, the groups and the var-data behind it take what their values
ask for: `BodyLayout.size` follows the elements of a value through the groups of a layout.  A value
that is encoded has just as many bytes (`BodyLayout.length_image?`).
-/

namespace SimpleBinary

/-- The items of the array that a value has under a name. -/
def Value.itemsOf (v : Value) (name : String) : List Value := (v.field? name).elim [] asArray

theorem Value.itemsOf_of_field? {v : Value} {name : String} {items : List Value}
    (h : v.field? name = some (.array items)) : v.itemsOf name = items := by
  rw [itemsOf, h]
  rfl

/-- Only an array has items. -/
theorem Value.field?_of_itemsOf {v x : Value} {name : String} {j : Nat}
    (h : (v.itemsOf name)[j]? = some x) : v.field? name = some (.array (v.itemsOf name)) := by
  unfold itemsOf at h ⊢
  cases hfield : v.field? name with
  | none =>
    rw [hfield] at h
    cases h
  | some element =>
    rw [hfield] at h
    cases element with
    | array items => rfl
    | _ => cases h

/-- The bytes of var-data: its length, and as many as the payload has. -/
def VarDataLayout.size (d : VarDataLayout) (v : Option Value) : Nat :=
  d.headerLength + ((d.payload? v).getD []).length

/-- The bytes of all var-data of a value. -/
def varDataSize (ds : List VarDataLayout) (v : Value) : Nat :=
  (ds.map fun d => d.size (v.field? d.name)).sum

mutual

/-- The bytes of a value. -/
def BodyLayout.size : BodyLayout → Value → Nat
  | ⟨blockLength, _, groups, varData⟩, v =>
    blockLength + groupsSize groups v + varDataSize varData v

/-- The bytes of the groups of a value. -/
def groupsSize : List GroupLayout → Value → Nat
  | [], _ => 0
  | ⟨name, _, _, dimension, body, _⟩ :: groups, v =>
    dimension.encodedLength + ((v.itemsOf name).map fun e => body.size e).sum + groupsSize groups v

end

theorem VarDataLayout.length_image? {d : VarDataLayout} {v : Option Value} {w : Bytes}
    (h : d.image? v = some w) : w.length = d.size v := by
  obtain ⟨payload, hp, h⟩ := Option.bind_eq_some_iff.1 h
  obtain ⟨length, hl, h⟩ := Option.bind_eq_some_iff.1 h
  cases h
  rw [size, hp, Option.getD_some, headerLength, List.length_append, List.length_append,
    length_zeros, HeaderSlot.length_image? hl]

/-- Bytes one behind the other are as many as those of the parts. -/
theorem length_concat?_eq {α : Type} {f : α → Option Bytes} {size : α → Nat} :
    ∀ {xs : List α} {w : Bytes}, (∀ x ∈ xs, ∀ {w : Bytes}, f x = some w → w.length = size x) →
    concat? f xs = some w → w.length = (xs.map size).sum
  | [], w, _, hw => by
    cases hw
    rfl
  | x :: xs, w, h, hw => by
    obtain ⟨hx, hxs⟩ := List.forall_mem_cons.1 h
    obtain ⟨first, rest, hf, hr, rfl⟩ := concat?_cons_eq_some_iff.1 hw
    rw [List.length_append, hx hf, length_concat?_eq hxs hr, List.map_cons, List.sum_cons]

theorem length_varDataImage?_eq {ds : List VarDataLayout} {v : Value} {w : Bytes}
    (h : varDataImage? v ds = some w) : w.length = varDataSize ds v :=
  length_concat?_eq (fun _ _ _ hd => VarDataLayout.length_image? hd) h

mutual

/-- A value that has bytes has as many as its size says. -/
theorem BodyLayout.length_image? : ∀ {b : BodyLayout}, b.Laid → ∀ {v : Value} {w : Bytes},
    b.image? v = some w → w.length = b.size v
  | ⟨blockLength, fields, groups, varData⟩, hb, v, w, h => by
    rw [BodyLayout.Laid] at hb
    obtain ⟨-, block, elements, data, hf, hg, hd, rfl⟩ := BodyLayout.image?_eq_some_iff.1 h
    rw [BodyLayout.size, List.length_append, List.length_append,
      length_padTo_fieldsImage? hb.1 hf, length_groupsImage?_eq hb.2 hg,
      length_varDataImage?_eq hd]

theorem length_groupsImage?_eq : ∀ {groups : List GroupLayout}, groupsLaid groups →
    ∀ {v : Value} {w : Bytes}, groupsImage? groups v = some w → w.length = groupsSize groups v
  | [], _, v, w, h => by
    rw [groupsImage?] at h
    cases h
    rw [groupsSize, List.length_nil]
  | ⟨name, _, _, dimension, body, _⟩ :: groups, hg, v, w, h => by
    rw [groupsLaid] at hg
    obtain ⟨hd, hb, hrest⟩ := hg
    obtain ⟨elements, header, items, rest, hfield, hh, hi, hr, rfl⟩ :=
      groupsImage?_cons_eq_some_iff.1 h
    have hitems := length_concat?_eq (fun _ _ _ hv => BodyLayout.length_image? hb hv) hi
    rw [groupsSize, Value.itemsOf_of_field? hfield, List.length_append, List.length_append,
      DimensionLayout.length_image? hd hh, hitems, length_groupsImage?_eq hrest hr]

end

end SimpleBinary
