import Mathlib
import SimpleBinary.Proofs.Sizes
import SimpleBinary.Proofs.Truncation

/-!
# The bytes that a field owns

The blocks of a message lie where the sizes of what comes before them say (`BodyLayout.blockAt?`).
What is written around an element depends on everything but the element (`BodyLayout.front?_congr`,
`BodyLayout.back?_congr`), and a field takes as many bytes whatever its value is, so a value in which
one field of one block is another has the same bytes outside of that field
(`BodyLayout.alike_of_differsAt`).  The bytes of a block that belong to no field are zero
(`getElem?_fieldsImage?`).
-/

namespace SimpleBinary

/-! ## Stretches of bytes -/

/-- Runs of bytes of one length that are alike outside of a stretch. -/
structure AlikeOutside (start stop : Nat) (bs bs' : Bytes) : Prop where
  length : bs.length = bs'.length
  alike : ∀ i, i < start ∨ stop ≤ i → bs[i]? = bs'[i]?

namespace AlikeOutside

variable {start stop start' stop' : Nat} {bs bs' : Bytes}

theorem of_length (h : bs.length = bs'.length) : AlikeOutside 0 bs.length bs bs' := by
  refine ⟨h, fun i hi => ?_⟩
  have hstop : bs.length ≤ i := by omega
  rw [List.getElem?_eq_none hstop, List.getElem?_eq_none (h ▸ hstop)]

/-- The same bytes on either side of them. -/
theorem append (h : AlikeOutside start stop bs bs') (pre post : Bytes)
    (hstart : start' = pre.length + start) (hstop : stop' = pre.length + stop) :
    AlikeOutside start' stop' (pre ++ bs ++ post) (pre ++ bs' ++ post) := by
  have hlength := h.length
  refine ⟨by simp only [List.length_append, hlength], fun i hi => ?_⟩
  rw [List.append_assoc, List.append_assoc]
  rcases lt_or_ge i pre.length with hpre | hpre
  · rw [List.getElem?_append_left hpre, List.getElem?_append_left hpre]
  · rw [List.getElem?_append_right hpre, List.getElem?_append_right hpre]
    rcases lt_or_ge (i - pre.length) bs.length with hmid | hmid
    · rw [List.getElem?_append_left hmid, List.getElem?_append_left (hlength ▸ hmid)]
      exact h.alike _ (by omega)
    · rw [List.getElem?_append_right hmid, List.getElem?_append_right (hlength ▸ hmid), hlength]

end AlikeOutside

/-- The bytes of what comes first are in front of those of the rest. -/
theorem exists_of_concat?_append {α : Type} {f : α → Option Bytes} {ys : List α} :
    ∀ {xs : List α} {w : Bytes}, concat? f (xs ++ ys) = some w →
    ∃ front back, concat? f xs = some front ∧ concat? f ys = some back ∧ w = front ++ back
  | [], w, h => ⟨[], w, rfl, h, rfl⟩
  | x :: xs, w, h => by
    obtain ⟨first, rest, hf, hr, rfl⟩ := concat?_cons_eq_some_iff.1 h
    obtain ⟨front, back, hfront, hback, rfl⟩ := exists_of_concat?_append hr
    exact ⟨first ++ front, back, concat?_cons_eq_some_iff.2 ⟨first, front, hf, hfront, rfl⟩, hback,
      (List.append_assoc _ _ _).symm⟩

theorem take_append_cons_drop {α : Type} {xs : List α} {i : Nat} {x : α} (h : xs[i]? = some x) :
    xs.take i ++ x :: xs.drop (i + 1) = xs := by
  obtain ⟨hi, rfl⟩ := List.getElem?_eq_some_iff.1 h
  rw [List.cons_getElem_drop_succ, List.take_append_drop]

/-! ## The fields of a block -/

/-- The bytes of a field are at its offset. -/
theorem take_drop_fieldsImage? {v : Value} {limit : Nat} {f : FieldLayout} :
    ∀ {fields : List FieldLayout} {cursor : Nat} {w : Bytes}, fieldsLaid cursor limit fields →
    fieldsImage? cursor v fields = some w → f ∈ fields →
    ∃ own, f.kind.image? (v.field? f.name) = some own ∧ own.length = f.width
      ∧ (w.drop (f.offset - cursor)).take f.width = own
  | [], _, _, _, _, hf => absurd hf List.not_mem_nil
  | ⟨name, id, since, offset, description, kind⟩ :: fields, cursor, w, hl, h, hf => by
    rw [fieldsLaid] at hl
    obtain ⟨hcur, hk, hrest⟩ := hl
    obtain ⟨bs, rest, hb, hr, rfl⟩ := fieldsImage?_cons_eq_some_iff.1 h
    have hbs := FieldKind.length_image? hk hb
    rcases List.mem_cons.1 hf with rfl | hf
    · refine ⟨bs, hb, hbs, ?_⟩
      rw [List.append_assoc, List.drop_left' (length_zeros _)]
      exact List.take_left' hbs
    · obtain ⟨own, hown, hlength, htake⟩ := take_drop_fieldsImage? hrest hr hf
      have hbehind := cursor_le_offset hrest f hf
      have hfront : (zeros (offset - cursor) ++ bs).length = offset - cursor + kind.width := by
        rw [List.length_append, length_zeros, hbs]
      refine ⟨own, hown, hlength, ?_⟩
      rw [show f.offset - cursor
          = offset - cursor + kind.width + (f.offset - (offset + kind.width)) from by omega,
        ← List.drop_drop, List.drop_left' hfront, htake]

/-- A byte behind the fields before it and before those behind it is zero. -/
theorem getElem?_fieldsImage? {v : Value} {limit : Nat} : ∀ {fields : List FieldLayout}
    {cursor : Nat} {w : Bytes}, fieldsLaid cursor limit fields →
    fieldsImage? cursor v fields = some w → ∀ {i : Nat}, i < w.length →
    (∀ f ∈ fields, cursor + i < f.offset ∨ f.stop ≤ cursor + i) → w[i]? = some 0
  | [], cursor, w, _, h, i, hi, _ => by
    rw [fieldsImage?] at h
    cases h
    exact absurd hi (Nat.not_lt_zero i)
  | ⟨name, id, since, offset, description, kind⟩ :: fields, cursor, w, hl, h, i, hi, hout => by
    rw [fieldsLaid] at hl
    obtain ⟨hcur, hk, hrest⟩ := hl
    obtain ⟨hhead, hout⟩ := List.forall_mem_cons.1 hout
    obtain ⟨bs, rest, hb, hr, rfl⟩ := fieldsImage?_cons_eq_some_iff.1 h
    have hbs := FieldKind.length_image? hk hb
    simp only [FieldLayout.stop, FieldLayout.width] at hhead
    rw [List.append_assoc] at hi ⊢
    rcases hhead with hbefore | hbehind
    · rw [List.getElem?_append_left (by rw [length_zeros]; omega), zeros,
        List.getElem?_replicate_of_lt (by omega)]
    · have hfront : (zeros (offset - cursor) ++ bs).length ≤ i := by
        rw [List.length_append, length_zeros, hbs]
        omega
      rw [← List.append_assoc, List.getElem?_append_right hfront]
      rw [List.length_append, length_zeros, hbs] at hfront ⊢
      simp only [List.length_append, length_zeros, hbs] at hi
      refine getElem?_fieldsImage? hrest hr (by omega) fun f hf => ?_
      have := hout f hf
      omega

theorem fieldsImage?_congr {u v : Value} : ∀ {fields : List FieldLayout} (cursor : Nat),
    (∀ f ∈ fields, u.field? f.name = v.field? f.name) →
    fieldsImage? cursor u fields = fieldsImage? cursor v fields
  | [], cursor, _ => by rw [fieldsImage?, fieldsImage?]
  | ⟨name, _, _, offset, _, kind⟩ :: fields, cursor, h => by
    obtain ⟨hf, hfs⟩ := List.forall_mem_cons.1 h
    rw [fieldsImage?, fieldsImage?, hf, fieldsImage?_congr _ hfs]

/-- Fields of which one has another value take the same bytes, but for those of that field. -/
theorem alike_fieldsImage? {u v : Value} {limit : Nat} {f : FieldLayout} :
    ∀ {fields : List FieldLayout} {cursor : Nat} {w w' : Bytes}, fieldsLaid cursor limit fields →
    (fields.map (·.name)).Nodup → f ∈ fields →
    (∀ n, n ≠ f.name → v.field? n = u.field? n) → fieldsImage? cursor u fields = some w →
    fieldsImage? cursor v fields = some w' →
    AlikeOutside (f.offset - cursor) (f.stop - cursor) w w'
  | [], _, _, _, _, _, hf, _, _, _ => absurd hf List.not_mem_nil
  | ⟨name, id, since, offset, description, kind⟩ :: fields, cursor, w, w', hl, hn, hf, hsame, hu,
      hv => by
    have hcursor := cursor_le_offset hl f hf
    rw [fieldsLaid] at hl
    obtain ⟨hcur, hk, hrest⟩ := hl
    rw [List.map_cons, List.nodup_cons] at hn
    obtain ⟨bs, rest, hb, hr, rfl⟩ := fieldsImage?_cons_eq_some_iff.1 hu
    obtain ⟨bs', rest', hb', hr', rfl⟩ := fieldsImage?_cons_eq_some_iff.1 hv
    have hbs := FieldKind.length_image? hk hb
    have hbs' := FieldKind.length_image? hk hb'
    rcases List.mem_cons.1 hf with rfl | hf
    · -- the field itself: its bytes are as many, and nothing behind it changes
      have hothers : fieldsImage? (offset + kind.width) v fields
          = fieldsImage? (offset + kind.width) u fields := by
        refine fieldsImage?_congr _ fun g hg => hsame g.name fun heq => hn.1 ?_
        exact List.mem_map.2 ⟨g, hg, heq⟩
      rw [hothers, hr] at hr'
      cases hr'
      have hown := AlikeOutside.of_length (hbs.trans hbs'.symm)
      refine hown.append (zeros (offset - cursor)) rest ?_ ?_
      · rw [length_zeros, Nat.add_zero]
      · simp only [FieldLayout.stop, FieldLayout.width, length_zeros, hbs]
        omega
    · -- a field behind: the bytes before it are the same
      have hname : v.field? name = u.field? name :=
        hsame name fun heq => hn.1 (List.mem_map.2 ⟨f, hf, heq.symm⟩)
      rw [hname, hb] at hb'
      cases hb'
      have hbehind := cursor_le_offset hrest f hf
      have hinner := alike_fieldsImage? hrest hn.2 hf hsame hr hr'
      rw [← List.append_nil (zeros (offset - cursor) ++ bs ++ rest),
        ← List.append_nil (zeros (offset - cursor) ++ bs ++ rest')]
      refine hinner.append (zeros (offset - cursor) ++ bs) [] ?_ ?_
      · rw [List.length_append, length_zeros, hbs]
        omega
      · rw [List.length_append, length_zeros, hbs, FieldLayout.stop]
        omega

/-! ## The blocks of a message -/

/-- A block in the bytes of a value: where it starts, and the body and the value that it is of. -/
structure Block where
  start : Nat
  body : BodyLayout
  value : Value

namespace BodyLayout

/-- Where an element of a group starts: behind the block, the groups before its own, the header of
its group and the elements before it. -/
def elementStart (b : BodyLayout) (v : Value) (i : Nat) (g : GroupLayout) (j : Nat) : Nat :=
  b.blockLength + groupsSize (b.groups.take i) v + g.dimension.encodedLength
    + (((v.itemsOf g.name).take j).map fun x => g.body.size x).sum

/-- The block of a value, or of one of its elements: from a body into the element `j` of its group
`i`, and on from there. -/
def blockAt? : (path : List (Nat × Nat)) → BodyLayout → Value → Option Block
  | [], b, v => some ⟨0, b, v⟩
  | (i, j) :: path, b, v => do
    let g ← b.groups[i]?
    let x ← (v.itemsOf g.name)[j]?
    let block ← blockAt? path g.body x
    return { block with start := b.elementStart v i g j + block.start }

/-- Two values that differ in no more than what one of their blocks has under a name. -/
inductive DiffersAt (name : String) : (path : List (Nat × Nat)) → BodyLayout → Value → Value → Prop
  | here {b : BodyLayout} {v v' : Value} (h : ∀ n, n ≠ name → v'.field? n = v.field? n) :
    DiffersAt name [] b v v'
  | within {b : BodyLayout} {v v' : Value} {i j : Nat} {path : List (Nat × Nat)} {g : GroupLayout}
    {items : List Value} {x x' : Value} (hg : b.groups[i]? = some g)
    (h : ∀ n, n ≠ g.name → v'.field? n = v.field? n)
    (hitems : v.field? g.name = some (.array items)) (hx : items[j]? = some x)
    (hitems' : v'.field? g.name = some (.array (items.set j x')))
    (hinner : DiffersAt name path g.body x x') : DiffersAt name ((i, j) :: path) b v v'

/-- The bytes in front of an element of a group. -/
def front? (b : BodyLayout) (v : Value) (i : Nat) (g : GroupLayout) (items : List Value) (j : Nat) :
    Option Bytes := do
  let block ← fieldsImage? 0 v b.fields
  let groups ← groupsImage? (b.groups.take i) v
  let header ← g.dimension.image? g.body.blockLength items.length
  let before ← concat? (fun x => g.body.image? x) (items.take j)
  return padTo b.blockLength block ++ groups ++ header ++ before

/-- The bytes behind an element of a group. -/
def back? (b : BodyLayout) (v : Value) (i : Nat) (g : GroupLayout) (items : List Value) (j : Nat) :
    Option Bytes := do
  let behind ← concat? (fun x => g.body.image? x) (items.drop (j + 1))
  let groups ← groupsImage? (b.groups.drop (i + 1)) v
  let data ← varDataImage? v b.varData
  return behind ++ groups ++ data

end BodyLayout

/-- The bytes of the group of a value. -/
def GroupLayout.image? (g : GroupLayout) (v : Value) : Option Bytes :=
  match v.field? g.name with
  | some (.array elements) => do
    let header ← g.dimension.image? g.body.blockLength elements.length
    let items ← concat? (fun x => g.body.image? x) elements
    return header ++ items
  | _ => none

theorem groupsImage?_eq_concat? (v : Value) (groups : List GroupLayout) :
    groupsImage? groups v = concat? (·.image? v) groups := by
  induction groups with
  | nil => rw [groupsImage?, concat?]
  | cons g groups ih =>
    obtain ⟨name, id, since, dimension, body, description⟩ := g
    rw [groupsImage?, concat?_cons, ← ih, GroupLayout.image?]
    dsimp only
    cases v.field? name with
    | none => rfl
    | some element =>
      cases element with
      | array elements =>
        dsimp only
        cases dimension.image? body.blockLength elements.length with
        | none => rfl
        | some header =>
          cases concat? (fun x => body.image? x) elements with
          | none => rfl
          | some items => cases groupsImage? groups v <;> rfl
      | _ => rfl

theorem groupsImage?_congr {u v : Value} {groups : List GroupLayout}
    (h : ∀ g ∈ groups, u.field? g.name = v.field? g.name) :
    groupsImage? groups u = groupsImage? groups v := by
  rw [groupsImage?_eq_concat?, groupsImage?_eq_concat?]
  refine concat?_congr fun g hg => ?_
  rw [GroupLayout.image?, GroupLayout.image?, h g hg]

namespace BodyLayout

variable {b : BodyLayout} {v v' : Value} {i j : Nat} {g : GroupLayout} {items : List Value}
  {x : Value} {w : Bytes}

/-- The bytes of a value are those in front of an element, its own, and those behind it. -/
theorem exists_around (hb : b.Laid) (hg : b.groups[i]? = some g)
    (hitems : v.field? g.name = some (.array items)) (hx : items[j]? = some x)
    (hw : b.image? v = some w) : ∃ front inner back, b.front? v i g items j = some front
      ∧ g.body.image? x = some inner ∧ b.back? v i g items j = some back
      ∧ w = front ++ inner ++ back ∧ front.length = b.elementStart v i g j := by
  obtain ⟨blockLength, fields, groups, varData⟩ := b
  rw [BodyLayout.Laid] at hb
  obtain ⟨-, block, elements, data, hf, he, hd, rfl⟩ := image?_eq_some_iff.1 hw
  dsimp only at hg
  have hlaid := groupsLaid_iff.1 hb.2
  obtain ⟨hdim, hbody⟩ := hlaid g (List.mem_of_getElem? hg)
  -- the groups, and among them the one of the element
  rw [groupsImage?_eq_concat?, ← take_append_cons_drop hg] at he
  obtain ⟨before, after, hbefore, hafter, rfl⟩ := exists_of_concat?_append he
  obtain ⟨own, behind, hown, hbehind, rfl⟩ := concat?_cons_eq_some_iff.1 hafter
  rw [← groupsImage?_eq_concat?] at hbefore hbehind
  rw [GroupLayout.image?, hitems] at hown
  obtain ⟨header, hh, hown⟩ := Option.bind_eq_some_iff.1 hown
  obtain ⟨all, hall, hown⟩ := Option.bind_eq_some_iff.1 hown
  cases hown
  -- its items, and among them the element
  rw [← take_append_cons_drop hx] at hall
  obtain ⟨first, rest, hfirst, hrest, rfl⟩ := exists_of_concat?_append hall
  obtain ⟨inner, last, hinner, hlast, rfl⟩ := concat?_cons_eq_some_iff.1 hrest
  refine ⟨padTo blockLength block ++ before ++ header ++ first, inner, last ++ behind ++ data, ?_,
    hinner, ?_, ?_, ?_⟩
  · simp only [front?, hf, hbefore, hh, hfirst, Option.bind_eq_bind, Option.bind_some,
      Option.pure_def]
  · simp only [back?, hlast, hbehind, hd, Option.bind_eq_bind, Option.bind_some, Option.pure_def]
  · simp only [List.append_assoc]
  · have htake : groupsLaid (groups.take i) :=
      groupsLaid_iff.2 fun g' hg' => hlaid g' (List.mem_of_mem_take hg')
    rw [elementStart, Value.itemsOf_of_field? hitems, List.length_append, List.length_append,
      List.length_append, length_padTo_fieldsImage? hb.1 hf,
      length_groupsImage?_eq htake hbefore,
      DimensionLayout.length_image? hdim hh,
      length_concat?_eq (fun _ _ _ hv => length_image? hbody hv) hfirst]

/-- A group's name is no other element's. -/
theorem Distinct.ne_group (hn : b.Distinct) (hg : b.groups[i]? = some g) :
    (∀ f ∈ b.fields, f.name ≠ g.name) ∧ (∀ g' ∈ b.groups.take i, g'.name ≠ g.name)
      ∧ (∀ g' ∈ b.groups.drop (i + 1), g'.name ≠ g.name) ∧ ∀ d ∈ b.varData, d.name ≠ g.name := by
  have hmem : g.name ∈ b.groups.map (·.name) := List.mem_map_of_mem (List.mem_of_getElem? hg)
  rw [BodyLayout.Distinct, names_elements, List.nodup_append, List.nodup_append] at hn
  obtain ⟨-, ⟨hgroups, -, hdata⟩, hfields⟩ := hn
  rw [← take_append_cons_drop hg, List.map_append, List.map_cons, List.nodup_append,
    List.nodup_cons] at hgroups
  obtain ⟨-, ⟨hdrop, -⟩, htake⟩ := hgroups
  refine ⟨fun f hf => ?_, fun g' hg' => ?_, fun g' hg' heq => ?_, fun d hd heq => ?_⟩
  · exact hfields _ (List.mem_map_of_mem hf) _ (List.mem_append_left _ hmem)
  · exact htake _ (List.mem_map_of_mem hg') _ List.mem_cons_self
  · exact hdrop (List.mem_map.2 ⟨g', hg', heq⟩)
  · exact hdata _ hmem _ (List.mem_map_of_mem hd) heq.symm

/-- What is in front of an element does not depend on it. -/
theorem front?_congr (hn : b.Distinct) (hg : b.groups[i]? = some g)
    (h : ∀ n, n ≠ g.name → v'.field? n = v.field? n) (x' : Value) :
    b.front? v' i g (items.set j x') j = b.front? v i g items j := by
  obtain ⟨hfields, htake, -, -⟩ := hn.ne_group hg
  have hblock : fieldsImage? 0 v' b.fields = fieldsImage? 0 v b.fields :=
    fieldsImage?_congr 0 fun f hf => h f.name (hfields f hf)
  have hbefore : groupsImage? (b.groups.take i) v' = groupsImage? (b.groups.take i) v :=
    groupsImage?_congr fun g' hg' => h g'.name (htake g' hg')
  rw [front?, front?, hblock, hbefore, List.length_set, List.take_set_of_le le_rfl]

/-- What is behind an element does not depend on it. -/
theorem back?_congr (hn : b.Distinct) (hg : b.groups[i]? = some g)
    (h : ∀ n, n ≠ g.name → v'.field? n = v.field? n) (x' : Value) :
    b.back? v' i g (items.set j x') j = b.back? v i g items j := by
  obtain ⟨-, -, hdrop, hdata⟩ := hn.ne_group hg
  have hbehind : groupsImage? (b.groups.drop (i + 1)) v' = groupsImage? (b.groups.drop (i + 1)) v :=
    groupsImage?_congr fun g' hg' => h g'.name (hdrop g' hg')
  have hvarData : varDataImage? v' b.varData = varDataImage? v b.varData :=
    varDataImage?_congr fun d hd => h d.name (hdata d hd)
  rw [back?, back?, hbehind, hvarData, List.drop_set_of_lt (Nat.lt_succ_self j)]

theorem blockAt?_cons {path : List (Nat × Nat)} {block : Block}
    (h : blockAt? ((i, j) :: path) b v = some block) : ∃ g x inner, b.groups[i]? = some g
      ∧ v.field? g.name = some (.array (v.itemsOf g.name)) ∧ (v.itemsOf g.name)[j]? = some x
      ∧ blockAt? path g.body x = some inner
      ∧ block = { inner with start := b.elementStart v i g j + inner.start } := by
  obtain ⟨g, hg, h⟩ := Option.bind_eq_some_iff.1 h
  obtain ⟨x, hx, h⟩ := Option.bind_eq_some_iff.1 h
  obtain ⟨inner, hinner, h⟩ := Option.bind_eq_some_iff.1 h
  cases h
  exact ⟨g, x, inner, hg, Value.field?_of_itemsOf hx, hx, hinner, rfl⟩

/-- The bytes of a value hold each of its blocks where it starts, filled up with zeros. -/
theorem exists_append_of_blockAt? : ∀ {path : List (Nat × Nat)} {b : BodyLayout} {v : Value}
    {w : Bytes} {block : Block}, b.Laid → b.image? v = some w → blockAt? path b v = some block →
    ∃ front image back, w = front ++ padTo block.body.blockLength image ++ back
      ∧ front.length = block.start ∧ fieldsImage? 0 block.value block.body.fields = some image
      ∧ fieldsLaid 0 block.body.blockLength block.body.fields
  | [], b, v, w, block, hb, hw, h => by
    cases h
    obtain ⟨blockLength, fields, groups, varData⟩ := b
    rw [BodyLayout.Laid] at hb
    obtain ⟨-, image, elements, data, hf, he, hd, rfl⟩ := image?_eq_some_iff.1 hw
    exact ⟨[], image, elements ++ data, by rw [List.nil_append, List.append_assoc], rfl, hf, hb.1⟩
  | (i, j) :: path, b, v, w, block, hb, hw, h => by
    obtain ⟨g, x, inner, hg, hitems, hx, hinner, rfl⟩ := blockAt?_cons h
    obtain ⟨front, image, back, -, himage, -, rfl, hfront⟩ := exists_around hb hg hitems hx hw
    have hbody := (groupsLaid_iff.1 (laid_iff.1 hb).2 g (List.mem_of_getElem? hg)).2
    obtain ⟨front', image', back', rfl, hfront', hblock, hlaid⟩ :=
      exists_append_of_blockAt? hbody himage hinner
    refine ⟨front ++ front', image', back' ++ back, by simp only [List.append_assoc], ?_, hblock,
      hlaid⟩
    rw [List.length_append, hfront, hfront']

/-- Values that differ in one field have the same bytes, but for those of the field. -/
theorem alike_image? {f : FieldLayout} {b : BodyLayout} {v v' : Value}
    (h : ∀ n, n ≠ f.name → v'.field? n = v.field? n) (hb : b.Laid) (hn : b.Distinct)
    (hf : f ∈ b.fields) {w w' : Bytes} (hw : b.image? v = some w) (hw' : b.image? v' = some w') :
    AlikeOutside f.offset f.stop w w' := by
  rw [BodyLayout.Distinct, names_elements, List.nodup_append] at hn
  obtain ⟨hfields, -, happart⟩ := hn
  have hother : ∀ n ∈ b.groups.map (·.name) ++ b.varData.map (·.name), n ≠ f.name :=
    fun n hn' => (happart _ (List.mem_map_of_mem hf) n hn').symm
  obtain ⟨blockLength, fields, groups, varData⟩ := b
  rw [BodyLayout.Laid] at hb
  have hgroups : groupsImage? groups v' = groupsImage? groups v :=
    groupsImage?_congr fun g hg => h g.name
      (hother _ (List.mem_append_left _ (List.mem_map_of_mem hg)))
  have hdata : varDataImage? v' varData = varDataImage? v varData :=
    varDataImage?_congr fun d hd => h d.name
      (hother _ (List.mem_append_right _ (List.mem_map_of_mem hd)))
  obtain ⟨-, image, elements, data, hi, he, hd, rfl⟩ := image?_eq_some_iff.1 hw
  obtain ⟨-, image', elements', data', hi', he', hd', rfl⟩ := image?_eq_some_iff.1 hw'
  rw [hgroups, he] at he'
  rw [hdata, hd] at hd'
  cases he'
  cases hd'
  have halike := alike_fieldsImage? hb.1 hfields hf h hi hi'
  have happend : AlikeOutside (0 + f.offset) (0 + f.stop) _ _ :=
    halike.append [] (zeros (blockLength - image.length) ++ elements ++ data) rfl rfl
  rw [padTo_eq, padTo_eq, ← halike.length]
  simpa only [List.nil_append, List.append_assoc, Nat.zero_add] using happend

/-- Values that differ in a field of one block have the same bytes, but for those of the field. -/
theorem alike_of_differsAt {f : FieldLayout} {path : List (Nat × Nat)} {b : BodyLayout}
    {v v' : Value} (h : DiffersAt f.name path b v v') : b.Laid → (∀ b' ∈ b.bodies, b'.Distinct) →
    ∀ {block : Block}, blockAt? path b v = some block → f ∈ block.body.fields → ∀ {w w' : Bytes},
    b.image? v = some w → b.image? v' = some w' →
    AlikeOutside (block.start + f.offset) (block.start + f.stop) w w' := by
  induction h with
  | @here b v v' h =>
    intro hb hn block hblock hf w w' hw hw'
    cases hblock
    have halike := alike_image? h hb (hn b (self_mem_bodies b)) hf hw hw'
    simpa only [Nat.zero_add] using halike
  | @within b v v' i j path g items x x' hg h hitems hx hitems' hinner ih =>
    intro hb hn block hblock hf w w' hw hw'
    have hdistinct := hn b (self_mem_bodies b)
    have hmem := List.mem_of_getElem? hg
    have hbody := (groupsLaid_iff.1 (laid_iff.1 hb).2 g hmem).2
    have hx' : (items.set j x')[j]? = some x' := by
      rw [List.getElem?_set_self (List.getElem?_eq_some_iff.1 hx).1]
    obtain ⟨g', y, inner, hg', -, hy, hblock, rfl⟩ := blockAt?_cons hblock
    rw [hg] at hg'
    cases hg'
    rw [Value.itemsOf_of_field? hitems, hx] at hy
    cases hy
    obtain ⟨front, image, back, hfront, himage, hback, rfl, hstart⟩ :=
      exists_around hb hg hitems hx hw
    obtain ⟨front', image', back', hfront', himage', hback', rfl, -⟩ :=
      exists_around hb hg hitems' hx' hw'
    rw [front?_congr hdistinct hg h, hfront] at hfront'
    rw [back?_congr hdistinct hg h, hback] at hback'
    cases hfront'
    cases hback'
    have halike := ih hbody (fun b' hb' => hn b' (mem_bodies_of_mem_groups hmem hb')) hblock hf
      himage himage'
    refine halike.append front back ?_ ?_
    · rw [hstart, Nat.add_assoc]
    · rw [hstart, Nat.add_assoc]

end BodyLayout

/-! ## Messages -/

/-- In the bytes of a message each field of a block has its bytes at its offset, and what no field
takes is zero.  A value that differs in a field of one block, whatever the field is, has the same
bytes outside of that field. -/
theorem MessageCodec.fields_own_bytes {m : MessageCodec} {tokens : List Token}
    (ht : MessageLayout.ofTokens tokens = .ok m.message) {v : Value} {bs : Bytes}
    (hbs : m.encodeBody v = .ok bs) :
    (∀ path block, m.message.body.blockAt? path v = some block →
      (∀ f ∈ block.body.fields, ∃ own, f.kind.image? (block.value.field? f.name) = some own
        ∧ (bs.drop (block.start + f.offset)).take f.width = own)
      ∧ ∀ i < block.body.blockLength, (∀ f ∈ block.body.fields, i < f.offset ∨ f.stop ≤ i) →
        bs[block.start + i]? = some 0)
    ∧ ((∀ b ∈ m.message.body.bodies, b.Distinct) →
      ∀ path block, m.message.body.blockAt? path v = some block → ∀ f ∈ block.body.fields,
      ∀ v' bs', m.message.body.DiffersAt f.name path v v' → m.encodeBody v' = .ok bs' →
        AlikeOutside (block.start + f.offset) (block.start + f.stop) bs bs') := by
  have hlaid := MessageLayout.laid_of_ofTokens ht
  have himage := (encodeBody_eq_ok_iff hlaid).1 hbs
  constructor
  · intro path block hblock
    obtain ⟨front, image, back, rfl, hfront, hfields, hfit⟩ :=
      BodyLayout.exists_append_of_blockAt? hlaid himage hblock
    have hlength := length_fieldsImage? hfit hfields
    rw [padTo_eq, ← hfront, List.append_assoc, List.append_assoc]
    constructor
    · intro f hf
      obtain ⟨own, hown, hwidth, htake⟩ := take_drop_fieldsImage? hfit hfields hf
      rw [Nat.sub_zero] at htake
      have hstop : f.offset + f.width ≤ image.length ∨ f.width = 0 := by
        rw [← htake, List.length_take, List.length_drop] at hwidth
        omega
      refine ⟨own, hown, ?_⟩
      rw [← List.drop_drop, List.drop_left]
      rcases hstop with hstop | hzero
      · rw [List.drop_append_of_le_length (by omega),
          List.take_append_of_le_length (by rw [List.length_drop]; omega), htake]
      · rw [hzero, List.take_zero]
        exact (List.length_eq_zero_iff.1 (hwidth.trans hzero)).symm
    · intro i hi hout
      rw [List.getElem?_append_right (by omega), Nat.add_sub_cancel_left]
      rcases lt_or_ge i image.length with hin | hbehind
      · rw [List.getElem?_append_left hin]
        refine getElem?_fieldsImage? hfit hfields hin fun f hf => ?_
        rw [Nat.zero_add]
        exact hout f hf
      · rw [List.getElem?_append_right hbehind,
          List.getElem?_append_left (by rw [length_zeros]; omega), zeros,
          List.getElem?_replicate_of_lt (by omega)]
  · intro hn path block hblock f hf v' bs' hdiffers hbs'
    exact BodyLayout.alike_of_differsAt hdiffers hlaid hn hblock hf himage
      ((encodeBody_eq_ok_iff hlaid).1 hbs')

namespace Orders

/-- The definition of an order of a longer block. -/
def spacedDefinition : MessageDef := { definition with blockLength := some 7 }

/-- The codec of such orders. -/
def spacedCodec : MessageCodec where
  header
  message := { definedMessage with body := { definedMessage.body with blockLength := 7 } }
  schemaId := 1
  version := 0

/-- An order whose first fill is of another quantity. -/
def refilled : Fields :=
  insertField "fills" (.array [.object "fills" [("quantity", .int 7)], .object "fills" []]) sell

/-- The two bytes behind the fields of a longer block are zero, the quantity of the first fill has the
byte behind the block and the header of the fills, and another quantity is another byte there. -/
theorem fields_own_bytes_refilled : ∃ bs bs', spacedCodec.encodeBody (.object "Order" sell) = .ok bs
    ∧ spacedCodec.encodeBody (.object "Order" refilled) = .ok bs'
    ∧ (∃ own, quantity.image? (some (.int (-5))) = some own ∧ (bs.drop 9).take 1 = own)
    ∧ bs[5]? = some 0 ∧ bs[6]? = some 0 ∧ AlikeOutside 9 10 bs bs' := by
  have ht : MessageLayout.ofTokens (spacedDefinition.tokens .littleEndian)
      = .ok spacedCodec.message := by
    have hsound := definition_sound
    refine MessageDef.ofTokens_tokens_of_layout? ⟨⟨hsound.1.1, ?_⟩, hsound.2⟩ rfl
    rintro n ⟨⟩
    decide
  have hdistinct : ∀ b ∈ spacedCodec.message.body.bodies, b.Distinct := by
    have hbodies : spacedCodec.message.body.bodies = [spacedCodec.message.body,
      ⟨1, [⟨"quantity", 5, 0, 0, none, .primitive quantity⟩], [], []⟩] := rfl
    rw [hbodies, List.forall_mem_cons, List.forall_mem_singleton]
    constructor
    · unfold BodyLayout.Distinct
      decide
    · unfold BodyLayout.Distinct
      decide
  have hfill : BodyLayout.DiffersAt "quantity" []
      ⟨1, [⟨"quantity", 5, 0, 0, none, .primitive quantity⟩], [], []⟩
      (.object "fills" [("quantity", .int (-5))]) (.object "fills" [("quantity", .int 7)]) := by
    refine .here fun n hn => ?_
    have hne : (n == "quantity") = false := beq_eq_false_iff_ne.2 hn
    simp [Value.field?, List.lookup, hne]
  have hdiffers : spacedCodec.message.body.DiffersAt "quantity" [(0, 0)] (.object "Order" sell)
      (.object "Order" refilled) :=
    .within rfl (fun n hn => lookup_insertField_of_ne hn _ _) rfl rfl rfl hfill
  obtain ⟨hblocks, hframe⟩ := MessageCodec.fields_own_bytes (m := spacedCodec)
    (v := .object "Order" sell) ht rfl
  obtain ⟨-, hzero⟩ := hblocks [] _ rfl
  obtain ⟨hown, -⟩ := hblocks [(0, 0)] _ rfl
  exact ⟨_, _, rfl, rfl, hown _ List.mem_cons_self, hzero 5 (by decide) (by decide),
    hzero 6 (by decide) (by decide),
    hframe hdistinct [(0, 0)] _ rfl _ List.mem_cons_self _ _ hdiffers rfl⟩

end Orders

end SimpleBinary
