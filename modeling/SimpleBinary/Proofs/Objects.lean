import Mathlib
import SimpleBinary.Codec.Decode

/-!
# The fields of an object

An object keeps its fields in the order of their names, each name once (`Ordered`).  Putting a field
keeps that and changes what is found under its own name only (`lookup_insertField`), and ordered
fields are determined by what is found under each name (`Ordered.ext`), so the order in which fields
were put is forgotten.
-/

namespace SimpleBinary

/-- Strictly increasing names. -/
def Ordered {α : Type} (fs : List (String × α)) : Prop := fs.Pairwise (·.1 < ·.1)

instance {α : Type} (fs : List (String × α)) : Decidable (Ordered fs) :=
  inferInstanceAs (Decidable (fs.Pairwise (·.1 < ·.1)))

section Lookup

variable {α : Type}

theorem lookup_cons_field (m : String) (w : α) (fs : List (String × α)) (n : String) :
    ((m, w) :: fs).lookup n = if n = m then some w else fs.lookup n := by
  by_cases h : n = m
  · subst h
    simp
  · rw [List.lookup_cons, beq_false_of_ne h, if_neg h]

theorem lookup_insertField (name : String) (v : α) (n : String) : ∀ fs : List (String × α),
    (insertField name v fs).lookup n = if n = name then some v else fs.lookup n
  | [] => by rw [insertField, lookup_cons_field]
  | (m, w) :: fs => by
    rw [insertField]
    split
    · rw [lookup_cons_field]
    · split
      · rename_i hm
        subst hm
        rw [lookup_cons_field, lookup_cons_field]
        split <;> rfl
      · rename_i hm
        rw [lookup_cons_field, lookup_cons_field, lookup_insertField name v n fs]
        by_cases hn : n = m
        · rw [if_pos hn, if_pos hn, if_neg (hn ▸ Ne.symm hm)]
        · rw [if_neg hn, if_neg hn]

@[simp]
theorem lookup_insertField_self (name : String) (v : α) (fs : List (String × α)) :
    (insertField name v fs).lookup name = some v := by
  rw [lookup_insertField, if_pos rfl]

theorem lookup_insertField_of_ne {name n : String} (h : n ≠ name) (v : α)
    (fs : List (String × α)) : (insertField name v fs).lookup n = fs.lookup n := by
  rw [lookup_insertField, if_neg h]

theorem mem_insertField {name : String} {v : α} {e : String × α} : ∀ {fs : List (String × α)},
    e ∈ insertField name v fs → e = (name, v) ∨ e ∈ fs
  | [], h => by
    rw [insertField, List.mem_singleton] at h
    exact .inl h
  | (m, w) :: fs, h => by
    rw [insertField] at h
    split at h
    · exact List.mem_cons.1 h
    · split at h
      · rcases List.mem_cons.1 h with h | h
        · exact .inl h
        · exact .inr (List.mem_cons_of_mem _ h)
      · rcases List.mem_cons.1 h with h | h
        · exact .inr (h ▸ List.mem_cons_self)
        · rcases mem_insertField h with h | h
          · exact .inl h
          · exact .inr (List.mem_cons_of_mem _ h)

theorem Ordered.insertField {name : String} {v : α} : ∀ {fs : List (String × α)}, Ordered fs →
    Ordered (insertField name v fs)
  | [], _ => List.pairwise_singleton _ _
  | (m, w) :: fs, h => by
    obtain ⟨hlt, hfs⟩ := List.pairwise_cons.1 h
    rw [SimpleBinary.insertField]
    split
    · rename_i hm
      refine List.pairwise_cons.2 ⟨fun e he => ?_, h⟩
      rcases List.mem_cons.1 he with rfl | he
      · exact hm
      · exact lt_trans hm (hlt e he)
    · split
      · rename_i hm
        subst hm
        exact List.pairwise_cons.2 ⟨hlt, hfs⟩
      · rename_i hm hne
        refine List.pairwise_cons.2 ⟨fun e he => ?_, Ordered.insertField hfs⟩
        rcases mem_insertField he with rfl | he
        · exact lt_of_le_of_ne (not_lt.1 hm) (Ne.symm hne)
        · exact hlt e he

/-- Nothing is found under a name that lies before all. -/
theorem lookup_eq_none_of_lt {n : String} {fs : List (String × α)} (h : ∀ e ∈ fs, n < e.1) :
    fs.lookup n = none := by
  rw [List.lookup_eq_none_iff]
  intro e he
  exact bne_iff_ne.2 (ne_of_lt (h e he))

theorem Ordered.lookup_eq_none {n m : String} {w : α} {fs : List (String × α)}
    (h : Ordered ((m, w) :: fs)) (hlt : n < m) : ((m, w) :: fs).lookup n = none := by
  refine lookup_eq_none_of_lt fun e he => ?_
  rcases List.mem_cons.1 he with rfl | he
  · exact hlt
  · exact lt_trans hlt ((List.pairwise_cons.1 h).1 e he)

/-- Ordered fields are what is found under each name. -/
theorem Ordered.ext : ∀ {fs gs : List (String × α)}, Ordered fs → Ordered gs →
    (∀ n, fs.lookup n = gs.lookup n) → fs = gs
  | [], [], _, _, _ => rfl
  | [], (m, w) :: gs, _, _, h => by
    have := h m
    rw [lookup_cons_field, if_pos rfl] at this
    simp at this
  | (n, v) :: fs, [], _, _, h => by
    have := h n
    rw [lookup_cons_field, if_pos rfl] at this
    simp at this
  | (n, v) :: fs, (m, w) :: gs, hf, hg, h => by
    obtain ⟨hfn, hf'⟩ := List.pairwise_cons.1 hf
    obtain ⟨hgm, hg'⟩ := List.pairwise_cons.1 hg
    have hnm : n = m := by
      rcases lt_trichotomy n m with hlt | heq | hlt
      · have hn := h n
        rw [lookup_cons_field, if_pos rfl, hg.lookup_eq_none hlt] at hn
        simp at hn
      · exact heq
      · have hm := h m
        rw [hf.lookup_eq_none hlt, lookup_cons_field, if_pos rfl] at hm
        simp at hm
    subst hnm
    have hv := h n
    rw [lookup_cons_field, lookup_cons_field, if_pos rfl, if_pos rfl] at hv
    cases hv
    refine congrArg ((n, v) :: ·) (Ordered.ext hf' hg' fun k => ?_)
    by_cases hk : k = n
    · rw [hk, lookup_eq_none_of_lt hfn, lookup_eq_none_of_lt hgm]
    · have := h k
      rwa [lookup_cons_field, lookup_cons_field, if_neg hk, if_neg hk] at this

/-- Ordered fields have a name once, so they are found from either end. -/
theorem Ordered.lookup_reverse {n : String} : ∀ {fs : List (String × α)}, Ordered fs →
    fs.reverse.lookup n = fs.lookup n
  | [], _ => rfl
  | (m, w) :: fs, h => by
    obtain ⟨hlt, hfs⟩ := List.pairwise_cons.1 h
    rw [List.reverse_cons, List.lookup_append, Ordered.lookup_reverse hfs, lookup_cons_field,
      lookup_cons_field]
    by_cases hn : n = m
    · rw [if_pos hn, if_pos hn, hn, lookup_eq_none_of_lt hlt]
      rfl
    · rw [if_neg hn, if_neg hn, List.lookup_nil, Option.or_none]

end Lookup

/-- Puts a field that may be left out. -/
def addField {α : Type} (name : String) (v : Option α) (fs : List (String × α)) :
    List (String × α) :=
  match v with
  | some v => insertField name v fs
  | none => fs

section AddField

variable {α : Type} {name : String} {v : Option α} {fs : List (String × α)}

theorem Ordered.addField (h : Ordered fs) : Ordered (addField name v fs) := by
  cases v with
  | none => exact h
  | some v => exact h.insertField

theorem lookup_addField_of_ne {n : String} (h : n ≠ name) :
    (addField name v fs).lookup n = fs.lookup n := by
  cases v with
  | none => rfl
  | some v => exact lookup_insertField_of_ne h v fs

/-- What was put is found, if nothing was there before. -/
theorem lookup_addField_self (h : fs.lookup name = none) :
    (addField name v fs).lookup name = v := by
  cases v with
  | none => exact h
  | some v => exact lookup_insertField_self name v fs

/-- Nothing is found under a name if nothing was there and nothing was put there. -/
theorem lookup_addField_eq_none_iff {n : String} :
    (addField name v fs).lookup n = none ↔ fs.lookup n = none ∧ (name = n → v = none) := by
  cases v with
  | none => simp [addField]
  | some v =>
    rw [addField, lookup_insertField]
    by_cases h : n = name
    · simp [h]
    · simp [h, Ne.symm h]

end AddField

/-- Puts what is picked for each of some elements under its name. -/
def addFields {α β : Type} (name : α → String) (pick : α → Option β) (xs : List α)
    (fs : List (String × β)) : List (String × β) :=
  xs.foldl (fun fs x => addField (name x) (pick x) fs) fs

section AddFields

variable {α β : Type} {name : α → String} {pick : α → Option β}

theorem Ordered.addFields {xs : List α} {fs : List (String × β)} (h : Ordered fs) :
    Ordered (addFields name pick xs fs) := by
  induction xs generalizing fs with
  | nil => exact h
  | cons x xs ih => exact ih h.addField

theorem lookup_addFields_of_notMem {n : String} : ∀ {xs : List α} {fs : List (String × β)},
    n ∉ xs.map name → (addFields name pick xs fs).lookup n = fs.lookup n
  | [], _, _ => rfl
  | x :: xs, fs, hn => by
    rw [List.map_cons, List.mem_cons, not_or] at hn
    exact (lookup_addFields_of_notMem hn.2).trans (lookup_addField_of_ne hn.1)

/-- Of elements with names of their own, each is found if nothing was there before. -/
theorem lookup_addFields : ∀ {xs : List α} {fs : List (String × β)}, (xs.map name).Nodup →
    (∀ x ∈ xs, fs.lookup (name x) = none) →
    ∀ x ∈ xs, (addFields name pick xs fs).lookup (name x) = pick x
  | [], _, _, _, x, hx => absurd hx List.not_mem_nil
  | y :: xs, fs, hnodup, hfs, x, hx => by
    rw [List.map_cons, List.nodup_cons] at hnodup
    obtain ⟨hy, hfs⟩ := List.forall_mem_cons.1 hfs
    rcases List.mem_cons.1 hx with rfl | hx
    · exact (lookup_addFields_of_notMem hnodup.1).trans (lookup_addField_self hy)
    · refine lookup_addFields hnodup.2 (fun z hz => ?_) x hx
      have hne : name z ≠ name y := fun h => hnodup.1 (h ▸ List.mem_map_of_mem hz)
      rw [lookup_addField_of_ne hne]
      exact hfs z hz

end AddFields

/-- Changes the value under a name, if there is one. -/
def modifyField {α : Type} (name : String) (f : α → α) (fs : List (String × α)) :
    List (String × α) :=
  fs.map fun (n, v) => (n, if n = name then f v else v)

section Changes

variable {α : Type}

theorem Ordered.modifyField {name : String} {f : α → α} {fs : List (String × α)}
    (h : Ordered fs) : Ordered (modifyField name f fs) :=
  List.pairwise_map.2 h

theorem lookup_modifyField (name : String) (f : α → α) (n : String) : ∀ fs : List (String × α),
    (modifyField name f fs).lookup n = if n = name then (fs.lookup n).map f else fs.lookup n
  | [] => by simp [modifyField]
  | (m, v) :: fs => by
    have ih := lookup_modifyField name f n fs
    rw [modifyField] at ih ⊢
    rw [List.map_cons, lookup_cons_field, lookup_cons_field, ih]
    by_cases hm : n = m
    · subst hm
      by_cases hn : n = name <;> simp [hn]
    · simp [hm]

/-- Fields that are taken out are not found, the others are. -/
theorem lookup_filter_fields (p : String → Bool) (n : String) : ∀ fs : List (String × α),
    (fs.filter fun f => p f.1).lookup n = if p n then fs.lookup n else none
  | [] => by simp
  | (m, v) :: fs => by
    have ih := lookup_filter_fields p n fs
    rw [List.filter_cons, lookup_cons_field]
    by_cases hm : n = m
    · subst hm
      by_cases hp : p n
      · rw [if_pos hp, lookup_cons_field, if_pos rfl, if_pos hp, if_pos rfl]
      · rw [if_neg hp, ih, if_neg hp, if_neg hp]
    · rw [if_neg hm]
      split
      · rw [lookup_cons_field, if_neg hm, ih]
      · exact ih

end Changes

end SimpleBinary
