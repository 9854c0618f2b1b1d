import Mathlib
import SimpleBinary.Proofs.Layouts
import SimpleBinary.Proofs.RoundTrip

/-!
# Where the stream says

A layout lists its elements in the order of their tokens, one token behind those of the element
before.  `BodyLayout.DeclaredAt` follows the stream beside the layout, by the counts of its tokens
alone: every element has the name and the number of its token and begins no earlier than the token
declares, every block is as long as declared, and every composite at least as long.  This is so of
any stream that is accepted, be it balanced or not.
-/

namespace SimpleBinary

/-! ## Spans by their counts -/

theorem exists_of_spanAt {tokens : List Token} {i : Nat} {s : Span}
    (h : spanAt tokens i = .ok s) : ∃ t, tokens[i]? = some t ∧ 0 < t.componentTokenCount
      ∧ s = ⟨i, i + t.componentTokenCount⟩ := by
  unfold spanAt at h
  split at h
  · simp at h
  · rename_i t ht
    simp only [] at h
    split at h
    · simp at h
    · rename_i hzero
      refine ⟨t, ht, Nat.pos_of_ne_zero hzero, ?_⟩
      split at h
      · simp at h
      · split at h
        · split at h
          · simp at h
          · exact (Except.ok.inj h).symm
        · exact (Except.ok.inj h).symm

theorem spanAt_of_take {tokens : List Token} {n i : Nat} {s : Span}
    (h : spanAt (tokens.take n) i = .ok s) : spanAt tokens i = .ok s := by
  obtain ⟨-, hlt, hle⟩ := spanAt_bounds h
  obtain ⟨t, ht, hpos, rfl⟩ := exists_of_spanAt h
  dsimp only at hlt hle
  have hget : ∀ j, j < (tokens.take n).length → (tokens.take n)[j]? = tokens[j]? := by
    intro j hj
    rw [List.getElem?_take_of_lt (lt_of_lt_of_le hj (List.length_take_le _ _))]
  have hlength : (tokens.take n).length ≤ tokens.length := List.length_take_le' _ _
  unfold spanAt at h ⊢
  rw [ht] at h
  rw [← hget i (by omega), ht]
  dsimp only at h ⊢
  rw [if_neg (by omega), if_neg (by omega)] at h ⊢
  rw [hget _ (by omega)] at h
  exact h

/-- Spans one behind the other from `i` to `j`, each as long as its first token says. -/
def Successive (tokens : List Token) : (i : Nat) → List Span → (j : Nat) → Prop
  | i, [], j => i = j
  | i, s :: ss, j => s.start = i ∧ ∃ t, tokens[i]? = some t ∧ 0 < t.componentTokenCount
    ∧ s.stop = i + t.componentTokenCount ∧ Successive tokens s.stop ss j

theorem successive_spansWhile {p : Token → Bool} {tokens : List Token} {i j : Nat}
    (h : (spansWhile p tokens i).2 = .ok j) :
    Successive tokens i (spansWhile p tokens i).1 j := by
  fun_induction spansWhile p tokens i with
  | case1 i hi => exact Except.ok.inj h
  | case2 i t ht hp e he => simp at h
  | case3 i t ht hp s hs rest ih =>
    obtain ⟨t', ht', hpos, rfl⟩ := exists_of_spanAt hs
    exact ⟨rfl, t', ht', hpos, rfl, ih h⟩
  | case4 i t ht hp => exact Except.ok.inj h

theorem Successive.of_take {tokens : List Token} {n : Nat} : ∀ {ss : List Span} {i j : Nat},
    Successive (tokens.take n) i ss j → Successive tokens i ss j
  | [], _, _, h => h
  | s :: ss, i, j, ⟨hstart, t, ht, hpos, hstop, h⟩ => by
    rw [List.getElem?_take] at ht
    split at ht
    · exact ⟨hstart, t, ht, hpos, hstop, h.of_take⟩
    · simp at ht

theorem successive_members {tokens : List Token} {body : Span} {spans : List Span}
    (h : members tokens body = .ok spans) : ∃ j, Successive tokens body.start spans j := by
  unfold members at h
  cases hs : (spansWhile (fun _ => true) (tokens.take body.stop) body.start).2 with
  | error e => simp [hs, Except.map] at h
  | ok j =>
    simp only [hs, Except.map, Except.ok.injEq] at h
    rw [← h]
    exact ⟨j, (successive_spansWhile hs).of_take⟩

theorem successive_splitBody {tokens : List Token} {body : Span} {spans : BodySpans}
    (h : splitBody tokens body = .ok spans) : ∃ j k, Successive tokens body.start spans.fields j
      ∧ Successive tokens j spans.groups k ∧ Successive tokens k spans.varData body.stop := by
  unfold splitBody collect at h
  obtain ⟨j, hj, h⟩ := bind_eq_ok_iff.1 h
  obtain ⟨k, hk, h⟩ := bind_eq_ok_iff.1 h
  obtain ⟨stop, hstop, h⟩ := bind_eq_ok_iff.1 h
  split at h
  · rename_i heq
    cases h
    rw [heq] at hstop
    exact ⟨j, k, (successive_spansWhile hj).of_take, (successive_spansWhile hk).of_take,
      (successive_spansWhile hstop).of_take⟩
  · split at h <;> exact absurd h throw_ne_ok

/-- The place behind several containers or leaves one behind the other. -/
def behind (tokens : List Token) : (count i : Nat) → Nat
  | 0, i => i
  | count + 1, i => behind tokens count (i + ((tokens[i]?).map (·.componentTokenCount)).getD 0)

theorem behind_one {tokens : List Token} {i : Nat} {t : Token} (ht : tokens[i]? = some t) :
    behind tokens 1 i = i + t.componentTokenCount := by
  rw [behind, behind, ht]
  rfl

theorem behind_add (tokens : List Token) : ∀ m n i : Nat,
    behind tokens (m + n) i = behind tokens n (behind tokens m i)
  | 0, n, i => by rw [Nat.zero_add, behind]
  | m + 1, n, i => by rw [Nat.succ_add, behind, behind, behind_add tokens m n]

theorem Successive.behind_eq {tokens : List Token} : ∀ {ss : List Span} {i j : Nat},
    Successive tokens i ss j → behind tokens ss.length i = j
  | [], _, _, h => h
  | s :: ss, i, j, ⟨_, t, ht, _, hstop, h⟩ => by
    rw [hstop] at h
    rw [List.length_cons, behind, ht]
    exact h.behind_eq

/-! ## What tokens declare -/

/-- A token declares an element of a name, a number and a version. -/
def Token.Declares (t : Token) (name : String) (id sinceVersion : Int32) : Prop :=
  t.name = name ∧ t.id = id ∧ t.version = sinceVersion

mutual

/-- The token at `i` starts this type; a composite is at least as long as declared, and its members
stand behind its first token. -/
def FieldKind.DeclaredAt (tokens : List Token) (i : Nat) : FieldKind → Prop
  | .primitive _ => ∃ t, tokens[i]? = some t ∧ t.signal = .encoding
  | .composite ⟨_, encodedLength, members, _⟩ =>
    (∃ t, tokens[i]? = some t ∧ t.signal = .opens .composite ∧ t.encodedLength ≤ encodedLength)
      ∧ fieldsDeclaredAt tokens 0 (i + 1) members
  | .enumeration _ => ∃ t, tokens[i]? = some t ∧ t.signal = .opens .enumeration
  | .set _ => ∃ t, tokens[i]? = some t ∧ t.signal = .opens .set

/-- Elements whose tokens stand one behind the other from `i` on, with their types `inward` of
them, and which do not begin before they are declared to. -/
def fieldsDeclaredAt (tokens : List Token) (inward i : Nat) : List FieldLayout → Prop
  | [] => True
  | ⟨name, id, sinceVersion, offset, _, kind⟩ :: fields =>
    ∃ t, tokens[i]? = some t ∧ t.Declares name id sinceVersion ∧ t.offset ≤ offset
      ∧ kind.DeclaredAt tokens (i + inward) ∧ 0 < t.componentTokenCount
      ∧ fieldsDeclaredAt tokens inward (i + t.componentTokenCount) fields

end

/-- Var-data whose tokens stand one behind the other from `i` on. -/
def varDataDeclaredAt (tokens : List Token) (i : Nat) : List VarDataLayout → Prop
  | [] => True
  | d :: ds => ∃ t, tokens[i]? = some t ∧ t.Declares d.name d.id d.sinceVersion
    ∧ 0 < t.componentTokenCount ∧ varDataDeclaredAt tokens (i + t.componentTokenCount) ds

mutual

/-- Fields whose tokens stand from `i` on, behind them those of groups and then of var-data. -/
def BodyLayout.DeclaredAt (tokens : List Token) (i : Nat) : BodyLayout → Prop
  | ⟨_, fields, groups, varData⟩ => fieldsDeclaredAt tokens 1 i fields
    ∧ groupsDeclaredAt tokens (behind tokens fields.length i) groups
    ∧ varDataDeclaredAt tokens (behind tokens (fields.length + groups.length) i) varData

/-- Groups whose tokens stand one behind the other from `i` on, with blocks as long as declared and
the tokens of their bodies behind those of their headers. -/
def groupsDeclaredAt (tokens : List Token) (i : Nat) : List GroupLayout → Prop
  | [] => True
  | ⟨name, id, sinceVersion, _, body, _⟩ :: groups =>
    ∃ t, tokens[i]? = some t ∧ t.Declares name id sinceVersion ∧ body.blockLength = t.encodedLength
      ∧ body.DeclaredAt tokens (behind tokens 1 (i + 1)) ∧ 0 < t.componentTokenCount
      ∧ groupsDeclaredAt tokens (i + t.componentTokenCount) groups

end

/-! ## Types -/

variable {tokens : List Token}

theorem getElem?_of_tokenAt {i : Nat} {t : Token} (h : tokenAt tokens i = .ok t) :
    tokens[i]? = some t := by
  unfold tokenAt at h
  split at h
  · rename_i t' ht
    cases h
    exact ht
  · simp at h

theorem fieldsDeclaredAt_placeMembers {spans : List Span} {kinds : List (Token × FieldKind)}
    (hkinds : List.Forall₂ (fun s k => tokenAt tokens s.start = .ok k.1
      ∧ k.2.DeclaredAt tokens s.start) spans kinds) : ∀ {i j : Nat}, Successive tokens i spans j →
    ∀ cursor, fieldsDeclaredAt tokens 0 i (placeMembers cursor kinds) := by
  induction hkinds with
  | nil =>
    intro i j _ cursor
    rw [placeMembers, fieldsDeclaredAt]
    trivial
  | @cons s k ss ks hk _ ih =>
    intro i j h cursor
    obtain ⟨hstart, t, ht, hpos, hstop, h⟩ := h
    obtain ⟨u, kind⟩ := k
    obtain ⟨hu, hkind⟩ := hk
    have hu := getElem?_of_tokenAt hu
    rw [hstart] at hu hkind
    rw [hu] at ht
    cases ht
    rw [hstop] at h
    rw [placeMembers, fieldsDeclaredAt]
    exact ⟨u, hu, ⟨rfl, rfl, rfl⟩, le_max_right _ _, hkind, hpos, ih h _⟩

/-- A composite lies as its tokens declare if the types in it do. -/
theorem kindSteps_declaredAt : KindSteps tokens (fun s k => k.DeclaredAt tokens s.start)
    fun s c => ∀ t, tokens[s.start]? = some t → t.signal = .opens .composite →
      (FieldKind.composite c).DeclaredAt tokens s.start where
  encoding := by
    intro s t p ht hsignal _
    rw [FieldKind.DeclaredAt]
    exact ⟨t, getElem?_of_tokenAt ht, hsignal⟩
  enumeration := by
    intro s t e ht hsignal _
    rw [FieldKind.DeclaredAt]
    exact ⟨t, getElem?_of_tokenAt ht, hsignal⟩
  set := by
    intro s t l ht hsignal _
    rw [FieldKind.DeclaredAt]
    exact ⟨t, getElem?_of_tokenAt ht, hsignal⟩
  composite ht hsignal hc := hc _ (getElem?_of_tokenAt ht) hsignal
  members := by
    intro s t spans kinds ht hs hkinds u hu hsignal
    obtain rfl : t = u := Option.some.inj ((getElem?_of_tokenAt ht).symm.trans hu)
    obtain ⟨j, hsuccessive⟩ := successive_members hs
    rw [CompositeLayout.ofMembers, FieldKind.DeclaredAt]
    exact ⟨⟨t, hu, hsignal, le_max_right _ _⟩, fieldsDeclaredAt_placeMembers hkinds hsuccessive 0⟩

theorem FieldKind.declaredAt_of_kindAt (s : Span) {k : FieldKind} (h : kindAt tokens s = .ok k) :
    k.DeclaredAt tokens s.start :=
  kindSteps_declaredAt.of_kindAt s h

/-! ## Bodies -/

theorem fieldsDeclaredAt_of_fieldsAt : ∀ {spans : List Span} {fields : List FieldLayout}
    {i j cursor : Nat}, Successive tokens i spans j → fieldsAt tokens cursor spans = .ok fields →
    fieldsDeclaredAt tokens 1 i fields ∧ fields.length = spans.length
  | [], _, _, _, _, _, h => by
    cases h
    rw [fieldsDeclaredAt]
    exact ⟨trivial, rfl⟩
  | s :: ss, fields, i, j, cursor, ⟨hstart, t, ht, hpos, hstop, hss⟩, h => by
    obtain ⟨f, hf, h⟩ := bind_eq_ok_iff.1 h
    obtain ⟨fs, hfs, h⟩ := bind_eq_ok_iff.1 h
    cases h
    rw [hstop] at hss
    obtain ⟨hdeclared, hlength⟩ := fieldsDeclaredAt_of_fieldsAt hss hfs
    obtain ⟨t', ht', hf⟩ := bind_eq_ok_iff.1 hf
    obtain ⟨type, htype, hf⟩ := bind_eq_ok_iff.1 hf
    split at hf
    · exact absurd hf throw_ne_ok
    obtain ⟨kind, hkind, hf⟩ := bind_eq_ok_iff.1 hf
    cases hf
    have ht' := getElem?_of_tokenAt ht'
    have hkind := FieldKind.declaredAt_of_kindAt type hkind
    rw [(spanAt_bounds htype).1, hstart] at hkind
    rw [hstart, ht] at ht'
    cases ht'
    rw [fieldsDeclaredAt]
    exact ⟨⟨t, ht, ⟨rfl, rfl, rfl⟩, le_max_right _ _, hkind, hpos, hdeclared⟩, by
      rw [List.length_cons, List.length_cons, hlength]⟩

theorem VarDataLayout.declares_of_varDataAt {s : Span} {d : VarDataLayout}
    (h : varDataAt tokens s = .ok d) :
    ∃ t, tokens[s.start]? = some t ∧ t.Declares d.name d.id d.sinceVersion := by
  obtain ⟨t, ht, h⟩ := bind_eq_ok_iff.1 h
  obtain ⟨c, -, h⟩ := bind_eq_ok_iff.1 h
  obtain ⟨composite, -, h⟩ := bind_eq_ok_iff.1 h
  split at h
  · exact absurd h throw_ne_ok
  obtain ⟨⟨length, lengthIndex⟩, -, h⟩ := bind_eq_ok_iff.1 h
  obtain ⟨⟨data, dataIndex⟩, -, h⟩ := bind_eq_ok_iff.1 h
  obtain ⟨p, -, h⟩ := bind_eq_ok_iff.1 h
  cases h
  exact ⟨t, getElem?_of_tokenAt ht, rfl, rfl, rfl⟩

theorem varDataDeclaredAt_of_forall₂ {spans : List Span} {ds : List VarDataLayout}
    (hds : List.Forall₂ (fun s d => varDataAt tokens s = .ok d) spans ds) :
    ∀ {i j : Nat}, Successive tokens i spans j → varDataDeclaredAt tokens i ds := by
  induction hds with
  | nil =>
    intro i j _
    trivial
  | cons hd _ ih =>
    intro i j h
    obtain ⟨hstart, t, ht, hpos, hstop, h⟩ := h
    obtain ⟨u, hu, hdeclares⟩ := VarDataLayout.declares_of_varDataAt hd
    rw [hstart, ht] at hu
    cases hu
    rw [hstop] at h
    exact ⟨t, ht, hdeclares, hpos, ih h⟩

/-- What the token of a group declares. -/
def GroupLayout.DeclaredAt (tokens : List Token) (i : Nat) (g : GroupLayout) : Prop :=
  ∃ t, tokens[i]? = some t ∧ t.Declares g.name g.id g.sinceVersion
    ∧ g.body.blockLength = t.encodedLength ∧ g.body.DeclaredAt tokens (behind tokens 1 (i + 1))

theorem groupsDeclaredAt_of_forall₂ {spans : List Span} {groups : List GroupLayout}
    (hgroups : List.Forall₂ (fun s (g : GroupLayout) => g.DeclaredAt tokens s.start) spans groups) :
    ∀ {i j : Nat}, Successive tokens i spans j → groupsDeclaredAt tokens i groups := by
  induction hgroups with
  | nil =>
    intro i j _
    rw [groupsDeclaredAt]
    trivial
  | @cons s g ss gs hg _ ih =>
    intro i j h
    obtain ⟨hstart, t, ht, hpos, hstop, h⟩ := h
    obtain ⟨name, id, sinceVersion, dimension, body, description⟩ := g
    obtain ⟨u, hu, hdeclares, hlength, hbody⟩ := hg
    rw [hstart] at hu hbody
    rw [hu] at ht
    cases ht
    rw [hstop] at h
    rw [groupsDeclaredAt]
    exact ⟨_, hu, hdeclares, hlength, hbody, hpos, ih h⟩

/-- A body lies as its tokens declare if its groups do, and a group if its body does. -/
theorem bodySteps_declaredAt : BodySteps tokens (fun s b => b.DeclaredAt tokens s.start)
    fun s g => g.DeclaredAt tokens s.start where
  body := by
    intro s blockLength spans fields groups varData hs hf hg hd _
    obtain ⟨j, k, hfields, hgroups, hdata⟩ := successive_splitBody hs
    obtain ⟨hdeclared, hlength⟩ := fieldsDeclaredAt_of_fieldsAt hfields hf
    have hj := hfields.behind_eq
    have hk : behind tokens (fields.length + groups.length) s.start = k := by
      rw [behind_add, hlength, hj, ← hg.length_eq, hgroups.behind_eq]
    rw [BodyLayout.DeclaredAt, hk, hlength, hj]
    exact ⟨hdeclared, groupsDeclaredAt_of_forall₂ hg hgroups,
      varDataDeclaredAt_of_forall₂ (mapM_eq_ok_iff.1 hd) hdata⟩
  group := by
    intro s d t first dimension body ht hd _ _ _ hlength hbody
    obtain ⟨u, hu, -, rfl⟩ := exists_of_spanAt (spanAt_of_take hd)
    refine ⟨t, getElem?_of_tokenAt ht, ⟨rfl, rfl, rfl⟩, hlength, ?_⟩
    rw [behind_one hu]
    exact hbody

theorem BodyLayout.declaredAt_of_bodyAt (s : Span) {blockLength : Nat} {owner : String}
    {b : BodyLayout} (h : bodyAt tokens s blockLength owner = .ok b) :
    b.blockLength = blockLength ∧ b.DeclaredAt tokens s.start :=
  ⟨blockLength_of_bodyAt h, bodySteps_declaredAt.of_bodyAt s h⟩

/-! ## Messages -/

/-- Elements as wide as their kinds, one behind the other, the last of them ending by `limit`. -/
structure Fits (limit : Nat) (fields : List FieldLayout) : Prop where
  width : ∀ f ∈ fields, f.width = f.kind.width
  chain : fields.IsChain fun f g => f.offset + f.width ≤ g.offset
  last : ∀ f ∈ fields.getLast?, f.offset + f.width ≤ limit

theorem fits_of_fieldsLaid {limit : Nat} {fields : List FieldLayout}
    (h : fieldsLaid 0 limit fields) : Fits limit fields where
  width _ _ := rfl
  chain := (pairwise_of_fieldsLaid h).isChain
  last f hf := stop_le_limit h f (List.mem_of_getLast? hf)

/-- An accepted message lies as its stream declares, with its elements apart in every block and
every composite, and with fields before groups before var-data in every body. -/
theorem MessageLayout.placed_of_ofTokens {m : MessageLayout}
    (h : MessageLayout.ofTokens tokens = .ok m) :
    (∃ t, tokens[0]? = some t ∧ t.Declares m.name m.id m.sinceVersion
      ∧ m.body.blockLength = t.encodedLength) ∧ m.body.DeclaredAt tokens 1
    ∧ ∀ b ∈ m.body.bodies, Fits b.blockLength b.fields
      ∧ (∀ c, .composite c ∈ b.kinds → Fits c.encodedLength c.members)
      ∧ b.elements.Pairwise fun e e' => e.rank ≤ e'.rank := by
  have hlaid := MessageLayout.laid_of_ofTokens h
  obtain ⟨s, hs, h⟩ := bind_eq_ok_iff.1 h
  obtain ⟨t, ht, h⟩ := bind_eq_ok_iff.1 h
  obtain ⟨body, hb, h⟩ := bind_eq_ok_iff.1 h
  cases h
  have hstart : s.start = 0 := by
    unfold wholeSpan at hs
    split at hs
    · exact absurd hs throw_ne_ok
    · split at hs
      · exact absurd hs throw_ne_ok
      · obtain ⟨s', hs', hs⟩ := bind_eq_ok_iff.1 hs
        split at hs
        · exact absurd hs throw_ne_ok
        · cases hs
          exact (spanAt_bounds hs').1
  obtain ⟨hlength, hdeclared⟩ := BodyLayout.declaredAt_of_bodyAt _ hb
  rw [show s.inner.start = 1 by rw [Span.inner, hstart]] at hdeclared
  refine ⟨⟨t, getElem?_of_tokenAt ht, ⟨rfl, rfl, rfl⟩, hlength⟩, hdeclared, fun b hmem => ?_⟩
  have hblock := BodyLayout.laid_of_mem_bodies hlaid b hmem
  obtain ⟨blockLength, fields, groups, varData⟩ := b
  rw [BodyLayout.Laid] at hblock
  refine ⟨fits_of_fieldsLaid hblock.1, fun c hc => ?_, BodyLayout.pairwise_rank_elements _⟩
  obtain ⟨typeName, encodedLength, members, description⟩ := c
  have hkind := laid_of_mem_fieldsParts hblock.1 _ hc
  rw [FieldKind.Laid] at hkind
  exact fits_of_fieldsLaid hkind

/-- Orders lie as their stream declares. -/
theorem Orders.placed_message : MessageLayout.ofTokens Orders.tokens = .ok message
    ∧ message.body.DeclaredAt Orders.tokens 1 :=
  ⟨ofTokens_tokens, (MessageLayout.placed_of_ofTokens ofTokens_tokens).2.1⟩

end SimpleBinary
