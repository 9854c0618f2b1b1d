import Mathlib
import SimpleBinary.Proofs.Bounds
import SimpleBinary.Proofs.Streams

/-!
# Bodies cut into regions

Spans tile a range of a stream when each is the one that is read where the one before it ended.
There is at most one tiling of a range (`Tiles.unique`).  What follows spans as long as they are of
one kind gives the tiling up to the first token of another kind (`spansWhile_eq_iff`), so a body is
cut just if fields, then groups, then var-data tile it, and then into these (`splitBody_eq_ok_iff`).
-/

namespace SimpleBinary

/-- Spans one behind the other from `i` to `j`, each the one that is read where the last ended. -/
def Tiles (tokens : List Token) : (i : Nat) → List Span → (j : Nat) → Prop
  | i, [], j => i = j
  | i, s :: ss, j => s.start = i ∧ spanAt tokens i = .ok s ∧ Tiles tokens s.stop ss j

/-- A token that passes a test stands at a place. -/
def PassesAt (p : Token → Bool) (tokens : List Token) (i : Nat) : Prop :=
  ∃ t, tokens[i]? = some t ∧ p t

/-- A container of a kind starts at a place. -/
def StartsAt (c : Container) : (tokens : List Token) → (i : Nat) → Prop :=
  PassesAt fun t => t.signal == .opens c

/-- A cut of a body into fields, then groups, then var-data, none of which reaches past it. -/
structure BodySpans.Cut (tokens : List Token) (body : Span) (spans : BodySpans) : Prop where
  fields : ∀ s ∈ spans.fields, StartsAt .field tokens s.start
  groups : ∀ s ∈ spans.groups, StartsAt .group tokens s.start
  varData : ∀ s ∈ spans.varData, StartsAt .varData tokens s.start
  tiles : Tiles (tokens.take body.stop) body.start spans.all body.stop

section Tiles

variable {tokens : List Token} {p : Token → Bool} {ss ss' : List Span} {i j k : Nat}

theorem Tiles.le (h : Tiles tokens i ss j) : i ≤ j := by
  induction ss generalizing i with
  | nil => exact h.le
  | cons s ss ih =>
    obtain ⟨-, hs, h⟩ := h
    have hbounds := spanAt_bounds hs
    have hrest := ih h
    omega

theorem tiles_append : Tiles tokens i (ss ++ ss') k ↔ ∃ j, Tiles tokens i ss j
    ∧ Tiles tokens j ss' k := by
  induction ss generalizing i with
  | nil => simp [Tiles]
  | cons s ss ih => simp only [List.cons_append, Tiles, ih, exists_and_left, and_assoc]

/-- Two tilings of one range are the same, whatever the spans are. -/
theorem Tiles.unique (h : Tiles tokens i ss j) (h' : Tiles tokens i ss' j) : ss = ss' := by
  induction ss generalizing i ss' with
  | nil =>
    cases h
    cases ss' with
    | nil => rfl
    | cons s' ss' =>
      obtain ⟨-, hs', h'⟩ := h'
      have hlt := (spanAt_bounds hs').2.1
      have hle := h'.le
      omega
  | cons s ss ih =>
    obtain ⟨-, hs, h⟩ := h
    cases ss' with
    | nil =>
      cases h'
      have hlt := (spanAt_bounds hs).2.1
      have hle := h.le
      omega
    | cons s' ss' =>
      obtain ⟨-, hs', h'⟩ := h'
      rw [hs] at hs'
      cases hs'
      rw [ih h h']

/-- The place where a tiling starts is that of its first span, or where it ends. -/
theorem Tiles.start_cases (h : Tiles tokens i ss j) : i = j ∨ ∃ s ∈ ss, s.start = i := by
  cases ss with
  | nil => exact .inl h
  | cons s ss => exact .inr ⟨s, List.mem_cons_self, h.1⟩

theorem PassesAt.lt (h : PassesAt p tokens i) : i < tokens.length := by
  obtain ⟨t, ht, -⟩ := h
  exact (List.getElem?_eq_some_iff.1 ht).1

theorem passesAt_take {n : Nat} (hi : i < n) :
    PassesAt p (tokens.take n) i ↔ PassesAt p tokens i := by
  rw [PassesAt, PassesAt, List.getElem?_take_of_lt hi]

/-- At one place stands one kind of container. -/
theorem StartsAt.eq {c c' : Container} (h : StartsAt c tokens i) (h' : StartsAt c' tokens i) :
    c = c' := by
  obtain ⟨t, ht, hc⟩ := h
  obtain ⟨t', ht', hc'⟩ := h'
  rw [ht] at ht'
  cases ht'
  rw [beq_iff_eq] at hc hc'
  rw [hc] at hc'
  cases hc'
  rfl

/-- Following spans goes on to the first token that does not pass. -/
theorem tiles_spansWhile (h : (spansWhile p tokens i).2 = .ok j) :
    Tiles tokens i (spansWhile p tokens i).1 j
      ∧ (∀ s ∈ (spansWhile p tokens i).1, PassesAt p tokens s.start) ∧ ¬ PassesAt p tokens j := by
  refine ⟨?_, fun s hs => (spanAt_of_mem_spansWhile hs).2, ?_⟩
  · fun_induction spansWhile p tokens i with
    | case1 => exact Except.ok.inj h
    | case2 => simp at h
    | case3 i t ht hp s hs rest ih => exact ⟨(spanAt_bounds hs).1, hs, ih h⟩
    | case4 => exact Except.ok.inj h
  · fun_induction spansWhile p tokens i with
    | case1 i hi =>
      cases h
      simp [PassesAt, hi]
    | case2 => simp at h
    | case3 i t ht hp s hs rest ih => exact ih h
    | case4 i t ht hp =>
      cases h
      simpa [PassesAt, ht] using hp

/-- A tiling of spans that pass, up to a token that does not, is what following spans gives. -/
theorem Tiles.spansWhile_eq (h : Tiles tokens i ss j)
    (hpass : ∀ s ∈ ss, PassesAt p tokens s.start) (hend : ¬ PassesAt p tokens j) :
    spansWhile p tokens i = (ss, .ok j) := by
  induction ss generalizing i with
  | nil =>
    cases h
    exact spansWhile_stop fun t ht => Bool.eq_false_iff.2 fun hp => hend ⟨t, ht, hp⟩
  | cons s ss ih =>
    obtain ⟨rfl, hs, h⟩ := h
    obtain ⟨hfirst, hrest⟩ := List.forall_mem_cons.1 hpass
    obtain ⟨t, ht, hp⟩ := hfirst
    rw [spansWhile_of_spanAt ht hp, hs]
    dsimp only
    rw [ih h hrest]

theorem spansWhile_eq_iff : spansWhile p tokens i = (ss, .ok j) ↔ Tiles tokens i ss j
    ∧ (∀ s ∈ ss, PassesAt p tokens s.start) ∧ ¬ PassesAt p tokens j := by
  constructor
  · intro h
    have htiles := tiles_spansWhile (congrArg Prod.snd h)
    rwa [h] at htiles
  · rintro ⟨htiles, hpass, hend⟩
    exact htiles.spansWhile_eq hpass hend

theorem Tiles.bounds_of_mem (h : Tiles tokens i ss j) {s : Span} (hs : s ∈ ss) :
    s.start < s.stop ∧ s.stop ≤ j := by
  induction ss generalizing i with
  | nil => simp at hs
  | cons s' ss ih =>
    obtain ⟨-, hs', h⟩ := h
    rcases List.mem_cons.1 hs with rfl | hs
    · have hbounds := spanAt_bounds hs'
      exact ⟨by omega, h.le⟩
    · exact ih h hs

end Tiles

section Cuts

variable {tokens : List Token} {body : Span} {spans : BodySpans}

theorem collect_eq_iff {c : Container} {ss : List Span} {i j : Nat} :
    collect (.opens c) tokens i = (ss, .ok j) ↔ Tiles tokens i ss j
      ∧ (∀ s ∈ ss, StartsAt c tokens s.start) ∧ ¬ StartsAt c tokens j :=
  spansWhile_eq_iff

/-- A body is cut by three walks, each from where the one before it ended. -/
theorem splitBody_eq_ok_iff_collect : splitBody tokens body = .ok spans ↔
    ∃ i j, collect (.opens .field) (tokens.take body.stop) body.start = (spans.fields, .ok i)
      ∧ collect (.opens .group) (tokens.take body.stop) i = (spans.groups, .ok j)
      ∧ collect (.opens .varData) (tokens.take body.stop) j = (spans.varData, .ok body.stop) := by
  constructor
  · intro h
    rw [splitBody] at h
    obtain ⟨i, hi, h⟩ := bind_eq_ok_iff.1 h
    obtain ⟨j, hj, h⟩ := bind_eq_ok_iff.1 h
    obtain ⟨k, hk, h⟩ := bind_eq_ok_iff.1 h
    split at h
    · rename_i hstop
      cases h
      rw [hstop] at hk
      exact ⟨i, j, Prod.ext rfl hi, Prod.ext rfl hj, Prod.ext rfl hk⟩
    · split at h <;> exact absurd h throw_ne_ok
  · rintro ⟨i, j, hfields, hgroups, hvarData⟩
    simp only [splitBody, hfields, hgroups, hvarData, ok_bind, if_true]
    rfl

/-- Behind a region stands no further container of its kind, when only others follow. -/
theorem Tiles.not_startsAt {c : Container} {ss : List Span} {i : Nat}
    (h : Tiles (tokens.take body.stop) i ss body.stop)
    (hne : ∀ s ∈ ss, ∃ c', c ≠ c' ∧ StartsAt c' (tokens.take body.stop) s.start) :
    ¬ StartsAt c (tokens.take body.stop) i := by
  intro hc
  rcases h.start_cases with rfl | ⟨s, hs, rfl⟩
  · exact (hc.lt.trans_le (List.length_take_le _ _)).false
  · obtain ⟨c', hcc', hc'⟩ := hne s hs
    exact hcc' (hc.eq hc')

/-- The spans of a region start in the body just as they start in the stream. -/
theorem Tiles.forall_startsAt_take {c : Container} {ss ss' : List Span}
    (h : Tiles (tokens.take body.stop) body.start ss body.stop) (hsub : ss' ⊆ ss) :
    (∀ s ∈ ss', StartsAt c (tokens.take body.stop) s.start)
      ↔ ∀ s ∈ ss', StartsAt c tokens s.start :=
  forall₂_congr fun s hs => by
    obtain ⟨hlt, hle⟩ := h.bounds_of_mem (hsub hs)
    exact passesAt_take (hlt.trans_le hle)

/-- A body is cut into regions just as it is tiled by fields, then groups, then var-data. -/
theorem splitBody_eq_ok_iff : splitBody tokens body = .ok spans ↔ spans.Cut tokens body := by
  have hfields : spans.fields ⊆ spans.all := fun s hs => by simp [BodySpans.all, hs]
  have hgroups : spans.groups ⊆ spans.all := fun s hs => by simp [BodySpans.all, hs]
  have hvarData : spans.varData ⊆ spans.all := fun s hs => by simp [BodySpans.all, hs]
  rw [splitBody_eq_ok_iff_collect]
  simp only [collect_eq_iff]
  constructor
  · rintro ⟨i, j, ⟨hi, hf, -⟩, ⟨hj, hg, -⟩, ⟨hk, hd, -⟩⟩
    have htiles : Tiles (tokens.take body.stop) body.start spans.all body.stop :=
      tiles_append.2 ⟨j, tiles_append.2 ⟨i, hi, hj⟩, hk⟩
    exact ⟨(htiles.forall_startsAt_take hfields).1 hf, (htiles.forall_startsAt_take hgroups).1 hg,
      (htiles.forall_startsAt_take hvarData).1 hd, htiles⟩
  · rintro ⟨hf, hg, hd, htiles⟩
    rw [← htiles.forall_startsAt_take hfields] at hf
    rw [← htiles.forall_startsAt_take hgroups] at hg
    rw [← htiles.forall_startsAt_take hvarData] at hd
    obtain ⟨j, htiles, hk⟩ := tiles_append.1 htiles
    obtain ⟨i, hi, hj⟩ := tiles_append.1 htiles
    -- What follows the fields are groups and var-data, what follows the groups is var-data.
    have hbehind := tiles_append.2 ⟨j, hj, hk⟩
    have hend : Tiles (tokens.take body.stop) body.stop [] body.stop := rfl
    refine ⟨i, j, ⟨hi, hf, hbehind.not_startsAt fun s hs => ?_⟩,
      ⟨hj, hg, hk.not_startsAt fun s hs => ⟨_, by decide, hd s hs⟩⟩,
      ⟨hk, hd, hend.not_startsAt (by simp)⟩⟩
    rcases List.mem_append.1 hs with hs | hs
    · exact ⟨_, by decide, hg s hs⟩
    · exact ⟨_, by decide, hd s hs⟩

end Cuts

/-- In a range of the stream nothing is reached out of range; the body is cut just if it can be,
and then into the only spans that tile it. -/
theorem splitBody_tiles {tokens : List Token} {body : Span} (h : body.start ≤ body.stop)
    (h' : body.stop ≤ tokens.length) :
    Guarded.splitBody tokens body = .of (splitBody tokens body)
      ∧ ((∃ spans, splitBody tokens body = .ok spans) ↔ ∃ spans : BodySpans, spans.Cut tokens body)
      ∧ ∀ spans, splitBody tokens body = .ok spans → spans.Cut tokens body
        ∧ ∀ ss, Tiles (tokens.take body.stop) body.start ss body.stop → ss = spans.all := by
  refine ⟨Guarded.splitBody_eq h h', exists_congr fun _ => splitBody_eq_ok_iff, fun spans hs => ?_⟩
  have hcut := splitBody_eq_ok_iff.1 hs
  exact ⟨hcut, fun ss hss => hss.unique hcut.tiles⟩

/-- The body of an order, cut into three fields, one group and one var-data. -/
theorem Orders.splitBody_tiles_order : 1 ≤ 28 ∧ 28 ≤ Orders.tokens.length
    ∧ (⟨[⟨1, 4⟩, ⟨4, 10⟩, ⟨10, 13⟩], [⟨13, 22⟩], [⟨22, 28⟩]⟩ : BodySpans).Cut Orders.tokens ⟨1, 28⟩
    ∧ ∀ ss, Tiles (Orders.tokens.take 28) 1 ss 28
      → ss = [⟨1, 4⟩, ⟨4, 10⟩, ⟨10, 13⟩, ⟨13, 22⟩, ⟨22, 28⟩] := by
  have hlength : 28 ≤ Orders.tokens.length := by decide
  have hs : splitBody Orders.tokens ⟨1, 28⟩
      = .ok ⟨[⟨1, 4⟩, ⟨4, 10⟩, ⟨10, 13⟩], [⟨13, 22⟩], [⟨22, 28⟩]⟩ := by cbv
  have htiles := @splitBody_tiles Orders.tokens ⟨1, 28⟩ (by decide) hlength
  obtain ⟨hcut, hunique⟩ := htiles.2.2 _ hs
  exact ⟨by decide, hlength, hcut, hunique⟩

end SimpleBinary
