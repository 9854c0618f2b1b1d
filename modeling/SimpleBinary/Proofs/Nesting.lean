import Mathlib
import SimpleBinary.Proofs.RoundTrip
import SimpleBinary.Proofs.Streams

/-!
# Balanced streams by their grammar

A stream is a sequence of items: a leaf, or a container with a sequence of items between the token
that opens it and the one that closes it (`Nested`).  The walk over a stream that remembers what is
open accepts just these (`nested_iff_checkBalanced`), for what it has still to read closes what is
open from the inside out, with items in between (`Finishes`).  In such a stream the end of a
container is found without its count: it is the only place where what lies in between is bracketed
(`Bracketed`), and the span that is read off the count ends just there.
-/

namespace SimpleBinary

/-! ## Sequences of items -/

/-- A sequence of leaves and containers among things that have signals.  Every container is closed
by its own kind; `counts` holds of the first element of an item and of how many the item has. -/
inductive Items {α : Type} (signal : α → Signal) (counts : α → Nat → Prop) : List α → Prop
  | nil : Items signal counts []
  | leaf {a : α} {as : List α} (ho : (signal a).closing? = none)
      (hc : (signal a).opening? = none) (hn : counts a 1) (has : Items signal counts as) :
      Items signal counts (a :: as)
  | container {first last : α} {inside rest : List α} {c : Container}
      (hfirst : signal first = .opens c) (hlast : signal last = .closes c)
      (hn : counts first (inside.length + 2)) (hinside : Items signal counts inside)
      (hrest : Items signal counts rest) : Items signal counts (first :: (inside ++ last :: rest))

/-- A sequence of items of which each is as long as its first token says. -/
def Nested (ts : List Token) : Prop := Items Token.signal (fun t n => t.componentTokenCount = n) ts

/-- A sequence of items by their signals alone. -/
def Bracketed (ss : List Signal) : Prop := Items id (fun _ _ => True) ss

namespace Items

variable {α : Type} {signal : α → Signal} {counts : α → Nat → Prop}

theorem append {as bs : List α} (ha : Items signal counts as) (hb : Items signal counts bs) :
    Items signal counts (as ++ bs) := by
  induction ha with
  | nil => exact hb
  | leaf ho hc hn _ ih => exact leaf ho hc hn ih
  | container hfirst hlast hn hinside _ _ ih =>
    rw [List.cons_append, List.append_assoc, List.cons_append]
    exact container hfirst hlast hn hinside ih

theorem bracketed {as : List α} (h : Items signal counts as) : Bracketed (as.map signal) := by
  unfold Bracketed
  induction h with
  | nil => exact nil
  | leaf ho hc _ _ ih => exact leaf ho hc trivial ih
  | container hfirst hlast _ _ _ ihinside ihrest =>
    rw [List.map_cons, List.map_append, List.map_cons]
    exact container hfirst hlast trivial ihinside ihrest

/-- What stands before or behind another element, and is not it, stands in one of the two parts. -/
theorem inside_or_rest {inside rest pre post : List α} {close first : α} (hne : close ≠ first)
    (h : inside ++ close :: rest = pre ++ first :: post) :
    (∃ mid, inside = pre ++ first :: mid ∧ post = mid ++ close :: rest)
      ∨ ∃ mid, rest = mid ++ first :: post := by
  rcases List.append_eq_append_iff.1 h with ⟨mid, -, hmid⟩ | ⟨mid, hinside, hmid⟩
  · rcases List.cons_eq_append_iff.1 hmid with ⟨-, hmid⟩ | ⟨mid, -, hmid⟩
    · exact absurd (List.cons.inj hmid).1.symm hne
    · exact .inr ⟨mid, hmid⟩
  · rcases List.cons_eq_append_iff.1 hmid with ⟨-, hmid⟩ | ⟨mid, rfl, hmid⟩
    · exact absurd (List.cons.inj hmid).1 hne
    · exact .inl ⟨mid, hinside, (List.cons.inj hmid).2⟩

/-- What opens a container somewhere in a sequence is followed by items and by what closes it. -/
theorem exists_container {as : List α} (h : Items signal counts as) {first : α} {c : Container}
    (hfirst : signal first = .opens c) : ∀ {pre post : List α}, as = pre ++ first :: post →
    ∃ inside last rest, post = inside ++ last :: rest ∧ signal last = .closes c
      ∧ Items signal counts inside ∧ counts first (inside.length + 2) := by
  induction h with
  | nil =>
    intro pre post heq
    simp at heq
  | @leaf a as ho _ _ _ ih =>
    intro pre post heq
    rcases List.cons_eq_append_iff.1 heq with ⟨-, heq⟩ | ⟨pre, -, heq⟩
    · cases heq
      simp [hfirst, Signal.closing?] at ho
    · exact ih heq
  | @container open' close inside rest c' hopen hclose hn hinside _ ihinside ihrest =>
    intro pre post heq
    rcases List.cons_eq_append_iff.1 heq with ⟨-, heq⟩ | ⟨pre, -, heq⟩
    · cases heq
      rw [hfirst] at hopen
      cases hopen
      exact ⟨inside, close, rest, rfl, hclose, hinside, hn⟩
    · have hne : close ≠ first := by
        rintro rfl
        rw [hfirst] at hclose
        cases hclose
      rcases inside_or_rest hne heq with ⟨mid, hinside, rfl⟩ | ⟨mid, hrest⟩
      · obtain ⟨inside', last, rest', rfl, hlast, hitems, hcount⟩ := ihinside hinside
        exact ⟨inside', last, rest' ++ close :: rest, by simp, hlast, hitems, hcount⟩
      · exact ihrest hrest

end Items

/-! ## The end of a container -/

/-- Before what closes an open container there is only one sequence of items. -/
theorem Bracketed.eq_of_append {ss : List Signal} (hs : Bracketed ss) : ∀ {ss' x x' : List Signal}
    {c c' : Container}, Bracketed ss' → ss ++ .closes c :: x = ss' ++ .closes c' :: x' →
    ss = ss' := by
  unfold Bracketed at *
  induction hs with
  | nil =>
    intro ss' x x' c c' hs' heq
    cases hs' with
    | nil => rfl
    | leaf _ hc =>
      cases heq
      simp [Signal.opening?] at hc
    | container hfirst =>
      cases heq
      cases hfirst
  | leaf ho hc _ _ ih =>
    intro ss' x x' c c' hs' heq
    cases hs' with
    | nil =>
      cases heq
      simp [Signal.opening?] at hc
    | leaf _ _ _ hrest =>
      rw [List.cons_append, List.cons_append, List.cons.injEq] at heq
      rw [heq.1, ih hrest heq.2]
    | container hfirst =>
      rw [List.cons_append, List.cons_append, List.cons.injEq] at heq
      rw [id] at hfirst
      rw [heq.1, hfirst] at ho
      simp [Signal.closing?] at ho
  | container hfirst hlast _ _ _ ihinside ihrest =>
    intro ss' x x' c c' hs' heq
    rw [id] at hfirst hlast
    subst hfirst hlast
    cases hs' with
    | nil => cases heq
    | leaf ho =>
      rw [List.cons_append, List.cons_append, List.cons.injEq] at heq
      rw [← heq.1] at ho
      simp [Signal.closing?] at ho
    | container hfirst' hlast' _ hinside' hrest' =>
      rw [id] at hfirst' hlast'
      subst hfirst' hlast'
      simp only [List.cons_append, List.append_assoc, List.cons.injEq] at heq
      obtain ⟨hfirst, heq⟩ := heq
      obtain rfl := ihinside hinside' heq
      have heq := List.append_cancel_left heq
      rw [List.cons.injEq] at heq
      rw [hfirst, heq.1, ihrest hrest' heq.2]

/-- The token at `j` closes what the one at `i` opens. -/
def ClosedAt (tokens : List Token) (i j : Nat) : Prop :=
  ∃ first inside last c, HasAt tokens i (first :: (inside ++ [last])) ∧ j = i + inside.length + 1
    ∧ first.signal = .opens c ∧ last.signal = .closes c ∧ Bracketed (inside.map Token.signal)

theorem HasAt.drop {tokens ts : List Token} {i : Nat} (h : HasAt tokens i ts) :
    ∃ post, tokens.drop i = ts ++ post := by
  obtain ⟨pre, post, rfl, rfl⟩ := h
  exact ⟨post, by rw [List.append_assoc, List.drop_left]⟩

theorem ClosedAt.unique {tokens : List Token} {i j j' : Nat} (h : ClosedAt tokens i j)
    (h' : ClosedAt tokens i j') : j = j' := by
  obtain ⟨first, inside, last, c, hat, rfl, -, hlast, hinside⟩ := h
  obtain ⟨first', inside', last', c', hat', rfl, -, hlast', hinside'⟩ := h'
  obtain ⟨post, hpost⟩ := hat.drop
  obtain ⟨post', hpost'⟩ := hat'.drop
  rw [hpost, List.cons_append, List.cons_append, List.cons.injEq, List.append_assoc,
    List.append_assoc] at hpost'
  have hsignals := congrArg (List.map Token.signal) hpost'.2
  simp only [List.map_append, List.map_cons, List.cons_append, hlast, hlast'] at hsignals
  have hlength := congrArg List.length (hinside.eq_of_append hinside' hsignals)
  simp only [List.length_map] at hlength
  omega

/-! ## The walk with what is open -/

/-- What is left of a stream in which containers are open, innermost first: the items inside the
first of them and its end, then what is left when that is closed. -/
inductive Finishes : List (Nat × Token) → Nat → List Token → Prop
  | done {index : Nat} {ts : List Token} (hts : Nested ts) : Finishes [] index ts
  | close {opened : List (Nat × Token)} {start index : Nat} {opener last : Token}
      {inside rest : List Token} {c : Container} (hinside : Nested inside)
      (hlast : last.signal = .closes c) (hopener : opener.signal = .opens c)
      (hcount : opener.componentTokenCount = index + inside.length - start + 1)
      (hrest : Finishes opened (index + inside.length + 1) rest) :
      Finishes ((start, opener) :: opened) index (inside ++ last :: rest)

theorem Nested.finishes {opened : List (Nat × Token)} {index : Nat} {item ts : List Token}
    (hitem : Nested item) (h : Finishes opened (index + item.length) ts) :
    Finishes opened index (item ++ ts) := by
  cases h with
  | done hts => exact .done (hitem.append hts)
  | @close opened start _ opener last inside rest c hinside hlast hopener hcount hrest =>
    rw [← List.append_assoc]
    refine .close (hitem.append hinside) hlast hopener ?_ ?_
    · rw [hcount, List.length_append, Nat.add_assoc]
    · rw [List.length_append, ← Nat.add_assoc]
      exact hrest

theorem Finishes.leaf {opened : List (Nat × Token)} {index : Nat} {t : Token} {ts : List Token}
    (ho : t.signal.closing? = none) (hc : t.signal.opening? = none)
    (hcount : t.componentTokenCount = 1) (h : Finishes opened (index + 1) ts) :
    Finishes opened index (t :: ts) := by
  have hitem : Nested [t] := .leaf ho hc hcount .nil
  exact hitem.finishes h

/-- A container that is open and will be closed is an item of what is around it. -/
theorem Finishes.container {opened : List (Nat × Token)} {index : Nat} {t : Token}
    {ts : List Token} (h : Finishes ((index, t) :: opened) (index + 1) ts) :
    Finishes opened index (t :: ts) := by
  cases h with
  | @close _ _ _ _ last inside rest c hinside hlast hopener hcount hrest =>
    have hitem : Nested (t :: (inside ++ [last])) := by
      refine .container hopener hlast ?_ hinside .nil
      rw [hcount]
      omega
    have hlength : index + (t :: (inside ++ [last])).length = index + 1 + inside.length + 1 := by
      simp only [List.length_cons, List.length_append, List.length_nil]
      omega
    rw [← hlength] at hrest
    have := hitem.finishes hrest
    rwa [List.cons_append, List.append_assoc, List.singleton_append] at this

theorem finishes_of_checkBalancedFrom {opened : List (Nat × Token)} {index : Nat}
    {ts : List Token} (h : checkBalancedFrom opened index ts = .ok ()) :
    Finishes opened index ts := by
  fun_induction checkBalancedFrom opened index ts with
  | case1 => exact .done .nil
  | case2 => simp at h
  | case3 opened index t ts c hsignal ih => exact (ih h).container
  | case4 => simp at h
  | case5 => simp at h
  | case6 => simp at h
  | case7 index t ts c hsignal start opener opened hopener hcount ih =>
    have hend : Finishes ((start, opener) :: opened) index ([] ++ t :: ts) :=
      .close .nil hsignal (not_not.1 hopener) (not_not.1 hcount) (ih h)
    exact hend
  | case8 => simp at h
  | case9 opened index t ts hcount hopens hcloses ih =>
    refine .leaf ?_ ?_ (not_not.1 hcount) (ih h)
    · cases hs : t.signal with
      | opens c => exact absurd hs (hopens c)
      | _ => rfl
    · cases hs : t.signal with
      | closes c => exact absurd hs (hcloses c)
      | _ => rfl

/-! ## Where containers end -/

theorem Nested.balanced {ts : List Token} (h : Nested ts) : Balanced ts := by
  unfold Nested at h
  induction h with
  | nil => exact balanced_nil
  | leaf ho hc hn _ ih => exact (balanced_leaf ho hc hn).append ih
  | container hfirst hlast hn _ _ ihinside ihrest =>
    have := (ihinside.container hfirst hlast hn).append ihrest
    rwa [List.cons_append, List.append_assoc, List.singleton_append] at this

theorem checkBalanced_eq_ok_iff {tokens : List Token} :
    checkBalanced tokens = .ok () ↔ Nested tokens := by
  constructor
  · intro h
    cases finishes_of_checkBalancedFrom h with
    | done h => exact h
  · intro h
    exact checkBalanced_of_balanced h.balanced

theorem HasAt.within {tokens ts us : List Token} {i k : Nat} (h : HasAt tokens i ts)
    (hu : HasAt ts k us) : HasAt tokens (i + k) us := by
  obtain ⟨pre, post, rfl, rfl⟩ := h
  obtain ⟨pre', post', rfl, rfl⟩ := hu
  exact ⟨pre ++ pre', post' ++ post, by simp, List.length_append⟩

theorem HasAt.getElem?_add {tokens ts : List Token} {i k : Nat} (h : HasAt tokens i ts)
    (hk : k < ts.length) : tokens[i + k]? = ts[k]? := by
  obtain ⟨pre, post, rfl, rfl⟩ := h
  rw [List.append_assoc, List.getElem?_append_right (Nat.le_add_right _ _), Nat.add_sub_cancel_left,
    List.getElem?_append_left hk]

/-- A container opens at an index of a stream. -/
def OpensAt (tokens : List Token) (i : Nat) : Prop :=
  ∃ t c, tokens[i]? = some t ∧ t.signal = .opens c

/-- The items of a container that opens somewhere in a sequence of items, and its end. -/
theorem Nested.exists_container {ts : List Token} (h : Nested ts) {i : Nat}
    (hi : OpensAt ts i) : ∃ first inside last c, HasAt ts i (first :: (inside ++ [last]))
      ∧ first.signal = .opens c ∧ last.signal = .closes c ∧ Nested inside
      ∧ first.componentTokenCount = inside.length + 2 := by
  obtain ⟨first, c, hget, hfirst⟩ := hi
  obtain ⟨hlt, hget⟩ := List.getElem?_eq_some_iff.1 hget
  have hsplit : ts = ts.take i ++ first :: ts.drop (i + 1) := by
    rw [← hget, List.getElem_cons_drop, List.take_append_drop]
  obtain ⟨inside, last, rest, hrest, hlast, hinside, hn⟩ := Items.exists_container h hfirst hsplit
  refine ⟨first, inside, last, c, ⟨ts.take i, rest, ?_, ?_⟩, hfirst, hlast, hinside, hn⟩
  · rw [hrest] at hsplit
    exact hsplit.trans (by simp)
  · rw [List.length_take]
    omega

/-- The span that is read at the start of a container ends where the container is closed. -/
theorem Nested.exists_closedAt {ts : List Token} (h : Nested ts) {i : Nat} (hi : OpensAt ts i) :
    ∃ j, (∀ j', ClosedAt ts i j' ↔ j' = j) ∧ spanAt ts i = .ok ⟨i, j + 1⟩ := by
  obtain ⟨first, inside, last, c, hat, hfirst, hlast, hinside, hn⟩ := h.exists_container hi
  have hclosed : ClosedAt ts i (i + inside.length + 1) :=
    ⟨first, inside, last, c, hat, rfl, hfirst, hlast, hinside.bracketed⟩
  refine ⟨i + inside.length + 1, fun j' => ⟨fun h' => h'.unique hclosed, ?_⟩, ?_⟩
  · rintro rfl
    exact hclosed
  · rw [whole_container hfirst hlast hn ts i hat]
    simp only [List.length_cons, List.length_append, List.length_nil, Except.ok.injEq,
      Span.mk.injEq, true_and]
    omega

/-- Both spans have no token in common. -/
def Span.Apart (s s' : Span) : Prop := s.stop ≤ s'.start ∨ s'.stop ≤ s.start

/-- Every token of the first span is one of the second. -/
def Span.Within (s s' : Span) : Prop := s'.start ≤ s.start ∧ s.stop ≤ s'.stop

/-- A container that opens behind the start of another is behind it as a whole or inside it. -/
theorem Nested.apart_or_within {ts : List Token} (h : Nested ts) {i i' : Nat} (hlt : i < i')
    (hi : OpensAt ts i) (hi' : OpensAt ts i') {s s' : Span} (hs : spanAt ts i = .ok s)
    (hs' : spanAt ts i' = .ok s') : s.Apart s' ∨ s'.Within s := by
  obtain ⟨first, inside, last, c, hat, hfirst, hlast, hinside, hn⟩ := h.exists_container hi
  rw [whole_container hfirst hlast hn ts i hat] at hs
  cases hs
  have hstart := (spanAt_bounds hs').1
  simp only [Span.Apart, Span.Within, List.length_cons, List.length_append, List.length_nil]
  by_cases hout : i + (inside.length + 2) ≤ i'
  · left
    omega
  right
  have hbody : HasAt ts (i + 1) inside := HasAt.left hat.tail
  obtain ⟨k, rfl⟩ : ∃ k, i' = i + 1 + k := ⟨i' - (i + 1), by omega⟩
  -- the other container does not open where this one is closed
  have hk : k < inside.length := by
    by_contra hge
    obtain ⟨t, c', ht, hopens⟩ := hi'
    have hend : ts[i + 1 + inside.length]? = some last := HasAt.getElem? (HasAt.right hat.tail)
    rw [show k = inside.length by omega, hend] at ht
    cases ht
    rw [hlast] at hopens
    cases hopens
  have hopens : OpensAt inside k := by
    obtain ⟨t, c', ht, hopens⟩ := hi'
    rw [hbody.getElem?_add hk] at ht
    exact ⟨t, c', ht, hopens⟩
  obtain ⟨first', inside', last', c', hat', hfirst', hlast', -, hn'⟩ :=
    hinside.exists_container hopens
  have hlength := hat'.length_le
  rw [whole_container hfirst' hlast' hn' ts _ (hbody.within hat')] at hs'
  cases hs'
  simp only [List.length_cons, List.length_append, List.length_nil] at hlength ⊢
  omega

/-- The walk over a stream accepts it just if it is a sequence of items.  In such a stream the span
of every container runs up to the one token that closes it, and of two containers one lies inside
the other, or they have nothing in common. -/
theorem nested_iff_checkBalanced (tokens : List Token) :
    (checkBalanced tokens = .ok () ↔ Nested tokens)
      ∧ (checkBalanced tokens = .ok () →
        (∀ i, OpensAt tokens i →
          ∃ j, (∀ j', ClosedAt tokens i j' ↔ j' = j) ∧ spanAt tokens i = .ok ⟨i, j + 1⟩)
        ∧ ∀ i i' s s', OpensAt tokens i → OpensAt tokens i' → spanAt tokens i = .ok s →
          spanAt tokens i' = .ok s' → s.Apart s' ∨ s.Within s' ∨ s'.Within s) := by
  refine ⟨checkBalanced_eq_ok_iff, fun h => ?_⟩
  have hnested := checkBalanced_eq_ok_iff.1 h
  refine ⟨fun i hi => hnested.exists_closedAt hi, fun i i' s s' hi hi' hs hs' => ?_⟩
  rcases Nat.lt_trichotomy i i' with hlt | rfl | hlt
  · rcases hnested.apart_or_within hlt hi hi' hs hs' with h | h
    · exact .inl h
    · exact .inr (.inr h)
  · rw [hs] at hs'
    cases hs'
    exact .inr (.inl ⟨le_rfl, le_rfl⟩)
  · rcases hnested.apart_or_within hlt hi' hi hs' hs with h | h
    · exact .inl h.symm
    · exact .inr (.inl h)

/-- The group of fills in the tokens of an order is closed where its count says. -/
theorem Orders.closedAt_fills : checkBalanced Orders.tokens = .ok () ∧ OpensAt Orders.tokens 13
    ∧ spanAt Orders.tokens 13 = .ok ⟨13, 22⟩ ∧ ClosedAt Orders.tokens 13 21 := by
  have hbalanced : checkBalanced Orders.tokens = .ok () := by rfl
  have hopens : OpensAt Orders.tokens 13 := ⟨_, .group, by rfl, by rfl⟩
  have hspan : spanAt Orders.tokens 13 = .ok ⟨13, 22⟩ := by cbv
  obtain ⟨j, hj, hj'⟩ := ((nested_iff_checkBalanced Orders.tokens).2 hbalanced).1 13 hopens
  rw [hspan] at hj'
  have hend : j = 21 := by simpa using hj'.symm
  exact ⟨hbalanced, hopens, hspan, (hj 21).2 hend.symm⟩

end SimpleBinary
