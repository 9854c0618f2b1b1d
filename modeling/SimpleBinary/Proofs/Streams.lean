import Mathlib
import SimpleBinary.Definition.Tokens
import SimpleBinary.Layout.OfTokens
import SimpleBinary.Proofs.Outcomes
import SimpleBinary.Schema.Balanced

/-!
# Tokens in a stream

A run of tokens that stands somewhere in a stream (`HasAt`) is one container or leaf if a span that
is read at its start ends where it does (`Whole`), and is balanced if a walk over it leaves the open
containers as they were (`Balanced`).  What is wrapped is both, so the spans of wrapped runs one
behind the other are known without a look at the counts: `members_of_hasAt` for a composite,
`splitBody_of_hasAt` for a body.  A walk looks at the names, signals and counts of tokens alone, so
streams that agree in these are cut alike (`KeepsWalks`).
-/

namespace SimpleBinary

/-! ## Runs of tokens -/

/-- The stream has these tokens from an index on. -/
def HasAt (tokens : List Token) (i : Nat) (ts : List Token) : Prop :=
  ∃ pre post, tokens = pre ++ ts ++ post ∧ pre.length = i

section Runs

variable {tokens ts us : List Token} {t : Token} {i n : Nat}

theorem hasAt_self (ts : List Token) : HasAt ts 0 ts := ⟨[], [], by simp, rfl⟩

theorem HasAt.left (h : HasAt tokens i (ts ++ us)) : HasAt tokens i ts := by
  obtain ⟨pre, post, rfl, hi⟩ := h
  exact ⟨pre, us ++ post, by simp, hi⟩

theorem HasAt.right (h : HasAt tokens i (ts ++ us)) : HasAt tokens (i + ts.length) us := by
  obtain ⟨pre, post, rfl, hi⟩ := h
  exact ⟨pre ++ ts, post, by simp, by rw [List.length_append, hi]⟩

theorem HasAt.tail (h : HasAt tokens i (t :: ts)) : HasAt tokens (i + 1) ts := by
  have h : HasAt tokens i ([t] ++ ts) := h
  exact h.right

theorem HasAt.length_le (h : HasAt tokens i ts) : i + ts.length ≤ tokens.length := by
  obtain ⟨pre, post, rfl, rfl⟩ := h
  simp only [List.length_append]
  omega

theorem HasAt.getElem? (h : HasAt tokens i (t :: ts)) : tokens[i]? = some t := by
  obtain ⟨pre, post, rfl, rfl⟩ := h
  simp

theorem HasAt.tokenAt (h : HasAt tokens i (t :: ts)) : tokenAt tokens i = .ok t := by
  unfold SimpleBinary.tokenAt
  rw [h.getElem?]

theorem HasAt.take (h : HasAt tokens i ts) (hn : i + ts.length ≤ n) :
    HasAt (tokens.take n) i ts := by
  obtain ⟨pre, post, rfl, rfl⟩ := h
  refine ⟨pre, post.take (n - (pre ++ ts).length), ?_, rfl⟩
  rw [List.take_append, List.take_of_length_le (by rw [List.length_append]; exact hn)]

theorem HasAt.slice (h : HasAt tokens i ts) :
    (tokens.take (i + ts.length)).drop i = ts := by
  obtain ⟨pre, post, rfl, rfl⟩ := h
  rw [← List.length_append, List.take_left, List.drop_left]

end Runs

/-! ## Containers and leaves -/

/-- A span read at the start of these tokens ends where they do. -/
def Whole (ts : List Token) : Prop :=
  ∀ tokens i, HasAt tokens i ts → spanAt tokens i = .ok ⟨i, i + ts.length⟩

theorem whole_leaf {t : Token} (hs : t.signal.closing? = none) (hc : t.componentTokenCount = 1) :
    Whole [t] := by
  intro tokens i h
  have hlen := h.length_le
  unfold spanAt
  rw [h.getElem?]
  simp only [hc, hs, List.length_singleton] at hlen ⊢
  rw [if_neg (by omega), if_neg (by omega)]

theorem hasAt_wrap {tokens inside : List Token} {t : Token} {c : Container} {i : Nat}
    (h : HasAt tokens i (t.wrap c inside)) :
    tokens[i]? = some { t with componentTokenCount := inside.length + 2, signal := .opens c }
      ∧ HasAt tokens (i + 1) inside ∧ tokens[i + 1 + inside.length]?
        = some { t with componentTokenCount := inside.length + 2, signal := .closes c } := by
  unfold Token.wrap at h
  exact ⟨HasAt.getElem? h, HasAt.left h.tail, HasAt.getElem? (HasAt.right h.tail)⟩

theorem length_wrap (t : Token) (c : Container) (inside : List Token) :
    (t.wrap c inside).length = inside.length + 2 := by
  simp [Token.wrap]

theorem whole_container {first last : Token} {inside : List Token} {c : Container}
    (hfirst : first.signal = .opens c) (hlast : last.signal = .closes c)
    (hcount : first.componentTokenCount = inside.length + 2) :
    Whole (first :: (inside ++ [last])) := by
  intro tokens i h
  have hlen := h.length_le
  have hend : tokens[i + 1 + inside.length]? = some last := HasAt.getElem? (HasAt.right h.tail)
  unfold spanAt
  rw [h.getElem?]
  simp only [List.length_cons, List.length_append, List.length_nil] at hlen ⊢
  simp only [hfirst, Signal.closing?, hcount]
  rw [if_neg (by omega), if_neg (by omega),
    show i + (inside.length + 2) - 1 = i + 1 + inside.length by omega, hend,
    if_neg (by simp [hlast])]

theorem whole_wrap (t : Token) (c : Container) (inside : List Token) : Whole (t.wrap c inside) :=
  whole_container (c := c) rfl rfl rfl

/-- A walk over these tokens leaves the open containers as they were. -/
def Balanced (ts : List Token) : Prop :=
  ∀ opened index rest, checkBalancedFrom opened index (ts ++ rest)
    = checkBalancedFrom opened (index + ts.length) rest

theorem balanced_nil : Balanced [] := fun _ _ _ => rfl

theorem Balanced.append {ts us : List Token} (ht : Balanced ts) (hu : Balanced us) :
    Balanced (ts ++ us) := by
  intro opened index rest
  rw [List.append_assoc, ht, hu, List.length_append, Nat.add_assoc]

theorem balanced_leaf {t : Token} (ho : t.signal.closing? = none) (hs : t.signal.opening? = none)
    (hc : t.componentTokenCount = 1) : Balanced [t] := by
  intro opened index rest
  rw [List.singleton_append, List.length_singleton, checkBalancedFrom]
  cases h : t.signal with
  | opens c => simp [h, Signal.closing?] at ho
  | closes c => simp [h, Signal.opening?] at hs
  | _ => simp [hc]

theorem Balanced.container {inside : List Token} (h : Balanced inside) {first last : Token}
    {c : Container} (hfirst : first.signal = .opens c) (hlast : last.signal = .closes c)
    (hcount : first.componentTokenCount = inside.length + 2) :
    Balanced (first :: (inside ++ [last])) := by
  intro opened index rest
  rw [List.cons_append, List.append_assoc, checkBalancedFrom]
  simp only [hfirst]
  rw [h, List.singleton_append, checkBalancedFrom]
  simp only [hlast]
  rw [if_neg (by simp [hfirst]), if_neg (by rw [hcount]; omega)]
  congr 1
  simp only [List.length_cons, List.length_append, List.length_nil]
  omega

theorem Balanced.wrap {inside : List Token} (h : Balanced inside) (t : Token) (c : Container) :
    Balanced (t.wrap c inside) :=
  h.container (c := c) rfl rfl rfl

theorem checkBalanced_of_balanced {ts : List Token} (h : Balanced ts) :
    checkBalanced ts = .ok () := by
  have := h [] 0 []
  rw [List.append_nil] at this
  rw [checkBalanced, this, checkBalancedFrom]

/-! ## Spans one behind the other -/

/-- The spans of runs of tokens one behind the other. -/
def spansFrom (start : Nat) : List (List Token) → List Span
  | [] => []
  | u :: us => ⟨start, start + u.length⟩ :: spansFrom (start + u.length) us

/-- A run of tokens that is one container or leaf, whose first token passes a test. -/
def Starts (p : Token → Bool) (u : List Token) : Prop :=
  Whole u ∧ ∃ t ts, u = t :: ts ∧ p t

theorem spansWhile_stop {p : Token → Bool} {tokens : List Token} {i : Nat}
    (h : ∀ t, tokens[i]? = some t → p t = false) : spansWhile p tokens i = ([], .ok i) := by
  rw [spansWhile]
  split
  · rfl
  · rename_i t ht
    rw [h t ht]
    rfl

theorem spansWhile_of_spanAt {p : Token → Bool} {tokens : List Token} {i : Nat} {t : Token}
    (ht : tokens[i]? = some t) (hp : p t) : spansWhile p tokens i = match spanAt tokens i with
      | .error e => ([], .error e)
      | .ok s => (s :: (spansWhile p tokens s.stop).1, (spansWhile p tokens s.stop).2) := by
  rw [spansWhile]
  split
  · rename_i hnone
    rw [ht] at hnone
    cases hnone
  · rename_i u hu
    rw [ht] at hu
    cases hu
    rw [if_pos hp]
    split <;> rename_i h <;> rw [h]

theorem spansWhile_append {p : Token → Bool} {tokens rest : List Token} : ∀ {us : List (List Token)}
    {start : Nat}, (∀ u ∈ us, Starts p u) → HasAt tokens start (us.flatten ++ rest) →
    (spansWhile p tokens start).1 = spansFrom start us
        ++ (spansWhile p tokens (start + us.flatten.length)).1
      ∧ (spansWhile p tokens start).2 = (spansWhile p tokens (start + us.flatten.length)).2
  | [], start, _, _ => by simp [spansFrom]
  | u :: us, start, hu, h => by
    obtain ⟨⟨hwhole, t, ts, hcons, hp⟩, hu⟩ := List.forall_mem_cons.1 hu
    rw [List.flatten_cons, List.append_assoc] at h
    have hspan := hwhole _ _ h.left
    have ih := spansWhile_append hu h.right
    rw [List.flatten_cons, List.length_append, ← Nat.add_assoc]
    have hfirst : tokens[start]? = some t := by
      have := h.left
      rw [hcons] at this
      exact this.getElem?
    rw [spansWhile_of_spanAt hfirst hp, hspan]
    exact ⟨congrArg _ ih.1, ih.2⟩

theorem spansWhile_all {p : Token → Bool} {tokens rest : List Token} {us : List (List Token)}
    {start : Nat} (hu : ∀ u ∈ us, Starts p u) (h : HasAt tokens start (us.flatten ++ rest))
    (hstop : ∀ t, tokens[start + us.flatten.length]? = some t → p t = false) :
    spansWhile p tokens start = (spansFrom start us, .ok (start + us.flatten.length)) := by
  obtain ⟨h1, h2⟩ := spansWhile_append hu h
  rw [spansWhile_stop hstop] at h1 h2
  rw [List.append_nil] at h1
  exact Prod.ext h1 h2

theorem members_of_hasAt {tokens : List Token} {us : List (List Token)} {start stop : Nat}
    (hu : ∀ u ∈ us, Starts (fun _ => true) u) (h : HasAt tokens start us.flatten)
    (hstop : start + us.flatten.length = stop) :
    members tokens ⟨start, stop⟩ = .ok (spansFrom start us) := by
  have hb := h.take hstop.le
  rw [← List.append_nil us.flatten] at hb
  have hall := spansWhile_all hu hb (by
    rw [List.getElem?_eq_none (by rw [List.length_take]; omega)]
    simp)
  unfold members
  simp only [hall]
  rfl

/-- A run of tokens that is one container of a kind. -/
def StartsWith (c : Container) : List Token → Prop := Starts fun t => t.signal == .opens c

/-- Where runs begin that are no containers of a kind, or the stream ends, no container of the kind
starts. -/
theorem first_of_starts {tokens : List Token} {us : List (List Token)} {start : Nat}
    {c : Container} (hu : ∀ u ∈ us, ∃ t ts, u = t :: ts ∧ (t.signal == .opens c) = false)
    (h : HasAt tokens start us.flatten) (hend : tokens.length = start + us.flatten.length) :
    ∀ t, tokens[start]? = some t → (t.signal == .opens c) = false := by
  intro t ht
  cases us with
  | nil =>
    rw [List.getElem?_eq_none (by simpa using hend.le)] at ht
    cases ht
  | cons u us =>
    obtain ⟨t', ts, rfl, hsignal⟩ := hu u List.mem_cons_self
    rw [List.flatten_cons] at h
    rw [h.left.getElem?] at ht
    cases ht
    exact hsignal

theorem StartsWith.not {c c' : Container} (hne : c ≠ c') {u : List Token} (h : StartsWith c u) :
    ∃ t ts, u = t :: ts ∧ (t.signal == .opens c') = false := by
  obtain ⟨-, t, ts, rfl, ht⟩ := h
  refine ⟨t, ts, rfl, ?_⟩
  rw [beq_iff_eq] at ht
  rw [ht]
  simpa using hne

theorem splitBody_of_hasAt {tokens : List Token} {fields groups varData : List (List Token)}
    {start stop : Nat} (hf : ∀ u ∈ fields, StartsWith .field u)
    (hg : ∀ u ∈ groups, StartsWith .group u) (hd : ∀ u ∈ varData, StartsWith .varData u)
    (h : HasAt tokens start (fields.flatten ++ (groups.flatten ++ varData.flatten)))
    (hstop : start + (fields.flatten ++ (groups.flatten ++ varData.flatten)).length = stop) :
    splitBody tokens ⟨start, stop⟩
      = .ok ⟨spansFrom start fields, spansFrom (start + fields.flatten.length) groups,
        spansFrom (start + fields.flatten.length + groups.flatten.length) varData⟩ := by
  have hend : (tokens.take stop).length = stop := by
    have := h.length_le
    rw [List.length_take]
    omega
  have hb := h.take hstop.le
  simp only [List.length_append] at hstop
  have hbehind : HasAt (tokens.take stop) (start + fields.flatten.length)
      (groups ++ varData).flatten := by
    rw [List.flatten_append]
    exact hb.right
  have hnot : ∀ u ∈ groups ++ varData,
      ∃ t ts, u = t :: ts ∧ (t.signal == .opens .field) = false := by
    intro u hu
    rcases List.mem_append.1 hu with hu | hu
    · exact (hg u hu).not (by decide)
    · exact (hd u hu).not (by decide)
  have hfields := spansWhile_all hf hb (first_of_starts hnot hbehind (by
    rw [hend, List.flatten_append, List.length_append]
    omega))
  have hgroups := spansWhile_all hg hb.right (first_of_starts (fun u hu => (hd u hu).not (by decide))
    hb.right.right (by omega))
  have hlast := hb.right.right
  rw [← List.append_nil varData.flatten] at hlast
  have hdata := spansWhile_all hd hlast (by
    rw [List.getElem?_eq_none (by omega)]
    simp)
  unfold splitBody collect
  simp only [hfields, hgroups, hdata, ok_bind]
  rw [if_pos (by omega)]
  rfl

/-- Something read of each of several spans. -/
theorem mapM_spansFrom {ε α : Type} {f : Span → Except ε α} {tokens : List Token} :
    ∀ {us : List (List Token)} {xs : List α} {start : Nat}, HasAt tokens start us.flatten →
    List.Forall₂ (fun u x => ∀ i, HasAt tokens i u → f ⟨i, i + u.length⟩ = .ok x) us xs →
    (spansFrom start us).mapM f = .ok xs
  | [], _, start, _, .nil => rfl
  | u :: us, x :: xs, start, h, .cons hx hxs => by
    rw [List.flatten_cons] at h
    rw [spansFrom, List.mapM_cons, hx _ h.left, ok_bind, mapM_spansFrom h.right hxs]
    rfl

/-! ## Changed tokens -/

/-- A change of tokens that leaves what a walk over a stream looks at. -/
structure KeepsWalks (g : Token → Token) : Prop where
  name : ∀ t, (g t).name = t.name
  signal : ∀ t, (g t).signal = t.signal
  componentTokenCount : ∀ t, (g t).componentTokenCount = t.componentTokenCount

section KeepsWalks

variable {g : Token → Token}

theorem tokenAt_map (g : Token → Token) (ts : List Token) (i : Nat) :
    tokenAt (ts.map g) i = (tokenAt ts i).map g := by
  unfold tokenAt
  rw [List.getElem?_map]
  rcases ts[i]? with _ | t <;> rfl

theorem numbered_map (g : Token → Token) (ts : List Token) (s : Span) :
    numbered (ts.map g) s = (numbered ts s).map fun t => (g t.1, t.2) := by
  unfold numbered
  rw [← List.map_take, ← List.map_drop, List.zipIdx_map]
  rfl

theorem KeepsWalks.spanAt_map (hg : KeepsWalks g) (ts : List Token) (i : Nat) :
    spanAt (ts.map g) i = spanAt ts i := by
  have hsignals : ∀ j : Nat,
      (ts.map g)[j]?.map (fun t => t.signal) = ts[j]?.map fun t => t.signal := by
    intro j
    rw [List.getElem?_map, Option.map_map]
    exact congrArg (Option.map · _) (funext hg.signal)
  unfold spanAt
  simp only [hsignals, List.length_map]
  rw [List.getElem?_map]
  rcases ts[i]? with _ | t
  · rfl
  · simp only [Option.map_some, hg.name, hg.signal, hg.componentTokenCount]

theorem KeepsWalks.spansWhile_map (hg : KeepsWalks g) {p : Token → Bool} (hp : ∀ t, p (g t) = p t)
    (ts : List Token) (i : Nat) : spansWhile p (ts.map g) i = spansWhile p ts i := by
  have hget : ∀ j : Nat, (ts.map g)[j]? = ts[j]?.map g := fun _ => List.getElem?_map
  fun_induction spansWhile p ts i with
  | case1 i h => exact spansWhile_stop (by simp [h])
  | case2 i t ht hpt e h =>
    rw [spansWhile_of_spanAt ((hget i).trans (congrArg _ ht)) ((hp t).trans hpt),
      hg.spanAt_map, h]
  | case3 i t ht hpt s h rest ih =>
    rw [spansWhile_of_spanAt ((hget i).trans (congrArg _ ht)) ((hp t).trans hpt),
      hg.spanAt_map, h]
    dsimp only
    rw [ih]
  | case4 i t ht hpt => exact spansWhile_stop (by simp [ht, hp, hpt])

theorem KeepsWalks.splitBody_map (hg : KeepsWalks g) (ts : List Token) (body : Span) :
    splitBody (ts.map g) body = splitBody ts body := by
  have hcollect : ∀ signal us i, collect signal (us.map g) i = collect signal us i :=
    fun signal => hg.spansWhile_map fun t => by rw [hg.signal]
  unfold splitBody
  simp only [← List.map_take, hcollect, List.getElem?_map]
  refine bind_congr fun i => bind_congr fun j => bind_congr fun k => ?_
  rcases ts[k]? with _ | t
  · rfl
  · simp only [Option.map_some, hg.name, hg.signal]

theorem KeepsWalks.members_map (hg : KeepsWalks g) (ts : List Token) (body : Span) :
    members (ts.map g) body = members ts body := by
  unfold members
  rw [← List.map_take, hg.spansWhile_map fun _ => rfl]

theorem KeepsWalks.wholeSpan_map (hg : KeepsWalks g) (ts : List Token) (c : Container) :
    wholeSpan (ts.map g) c = wholeSpan ts c := by
  unfold wholeSpan
  rw [hg.spanAt_map, List.length_map]
  cases ts with
  | nil => rfl
  | cons t ts => simp only [List.map_cons, hg.name, hg.signal]

end KeepsWalks

end SimpleBinary
