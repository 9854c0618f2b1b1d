import Mathlib

/-!
# Steps that may fail

A run of steps succeeds when each of them does (`bind_eq_ok_iff`, `mapM_eq_ok_iff`).  What a step
gives is kept by `toOption`, which forgets only the reason for which it failed, so steps that differ
in their messages alone are compared as options.  Where the reason counts, steps are compared by an
image of what they give (`map_bind_congr`).
-/

namespace SimpleBinary

section Bind

variable {ε α β : Type}

@[simp]
theorem toOption_ok (a : α) : (Except.ok a : Except ε α).toOption = some a := rfl

@[simp]
theorem toOption_error (e : ε) : (Except.error e : Except ε α).toOption = none := rfl

@[simp]
theorem toOption_pure (a : α) : (pure a : Except ε α).toOption = some a := rfl

@[simp]
theorem toOption_throw (e : ε) : (throw e : Except ε α).toOption = none := rfl

@[simp]
theorem toOption_bind (x : Except ε α) (f : α → Except ε β) :
    (x >>= f).toOption = x.toOption.bind fun a => (f a).toOption := by
  cases x <;> rfl

@[simp]
theorem toOption_map (x : Except ε α) (f : α → β) : (x.map f).toOption = x.toOption.map f := by
  cases x <;> rfl

theorem toOption_eq_some_iff {x : Except ε α} {a : α} : x.toOption = some a ↔ x = .ok a := by
  cases x <;> simp

theorem ok_bind (a : α) (f : α → Except ε β) : (Except.ok a >>= f) = f a := rfl

theorem bind_eq_ok_iff {x : Except ε α} {f : α → Except ε β} {b : β} :
    (x >>= f) = .ok b ↔ ∃ a, x = .ok a ∧ f a = .ok b := by
  cases x with
  | error e => simp [bind, Except.bind]
  | ok a => simp [bind, Except.bind]

theorem check_bind_eq_ok_iff {x : Except ε Unit} {f : Unit → Except ε β} {b : β} :
    (x >>= f) = .ok b ↔ x = .ok () ∧ f () = .ok b := by
  rw [bind_eq_ok_iff]
  exact ⟨fun ⟨_, h⟩ => h, fun h => ⟨(), h⟩⟩

theorem bind_eq_error_iff {x : Except ε α} {f : α → Except ε β} {e : ε} :
    (x >>= f) = .error e ↔ x = .error e ∨ ∃ a, x = .ok a ∧ f a = .error e := by
  cases x with
  | error e' => simp [bind, Except.bind]
  | ok a => simp [bind, Except.bind]

theorem map_eq_ok_iff {x : Except ε α} {f : α → β} {b : β} :
    x.map f = .ok b ↔ ∃ a, x = .ok a ∧ f a = b := by
  cases x with
  | error e => simp [Except.map]
  | ok a => simp [Except.map]

theorem pure_eq_ok_iff {a b : α} : (pure a : Except ε α) = .ok b ↔ a = b := by
  simp [pure, Except.pure]

theorem throw_ne_ok {e : ε} {b : α} : (throw e : Except ε α) ≠ .ok b := by
  simp [throw, throwThe, MonadExceptOf.throw]

end Bind

section Related

variable {α β : Type} {R : α → β → Prop} {xs : List α} {ys : List β}

/-- What related elements pass on, lists of them do. -/
theorem forall_mem_of_forall₂ {p : α → Prop} {q : β → Prop} (hpq : ∀ x y, R x y → p x → q y)
    (h : List.Forall₂ R xs ys) (hp : ∀ x ∈ xs, p x) : ∀ y ∈ ys, q y := by
  induction h with
  | nil => exact List.forall_mem_nil _
  | cons hxy _ ih =>
    rw [List.forall_mem_cons] at hp
    exact List.forall_mem_cons.2 ⟨hpq _ _ hxy hp.1, ih hp.2⟩

theorem exists_of_mem_forall₂ (h : List.Forall₂ R xs ys) : ∀ x ∈ xs, ∃ y ∈ ys, R x y :=
  forall_mem_of_forall₂ (fun y _ hxy hy => Exists.intro y (And.intro hy hxy)) h.flip fun _ hy => hy

end Related

section MapM

variable {ε α β : Type}

theorem mapM_eq_some_iff {f : α → Option β} {xs : List α} {ys : List β} :
    xs.mapM f = some ys ↔ List.Forall₂ (fun x y => f x = some y) xs ys := by
  induction xs generalizing ys with
  | nil => cases ys <;> simp
  | cons x xs ih =>
    simp only [List.mapM_cons, Option.bind_eq_bind, Option.bind_eq_some_iff, ih, Option.pure_def]
    constructor
    · rintro ⟨y, hy, zs, hz, h⟩
      cases h
      exact .cons hy hz
    · intro h
      cases h with
      | cons hy hz => exact ⟨_, hy, _, hz, rfl⟩

theorem mapM_eq_ok_iff {f : α → Except ε β} {xs : List α} {ys : List β} :
    xs.mapM f = .ok ys ↔ List.Forall₂ (fun x y => f x = .ok y) xs ys := by
  induction xs generalizing ys with
  | nil => cases ys <;> simp [pure_eq_ok_iff]
  | cons x xs ih =>
    simp only [List.mapM_cons, bind_eq_ok_iff, pure_eq_ok_iff, ih]
    constructor
    · rintro ⟨y, hy, zs, hz, h⟩
      cases h
      exact .cons hy hz
    · intro h
      cases h with
      | cons hy hz => exact ⟨_, hy, _, hz, rfl⟩

theorem mapM_congr_of_mem {f g : α → Option β} : ∀ {xs : List α},
    (∀ x ∈ xs, f x = g x) → xs.mapM f = xs.mapM g
  | [], _ => rfl
  | x :: xs, h => by
    obtain ⟨hx, hxs⟩ := List.forall_mem_cons.1 h
    rw [List.mapM_cons, List.mapM_cons, hx, mapM_congr_of_mem hxs]

theorem toOption_mapM (f : α → Except ε β) :
    ∀ xs : List α, (xs.mapM f).toOption = xs.mapM fun x => (f x).toOption
  | [] => rfl
  | x :: xs => by
    rw [List.mapM_cons, List.mapM_cons, toOption_bind]
    simp only [toOption_bind, toOption_pure, toOption_mapM f xs]
    rfl

/-- What each step of a run tells of its result. -/
theorem forall₂_of_mapM {f : α → Except ε β} {R : α → β → Prop} {xs : List α} {ys : List β}
    (h : xs.mapM f = .ok ys) (hR : ∀ x ∈ xs, ∀ y, f x = .ok y → R x y) : List.Forall₂ R xs ys := by
  have h2 := mapM_eq_ok_iff.1 h
  clear h
  induction h2 with
  | nil => exact .nil
  | cons hxy _ ih =>
    exact .cons (hR _ List.mem_cons_self _ hxy) (ih fun x hx => hR x (List.mem_cons_of_mem _ hx))

/-- What a run gives, one of its steps gave. -/
theorem exists_of_mem_mapM {f : α → Except ε β} {xs : List α} {ys : List β}
    (h : xs.mapM f = .ok ys) {y : β} (hy : y ∈ ys) : ∃ x ∈ xs, f x = .ok y :=
  exists_of_mem_forall₂ (mapM_eq_ok_iff.1 h).flip y hy

/-- Each step of a run that succeeds gives something, which the run gives too. -/
theorem exists_mem_of_mapM {f : α → Except ε β} {xs : List α} {ys : List β}
    (h : xs.mapM f = .ok ys) {x : α} (hx : x ∈ xs) : ∃ y ∈ ys, f x = .ok y :=
  exists_of_mem_forall₂ (mapM_eq_ok_iff.1 h) x hx

/-- Each step of a run that succeeds gives something. -/
theorem exists_of_mapM {f : α → Except ε β} {xs : List α} {ys : List β}
    (h : xs.mapM f = .ok ys) {x : α} (hx : x ∈ xs) : ∃ y, f x = .ok y := by
  obtain ⟨y, -, hxy⟩ := exists_mem_of_mapM h hx
  exact ⟨y, hxy⟩

/-- A run fails with one of its steps. -/
theorem exists_of_mapM_error {f : α → Except ε β} {e : ε} : ∀ {xs : List α},
    xs.mapM f = .error e → ∃ x ∈ xs, f x = .error e
  | [], h => by cases h
  | x :: xs, h => by
    rw [List.mapM_cons] at h
    rcases bind_eq_error_iff.1 h with h | ⟨y, -, h⟩
    · exact ⟨x, List.mem_cons_self, h⟩
    rcases bind_eq_error_iff.1 h with h | ⟨ys, -, h⟩
    · obtain ⟨x', hx', h⟩ := exists_of_mapM_error h
      exact ⟨x', List.mem_cons_of_mem _ hx', h⟩
    · cases h

/-- A run that checks each result gives those of the run that does not, and all of them pass. -/
theorem mapM_check_eq_ok_iff {f : α → Except ε β} {check : β → Except ε Unit} {xs : List α}
    {ys : List β} : (xs.mapM fun x => do let y ← f x; check y; return y) = .ok ys
      ↔ xs.mapM f = .ok ys ∧ ∀ y ∈ ys, check y = .ok () := by
  have hstep : ∀ x y, (do let y ← f x; check y; return y) = .ok y
      ↔ f x = .ok y ∧ check y = .ok () := by
    intro x y
    simp only [bind_eq_ok_iff, pure_eq_ok_iff]
    constructor
    · rintro ⟨y', hy, ⟨⟩, hcheck, rfl⟩
      exact ⟨hy, hcheck⟩
    · rintro ⟨hy, hcheck⟩
      exact ⟨y, hy, (), hcheck, rfl⟩
  rw [mapM_eq_ok_iff, mapM_eq_ok_iff]
  simp only [hstep]
  constructor
  · intro h
    induction h with
    | nil => exact ⟨.nil, by simp⟩
    | cons hxy _ ih => exact ⟨.cons hxy.1 ih.1, List.forall_mem_cons.2 ⟨hxy.2, ih.2⟩⟩
  · rintro ⟨h, hcheck⟩
    induction h with
    | nil => exact .nil
    | cons hxy _ ih =>
      obtain ⟨hhead, hcheck⟩ := List.forall_mem_cons.1 hcheck
      exact .cons ⟨hxy, hhead⟩ (ih hcheck)

theorem exists_mapM_ok_iff {f : α → Except ε β} : ∀ {xs : List α},
    (∃ ys, xs.mapM f = .ok ys) ↔ ∀ x ∈ xs, ∃ y, f x = .ok y
  | [] => ⟨fun _ _ hx => absurd hx List.not_mem_nil, fun _ => ⟨[], rfl⟩⟩
  | x :: xs => by
    rw [List.forall_mem_cons, ← exists_mapM_ok_iff]
    constructor
    · rintro ⟨ys, h⟩
      rw [List.mapM_cons] at h
      obtain ⟨y, hy, h⟩ := bind_eq_ok_iff.1 h
      obtain ⟨zs, hzs, -⟩ := bind_eq_ok_iff.1 h
      exact ⟨⟨y, hy⟩, zs, hzs⟩
    · rintro ⟨⟨y, hy⟩, zs, hzs⟩
      exact ⟨y :: zs, by rw [List.mapM_cons, hy, ok_bind, hzs]; rfl⟩

/-- What each step tells of its result, read off all of them. -/
theorem map_eq_of_mapM {γ : Type} {f : α → Except ε β} {g : α → γ} {h : β → γ}
    (hstep : ∀ {x y}, f x = .ok y → g x = h y) {xs : List α} {ys : List β}
    (hm : xs.mapM f = .ok ys) : xs.map g = ys.map h := by
  rw [mapM_eq_ok_iff] at hm
  induction hm with
  | nil => rfl
  | cons hxy _ ih => rw [List.map_cons, List.map_cons, hstep hxy, ih]

theorem forM_eq_ok_iff {f : α → Except ε Unit} {xs : List α} :
    xs.forM f = .ok () ↔ ∀ x ∈ xs, f x = .ok () := by
  induction xs with
  | nil => simp [List.forM, pure_eq_ok_iff]
  | cons x xs ih =>
    rw [List.forM, bind_eq_ok_iff, List.forall_mem_cons, ih]
    constructor
    · rintro ⟨⟨⟩, hx, hxs⟩
      exact ⟨hx, hxs⟩
    · rintro ⟨hx, hxs⟩
      exact ⟨(), hx, hxs⟩

end MapM

section Images

variable {ε α β γ δ : Type}

/-- Steps go on alike from what has one image. -/
theorem bind_congr_of_map {x y : Except ε α} {f g : α → Except ε β} (m : α → γ)
    (hxy : x.map m = y.map m) (hfg : ∀ a b, m a = m b → f a = g b) : (x >>= f) = (y >>= g) := by
  cases x with
  | error e =>
    cases y with
    | error e' => cases hxy; rfl
    | ok b => cases hxy
  | ok a =>
    cases y with
    | error e' => cases hxy
    | ok b => exact hfg a b (Except.ok.inj hxy)

theorem map_bind_eq (x : Except ε α) (f : α → Except ε β) (n : β → δ) :
    (x >>= f).map n = x >>= fun a => (f a).map n := by
  cases x <;> rfl

/-- Steps one behind the other fail alike, or give what has one image, if each of them does. -/
theorem map_bind_congr {x y : Except ε α} {f g : α → Except ε β} (m : α → γ) {n : β → δ}
    (hxy : x.map m = y.map m) (hfg : ∀ a b, m a = m b → (f a).map n = (g b).map n) :
    (x >>= f).map n = (y >>= g).map n := by
  rw [map_bind_eq, map_bind_eq]
  exact bind_congr_of_map m hxy hfg

theorem map_bind_congr_right {x : Except ε α} {f g : α → Except ε β} {n : β → δ}
    (h : ∀ a, (f a).map n = (g a).map n) : (x >>= f).map n = (x >>= g).map n := by
  rw [map_bind_eq, map_bind_eq]
  exact bind_congr h

theorem bind_of_map (x : Except ε α) (m : α → γ) (f : γ → Except ε β) :
    (x.map m >>= f) = x >>= fun a => f (m a) := by
  cases x <;> rfl

/-- Steps from an image give images, if each step does. -/
theorem bind_eq_map {x : Except ε α} {y : Except ε γ} {m : α → γ} {f : γ → Except ε δ}
    {g : α → Except ε β} {n : β → δ} (hy : y = x.map m) (hfg : ∀ a, f (m a) = (g a).map n) :
    (y >>= f) = (x >>= g).map n := by
  rw [hy, bind_of_map, map_bind_eq]
  exact bind_congr hfg

theorem bind_eq_map_right {x : Except ε α} {f : α → Except ε δ} {g : α → Except ε β} {n : β → δ}
    (h : ∀ a, f a = (g a).map n) : (x >>= f) = (x >>= g).map n := by
  rw [map_bind_eq]
  exact bind_congr h

theorem mapM_eq_map {f : α → Except ε β} {g : α → Except ε γ} {n : β → γ} : ∀ {xs : List α},
    (∀ a ∈ xs, g a = (f a).map n) → xs.mapM g = (xs.mapM f).map (List.map n)
  | [], _ => rfl
  | a :: xs, h => by
    obtain ⟨ha, hxs⟩ := List.forall_mem_cons.1 h
    rw [List.mapM_cons, List.mapM_cons]
    exact bind_eq_map ha fun b => bind_eq_map (mapM_eq_map hxs) fun bs => rfl

theorem map_mapM_congr {f g : α → Except ε β} {n : β → δ} : ∀ {xs : List α},
    (∀ a ∈ xs, (f a).map n = (g a).map n) →
    (xs.mapM f).map (List.map n) = (xs.mapM g).map (List.map n)
  | [], _ => rfl
  | a :: xs, h => by
    obtain ⟨ha, hxs⟩ := List.forall_mem_cons.1 h
    rw [List.mapM_cons, List.mapM_cons]
    refine map_bind_congr n ha fun b b' hb => ?_
    refine map_bind_congr (List.map n) (map_mapM_congr hxs) fun bs bs' hbs => ?_
    exact congrArg Except.ok (congrArg₂ List.cons hb hbs)

end Images

end SimpleBinary
