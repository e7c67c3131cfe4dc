import Mathlib.Data.List.Forall2

/-!
Outcomes of steps that can fail, with and without a state: what a chain of them yields, and where it
fails.
-/

namespace ContractAbi

variable {ε α β : Type}

theorem map_eq_ok_iff {x : Except ε α} {f : α → β} {b : β} :
    x.map f = .ok b ↔ ∃ a, x = .ok a ∧ f a = b := by
  cases x <;> simp [Except.map]

theorem map_eq_map_iff {γ : Type} {x : Except ε α} {y : Except ε β} {f : α → γ} {g : β → γ} :
    x.map f = y.map g ↔
      (∃ e, x = .error e ∧ y = .error e) ∨ ∃ a b, x = .ok a ∧ y = .ok b ∧ f a = g b := by
  cases x <;> cases y <;> simp [Except.map, eq_comm]

theorem map_eq_error_iff {x : Except ε α} {f : α → β} {e : ε} :
    x.map f = .error e ↔ x = .error e := by
  cases x <;> simp [Except.map]

theorem bind_eq_ok_iff {x : Except ε α} {f : α → Except ε β} {b : β} :
    x >>= f = .ok b ↔ ∃ a, x = .ok a ∧ f a = .ok b := by
  cases x <;> simp [bind, Except.bind]

theorem bind_eq_error_iff {x : Except ε α} {f : α → Except ε β} {e : ε} :
    x >>= f = .error e ↔ x = .error e ∨ ∃ a, x = .ok a ∧ f a = .error e := by
  cases x <;> simp [bind, Except.bind]

theorem mapM_eq_ok_iff {f : α → Except ε β} {xs : List α} {ys : List β} :
    xs.mapM f = .ok ys ↔ List.Forall₂ (fun x y => f x = .ok y) xs ys := by
  induction xs generalizing ys with
  | nil => simp [pure, Except.pure, eq_comm]
  | cons x xs ih =>
    simp only [List.mapM_cons, bind_eq_ok_iff, pure, Except.pure, Except.ok.injEq,
      List.forall₂_cons_left_iff, ih]
    constructor
    · rintro ⟨y, hy, ys, hys, rfl⟩
      exact ⟨y, ys, hy, hys, rfl⟩
    · rintro ⟨y, ys, hy, hys, rfl⟩
      exact ⟨y, hy, ys, hys, rfl⟩

theorem map_eq_of_mapM_eq_ok {f : α → Except ε β} {xs : List α} {ys : List β}
    (h : xs.mapM f = .ok ys) : xs.map f = ys.map .ok := by
  induction mapM_eq_ok_iff.mp h with
  | nil => rfl
  | cons hx hxs ih => rw [List.map_cons, List.map_cons, hx, ih (mapM_eq_ok_iff.mpr hxs)]

theorem forall_of_mapM_eq_ok {f : α → Except ε β} {xs : List α} {ys : List β} {P : β → Prop}
    (h : xs.mapM f = .ok ys) (hf : ∀ x ∈ xs, ∀ y, f x = .ok y → P y) : ∀ y ∈ ys, P y := by
  induction mapM_eq_ok_iff.mp h with
  | nil => nofun
  | cons hx hxs ih =>
    obtain ⟨hfirst, hrest⟩ := List.forall_mem_cons.mp hf
    exact List.forall_mem_cons.mpr ⟨hfirst _ hx, ih (mapM_eq_ok_iff.mpr hxs) hrest⟩

theorem exists_mapM_eq_ok_iff {f : α → Except ε β} {xs : List α} :
    (∃ ys, xs.mapM f = .ok ys) ↔ ∀ x ∈ xs, ∃ y, f x = .ok y := by
  induction xs with
  | nil => simp [pure, Except.pure]
  | cons x xs ih =>
    simp only [List.mapM_cons, bind_eq_ok_iff, pure, Except.pure, Except.ok.injEq,
      List.forall_mem_cons, ← ih]
    constructor
    · rintro ⟨_, y, hy, ys, hys, -⟩
      exact ⟨⟨y, hy⟩, ys, hys⟩
    · rintro ⟨⟨y, hy⟩, ys, hys⟩
      exact ⟨_, y, hy, ys, hys, rfl⟩

/-- The first failure ends the chain. -/
theorem exists_of_mapM_eq_error {f : α → Except ε β} {xs : List α} {e : ε}
    (h : xs.mapM f = .error e) :
    ∃ before x after, xs = before ++ x :: after ∧ (∀ y ∈ before, ∃ z, f y = .ok z) ∧
      f x = .error e := by
  induction xs with
  | nil => cases h
  | cons x xs ih =>
    rw [List.mapM_cons] at h
    rcases bind_eq_error_iff.mp h with hx | ⟨y, hy, h⟩
    · exact ⟨[], x, xs, rfl, nofun, hx⟩
    · rcases bind_eq_error_iff.mp h with hxs | ⟨ys, -, h⟩
      · obtain ⟨before, x', after, rfl, hb, hx'⟩ := ih hxs
        exact ⟨x :: before, x', after, rfl, List.forall_mem_cons.mpr ⟨⟨y, hy⟩, hb⟩, hx'⟩
      · cases h

theorem mapM_map_left {m : Type → Type} [Monad m] [LawfulMonad m] {γ : Type} (g : β → γ)
    (f : α → m β) (xs : List α) : (xs.mapM fun x => g <$> f x) = List.map g <$> xs.mapM f := by
  induction xs with
  | nil => rw [List.mapM_nil, List.mapM_nil, map_pure, List.map_nil]
  | cons x xs ih => simp only [List.mapM_cons, ih, map_bind, bind_map_left, map_pure, List.map_cons]

theorem mapM_congr_left {m : Type → Type} [Monad m] [LawfulMonad m] {f g : α → m β}
    {xs : List α} (h : ∀ x ∈ xs, f x = g x) : xs.mapM f = xs.mapM g := by
  induction xs with
  | nil => rfl
  | cons x xs ih =>
    obtain ⟨hx, hxs⟩ := List.forall_mem_cons.mp h
    rw [List.mapM_cons, List.mapM_cons, hx, ih hxs]

section Loop

variable {m : Type → Type} [Monad m] [LawfulMonad m]

/-- Each step of a loop may be a loop of its own. -/
theorem forM_flatten {f : α → m PUnit} {g : β → m PUnit} {xs : List α} {parts : List (List β)}
    (h : List.Forall₂ (fun x part => f x = forM part g) xs parts) :
    forM xs f = forM parts.flatten g := by
  induction h with
  | nil => rfl
  | cons h _ ih => rw [List.forM_cons, List.flatten_cons, List.forM_append, h, ih]

/-- A chain whose results are not wanted is a loop. -/
theorem discard_mapM (f : α → m β) (xs : List α) :
    (fun _ => ()) <$> xs.mapM f = forM xs fun x => (fun _ => ()) <$> f x := by
  induction xs with
  | nil => rw [List.mapM_nil, map_pure, List.forM_nil]
  | cons x xs ih =>
    rw [List.mapM_cons, List.forM_cons, bind_map_left, ← ih]
    simp only [map_eq_pure_bind, bind_assoc, pure_bind]

end Loop

section State

variable {σ : Type} {x : EStateM ε σ α} {s s' : σ} {a : α} {e : ε}

theorem run_bind_of_ok (h : x.run s = .ok a s') (f : α → EStateM ε σ β) :
    (x >>= f).run s = (f a).run s' := by
  rw [EStateM.run_bind, h]

theorem run_bind_of_error (h : x.run s = .error e s') (f : α → EStateM ε σ β) :
    (x >>= f).run s = .error e s' := by
  rw [EStateM.run_bind, h]

theorem run_map_of_ok (h : x.run s = .ok a s') (f : α → β) : (f <$> x).run s = .ok (f a) s' := by
  rw [map_eq_pure_bind, run_bind_of_ok h]
  rfl

theorem run_map_of_error (h : x.run s = .error e s') (f : α → β) :
    (f <$> x).run s = .error e s' := by
  rw [map_eq_pure_bind, run_bind_of_error h]

theorem run_bind_eq_ok_iff {f : α → EStateM ε σ β} {b : β} :
    (x >>= f).run s = .ok b s' ↔ ∃ a s₁, x.run s = .ok a s₁ ∧ (f a).run s₁ = .ok b s' := by
  cases h : x.run s with
  | ok a s₁ => simp [run_bind_of_ok h]
  | error e s₁ => simp [run_bind_of_error h]

theorem run_map_eq_ok_iff {f : α → β} {b : β} :
    (f <$> x).run s = .ok b s' ↔ ∃ a, x.run s = .ok a s' ∧ f a = b := by
  cases h : x.run s with
  | ok a s₁ => simp [run_map_of_ok h, and_comm]
  | error e s₁ => simp [run_map_of_error h]

theorem run_map_eq_error_iff {f : α → β} :
    (f <$> x).run s = .error e s' ↔ x.run s = .error e s' := by
  cases h : x.run s with
  | ok a s₁ => simp [run_map_of_ok h]
  | error e s₁ => simp [run_map_of_error h]

/-- A chain of steps that leave the state alone leaves it alone. -/
theorem forall₂_of_run_mapM {f : α → EStateM ε σ β} {xs : List α} {ys : List β} {P : α → β → Prop}
    (h : (xs.mapM f).run s = .ok ys s')
    (hf : ∀ x ∈ xs, ∀ y s₁, (f x).run s = .ok y s₁ → s₁ = s ∧ P x y) :
    s' = s ∧ List.Forall₂ P xs ys := by
  induction xs generalizing ys with
  | nil =>
    cases h
    exact ⟨rfl, .nil⟩
  | cons x xs ih =>
    obtain ⟨hx, hxs⟩ := List.forall_mem_cons.mp hf
    rw [List.mapM_cons] at h
    obtain ⟨y, s₁, hy, hrest⟩ := run_bind_eq_ok_iff.mp h
    obtain ⟨ys, s₂, hys, hlast⟩ := run_bind_eq_ok_iff.mp hrest
    cases hlast
    obtain ⟨rfl, hP⟩ := hx y s₁ hy
    obtain ⟨hs, hPs⟩ := ih hys hxs
    exact ⟨hs, .cons hP hPs⟩

/-- A loop fails where the first of its steps does. -/
theorem run_forM_eq_error_iff {f : α → EStateM ε σ PUnit} {xs : List α} :
    (forM xs f).run s = .error e s' ↔ ∃ before x after s₁, xs = before ++ x :: after ∧
      (forM before f).run s = .ok () s₁ ∧ (f x).run s₁ = .error e s' := by
  constructor
  · intro h
    induction xs generalizing s with
    | nil => cases h
    | cons x xs ih =>
      rw [List.forM_cons] at h
      cases hx : (f x).run s with
      | error e' s₁ =>
        rw [run_bind_of_error hx] at h
        exact ⟨[], x, xs, s, rfl, rfl, hx.trans h⟩
      | ok u s₁ =>
        rw [run_bind_of_ok hx] at h
        obtain ⟨before, y, after, s₂, rfl, hb, hy⟩ := ih h
        exact ⟨x :: before, y, after, s₂, rfl, by rw [List.forM_cons, run_bind_of_ok hx, hb], hy⟩
  · rintro ⟨before, x, after, s₁, rfl, hb, hx⟩
    rw [List.forM_append, run_bind_of_ok hb, List.forM_cons, run_bind_of_error hx]

end State

end ContractAbi
