import Mathlib.Data.List.Forall2

/-!
Steps that may fail. A row of steps has a result exactly if each of its steps has one, and fails as
the first step that fails.
-/
namespace Cool

variable {ε σ α β : Type}

section Except

theorem bind_eq_ok {x : Except ε α} {f : α → Except ε β} {b : β} :
    x >>= f = .ok b ↔ ∃ a, x = .ok a ∧ f a = .ok b := by
  cases x <;> simp [Bind.bind, Except.bind]

theorem bind_eq_error {x : Except ε α} {f : α → Except ε β} {e : ε} :
    x >>= f = .error e ↔ x = .error e ∨ ∃ a, x = .ok a ∧ f a = .error e := by
  cases x <;> simp [Bind.bind, Except.bind]

theorem mem_of_mapM_ok {f : α → Except ε β} {xs : List α} {ys : List β} {y : β}
    (h : xs.mapM f = .ok ys) (hy : y ∈ ys) : ∃ x ∈ xs, f x = .ok y := by
  induction xs generalizing ys with
  | nil =>
    cases h
    cases hy
  | cons x xs ih =>
    simp only [List.mapM_cons, bind_eq_ok] at h
    obtain ⟨b, hb, bs, hbs, h⟩ := h
    cases h
    rcases List.mem_cons.mp hy with rfl | hy
    · exact ⟨x, List.mem_cons_self, hb⟩
    · obtain ⟨z, hz, hf⟩ := ih hbs hy
      exact ⟨z, List.mem_cons_of_mem x hz, hf⟩

theorem exists_of_mapM_ok {f : α → Except ε β} {xs : List α} {ys : List β}
    (h : xs.mapM f = .ok ys) : ∀ x ∈ xs, ∃ y ∈ ys, f x = .ok y := by
  induction xs generalizing ys with
  | nil => exact fun _ h => nomatch h
  | cons x xs ih =>
    simp only [List.mapM_cons, bind_eq_ok] at h
    obtain ⟨b, hb, bs, hbs, h⟩ := h
    cases h
    refine List.forall_mem_cons.mpr ⟨⟨b, List.mem_cons_self, hb⟩, fun z hz => ?_⟩
    obtain ⟨y, hy, hf⟩ := ih hbs z hz
    exact ⟨y, List.mem_cons_of_mem b hy, hf⟩

theorem exists_of_mapM_error {f : α → Except ε β} {xs : List α} {e : ε}
    (h : xs.mapM f = .error e) : ∃ x ∈ xs, f x = .error e := by
  induction xs with
  | nil => cases h
  | cons x xs ih =>
    simp only [List.mapM_cons, bind_eq_error] at h
    rcases h with h | ⟨_, _, h | ⟨_, _, h⟩⟩
    · exact ⟨x, List.mem_cons_self, h⟩
    · obtain ⟨z, hz, hf⟩ := ih h
      exact ⟨z, List.mem_cons_of_mem x hz, hf⟩
    · cases h

theorem mapM_eq_ok {f : α → Except ε β} {xs : List α} {ys : List β} :
    xs.mapM f = .ok ys ↔ List.Forall₂ (fun x y => f x = .ok y) xs ys := by
  induction xs generalizing ys with
  | nil => exact ⟨fun h => by cases h; exact .nil, fun h => by cases h; rfl⟩
  | cons x xs ih =>
    simp only [List.mapM_cons, bind_eq_ok, ih]
    constructor
    · rintro ⟨y, hy, _, hys, h⟩
      cases h
      exact .cons hy hys
    · intro h
      cases h with | cons hy hys =>
      exact ⟨_, hy, _, hys, rfl⟩

theorem map_of_mapM_ok {γ : Type} {f : α → Except ε β} {g : β → γ} {k : α → γ} {xs : List α}
    {ys : List β} (h : xs.mapM f = .ok ys) (hg : ∀ x y, f x = .ok y → g y = k x) :
    ys.map g = xs.map k := by
  induction mapM_eq_ok.mp h with
  | nil => rfl
  | cons hf _ ih => rw [List.map_cons, List.map_cons, hg _ _ hf, ih (mapM_eq_ok.mpr ‹_›)]

theorem forM_eq_ok {f : α → Except ε Unit} {xs : List α} :
    xs.forM f = .ok () ↔ ∀ x ∈ xs, f x = .ok () := by
  induction xs with
  | nil => exact iff_of_true rfl fun _ h => nomatch h
  | cons x xs ih =>
    change (f x >>= fun _ => xs.forM f) = .ok () ↔ _
    rw [bind_eq_ok, List.forall_mem_cons]
    constructor
    · rintro ⟨_, hx, hxs⟩
      exact ⟨hx, ih.mp hxs⟩
    · exact fun h => ⟨_, h.1, ih.mpr h.2⟩

/-- A row fails as its first step that fails. -/
theorem forM_eq_error {f : α → Except ε Unit} {xs : List α} {e : ε} : xs.forM f = .error e ↔
    ∃ before x after, xs = before ++ x :: after ∧ (∀ y ∈ before, f y = .ok ()) ∧
      f x = .error e := by
  induction xs with
  | nil => exact iff_of_false nofun fun ⟨before, x, after, eq, _⟩ => by simp at eq
  | cons x xs ih =>
    change (f x >>= fun _ => xs.forM f) = .error e ↔ _
    rw [bind_eq_error]
    constructor
    · rintro (hx | ⟨⟨⟩, hx, hxs⟩)
      · exact ⟨[], x, xs, rfl, List.forall_mem_nil _, hx⟩
      · obtain ⟨before, y, after, rfl, passed, hy⟩ := ih.mp hxs
        exact ⟨x :: before, y, after, rfl, List.forall_mem_cons.mpr ⟨hx, passed⟩, hy⟩
    · rintro ⟨before, y, after, eq, passed, hy⟩
      cases before with
      | nil =>
        cases eq
        exact .inl hy
      | cons z before =>
        cases eq
        rw [List.forall_mem_cons] at passed
        exact .inr ⟨(), passed.1, ih.mpr ⟨before, y, after, rfl, passed.2, hy⟩⟩

theorem exists_of_foldlM_error {f : β → α → Except ε β} {xs : List α} {b : β} {e : ε}
    (h : xs.foldlM f b = .error e) : ∃ x ∈ xs, ∃ a, f a x = .error e := by
  induction xs generalizing b with
  | nil => cases h
  | cons x xs ih =>
    rw [List.foldlM_cons, bind_eq_error] at h
    rcases h with h | ⟨a, _, h⟩
    · exact ⟨x, List.mem_cons_self, b, h⟩
    · obtain ⟨y, hy, found⟩ := ih h
      exact ⟨y, List.mem_cons_of_mem x hy, found⟩

end Except

section EStateM

open EStateM (Result)

theorem run_bind_eq_ok {x : EStateM ε σ α} {f : α → EStateM ε σ β} {s t : σ} {b : β} :
    (x >>= f).run s = .ok b t ↔ ∃ a u, x.run s = .ok a u ∧ (f a).run u = .ok b t := by
  rw [EStateM.run_bind]
  cases x.run s with
  | ok a u =>
    constructor
    · exact fun h => ⟨a, u, rfl, h⟩
    · rintro ⟨_, _, h, hf⟩
      cases h
      exact hf
  | error e u => simp

theorem run_bind_eq_error {x : EStateM ε σ α} {f : α → EStateM ε σ β} {s t : σ} {e : ε} :
    (x >>= f).run s = .error e t ↔
      x.run s = .error e t ∨ ∃ a u, x.run s = .ok a u ∧ (f a).run u = .error e t := by
  rw [EStateM.run_bind]
  cases x.run s with
  | ok a u =>
    constructor
    · exact fun h => .inr ⟨a, u, rfl, h⟩
    · rintro (h | ⟨_, _, h, hf⟩)
      · cases h
      · cases h
        exact hf
  | error e u => simp

/-- What every step of a row brings about, and no later step undoes, holds behind the row. -/
theorem run_forM_ok {f : α → EStateM ε σ Unit} {R : σ → σ → Prop} {P : α → σ → Prop}
    (refl : ∀ s, R s s) (trans : ∀ {s t u}, R s t → R t u → R s u)
    (keep : ∀ {x s t}, R s t → P x s → P x t)
    (step : ∀ {x s t}, (f x).run s = .ok () t → R s t ∧ P x t) {xs : List α} {s t : σ}
    (h : (xs.forM f).run s = .ok () t) : R s t ∧ ∀ x ∈ xs, P x t := by
  induction xs generalizing s with
  | nil =>
    cases h
    exact ⟨refl _, fun _ h => nomatch h⟩
  | cons x xs ih =>
    obtain ⟨_, u, hx, hxs⟩ := run_bind_eq_ok.mp h
    obtain ⟨hsu, hp⟩ := step hx
    obtain ⟨hut, hps⟩ := ih hxs
    exact ⟨trans hsu hut, List.forall_mem_cons.mpr ⟨keep hut hp, hps⟩⟩

end EStateM

end Cool
