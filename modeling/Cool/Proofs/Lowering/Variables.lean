import Cool.Proofs.Evaluation
import Cool.Proofs.Lowering.Local

/-!
The registers of variables and the values that evaluation gives the variables. A new register is
that of no variable, and setting the register of one leaves the others alone.
-/
namespace Cool

open Bril (Registers Literal)
open FunctionState (Keeps)

def InRegisters (regs : Registers) (xs : List (Bytes × Local)) (ρ : Store) : Prop :=
  List.Forall₂ (fun x p => x.1 = p.1 ∧ regs x.2.reg = some p.2) xs ρ

def onlyScalars (xs : List (Bytes × Local)) : List (Bytes × Local) :=
  xs.filter fun x => x.2.type.isScalar

theorem onlyScalars_cons {x : Bytes × Local} {xs : List (Bytes × Local)}
    (h : x.2.type.isScalar = true) : onlyScalars (x :: xs) = x :: onlyScalars xs :=
  List.filter_cons_of_pos h

theorem onlyScalars_cons_of_not {x : Bytes × Local} {xs : List (Bytes × Local)}
    (h : ¬ x.2.type.isScalar = true) : onlyScalars (x :: xs) = onlyScalars xs :=
  List.filter_cons_of_neg h

namespace InRegisters

variable {regs regs' : Registers} {xs : List (Bytes × Local)} {ρ : Store} {n : Bytes} {y : Local}
  {v : Literal}

theorem of_eq (h : InRegisters regs xs ρ) (same : ∀ x ∈ xs, regs' x.2.reg = regs x.2.reg) :
    InRegisters regs' xs ρ := by
  induction h with
  | nil => exact .nil
  | cons hx _ ih =>
    rw [List.forall_mem_cons] at same
    exact .cons ⟨hx.1, same.1.trans hx.2⟩ (ih same.2)

theorem lookup (h : InRegisters regs (onlyScalars xs) ρ)
    (found : xs.lookup n = some y) (scalar : y.type.isScalar = true) :
    ∃ v, ρ.lookup n = some v ∧ regs y.reg = some v := by
  induction xs generalizing ρ with
  | nil => cases found
  | cons x xs ih =>
    obtain ⟨m, z⟩ := x
    by_cases same : n = m
    · rw [same, List.lookup_cons_self] at found
      cases found
      rw [onlyScalars_cons scalar] at h
      cases h with | @cons _ p _ _ hx _ =>
      obtain ⟨k, w⟩ := p
      obtain ⟨hk, hw⟩ := hx
      refine ⟨w, ?_, hw⟩
      rw [same, show m = k from hk, List.lookup_cons_self]
    · have other : (n == m) = false := by simpa using same
      simp only [List.lookup_cons, other] at found
      by_cases here : z.type.isScalar = true
      · rw [onlyScalars_cons here] at h
        cases h with | @cons _ p _ _ hx rest =>
        obtain ⟨k, w⟩ := p
        obtain ⟨v, hv, hr⟩ := ih rest found
        have other : (n == k) = false := (show m = k from hx.1) ▸ other
        exact ⟨v, by simp only [List.lookup_cons, other, hv], hr⟩
      · rw [onlyScalars_cons_of_not here] at h
        exact ih h found

theorem assign (h : InRegisters regs (onlyScalars xs) ρ)
    (found : xs.lookup n = some y) (scalar : y.type.isScalar = true)
    (distinct : (xs.map (·.2.reg)).Nodup) :
    InRegisters (regs.set y.reg v) (onlyScalars xs) (Store.assign n v ρ) := by
  induction xs generalizing ρ with
  | nil => cases found
  | cons x xs ih =>
    obtain ⟨m, z⟩ := x
    rw [List.map_cons, List.nodup_cons] at distinct
    by_cases same : n = m
    · rw [same, List.lookup_cons_self] at found
      cases found
      rw [onlyScalars_cons scalar] at h ⊢
      cases h with | @cons _ p _ _ hx rest =>
      obtain ⟨k, w⟩ := p
      have hk : m = k := hx.1
      rw [Store.assign, if_pos (hk.symm.trans same.symm)]
      refine .cons ⟨hk, Registers.set_self _ _ _⟩ (InRegisters.of_eq rest fun x hx => ?_)
      refine Registers.set_of_ne _ _ fun reg => distinct.1 ?_
      exact List.mem_map.mpr ⟨x, (List.mem_filter.mp hx).1, reg⟩
    · have other : (n == m) = false := by simpa using same
      simp only [List.lookup_cons, other] at found
      by_cases here : z.type.isScalar = true
      · rw [onlyScalars_cons here] at h ⊢
        cases h with | @cons _ p _ _ hx rest =>
        obtain ⟨k, w⟩ := p
        have hk : m = k := hx.1
        rw [Store.assign, if_neg fun h => same (h.symm.trans hk.symm)]
        refine .cons ⟨hk, ?_⟩ (ih rest found distinct.2)
        refine (Registers.set_of_ne _ _ fun reg => distinct.1 ?_).trans hx.2
        obtain ⟨before, after, split, _⟩ := List.lookup_eq_some_iff.mp found
        exact List.mem_map.mpr ⟨(n, y), split ▸ by simp, reg.symm⟩
      · rw [onlyScalars_cons_of_not here] at h ⊢
        exact ih h found distinct.2

end InRegisters

def FunctionState.scalars (s : FunctionState) : List (Bytes × Local) :=
  onlyScalars s.locals

theorem FunctionState.Keeps.scalars {s t : FunctionState} (h : s.Keeps t) :
    t.scalars = s.scalars :=
  congrArg onlyScalars h.locals

theorem FunctionState.scalars_bind (s : FunctionState) (name : Bytes) {type : ClassName}
    (scalar : type.isScalar = true) :
    (s.bind name type).2.scalars = (name, ⟨(s.bind name type).1, type⟩) :: s.scalars := by
  obtain ⟨reg, k, heq, _⟩ := s.bind_eq name type
  rw [heq]
  unfold FunctionState.scalars FunctionState.locals
  rw [Scopes.flatten_bind, onlyScalars_cons scalar]

/-- Whether the registers of the variables for integers and booleans hold the values of a store. -/
def Stored (s : FunctionState) (ρ : Store) (regs : Registers) : Prop := InRegisters regs s.scalars ρ

namespace Stored

variable {s t : FunctionState} {ρ : Store} {regs : Registers} {n : Bytes} {y : Local} {v : Literal}

theorem keeps (h : Stored s ρ regs) (keeps : s.Keeps t) : Stored t ρ regs := by
  unfold Stored
  rwa [keeps.scalars]

theorem of_keeps (h : Stored t ρ regs) (keeps : s.Keeps t) : Stored s ρ regs := by
  unfold Stored
  rwa [← keeps.scalars]

theorem push (h : Stored s ρ regs) : Stored s.push ρ regs := h

theorem of_push (h : Stored s.push ρ regs) : Stored s ρ regs := h

theorem find? (h : Stored s ρ regs) (found : s.find? n = some y)
    (scalar : y.type.isScalar = true) : ∃ v, ρ.lookup n = some v ∧ regs y.reg = some v := by
  unfold FunctionState.find? at found
  rw [Scopes.find?_eq_lookup] at found
  exact InRegisters.lookup h found scalar

theorem assign (h : Stored s ρ regs) (sound : s.Sound) (found : s.find? n = some y)
    (scalar : y.type.isScalar = true) :
    Stored s (Store.assign n v ρ) (regs.set y.reg v) := by
  unfold FunctionState.find? at found
  rw [Scopes.find?_eq_lookup] at found
  exact InRegisters.assign h found scalar sound.distinct

/-- A register that has not been given out is that of no variable. -/
theorem set (h : Stored s ρ regs) (sound : s.Sound) {reg : String} (new : ¬ s.Given reg) :
    Stored s ρ (regs.set reg v) := by
  refine InRegisters.of_eq h fun x hx => Registers.set_of_ne _ _ ?_
  rintro rfl
  exact new (.inl (sound.used x (List.mem_filter.mp hx).1).1)

theorem bind (h : Stored s ρ regs) (sound : s.Sound) {name : Bytes} (word : IsWord name)
    {type : ClassName} (scalar : type.isScalar = true) :
    Stored (s.bind name type).2 ((name, v) :: ρ) (regs.set (s.bind name type).1 v) := by
  unfold Stored
  rw [s.scalars_bind name scalar]
  have fresh := sound.bind_reg_not_given word.dotFree type
  exact .cons ⟨rfl, Registers.set_self _ _ _⟩ (h.set sound fresh)

end Stored

/-- The variables of a `let` are in front of those around it. -/
theorem LowersBindings.scalars {env : LowerEnv} {L : Scopes ClassName} {s t : FunctionState}
    {bs : List (Binding Expr)} {code : List Bril.Instr} (h : LowersBindings env s bs code t)
    (hw : ∀ b ∈ bs, Binding.WellFormed b) (scalar : bindingsLocal L bs = true) :
    t.scalars.drop bs.length = s.scalars := by
  have step {s u : FunctionState} {b : Binding Expr} {bs : List (Binding Expr)} (keeps : s.Keeps u)
      (scalar : b.type.className.isScalar = true) (rest : t.scalars.drop bs.length =
        (u.bind b.name.text (b.type.className.resolve env.self)).2.scalars) :
      t.scalars.drop (b :: bs).length = s.scalars := by
    have resolved : b.type.className.resolve env.self = b.type.className :=
      resolve_of_isScalar scalar
    rw [resolved, u.scalars_bind _ scalar] at rest
    rw [List.length_cons, ← List.tail_drop, rest, List.tail_cons, keeps.scalars]
  induction bs generalizing s L code with
  | nil =>
    cases h
    rfl
  | cons b bs ih =>
    rw [List.forall_mem_cons] at hw
    cases h with
    | init hv hrest =>
      simp only [bindingsLocal, Bool.and_eq_true] at scalar
      exact step (hv.keeps (hw.1.2 _ rfl)) scalar.1.1 (ih hrest hw.2 scalar.2)
    | default hrest =>
      simp only [bindingsLocal, Bool.and_eq_true] at scalar
      exact step (.refl s) scalar.1 (ih hrest hw.2 scalar.2)

theorem Stored.drop {env : LowerEnv} {L : Scopes ClassName} {s t : FunctionState}
    {bs : List (Binding Expr)} {code : List Bril.Instr} {ρ : Store} {regs : Registers}
    (h : Stored t ρ regs) (hb : LowersBindings env s bs code t)
    (hw : ∀ b ∈ bs, Binding.WellFormed b) (scalar : bindingsLocal L bs = true) :
    Stored s (ρ.drop bs.length) regs := by
  unfold Stored
  rw [← hb.scalars hw scalar]
  exact List.forall₂_drop _ h

end Cool
