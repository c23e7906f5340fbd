import Cool.Proofs.Lowering.Lowers
import Cool.Proofs.Lowering.Names
import Mathlib.Data.List.Nodup

/-!
The registers that a function has given out, and how its state moves on. A new register is never one
that has been given out, and the scopes are the same after an expression as before it.
-/
namespace Cool

open Bril (Instr)

namespace Scopes

variable {α : Type}

theorem find?_eq_lookup (s : Scopes α) (name : Bytes) :
    s.find? name = s.frames.flatten.lookup name := by
  unfold find?
  induction s.frames with
  | nil => rfl
  | cons f fs ih =>
    rw [List.findSome?_cons, List.flatten_cons, List.lookup_append, ← ih]
    cases List.lookup name f <;> rfl

theorem flatten_bind (s : Scopes α) (name : Bytes) (a : α) :
    (s.bind name a).frames.flatten = (name, a) :: s.frames.flatten := by
  unfold bind
  cases s.frames <;> rfl

theorem pop_bind (s : Scopes α) (name : Bytes) (a : α) : (s.bind name a).pop = s.pop := by
  unfold bind pop
  cases s.frames <;> rfl

theorem flatten_pop_sublist (s : Scopes α) :
    (s.pop.frames.flatten).Sublist s.frames.flatten := by
  unfold pop
  cases s.frames with
  | nil => exact List.Sublist.refl _
  | cons f fs => exact List.sublist_append_right f fs.flatten

end Scopes

namespace FunctionState

def locals (s : FunctionState) : List (Bytes × Local) := s.scopes.frames.flatten

def Given (s : FunctionState) (reg : String) : Prop :=
  reg ∈ s.used ∨ ∃ n < s.next, reg = tempName n

structure Sound (s : FunctionState) : Prop where
  self : selfReg ∈ s.used
  fresh : ∀ base, DotFree base → ∀ n, s.next ≤ n → base ++ "." ++ toString n ∉ s.used
  used : ∀ x ∈ s.locals, x.2.reg ∈ s.used ∧ x.2.reg ≠ selfReg
  distinct : (s.locals.map (·.2.reg)).Nodup

theorem mem_locals {s : FunctionState} {name : Bytes} {x : Local} (h : s.find? name = some x) :
    (name, x) ∈ s.locals := by
  unfold find? at h
  rw [Scopes.find?_eq_lookup, List.lookup_eq_some_iff] at h
  obtain ⟨before, after, heq, _⟩ := h
  rw [locals, heq]
  exact List.mem_append_right _ List.mem_cons_self

theorem given_temp (s : FunctionState) {i n : Nat} (h : i < n) :
    (s.skip n).Given (tempName (s.next + i)) :=
  .inr ⟨_, Nat.add_lt_add_left h _, rfl⟩

theorem given_next (s : FunctionState) (n : Nat) : (s.skip (n + 1)).Given (tempName s.next) :=
  given_temp s n.succ_pos

theorem tempName_inj {m n : Nat} (h : tempName m = tempName n) : m = n :=
  toString_inj (DotFree.append_inj (a := "t") (b := "t") (by decide) (by decide) h).2

/-- A variable gets a word that is not in use, or one that ends in a new number. -/
theorem bind_eq (s : FunctionState) (name : Bytes) (type : ClassName) :
    ∃ reg n, s.bind name type = (reg, { s with
        next := s.next + n, scopes := s.scopes.bind name ⟨reg, type⟩, used := reg :: s.used }) ∧
      (reg = Utf8.lossy name ∧ reg ∉ s.used ∨
        reg = Utf8.lossy name ++ "." ++ toString s.next ∧ n = 1) := by
  by_cases taken : Utf8.lossy name ∈ s.used
  · exact ⟨_, 1, if_pos taken, .inr ⟨rfl, rfl⟩⟩
  · exact ⟨_, 0, if_neg taken, .inl ⟨rfl, taken⟩⟩

theorem find?_bind_self (s : FunctionState) (name : Bytes) (type : ClassName) :
    (s.bind name type).2.find? name = some ⟨(s.bind name type).1, type⟩ := by
  obtain ⟨reg, n, heq, _⟩ := s.bind_eq name type
  rw [heq]
  exact Scopes.find?_bind_self _ _ _

theorem find?_bind_of_ne (s : FunctionState) {name other : Bytes} (type : ClassName)
    (h : other ≠ name) : (s.bind name type).2.find? other = s.find? other := by
  obtain ⟨reg, n, heq, _⟩ := s.bind_eq name type
  rw [heq]
  exact Scopes.find?_bind_of_ne _ _ h

theorem initial_sound : initial.Sound where
  self := List.mem_singleton_self _
  fresh base _ n _ h := by
    have self : base ++ "." ++ toString n = selfReg := List.mem_singleton.mp h
    exact not_dotFree_append base (toString n) (self ▸ by decide)
  used x h := nomatch h
  distinct := List.nodup_nil

namespace Sound

variable {s : FunctionState}

theorem given_local (hs : s.Sound) {name : Bytes} {x : Local} (h : s.find? name = some x) :
    s.Given x.reg :=
  .inl (hs.used _ (mem_locals h)).1

theorem find?_inj (hs : s.Sound) {m n : Bytes} {x y : Local} (hx : s.find? m = some x)
    (hy : s.find? n = some y) (same : x.reg = y.reg) : m = n :=
  congrArg Prod.fst
    (List.inj_on_of_nodup_map hs.distinct (mem_locals hx) (mem_locals hy) same)

theorem temp_not_given (hs : s.Sound) {n : Nat} (hn : s.next ≤ n) : ¬ s.Given (tempName n) := by
  rintro (h | ⟨m, hm, h⟩)
  · exact hs.fresh "t" (by decide) n hn h
  · have := tempName_inj h
    omega

theorem skip (hs : s.Sound) (n : Nat) : (s.skip n).Sound :=
  ⟨hs.self, fun base hb m hm => hs.fresh base hb m (Nat.le_trans (Nat.le_add_right _ _) hm),
    hs.used, hs.distinct⟩

theorem push (hs : s.Sound) : s.push.Sound := ⟨hs.self, hs.fresh, hs.used, hs.distinct⟩

theorem pop (hs : s.Sound) : s.pop.Sound where
  self := hs.self
  fresh := hs.fresh
  used x hx := hs.used x ((Scopes.flatten_pop_sublist s.scopes).subset hx)
  distinct := hs.distinct.sublist ((Scopes.flatten_pop_sublist s.scopes).map _)

theorem branch (hs : s.Sound) (n : Nat) : { s with branches := n }.Sound :=
  ⟨hs.self, hs.fresh, hs.used, hs.distinct⟩

theorem bind_reg_not_given (hs : s.Sound) {name : Bytes} (hn : DotFree (Utf8.lossy name))
    (type : ClassName) : ¬ s.Given (s.bind name type).1 := by
  obtain ⟨reg, n, heq, ⟨rfl, unused⟩ | ⟨rfl, rfl⟩⟩ := s.bind_eq name type
  · rw [heq]
    rintro (h | ⟨m, _, h⟩)
    · exact unused h
    · have h : Utf8.lossy name = "t" ++ "." ++ toString m := h
      exact not_dotFree_append "t" (toString m) (h ▸ hn)
  · rw [heq]
    rintro (h | ⟨m, hm, h⟩)
    · exact hs.fresh _ hn _ (Nat.le_refl _) h
    · have := toString_inj (DotFree.append_inj (b := "t") hn (by decide) h).2
      omega

theorem bind (hs : s.Sound) {name : Bytes} (hn : DotFree (Utf8.lossy name)) (type : ClassName) :
    (s.bind name type).2.Sound := by
  have new := hs.bind_reg_not_given hn type
  obtain ⟨reg, n, heq, hreg⟩ := s.bind_eq name type
  rw [heq] at new ⊢
  have unused : reg ∉ s.used := fun h => new (.inl h)
  have locals : FunctionState.locals { s with
      next := s.next + n, scopes := s.scopes.bind name ⟨reg, type⟩, used := reg :: s.used } =
      (name, ⟨reg, type⟩) :: s.locals := Scopes.flatten_bind _ _ _
  constructor
  · exact List.mem_cons_of_mem _ hs.self
  · intro base hb m hm h
    have hm : s.next + n ≤ m := hm
    rcases List.mem_cons.mp h with same | old
    · rcases hreg with ⟨rfl, _⟩ | ⟨rfl, rfl⟩
      · exact not_dotFree_append base (toString m) (same ▸ hn)
      · have := toString_inj (DotFree.append_inj hb hn same).2
        omega
    · exact hs.fresh base hb m (Nat.le_trans (Nat.le_add_right _ _) hm) old
  · rw [locals, List.forall_mem_cons]
    constructor
    · refine ⟨List.mem_cons_self, fun h : reg = selfReg => unused ?_⟩
      exact h ▸ hs.self
    · exact fun x hx => ⟨List.mem_cons_of_mem _ (hs.used x hx).1, (hs.used x hx).2⟩
  · rw [locals, List.map_cons, List.nodup_cons]
    refine ⟨fun h => ?_, hs.distinct⟩
    obtain ⟨x, hx, rfl⟩ := List.mem_map.mp h
    exact unused (hs.used x hx).1

/-- What a register that was given out before means behind a binding. -/
theorem find?_of_bind (hs : s.Sound) {name n : Bytes} (hn : DotFree (Utf8.lossy name))
    {type : ClassName} {x : Local} (h : (s.bind name type).2.find? n = some x)
    (hg : s.Given x.reg) : n ≠ name ∧ s.find? n = some x := by
  by_cases same : n = name
  · rw [same, find?_bind_self] at h
    cases h
    exact absurd hg (hs.bind_reg_not_given hn type)
  · exact ⟨same, find?_bind_of_ne s type same ▸ h⟩

theorem bind_reg_given (s : FunctionState) (name : Bytes) (type : ClassName) :
    (s.bind name type).2.Given (s.bind name type).1 := by
  obtain ⟨reg, k, heq, _⟩ := s.bind_eq name type
  rw [heq]
  exact .inl List.mem_cons_self

end Sound

/-- A later state of a function, with the same open scopes but for the names of the innermost. -/
structure Extends (s t : FunctionState) : Prop where
  next : s.next ≤ t.next
  used : s.used ⊆ t.used
  sound : s.Sound → t.Sound
  outer : t.scopes.pop = s.scopes.pop

structure Keeps (s t : FunctionState) : Prop extends Extends s t where
  scopes : t.scopes = s.scopes

variable {s t u : FunctionState}

theorem Extends.given (h : s.Extends t) {reg : String} (hg : s.Given reg) : t.Given reg := by
  rcases hg with hg | ⟨n, hn, hg⟩
  · exact .inl (h.used hg)
  · exact .inr ⟨n, Nat.lt_of_lt_of_le hn h.next, hg⟩

theorem Extends.trans (hs : s.Extends t) (ht : t.Extends u) : s.Extends u where
  next := Nat.le_trans hs.next ht.next
  used := fun _ h => ht.used (hs.used h)
  sound := fun h => ht.sound (hs.sound h)
  outer := ht.outer.trans hs.outer

theorem Extends.bind (s : FunctionState) {name : Bytes} (hn : IsWord name) (type : ClassName) :
    s.Extends (s.bind name type).2 := by
  have sound := fun hs : s.Sound => hs.bind hn.dotFree type
  obtain ⟨reg, n, heq, _⟩ := s.bind_eq name type
  rw [heq] at sound ⊢
  exact ⟨Nat.le_add_right _ _, List.subset_cons_self _ _, sound, Scopes.pop_bind _ _ _⟩

namespace Keeps

theorem refl (s : FunctionState) : s.Keeps s := ⟨⟨Nat.le_refl _, fun _ h => h, id, rfl⟩, rfl⟩

theorem trans (hs : s.Keeps t) (ht : t.Keeps u) : s.Keeps u :=
  ⟨hs.toExtends.trans ht.toExtends, ht.scopes.trans hs.scopes⟩

theorem find? (h : s.Keeps t) (name : Bytes) : t.find? name = s.find? name := by
  unfold FunctionState.find?
  rw [h.scopes]

theorem locals (h : s.Keeps t) : t.locals = s.locals := by
  unfold FunctionState.locals
  rw [h.scopes]

theorem skip (s : FunctionState) (n : Nat) : s.Keeps (s.skip n) :=
  ⟨⟨Nat.le_add_right _ _, fun _ h => h, fun h => h.skip n, rfl⟩, rfl⟩

theorem recordAlloc (s : FunctionState) (reg : String) : s.Keeps (s.recordAlloc reg) := by
  unfold FunctionState.recordAlloc
  split
  · exact ⟨⟨Nat.le_refl _, fun _ h => h, fun hs => ⟨hs.self, hs.fresh, hs.used, hs.distinct⟩, rfl⟩,
      rfl⟩
  · exact refl s

theorem enterBranch (s : FunctionState) : s.Keeps s.enterBranch :=
  ⟨⟨Nat.le_refl _, fun _ h => h, fun h => h.branch _, rfl⟩, rfl⟩

theorem branch (h : s.enterBranch.Keeps t) : s.Keeps t.leaveBranch :=
  ⟨⟨h.next, h.used, fun hs => (h.sound (hs.branch _)).branch _, h.outer⟩, h.scopes⟩

theorem pop (h : s.push.Extends t) : s.Keeps t.pop where
  next := h.next
  used := h.used
  sound := fun hs => (h.sound hs.push).pop
  outer := congrArg Scopes.pop h.outer
  scopes := h.outer

end Keeps

/-- How a state moves on, whatever its names are: as `Extends`, and in a branch no object to free is
recorded. -/
structure Proceeds (s t : FunctionState) : Prop where
  next : s.next ≤ t.next
  outer : t.scopes.pop = s.scopes.pop
  branches : t.branches = s.branches
  pending : s.branches ≠ 0 → t.pending = s.pending

structure Restores (s t : FunctionState) : Prop extends Proceeds s t where
  scopes : t.scopes = s.scopes

theorem Proceeds.trans (hs : s.Proceeds t) (ht : t.Proceeds u) : s.Proceeds u where
  next := Nat.le_trans hs.next ht.next
  outer := ht.outer.trans hs.outer
  branches := ht.branches.trans hs.branches
  pending inside := (ht.pending (hs.branches ▸ inside)).trans (hs.pending inside)

theorem Proceeds.bind (s : FunctionState) (name : Bytes) (type : ClassName) :
    s.Proceeds (s.bind name type).2 := by
  obtain ⟨reg, n, heq, _⟩ := s.bind_eq name type
  rw [heq]
  exact ⟨Nat.le_add_right _ _, Scopes.pop_bind _ _ _, rfl, fun _ => rfl⟩

namespace Restores

theorem refl (s : FunctionState) : s.Restores s := ⟨⟨Nat.le_refl _, rfl, rfl, fun _ => rfl⟩, rfl⟩

theorem trans (hs : s.Restores t) (ht : t.Restores u) : s.Restores u :=
  ⟨hs.toProceeds.trans ht.toProceeds, ht.scopes.trans hs.scopes⟩

theorem locals (h : s.Restores t) : t.locals = s.locals := by
  unfold FunctionState.locals
  rw [h.scopes]

theorem skip (s : FunctionState) (n : Nat) : s.Restores (s.skip n) :=
  ⟨⟨Nat.le_add_right _ _, rfl, rfl, fun _ => rfl⟩, rfl⟩

theorem recordAlloc (s : FunctionState) (reg : String) : s.Restores (s.recordAlloc reg) := by
  unfold FunctionState.recordAlloc
  split
  · rename_i outside
    exact ⟨⟨Nat.le_refl _, rfl, rfl, fun inside => absurd outside inside⟩, rfl⟩
  · exact refl s

theorem branch (h : s.enterBranch.Restores t) : s.Restores t.leaveBranch where
  next := h.next
  outer := h.outer
  branches := congrArg (· - 1) h.branches
  pending _ := h.pending (Nat.succ_ne_zero _)
  scopes := h.scopes

theorem pending_branch (h : s.enterBranch.Restores t) : t.leaveBranch.pending = s.pending :=
  h.pending (Nat.succ_ne_zero _)

theorem pop (h : s.push.Proceeds t) : s.Restores t.pop where
  next := h.next
  outer := congrArg Scopes.pop h.outer
  branches := h.branches
  pending := h.pending
  scopes := h.outer

end Restores

end FunctionState

open FunctionState

/-- An expression leaves the open scopes as it found them. -/
theorem Lowers.keeps {env : LowerEnv} {s t : FunctionState} {e : Expr} {x : Lowered}
    (h : Lowers env s e x t) (hw : e.WellFormed) : s.Keeps t := by
  induction h using Lowers.rec
    (motive_2 := fun s es _ t _ => (∀ e ∈ es, e.WellFormed) → s.Keeps t)
    (motive_3 := fun s bs _ t _ => (∀ b ∈ bs, Binding.WellFormed b) → s.Extends t) with
  | assignLocal _ _ ih =>
    cases hw with | assign _ hv =>
    exact ih hv
  | assignAttribute _ _ _ ih =>
    cases hw with | assign _ hv =>
    exact (ih hv).trans (.skip _ 2)
  | selfCall _ _ _ ih =>
    cases hw with | selfCall ha =>
    exact (ih ha).trans (.skip _ 1)
  | call _ _ _ _ ihr iha =>
    cases hw with | call hr ha =>
    exact ((ihr hr).trans (iha ha)).trans (.skip _ 1)
  | staticCall _ _ _ _ ihr iha =>
    cases hw with | staticCall hr ha =>
    exact ((ihr hr).trans (iha ha)).trans (.skip _ 1)
  | cond _ _ _ iht ihy ihn =>
    cases hw with | cond ht hy hn =>
    exact (((iht ht).trans (ihy hy).branch).trans (ihn hn).branch).trans (.skip _ 2)
  | loop _ _ iht ihb =>
    cases hw with | loop ht hb =>
    exact ((Keeps.skip _ 1).trans (iht ht).branch).trans (ihb hb).branch
  | block _ ih =>
    cases hw with | block _ hb =>
    exact .pop (ih hb).toExtends
  | letIn _ _ ihb ih =>
    cases hw with | letIn hn hi hb =>
    exact .pop ((ihb fun b m => ⟨hn b m, hi b m⟩).trans (ih hb).toExtends)
  | newInt _ => exact .skip _ 1
  | newBool _ => exact .skip _ 1
  | newObject => exact (Keeps.skip _ 2).trans (.recordAlloc _ _)
  | binary _ _ ihl ihr =>
    cases hw with | binary hl hr =>
    exact ((ihl hl).trans (ihr hr)).trans (.skip _ 1)
  | not _ ih =>
    cases hw with | unary ho =>
    exact (ih ho).trans (.skip _ 1)
  | complement _ ih =>
    cases hw with | unary ho =>
    exact (ih ho).trans (.skip _ 2)
  | self => exact .refl _
  | «local» => exact .refl _
  | «attribute» => exact .skip _ 3
  | group _ ih =>
    cases hw with | group hi =>
    exact ih hi
  | int => exact .skip _ 1
  | bool => exact .skip _ 1
  | nil _ => exact .refl _
  | cons _ _ ih ihs hw =>
    rw [List.forall_mem_cons] at hw
    exact (ih hw.1).trans (ihs hw.2)
  | empty _ => exact (Keeps.refl _).toExtends
  | init _ _ ihv ih hw =>
    rw [List.forall_mem_cons] at hw
    exact ((ihv (hw.1.2 _ rfl)).toExtends.trans (.bind _ hw.1.1 _)).trans (ih hw.2)
  | default _ ih hw =>
    rw [List.forall_mem_cons] at hw
    exact (Extends.bind _ hw.1.1 _).trans (ih hw.2)

theorem LowersAll.keeps {env : LowerEnv} {s t : FunctionState} {es : List Expr} {xs : List Lowered}
    (h : LowersAll env s es xs t) (hw : ∀ e ∈ es, e.WellFormed) : s.Keeps t := by
  induction es generalizing s xs with
  | nil =>
    cases h
    exact .refl _
  | cons e es ih =>
    rw [List.forall_mem_cons] at hw
    cases h with | cons hx hxs =>
    exact (hx.keeps hw.1).trans (ih hxs hw.2)

theorem LowersBindings.extends {env : LowerEnv} {s t : FunctionState} {bs : List (Binding Expr)}
    {code : List Instr} (h : LowersBindings env s bs code t) (hw : ∀ b ∈ bs, Binding.WellFormed b) :
    s.Extends t := by
  induction bs generalizing s code with
  | nil =>
    cases h
    exact (Keeps.refl _).toExtends
  | cons b bs ih =>
    rw [List.forall_mem_cons] at hw
    cases h with
    | init hv hrest =>
      exact ((hv.keeps (hw.1.2 _ rfl)).toExtends.trans (.bind _ hw.1.1 _)).trans (ih hrest hw.2)
    | default hrest => exact (Extends.bind _ hw.1.1 _).trans (ih hrest hw.2)

theorem Lowers.restores {env : LowerEnv} {s t : FunctionState} {e : Expr} {x : Lowered}
    (h : Lowers env s e x t) : s.Restores t := by
  induction h using Lowers.rec (motive_2 := fun s _ _ t _ => s.Restores t)
    (motive_3 := fun s _ _ t _ => s.Proceeds t) with
  | assignLocal _ _ ih => exact ih
  | assignAttribute _ _ _ ih | complement _ ih => exact ih.trans (.skip _ 2)
  | selfCall _ _ _ ih | not _ ih => exact ih.trans (.skip _ 1)
  | call _ _ _ _ ihr iha | staticCall _ _ _ _ ihr iha => exact (ihr.trans iha).trans (.skip _ 1)
  | cond _ _ _ iht ihy ihn => exact ((iht.trans ihy.branch).trans ihn.branch).trans (.skip _ 2)
  | loop _ _ iht ihb => exact ((Restores.skip _ 1).trans iht.branch).trans ihb.branch
  | block _ ih => exact .pop ih.toProceeds
  | letIn _ _ ihb ih => exact .pop (ihb.trans ih.toProceeds)
  | newInt | newBool | int | bool => exact .skip _ 1
  | newObject => exact (Restores.skip _ 2).trans (.recordAlloc _ _)
  | binary _ _ ihl ihr => exact (ihl.trans ihr).trans (.skip _ 1)
  | self | «local» => exact .refl _
  | «attribute» => exact .skip _ 3
  | group _ ih => exact ih
  | nil => exact .refl _
  | cons _ _ ih ihs => exact ih.trans ihs
  | empty => exact (Restores.refl _).toProceeds
  | init _ _ ihv ih => exact (ihv.toProceeds.trans (.bind _ _ _)).trans ih
  | default _ ih => exact (Proceeds.bind _ _ _).trans ih

theorem LowersAll.restores {env : LowerEnv} {s t : FunctionState} {es : List Expr}
    {xs : List Lowered} (h : LowersAll env s es xs t) : s.Restores t := by
  induction es generalizing s xs with
  | nil =>
    cases h
    exact .refl _
  | cons e es ih =>
    cases h with | cons hx hxs =>
    exact hx.restores.trans (ih hxs)

theorem LowersBindings.proceeds {env : LowerEnv} {s t : FunctionState} {bs : List (Binding Expr)}
    {code : List Instr} (h : LowersBindings env s bs code t) : s.Proceeds t := by
  induction bs generalizing s code with
  | nil =>
    cases h
    exact (Restores.refl _).toProceeds
  | cons b bs ih =>
    cases h with
    | init hv hrest => exact (hv.restores.toProceeds.trans (.bind _ _ _)).trans (ih hrest)
    | default hrest => exact (Proceeds.bind _ _ _).trans (ih hrest)

namespace LowersBindings

variable {env : LowerEnv} {s t : FunctionState} {bs : List (Binding Expr)} {code : List Instr}
  {n : Bytes}

theorem find?_of_not_mem (h : LowersBindings env s bs code t)
    (hw : ∀ b ∈ bs, Binding.WellFormed b) (hn : n ∉ bs.map (·.name.text)) :
    t.find? n = s.find? n := by
  induction bs generalizing s code with
  | nil =>
    cases h
    rfl
  | cons b bs ih =>
    rw [List.forall_mem_cons] at hw
    rw [List.map_cons, List.mem_cons, not_or] at hn
    cases h with
    | init hv hrest =>
      rw [ih hrest hw.2 hn.2, find?_bind_of_ne _ _ hn.1, (hv.keeps (hw.1.2 _ rfl)).find?]
    | default hrest => rw [ih hrest hw.2 hn.2, find?_bind_of_ne _ _ hn.1]

theorem new_of_mem (h : LowersBindings env s bs code t) (hw : ∀ b ∈ bs, Binding.WellFormed b)
    (hs : s.Sound) (hn : n ∈ bs.map (·.name.text)) :
    ∃ y, t.find? n = some y ∧ ¬ s.Given y.reg := by
  induction bs generalizing s code with
  | nil => cases hn
  | cons b bs ih =>
    rw [List.forall_mem_cons] at hw
    have step {u : FunctionState} {code : List Instr} {c : ClassName} (keeps : s.Keeps u)
        (hrest : LowersBindings env (u.bind b.name.text c).2 bs code t) :
        ∃ y, t.find? n = some y ∧ ¬ s.Given y.reg := by
      have sound := keeps.sound hs
      have later := keeps.toExtends.trans (.bind u hw.1.1 c)
      by_cases again : n ∈ bs.map (·.name.text)
      · obtain ⟨y, hy, new⟩ := ih hrest hw.2 (sound.bind hw.1.1.dotFree c) again
        exact ⟨y, hy, fun hg => new (later.given hg)⟩
      · have same : n = b.name.text := (List.mem_cons.mp hn).resolve_right again
        refine ⟨⟨(u.bind b.name.text c).1, c⟩, ?_, fun hg => ?_⟩
        · rw [hrest.find?_of_not_mem hw.2 again, same, find?_bind_self]
        · exact sound.bind_reg_not_given hw.1.1.dotFree c (keeps.given hg)
    cases h with
    | init hv hrest => exact step (hv.keeps (hw.1.2 _ rfl)) hrest
    | default hrest => exact step (.refl s) hrest

end LowersBindings

end Cool
