import Cool.Proofs.Lowering.States

/-!
The scopes of code generation. A scope that is opened for an expression is closed behind it, also
where no code can be made for a part, so the open scopes are the same behind every expression as
before it.
-/
namespace Cool

open Bril (Instr)
open Lower LowerEnv

variable {α β : Type}

def Lower.after (x : Lower α) (s : FunctionState) : FunctionState :=
  match x.run s with
  | .ok _ t => t
  | .error _ t => t

/-- Whether `x` leaves the open scopes as they were, even if it fails. -/
def Steady (x : Lower α) : Prop := ∀ s, (x.after s).scopes = s.scopes

def Shallow (x : Lower α) : Prop := ∀ s, (x.after s).scopes.pop = s.scopes.pop

theorem Lower.after_bind (x : Lower α) (f : α → Lower β) (s : FunctionState) :
    (x >>= f).after s = x.after s ∨
      ∃ a t, x.run s = .ok a t ∧ (x >>= f).after s = (f a).after t := by
  unfold Lower.after
  rw [EStateM.run_bind]
  cases x.run s with
  | ok a t => exact .inr ⟨a, t, rfl, rfl⟩
  | error e t => exact .inl rfl

theorem Lower.after_within (enter leave : FunctionState → FunctionState) (x : Lower α)
    (s : FunctionState) : (within enter leave x).after s = leave (x.after (enter s)) := by
  unfold Lower.after
  cases ran : x.run (enter s) with
  | ok a t => rw [run_within_eq_ok.mpr ⟨t, ran, rfl⟩]
  | error e t => rw [run_within_eq_error.mpr ⟨t, ran, rfl⟩]

theorem Lower.after_of_run {x : Lower α} {s t : FunctionState} {a : α} (h : x.run s = .ok a t) :
    x.after s = t := by
  unfold Lower.after
  rw [h]

namespace Steady

theorem pure (a : α) : Steady (Pure.pure a) := fun _ => rfl

theorem throw (e : LoweringError) : Steady (α := α) (MonadExcept.throw e) := fun _ => rfl

theorem get : Steady MonadState.get := fun _ => rfl

theorem temp : Steady temp := fun _ => rfl

theorem fresh : Steady fresh := fun _ => rfl

theorem recordAlloc (reg : String) : Steady (modify (·.recordAlloc reg)) := fun s =>
  (FunctionState.Keeps.recordAlloc s reg).scopes

theorem bind {x : Lower α} {f : α → Lower β} (h : Steady x) (next : ∀ a, Steady (f a)) :
    Steady (x >>= f) := by
  intro s
  rcases Lower.after_bind x f s with same | ⟨a, t, ran, same⟩
  · exact same ▸ h s
  · rw [same, next a t, ← h s, Lower.after_of_run ran]

theorem shallow {x : Lower α} (h : Steady x) : Shallow x := fun s => congrArg Scopes.pop (h s)

theorem inBranch {x : Lower α} (h : Steady x) : Steady (inBranch x) := fun s =>
  (congrArg FunctionState.scopes (Lower.after_within _ _ x s)).trans (h s.enterBranch)

end Steady

namespace Shallow

theorem bind {x : Lower α} {f : α → Lower β} (h : Shallow x) (next : ∀ a, Shallow (f a)) :
    Shallow (x >>= f) := by
  intro s
  rcases Lower.after_bind x f s with same | ⟨a, t, ran, same⟩
  · exact same ▸ h s
  · rw [same, next a t, ← h s, Lower.after_of_run ran]

theorem name (name : Bytes) (type : ClassName) : Shallow (Lower.bind name type) := by
  intro s
  have outer := (FunctionState.Proceeds.bind s name type).outer
  exact outer

theorem inScope {x : Lower α} (h : Shallow x) : Steady (inScope x) := fun s =>
  (congrArg FunctionState.scopes (Lower.after_within _ _ x s)).trans (h s.push)

end Shallow

theorem attributeAddress_steady (env : LowerEnv) (name : Name) :
    Steady (env.attributeAddress name) := by
  unfold attributeAddress
  cases env.table.slot? env.self name.text with
  | none => exact .throw _
  | some _ => exact .bind .temp fun _ => .bind .temp fun _ => .pure _

theorem readName_steady (env : LowerEnv) (name : Name) : Steady (env.readName name) := by
  unfold readName
  split
  · exact .pure _
  · refine .bind .get fun s => ?_
    cases s.find? name.text with
    | some _ => exact .pure _
    | none => exact .bind (attributeAddress_steady env name) fun _ => .bind .temp fun _ => .pure _

theorem assign_steady (env : LowerEnv) (name : Name) (v : Lowered) :
    Steady (env.assign name v) := by
  unfold LowerEnv.assign
  refine .bind .get fun s => ?_
  cases s.find? name.text with
  | some _ => exact .pure _
  | none => exact .bind (attributeAddress_steady env name) fun _ => .pure _

theorem target_steady (env : LowerEnv) (c receiver : ClassName) (method : Name) :
    Steady (env.target c receiver method) := by
  unfold target
  cases env.table.findMethod? c method.text with
  | none => exact .throw _
  | some _ =>
    dsimp only
    split
    · exact .throw _
    · exact .pure _

theorem newObject_steady (env : LowerEnv) (type : TypeName) (span : Span) :
    Steady (env.newObject type span) := by
  unfold LowerEnv.newObject
  split
  · exact .bind .temp fun _ => .pure _
  · exact .bind .temp fun _ => .pure _
  · exact .throw _
  · split
    · exact .throw _
    · exact .bind .temp fun _ => .bind .temp fun _ => .bind (.recordAlloc _) fun _ => .pure _

theorem lowerArguments_steady {env : LowerEnv} {es : List Expr}
    (ih : ∀ e ∈ es, Steady (e.lower env)) : Steady (lowerArguments env es) := by
  induction es with
  | nil =>
    unfold lowerArguments
    exact .pure _
  | cons e es rest =>
    rw [List.forall_mem_cons] at ih
    unfold lowerArguments
    exact .bind ih.1 fun _ => .bind (rest ih.2) fun _ => .pure _

theorem lowerBlock_steady {env : LowerEnv} {es : List Expr} (ih : ∀ e ∈ es, Steady (e.lower env))
    (code : List Instr) (dest : String) (type : ClassName) :
    Steady (lowerBlock env code dest type es) := by
  induction es generalizing code dest type with
  | nil =>
    unfold lowerBlock
    exact .pure _
  | cons e es rest =>
    rw [List.forall_mem_cons] at ih
    unfold lowerBlock
    exact .bind ih.1 fun _ => rest ih.2 _ _ _

theorem lowerBindings_shallow {env : LowerEnv} {bindings : List (Binding Expr)}
    (ih : ∀ b ∈ bindings, ∀ e ∈ b.init, Steady (e.lower env)) :
    Shallow (lowerBindings env bindings) := by
  induction bindings with
  | nil =>
    unfold lowerBindings
    exact (Steady.pure _).shallow
  | cons b bindings rest =>
    rw [List.forall_mem_cons] at ih
    have more {α : Type} (f : List Instr → α) :
        Shallow (lowerBindings env bindings >>= fun code => Pure.pure (f code)) :=
      .bind (rest ih.2) fun _ => (Steady.pure _).shallow
    obtain ⟨name, type, init, span⟩ := b
    unfold lowerBindings
    cases init with
    | none => exact .bind (.name _ _) fun _ => more _
    | some e => exact .bind (ih.1 e rfl).shallow fun _ => .bind (.name _ _) fun _ => more _

/-- Generating code for an expression leaves the open scopes as they were. -/
theorem Expr.lower_steady (env : LowerEnv) (e : Expr) : Steady (e.lower env) := by
  induction e with
  | assign name value span ih =>
    unfold lower
    exact .bind ih fun _ => assign_steady env name _
  | selfCall method args span ih =>
    unfold lower
    exact .bind (target_steady env _ _ _) fun _ => .bind (lowerArguments_steady ih) fun _ =>
      .bind .temp fun _ => .pure _
  | call receiver method args span ihr ih =>
    unfold lower
    exact .bind ihr fun _ => .bind (target_steady env _ _ _) fun _ =>
      .bind (lowerArguments_steady ih) fun _ => .bind .temp fun _ => .pure _
  | staticCall receiver type method args span ihr ih =>
    unfold lower
    exact .bind ihr fun _ => .bind (target_steady env _ _ _) fun _ =>
      .bind (lowerArguments_steady ih) fun _ => .bind .temp fun _ => .pure _
  | cond test yes no span iht ihy ihn =>
    unfold lower
    exact .bind iht fun _ => .bind ihy.inBranch fun _ => .bind ihn.inBranch fun _ =>
      .bind .fresh fun _ => .bind .temp fun _ => .pure _
  | loop test body span iht ihb =>
    unfold lower
    exact .bind .fresh fun _ => .bind iht.inBranch fun _ => .bind ihb.inBranch fun _ => .pure _
  | block body span ih =>
    unfold lower
    exact (lowerBlock_steady ih _ _ _).shallow.inScope
  | letIn bindings body span ihb ih =>
    unfold lower
    exact Shallow.inScope (.bind (lowerBindings_shallow ihb) fun _ =>
      .bind ih.shallow fun _ => (Steady.pure _).shallow)
  | case scrutinee arms span | string value span =>
    unfold lower
    exact .throw _
  | new type span =>
    unfold lower
    exact newObject_steady env type span
  | binary op left right span ihl ihr =>
    unfold lower
    exact .bind ihl fun _ => .bind ihr fun _ => .bind .temp fun _ => .pure _
  | unary op operand span ih =>
    unfold lower
    cases op with
    | isVoid => exact .throw _
    | not => exact .bind ih fun _ => .bind .temp fun _ => .pure _
    | complement => exact .bind ih fun _ => .bind .temp fun _ => .bind .temp fun _ => .pure _
  | name name =>
    unfold lower
    exact readName_steady env name
  | group inner span ih =>
    unfold lower
    exact ih
  | int value span | bool value span =>
    unfold lower
    exact .bind .temp fun _ => .pure _

end Cool
