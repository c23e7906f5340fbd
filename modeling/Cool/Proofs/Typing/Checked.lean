import Cool.Proofs.Outcome
import Cool.Proofs.Tree.WellFormed
import Cool.Typing.Check
import Mathlib.Data.List.Forall2

/-!
What is known of an expression that has a type, form by form.
-/
namespace Cool

theorem ClassName.resolve_resolve (c self : ClassName) :
    (c.resolve self).resolve self = c.resolve self := by
  cases c with
  | selfType => cases self <;> rfl
  | builtin _ | named _ => rfl

theorem ClassName.resolve_eq_self {c self : ClassName} (h : c ≠ .selfType) :
    c.resolve self = c := by
  cases c with
  | selfType => exact absurd rfl h
  | builtin _ | named _ => rfl

theorem ClassName.resolve_ne_selfType {self : ClassName} (h : self ≠ .selfType) (c : ClassName) :
    c.resolve self ≠ .selfType := by
  cases c with
  | selfType => exact h
  | builtin _ | named _ => nofun

def Typed (env : Env) (e : Expr) (T : ClassName) : Prop := e.check env = .ok T

namespace Env

variable {env : Env}

def Free (env : Env) (name : Name) : Prop :=
  name.isSelf = false ∧ env.locals.find? name.text = none ∧
    env.table.findAttribute? env.self name.text = none

theorem checkFree_ok {name : Name} (h : env.checkFree name = .ok ()) : env.Free name := by
  unfold checkFree at h
  dsimp only at h
  split at h
  · cases h
  · rename_i free
    simp only [Bool.or_eq_true, not_or, Bool.not_eq_true, Scopes.isBound, Option.isSome_map,
      Option.isSome_eq_false_iff, Option.isNone_iff_eq_none] at free
    exact ⟨free.1.1, free.1.2, free.2⟩

theorem checkExists_ok {c : ClassName} {span : Span} (h : env.checkExists c span = .ok ()) :
    env.table.contains (env.resolve c) = true := by
  unfold checkExists at h
  split at h
  · assumption
  · cases h

theorem checkAssignable_ok {sub sup : ClassName} {span : Span}
    (h : env.checkAssignable sub sup span = .ok ()) :
    env.table.conforms sub sup env.self = true := by
  unfold checkAssignable at h
  obtain ⟨_, _, h⟩ := bind_eq_ok.mp h
  obtain ⟨_, _, h⟩ := bind_eq_ok.mp h
  split at h
  · assumption
  · cases h

theorem checkArgument_ok {arg param : ClassName} {span : Span}
    (h : env.checkArgument arg param span = .ok ()) :
    env.table.conforms arg param env.self = true := by
  unfold checkArgument at h
  obtain ⟨_, _, h⟩ := bind_eq_ok.mp h
  split at h
  · assumption
  · cases h

theorem methodFor_ok {c : ClassName} {method : Name} {count : Nat} {span : Span} {m : MethodType}
    (h : env.methodFor c method count span = .ok m) :
    (∃ owner, env.table.findMethod? c method.text = some (owner, m)) ∧ m.params.length = count := by
  unfold methodFor at h
  split at h
  · cases h
  · rename_i found
    split at h
    · cases h
      exact ⟨⟨_, found⟩, ‹_›⟩
    · cases h

end Env

section Lists

variable {env : Env}

def Fitting (env : Env) : List Expr → List ClassName → Prop :=
  List.Forall₂ fun a p => ∃ T, Typed env a T ∧ env.table.conforms T p env.self = true

theorem Fitting.typed {args : List Expr} {params : List ClassName} (h : Fitting env args params) :
    ∀ a ∈ args, ∃ T, Typed env a T := by
  induction h with
  | nil => exact fun _ h => nomatch h
  | cons hT _ ih => exact List.forall_mem_cons.mpr ⟨hT.imp fun _ h => h.1, ih⟩

theorem checkArguments_ok {args : List Expr} {params : List ClassName}
    (h : checkArguments env args params = .ok ()) (hl : params.length = args.length) :
    Fitting env args params := by
  induction args generalizing params with
  | nil =>
    cases params with
    | nil => exact .nil
    | cons => cases hl
  | cons a args ih =>
    cases params with
    | nil => cases hl
    | cons p params =>
      unfold checkArguments at h
      obtain ⟨T, hT, h⟩ := bind_eq_ok.mp h
      obtain ⟨_, fits, h⟩ := bind_eq_ok.mp h
      exact .cons ⟨T, hT, Env.checkArgument_ok fits⟩ (ih h (Nat.succ.inj hl))

/-- A relation between the members of two lists holds between the last ones. -/
theorem forall₂_getLast? {α β : Type} {R : α → β → Prop} {xs : List α} {ys : List β}
    (h : List.Forall₂ R xs ys) (ne : xs ≠ []) (a : α) (b : β) :
    R (xs.getLast?.getD a) (ys.getLast?.getD b) := by
  induction h generalizing a b with
  | nil => exact absurd rfl ne
  | @cons x y xs ys hxy hrest ih =>
    rw [List.getLast?_cons, List.getLast?_cons, Option.getD_some, Option.getD_some]
    cases xs with
    | nil =>
      cases hrest
      exact hxy
    | cons z xs => exact ih (List.cons_ne_nil _ _) x y

theorem Typed.of_forall₂ {es : List Expr} {Ts : List ClassName}
    (h : List.Forall₂ (Typed env) es Ts) : ∀ e ∈ es, ∃ T, Typed env e T := by
  induction h with
  | nil => exact fun _ h => nomatch h
  | cons hT _ ih => exact List.forall_mem_cons.mpr ⟨⟨_, hT⟩, ih⟩

theorem checkBlock_ok {last : ClassName} {es : List Expr} {T : ClassName}
    (h : checkBlock env last es = .ok T) :
    ∃ Ts, List.Forall₂ (Typed env) es Ts ∧ T = Ts.getLast?.getD last := by
  induction es generalizing last with
  | nil =>
    cases h
    exact ⟨[], .nil, rfl⟩
  | cons e es ih =>
    unfold checkBlock at h
    obtain ⟨t, ht, h⟩ := bind_eq_ok.mp h
    obtain ⟨Ts, hTs, rfl⟩ := ih h
    refine ⟨t :: Ts, .cons ht hTs, ?_⟩
    rw [List.getLast?_cons, Option.getD_some]

def Scopes.bindAll (locals : Scopes ClassName) (bs : List (Binding Expr)) : Scopes ClassName :=
  bs.foldl (fun locals b => locals.bind b.name.text b.type.className) locals

structure Binding.Checked (env : Env) (b : Binding Expr) : Prop where
  known : env.table.contains (env.resolve b.type.className) = true
  free : env.Free b.name
  init : ∀ e ∈ b.init, ∃ T, Typed env e T ∧
    env.table.conforms T b.type.className env.self = true

theorem checkBindings_cons {b : Binding Expr} {bs : List (Binding Expr)} {inner : Env}
    (h : checkBindings env (b :: bs) = .ok inner) :
    b.Checked env ∧ checkBindings (env.bind b.name.text b.type.className) bs = .ok inner := by
  obtain ⟨name, type, init, span⟩ := b
  unfold checkBindings at h
  obtain ⟨_, known, h⟩ := bind_eq_ok.mp h
  obtain ⟨_, free, h⟩ := bind_eq_ok.mp h
  cases init with
  | none =>
    exact ⟨⟨Env.checkExists_ok known, Env.checkFree_ok free, fun _ h => nomatch h⟩, h⟩
  | some e =>
    obtain ⟨T, hT, h⟩ := bind_eq_ok.mp h
    obtain ⟨_, fits, h⟩ := bind_eq_ok.mp h
    refine ⟨⟨Env.checkExists_ok known, Env.checkFree_ok free, ?_⟩, h⟩
    rintro _ ⟨⟩
    exact ⟨T, hT, Env.checkAssignable_ok fits⟩

theorem Binding.checked_of_mem {before after : List (Binding Expr)} {b : Binding Expr}
    {env inner : Env} (h : checkBindings env (before ++ b :: after) = .ok inner) :
    b.Checked { env with locals := env.locals.bindAll before } := by
  induction before generalizing env with
  | nil => exact (checkBindings_cons h).1
  | cons c before ih => exact ih (checkBindings_cons h).2

theorem checkBindings_ok {bs : List (Binding Expr)} {inner : Env}
    (h : checkBindings env bs = .ok inner) :
    inner = { env with locals := env.locals.bindAll bs } := by
  induction bs generalizing env with
  | nil =>
    cases h
    rfl
  | cons b bs ih => exact ih (checkBindings_cons h).2

theorem checkArms_ok {arms : List (CaseArm Expr)} {Ts : List ClassName}
    (h : checkArms env arms = .ok Ts) :
    ∀ a ∈ arms, ∃ T, Typed (env.push.bind a.name.text a.type.className) a.body T := by
  induction arms generalizing Ts with
  | nil => exact fun _ h => nomatch h
  | cons a arms ih =>
    unfold checkArms at h
    obtain ⟨_, _, h⟩ := bind_eq_ok.mp h
    obtain ⟨T, hT, h⟩ := bind_eq_ok.mp h
    obtain ⟨_, rest, _⟩ := bind_eq_ok.mp h
    exact List.forall_mem_cons.mpr ⟨⟨T, hT⟩, ih rest⟩

end Lists

theorem BinaryOp.check_ok {env : Env} {op : BinaryOp} {l r T : ClassName} {ls rs span : Span}
    (h : op.check env l r ls rs span = .ok T) : T = if op.isComparison then .bool else .int := by
  have comparison {b : Prop} [Decidable b] {e : TypeError}
      (h : (if b then .error e else .ok .bool : Except TypeError ClassName) = .ok T) :
      T = .bool := by
    split at h
    · cases h
    · cases h
      rfl
  unfold BinaryOp.check at h
  cases op with
  | add | subtract | multiply | divide =>
    obtain ⟨_, _, h⟩ := bind_eq_ok.mp h
    obtain ⟨_, _, h⟩ := bind_eq_ok.mp h
    cases h
    rfl
  | lessThan | lessEquals =>
    obtain ⟨_, _, h⟩ := bind_eq_ok.mp h
    obtain ⟨_, _, h⟩ := bind_eq_ok.mp h
    exact comparison h
  | equals => exact comparison h

namespace Typed

variable {env : Env} {T : ClassName}

theorem assign {name : Name} {value : Expr} {span : Span}
    (h : Typed env (.assign name value span) T) :
    env.typeOf? name.text = some T ∧ name.isSelf = false ∧
      ∃ t, Typed env value t ∧ env.table.conforms t T env.self = true := by
  unfold Typed Expr.check at h
  split at h
  · cases h
  rename_i declared
  split at h
  · cases h
  rename_i notSelf
  obtain ⟨t, ht, h⟩ := bind_eq_ok.mp h
  obtain ⟨_, fits, h⟩ := bind_eq_ok.mp h
  cases h
  exact ⟨declared, Bool.eq_false_iff.mpr notSelf, t, ht, Env.checkAssignable_ok fits⟩

theorem selfCall {method : Name} {args : List Expr} {span : Span}
    (h : Typed env (.selfCall method args span) T) :
    ∃ owner m, env.table.findMethod? env.self method.text = some (owner, m) ∧
      Fitting env args m.params ∧ T = Env.resultOf .selfType m.result := by
  obtain ⟨_, _, h⟩ := bind_eq_ok.mp h
  obtain ⟨m, hm, h⟩ := bind_eq_ok.mp h
  obtain ⟨_, ha, h⟩ := bind_eq_ok.mp h
  cases h
  obtain ⟨⟨owner, found⟩, count⟩ := Env.methodFor_ok hm
  exact ⟨owner, m, found, checkArguments_ok ha count, rfl⟩

theorem call {receiver : Expr} {method : Name} {args : List Expr} {span : Span}
    (h : Typed env (.call receiver method args span) T) :
    ∃ t, Typed env receiver t ∧ ∃ owner m,
      env.table.findMethod? (env.resolve t) method.text = some (owner, m) ∧
      Fitting env args m.params ∧ T = Env.resultOf t m.result := by
  obtain ⟨t, ht, h⟩ := bind_eq_ok.mp h
  obtain ⟨_, _, h⟩ := bind_eq_ok.mp h
  obtain ⟨m, hm, h⟩ := bind_eq_ok.mp h
  obtain ⟨_, ha, h⟩ := bind_eq_ok.mp h
  cases h
  obtain ⟨⟨owner, found⟩, count⟩ := Env.methodFor_ok hm
  exact ⟨t, ht, owner, m, found, checkArguments_ok ha count, rfl⟩

theorem staticCall {receiver : Expr} {type : TypeName} {method : Name} {args : List Expr}
    {span : Span} (h : Typed env (.staticCall receiver type method args span) T) :
    ∃ t, Typed env receiver t ∧ env.table.conforms t type.className env.self = true ∧ ∃ owner m,
      env.table.findMethod? (env.resolve type.className) method.text = some (owner, m) ∧
      Fitting env args m.params ∧ T = Env.resultOf t m.result := by
  obtain ⟨t, ht, h⟩ := bind_eq_ok.mp h
  obtain ⟨_, _, h⟩ := bind_eq_ok.mp h
  obtain ⟨_, fits, h⟩ := bind_eq_ok.mp h
  obtain ⟨_, _, h⟩ := bind_eq_ok.mp h
  obtain ⟨m, hm, h⟩ := bind_eq_ok.mp h
  obtain ⟨_, ha, h⟩ := bind_eq_ok.mp h
  cases h
  obtain ⟨⟨owner, found⟩, count⟩ := Env.methodFor_ok hm
  exact ⟨t, ht, Env.checkAssignable_ok fits, owner, m, found, checkArguments_ok ha count, rfl⟩

theorem cond {test yes no : Expr} {span : Span} (h : Typed env (.cond test yes no span) T) :
    (∃ t, Typed env test t) ∧ ∃ y n, Typed env yes y ∧ Typed env no n ∧ T = env.join y n := by
  obtain ⟨t, ht, h⟩ := bind_eq_ok.mp h
  obtain ⟨_, _, h⟩ := bind_eq_ok.mp h
  obtain ⟨y, hy, h⟩ := bind_eq_ok.mp h
  obtain ⟨n, hn, h⟩ := bind_eq_ok.mp h
  cases h
  exact ⟨⟨t, ht⟩, y, n, hy, hn, rfl⟩

theorem loop {test body : Expr} {span : Span} (h : Typed env (.loop test body span) T) :
    (∃ t, Typed env test t) ∧ (∃ t, Typed env body t) ∧ T = .object := by
  obtain ⟨t, ht, h⟩ := bind_eq_ok.mp h
  obtain ⟨_, _, h⟩ := bind_eq_ok.mp h
  obtain ⟨b, hb, h⟩ := bind_eq_ok.mp h
  cases h
  exact ⟨⟨t, ht⟩, ⟨b, hb⟩, rfl⟩

theorem block {body : List Expr} {span : Span} (h : Typed env (.block body span) T) :
    ∃ Ts, List.Forall₂ (Typed env.push) body Ts ∧ T = Ts.getLast?.getD .object := by
  exact checkBlock_ok h

theorem letIn {bindings : List (Binding Expr)} {body : Expr} {span : Span}
    (h : Typed env (.letIn bindings body span) T) :
    ∃ inner, checkBindings env.push bindings = .ok inner ∧ Typed inner body T := by
  exact bind_eq_ok.mp h

theorem case {scrutinee : Expr} {arms : List (CaseArm Expr)} {span : Span}
    (h : Typed env (.case scrutinee arms span) T) : (∃ t, Typed env scrutinee t) ∧
      ∀ a ∈ arms, ∃ t, Typed (env.push.bind a.name.text a.type.className) a.body t := by
  unfold Typed Expr.check at h
  split at h
  · cases h
  obtain ⟨t, ht, h⟩ := bind_eq_ok.mp h
  obtain ⟨_, arms, _⟩ := bind_eq_ok.mp h
  exact ⟨⟨t, ht⟩, checkArms_ok arms⟩

theorem new {type : TypeName} {span : Span} (h : Typed env (.new type span) T) :
    env.table.contains (env.resolve type.className) = true ∧ T = type.className := by
  obtain ⟨_, known, h⟩ := bind_eq_ok.mp h
  cases h
  exact ⟨Env.checkExists_ok known, rfl⟩

theorem binary {op : BinaryOp} {left right : Expr} {span : Span}
    (h : Typed env (.binary op left right span) T) :
    (∃ t, Typed env left t) ∧ (∃ t, Typed env right t) ∧
      T = if op.isComparison then .bool else .int := by
  obtain ⟨l, hl, h⟩ := bind_eq_ok.mp h
  obtain ⟨r, hr, h⟩ := bind_eq_ok.mp h
  refine ⟨⟨l, hl⟩, ⟨r, hr⟩, ?_⟩
  exact BinaryOp.check_ok h

theorem unary {op : UnaryOp} {operand : Expr} {span : Span}
    (h : Typed env (.unary op operand span) T) :
    (∃ t, Typed env operand t) ∧ T = if op = .complement then .int else .bool := by
  obtain ⟨t, ht, h⟩ := bind_eq_ok.mp h
  refine ⟨⟨t, ht⟩, ?_⟩
  cases op with
  | not | complement =>
    obtain ⟨_, _, h⟩ := bind_eq_ok.mp h
    cases h
    rfl
  | isVoid =>
    cases h
    rfl

theorem name {name : Name} (h : Typed env (.name name) T) :
    name.isSelf = true ∧ T = env.self ∨ name.isSelf = false ∧ env.typeOf? name.text = some T := by
  unfold Typed Expr.check at h
  split at h
  · rename_i isSelf
    cases h
    exact .inl ⟨isSelf, rfl⟩
  · rename_i notSelf
    split at h
    · rename_i found
      cases h
      exact .inr ⟨Bool.eq_false_iff.mpr notSelf, found⟩
    · cases h

theorem typeOf? {name : Name} (h : Typed env (.name name) T) (notSelf : name.isSelf = false) :
    env.typeOf? name.text = some T := by
  rcases h.name with ⟨isSelf, _⟩ | ⟨_, type⟩
  · exact absurd (notSelf.symm.trans isSelf) nofun
  · exact type

theorem group {inner : Expr} {span : Span} (h : Typed env (.group inner span) T) :
    Typed env inner T := by
  exact h

theorem int {value : Int} {span : Span} (h : Typed env (.int value span) T) : T = .int := by
  unfold Typed Expr.check at h
  split at h
  · cases h
    rfl
  · cases h

theorem bool {value : Bool} {span : Span} (h : Typed env (.bool value span) T) : T = .bool := by
  cases h
  rfl

end Typed

inductive Env.Calls (env : Env) : Expr → Name → ClassName → List Expr → Prop where
  | selfCall {method args span} : env.Calls (.selfCall method args span) method env.self args
  | call {receiver method args span T} : Typed env receiver T →
      env.Calls (.call receiver method args span) method (env.resolve T) args
  | staticCall {receiver type method args span} :
      env.Calls (.staticCall receiver type method args span) method
        (env.resolve type.className) args

theorem Typed.calls {env : Env} {e : Expr} {T d : ClassName} {method : Name} {args : List Expr}
    (h : Typed env e T) (calls : env.Calls e method d args) : ∃ owner m,
      env.table.findMethod? d method.text = some (owner, m) ∧ Fitting env args m.params := by
  cases calls with
  | selfCall =>
    obtain ⟨owner, m, found, fitting, _⟩ := h.selfCall
    exact ⟨owner, m, found, fitting⟩
  | call typed =>
    obtain ⟨U, hU, owner, m, found, fitting, _⟩ := h.call
    cases hU.symm.trans typed
    exact ⟨owner, m, found, fitting⟩
  | staticCall =>
    obtain ⟨_, _, _, owner, m, found, fitting, _⟩ := h.staticCall
    exact ⟨owner, m, found, fitting⟩

end Cool
