import Cool.Proofs.Lowering.MemorySafety

/-!
Integers and truth values in registers. Where no class inherits from `Int` or `Bool`, and the
checker and code generation take calls and names alike, arithmetic and conditions only read
registers that nothing but values of the right type is written to.
-/
namespace Cool

open LowerEnv
open Bril (Instr Ty Literal ValueOp EffectOp Function)
open FunctionState (tempName Keeps Extends)
open Relation (ReflTransGen)

section Instructions

/-- The type that the operands of an operation must have, if they must be integers or truth
values. -/
def Bril.ValueOp.operandTy? : ValueOp → Option Ty
  | .add | .sub | .mul | .div | .lt | .le => some .int
  | .not => some .bool
  | .eq | .id | .call | .alloc | .ptradd | .load => none

namespace Bril.Instr

def write? : Instr → Option (String × Ty)
  | .const dest ty _ => some (dest, ty)
  | .value _ dest ty _ _ => some (dest, ty)
  | .label _ | .effect _ _ _ _ => none

/-- The operands that must be integers or truth values, with their types. -/
def needs : Instr → List (String × Ty)
  | .value op _ _ args _ => op.operandTy?.elim [] fun ty => args.map (·, ty)
  | .effect .br args _ _ => args.map (·, .bool)
  | .label _ | .const _ _ _ | .effect _ _ _ _ => []

end Bril.Instr

/-- Whether arithmetic and conditions only see unboxed values of the right kind: each operand is
only written, or declared as a parameter, with the type that it must be of. -/
def Bril.Function.Unboxed (f : Function) : Prop :=
  ∀ i ∈ f.instrs, ∀ operand ∈ i.needs,
    (∀ j ∈ f.instrs, ∀ write ∈ j.write?, write.1 = operand.1 → write.2 = operand.2) ∧
      ∀ p ∈ f.params, p.name = operand.1 → p.ty = operand.2

instance (f : Function) : Decidable f.Unboxed :=
  inferInstanceAs (Decidable (∀ i ∈ f.instrs, ∀ operand ∈ i.needs,
    (∀ j ∈ f.instrs, ∀ write ∈ j.write?, write.1 = operand.1 → write.2 = operand.2) ∧
      ∀ p ∈ f.params, p.name = operand.1 → p.ty = operand.2))

abbrev Tys := String → Option Ty

structure Bril.Instr.KeepsTo (k : Tys) (i : Instr) : Prop where
  write : ∀ w ∈ i.write?, ∀ ty ∈ k w.1, w.2 = ty
  needs : ∀ operand ∈ i.needs, k operand.1 = some operand.2

def KeepsTo (k : Tys) (code : List Instr) : Prop := ∀ i ∈ code, i.KeepsTo k

variable {k : Tys} {code : List Instr}

theorem Bril.Instr.keepsTo_iff {i : Instr} : i.KeepsTo k ↔
    (∀ w ∈ i.write?, ∀ ty ∈ k w.1, w.2 = ty) ∧ ∀ operand ∈ i.needs, k operand.1 = some operand.2 :=
  ⟨fun h => ⟨h.write, h.needs⟩, fun h => ⟨h.1, h.2⟩⟩

@[simp] theorem keepsTo_nil : KeepsTo k [] := List.forall_mem_nil _

@[simp] theorem keepsTo_append {more : List Instr} :
    KeepsTo k (code ++ more) ↔ KeepsTo k code ∧ KeepsTo k more := List.forall_mem_append

theorem keepsTo_cons {i : Instr} : KeepsTo k (i :: code) ↔ i.KeepsTo k ∧ KeepsTo k code :=
  List.forall_mem_cons

@[simp] theorem keepsTo_cons_literal {dest : String} {v : Literal} :
    KeepsTo k (.literal dest v :: code) ↔ (∀ ty ∈ k dest, v.ty = ty) ∧ KeepsTo k code := by
  simp [keepsTo_cons, Instr.keepsTo_iff, Instr.literal, Instr.write?, Instr.needs]

@[simp] theorem keepsTo_cons_compute {op : ValueOp} {dest : String} {ty : Ty}
    {args : List String} : KeepsTo k (.compute op dest ty args :: code) ↔
      ((∀ ty' ∈ k dest, ty = ty') ∧ ∀ need ∈ op.operandTy?, ∀ a ∈ args, k a = some need) ∧
        KeepsTo k code := by
  rw [keepsTo_cons, Instr.keepsTo_iff]
  cases need : op.operandTy? <;> simp [Instr.compute, Instr.write?, Instr.needs, need]

@[simp] theorem keepsTo_cons_call {dest func : String} {ty : Ty} {args : List String} :
    KeepsTo k (.call dest ty func args :: code) ↔ (∀ ty' ∈ k dest, ty = ty') ∧ KeepsTo k code := by
  simp [keepsTo_cons, Instr.keepsTo_iff, Instr.call, Instr.write?, Instr.needs,
    ValueOp.operandTy?]

@[simp] theorem keepsTo_cons_br {cond yes no : String} :
    KeepsTo k (.br cond yes no :: code) ↔ k cond = some .bool ∧ KeepsTo k code := by
  simp [keepsTo_cons, Instr.keepsTo_iff, Instr.br, Instr.write?, Instr.needs]

theorem keepsTo_cons_of_idle {i : Instr} (noWrite : i.write? = none) (noNeeds : i.needs = []) :
    KeepsTo k (i :: code) ↔ KeepsTo k code := by
  simp [keepsTo_cons, Instr.keepsTo_iff, noWrite, noNeeds]

@[simp] theorem keepsTo_cons_label {name : String} :
    KeepsTo k (.label name :: code) ↔ KeepsTo k code := keepsTo_cons_of_idle rfl rfl

@[simp] theorem keepsTo_cons_jmp {label : String} :
    KeepsTo k (.jmp label :: code) ↔ KeepsTo k code := keepsTo_cons_of_idle rfl rfl

@[simp] theorem keepsTo_cons_ret {reg : Option String} :
    KeepsTo k (.ret reg :: code) ↔ KeepsTo k code := keepsTo_cons_of_idle rfl rfl

@[simp] theorem keepsTo_cons_store {args : List String} :
    KeepsTo k (.perform .store args :: code) ↔ KeepsTo k code := keepsTo_cons_of_idle rfl rfl

@[simp] theorem keepsTo_cons_free {args : List String} :
    KeepsTo k (.perform .free args :: code) ↔ KeepsTo k code := keepsTo_cons_of_idle rfl rfl

/-- Where the code and the parameters of a function keep to types, operands have those they need. -/
theorem Bril.Function.unboxed_of_keepsTo {f : Function} (code : KeepsTo k f.instrs)
    (params : ∀ p ∈ f.params, k p.name = some p.ty) : f.Unboxed := by
  intro i hi operand hoperand
  have known := (code i hi).needs operand hoperand
  refine ⟨fun j hj w hw same => (code j hj).write w hw _ (same ▸ known), fun p hp same => ?_⟩
  exact Option.some.inj ((params p hp).symm.trans (same ▸ known))

end Instructions

section Scalars

def ClassName.Scalar (c : ClassName) : Prop := c = .int ∨ c = .bool

instance (c : ClassName) : Decidable c.Scalar :=
  inferInstanceAs (Decidable (c = .int ∨ c = .bool))

def ScalarsFinal (classes : List ClassDecl) : Prop := ∀ c ∈ classes, ¬ c.parentName.Scalar

instance (classes : List ClassDecl) : Decidable (ScalarsFinal classes) :=
  inferInstanceAs (Decidable (∀ c ∈ classes, ¬ c.parentName.Scalar))

@[simp] theorem ClassName.ty_int : ClassName.int.ty = .int := rfl

@[simp] theorem ClassName.ty_bool : ClassName.bool.ty = .bool := rfl

theorem ClassName.ty_of_default? {c : ClassName} {v : Literal} (h : c.default? = some v) :
    v.ty = c.ty := by
  unfold ClassName.default? at h
  split at h <;> cases h <;> rfl

namespace ClassName.Scalar

variable {c : ClassName}

theorem isBuiltin (h : c.Scalar) : c.isBuiltin = true := by
  rcases h with rfl | rfl <;> rfl

theorem ne_object (h : c.Scalar) : c ≠ .object := by
  rcases h with rfl | rfl <;> decide

theorem resolve (h : c.Scalar) (self : ClassName) : c.resolve self = c := by
  rcases h with rfl | rfl <;> rfl

end ClassName.Scalar

variable {t : ClassTable} {classes : List ClassDecl} {c d self : ClassName}

theorem ClassTable.Outlines.eq_of_scalar (h : t.Outlines classes) (final : ScalarsFinal classes)
    (scalar : c.Scalar) (above : c ∈ t.lineage d) : d = c := by
  induction size : (t.lineage d).length using Nat.strong_induction_on generalizing d with
  | _ n ih =>
    by_contra apart
    obtain ⟨p, parent, above⟩ := h.mem_parent_lineage above (Ne.symm apart)
    have shorter : (t.lineage p).length < n := by
      rw [← size, h.lineage_eq d, parent]
      exact Nat.lt_succ_self _
    -- So the parent is `Int` or `Bool`, from which no class inherits.
    obtain rfl := ih _ shorter above rfl
    rcases h.builtin_or_declared (ClassTable.contains_of_parent? parent) with
      ⟨b, rfl⟩ | ⟨e, he, rfl⟩
    · rw [h.parent?_builtin] at parent
      split at parent
      · cases parent
      · exact scalar.ne_object (Option.some.inj parent).symm
    · rw [h.parent?_of_mem he] at parent
      exact final e he (Option.some.inj parent ▸ scalar)

theorem ClassTable.Outlines.join_scalar (h : t.Outlines classes) (final : ScalarsFinal classes)
    {a b : ClassName} (scalar : (t.join a b self).Scalar) :
    a.resolve self = t.join a b self ∧ b.resolve self = t.join a b self := by
  by_cases same : a.resolve self = b.resolve self
  · have join : t.join a b self = a.resolve self := if_pos same
    exact ⟨join.symm, same ▸ join.symm⟩
  unfold ClassTable.join at scalar
  rw [if_neg same] at scalar
  split at scalar
  · exact absurd rfl scalar.ne_object
  rename_i notBuiltin
  cases common : (t.lineage (a.resolve self)).find? fun c =>
      (t.lineage (b.resolve self)).contains c with
  | none =>
    rw [common] at scalar
    exact absurd rfl scalar.ne_object
  | some c =>
    rw [common] at scalar
    have itself := h.eq_of_scalar final scalar (List.mem_of_find?_eq_some common)
    rw [itself, scalar.isBuiltin, Bool.true_or] at notBuiltin
    exact absurd rfl notBuiltin

end Scalars

section Demands

inductive Expr.Demands : Expr → Expr → ClassName → Prop where
  | test {test yes no span} : Demands (.cond test yes no span) test .bool
  | loopTest {test body span} : Demands (.loop test body span) test .bool
  | left {op left right span} : op ≠ .equals → Demands (.binary op left right span) left .int
  | right {op left right span} : op ≠ .equals → Demands (.binary op left right span) right .int
  | not {operand span} : Demands (.unary .not operand span) operand .bool
  | complement {operand span} : Demands (.unary .complement operand span) operand .int

theorem Expr.Demands.scalar {e part : Expr} {c : ClassName} (h : e.Demands part c) : c.Scalar := by
  cases h with
  | test | loopTest | not => exact .inr rfl
  | left | right | complement => exact .inl rfl

theorem BinaryOp.check_assignable {env : Env} {op : BinaryOp} {l r T : ClassName}
    {ls rs span : Span} (h : op.check env l r ls rs span = .ok T) (demands : op ≠ .equals) :
    env.table.conforms l .int env.self = true ∧ env.table.conforms r .int env.self = true := by
  unfold BinaryOp.check at h
  rw [if_pos demands] at h
  obtain ⟨_, left, h⟩ := bind_eq_ok.mp h
  obtain ⟨_, right, _⟩ := bind_eq_ok.mp h
  exact ⟨Env.checkAssignable_ok left, Env.checkAssignable_ok right⟩

/-- The checker makes sure that such parts are of their class. -/
theorem Typed.demands {env : Env} {e part : Expr} {c T : ClassName} (h : Typed env e T)
    (demands : e.Demands part c) : ∃ U, Typed env part U ∧
      env.table.conforms U c env.self = true := by
  cases demands with
  | test | loopTest | not | complement =>
    obtain ⟨U, hU, h⟩ := bind_eq_ok.mp h
    obtain ⟨_, assignable, _⟩ := bind_eq_ok.mp h
    exact ⟨U, hU, Env.checkAssignable_ok assignable⟩
  | left notEquals =>
    obtain ⟨l, hl, h⟩ := bind_eq_ok.mp h
    obtain ⟨r, hr, h⟩ := bind_eq_ok.mp h
    exact ⟨l, hl, (BinaryOp.check_assignable h notEquals).1⟩
  | right notEquals =>
    obtain ⟨l, hl, h⟩ := bind_eq_ok.mp h
    obtain ⟨r, hr, h⟩ := bind_eq_ok.mp h
    exact ⟨r, hr, (BinaryOp.check_assignable h notEquals).2⟩

end Demands

section Expressions

abbrev ownTys : Meaning (Option Ty) := ⟨some .object, fun c => some c.ty⟩

abbrev AllDirected (env : LowerEnv) := Throughout (fun site => ¬ Misdirected env site) env

structure LowerEnv.Final (env : LowerEnv) (classes : List ClassDecl) : Prop where
  regular : env.table.Regular
  outlines : env.table.Outlines classes
  scalars : ScalarsFinal classes
  notBuiltin : env.self.isBuiltin = false
  notSelf : env.self ≠ .selfType

/-- Whether an expression that the checker takes for an integer or a truth value is in a register
that is only written as one, and code generation takes it for the same. -/
def LowerEnv.Holds (env : LowerEnv) (k : Tys) (L : Scopes ClassName) (e : Expr) (x : Lowered) :
    Prop :=
  ∀ T, Typed (env.typing L) e T → (T.resolve env.self).Scalar →
    x.type = T.resolve env.self ∧ k x.dest = some x.type.ty

/-- Whether the registers that are given out for an expression can have types that they are written
with, and that fit what is computed from them. -/
abbrev LowerEnv.Kept (env : LowerEnv) (s t : FunctionState) (L : Scopes ClassName) (e : Expr)
    (x : Lowered) : Prop :=
  Settles ownTys s t fun m => KeepsTo m x.code ∧ env.Holds m L e x

abbrev LowerEnv.KeptAll (env : LowerEnv) (s t : FunctionState) (L : Scopes ClassName)
    (es : List Expr) (xs : List Lowered) : Prop :=
  Settles ownTys s t fun m => KeepsTo m (xs.flatMap (·.code)) ∧ List.Forall₂ (env.Holds m L) es xs

variable {env : LowerEnv} {classes : List ClassDecl} {k : Tys} {L : Scopes ClassName} {e : Expr}
  {x : Lowered} {s t u : FunctionState}

theorem keepsTo_defaultCode {dest : String} {c : ClassName} (h : k dest = some c.ty) :
    KeepsTo k (defaultCode dest c) := by
  unfold defaultCode
  cases value : c.default? with
  | none => exact keepsTo_nil
  | some v => simp [h, ClassName.ty_of_default? value]

theorem address_keepsTo (s : FunctionState) (slot : Nat) :
    Settles ownTys s (s.skip 2) fun m => KeepsTo m (addressCode s.next slot) :=
  (Settles.temp₂ s (some .int) (some .object)).imp fun _ _ ⟨number, address⟩ => by
    simp [addressCode, number, address, Literal.ty, ValueOp.operandTy?]

theorem literal_holds {v : Literal} {type : ClassName} (ty : v.ty = type.ty)
    (same : ∀ T, Typed (env.typing L) e T → type = T.resolve env.self) :
    env.Kept s (s.skip 1) L e ⟨[.literal (tempName s.next) v], tempName s.next, type⟩ :=
  (Settles.temp s (some type.ty)).imp fun _ _ dest =>
    ⟨by simp [dest, ty], fun T hT _ => ⟨same T hT, dest⟩⟩

theorem called_holds {owner : ClassName} {method : Bytes} {result : ClassName} {xs : List Lowered}
    (operands : Settles ownTys s u fun m => KeepsTo m (xs.flatMap (·.code)) ∧
      ∀ T, Typed (env.typing L) e T → (T.resolve env.self).Scalar → result = T.resolve env.self) :
    env.Kept s (u.skip 1) L e (called u.next owner method result xs) := by
  refine (operands.bind (.temp u (some result.ty))).imp ?_
  rintro m _ ⟨⟨codes, same⟩, dest⟩
  refine ⟨?_, fun T hT scalar => ⟨same T hT scalar, dest⟩⟩
  rw [called, keepsTo_append, keepsTo_cons_call]
  exact ⟨codes, by simp [dest], keepsTo_nil⟩

/-- A method that returns its receiver does not change what is known of the type. -/
theorem LowerEnv.Holds.result {receiver : Expr} {r : Lowered} {U result : ClassName}
    (holds : env.Holds k L receiver r) (hU : Typed (env.typing L) receiver U)
    (scalar : ((Env.resultOf U result).resolve env.self).Scalar) :
    Env.resultOf r.type result = (Env.resultOf U result).resolve env.self := by
  rw [Env.resolve_resultOf] at scalar ⊢
  cases result with
  | selfType => exact (holds U hU scalar).1
  | builtin _ | named _ => rfl

theorem operandTy?_operation {op : BinaryOp} {ty : Ty} (h : ty ∈ (operation op).1.operandTy?) :
    op ≠ .equals ∧ ty = .int := by
  cases op <;> cases h <;> exact ⟨nofun, rfl⟩

section Cases

variable {hidden : List Bytes} {receiver left right : Expr} {es args : List Expr}
  {bs : List (Binding Expr)} {name method : Name} {type : TypeName} {span : Span} {v y : Lowered}
  {xs : List Lowered} {code : List Instr} {owner : ClassName} {m : MethodType} {i : Nat}

theorem kept_selfCall
    (found : env.table.findMethod? env.self method.text = some (owner, m))
    (rest : env.KeptAll s t L args xs) :
    env.Kept s (t.skip 1) L (.selfCall method args span)
      (called t.next owner method.text (Env.resultOf env.self m.result) (env.receiver :: xs)) := by
  refine called_holds (rest.imp fun _ _ ⟨codes, _⟩ => ⟨codes, ?_⟩)
  intro T hT _
  obtain ⟨_, _, found', _, rfl⟩ := hT.selfCall
  cases found.symm.trans found'
  exact (Env.resolve_resultOf .selfType m.result env.self).symm

/-- The receiver may have another type than the checker gave it, but not one with another method. -/
theorem kept_call (here : AllDirected env hidden ⟨L, s, .call receiver method args span⟩)
    (hr : Lowers env s receiver x t)
    (found : env.table.findMethod? x.type method.text = some (owner, m))
    (first : env.Kept s t L receiver x) (rest : env.KeptAll t u L args xs) :
    env.Kept s (u.skip 1) L (.call receiver method args span)
      (called u.next owner method.text (Env.resultOf x.type m.result) (x :: xs)) := by
  refine called_holds ((first.bind rest).imp
    fun _ _ ⟨⟨code, holds⟩, codes, _⟩ => ⟨keepsTo_append.mpr ⟨code, codes⟩, ?_⟩)
  intro T hT scalar
  obtain ⟨U, hU, _, _, found', _, rfl⟩ := hT.call
  rw [findMethod?_of_not_misdirected (here.within _ .refl) hU hr] at found
  cases found.symm.trans found'
  exact holds.result hU scalar

theorem kept_staticCall
    (found : env.table.findMethod? (type.className.resolve env.self) method.text = some (owner, m))
    (first : env.Kept s t L receiver x) (rest : env.KeptAll t u L args xs) :
    env.Kept s (u.skip 1) L (.staticCall receiver type method args span)
      (called u.next owner method.text (Env.resultOf x.type m.result) (x :: xs)) := by
  refine called_holds ((first.bind rest).imp
    fun _ _ ⟨⟨code, holds⟩, codes, _⟩ => ⟨keepsTo_append.mpr ⟨code, codes⟩, ?_⟩)
  intro T hT scalar
  obtain ⟨U, hU, _, _, _, found', _, rfl⟩ := hT.staticCall
  cases found.symm.trans found'
  exact holds.result hU scalar

theorem kept_block (some_ : es ≠ []) (rows : env.KeptAll s.push t L.push es xs) :
    env.Kept s t.pop L (.block es span)
      ⟨xs.flatMap (·.code), (env.lastOf xs).dest, (env.lastOf xs).type⟩ := by
  refine rows.scope.imp ?_
  rintro m _ ⟨codes, holds⟩
  refine ⟨codes, fun T hT scalar => ?_⟩
  obtain ⟨Ts, all, rfl⟩ := hT.block
  exact forall₂_getLast? holds some_ (.name ⟨[], default⟩) _ _ (forall₂_getLast? all some_ _ _)
    scalar

theorem kept_letIn (first : Settles ownTys s.push t fun m => KeepsTo m code)
    (body : env.Kept t u (L.push.bindAll bs) e x) :
    env.Kept s u.pop L (.letIn bs e span) ⟨code ++ x.code, x.dest, x.type⟩ := by
  refine (first.bind body).scope.imp ?_
  rintro m _ ⟨codes, code, holds⟩
  refine ⟨keepsTo_append.mpr ⟨codes, code⟩, fun T hT scalar => ?_⟩
  obtain ⟨inner, checked, hT⟩ := hT.letIn
  cases checkBindings_ok checked
  exact holds T hT scalar

namespace LowerEnv.Final

variable (final : env.Final classes)
include final

theorem eq_of_conforms {sub sup : ClassName} (scalar : (sup.resolve env.self).Scalar)
    (conforms : env.table.conforms sub sup env.self = true) :
    sub.resolve env.self = sup.resolve env.self :=
  final.outlines.eq_of_scalar final.scalars scalar (ClassTable.conforms_iff.mp conforms)

theorem demanded {part : Expr} {c T : ClassName} (typed : Typed (env.typing L) e T)
    (demands : e.Demands part c) (holds : env.Holds k L part x) : k x.dest = some c.ty := by
  obtain ⟨U, hU, conforms⟩ := typed.demands demands
  have itself : c.resolve env.self = c := demands.scalar.resolve _
  have same : U.resolve env.self = c :=
    (final.eq_of_conforms (itself.symm ▸ demands.scalar) conforms).trans itself
  obtain ⟨type, dest⟩ := holds U hU (same.symm ▸ demands.scalar)
  rw [dest, type, same]

theorem joined {test yes no : Expr} {span : Span} {x y z : Lowered}
    (parts : Settles ownTys s u fun m => (KeepsTo m x.code ∧ env.Holds m L test x) ∧
      (KeepsTo m y.code ∧ env.Holds m L yes y) ∧ (KeepsTo m z.code ∧ env.Holds m L no z))
    (typed : ∃ T, Typed (env.typing L) (.cond test yes no span) T) :
    env.Kept s (u.skip 2) L (.cond test yes no span) ⟨condCode u.next x y z, tempName (u.next + 1),
      env.table.join y.type z.type env.self⟩ := by
  obtain ⟨T, hT⟩ := typed
  -- Arms of different types leave nothing to be known of the register with the result.
  refine (parts.bind (.temp₂ u none
    (if y.type.ty = z.type.ty then some y.type.ty else none))).imp ?_
  rintro m _ ⟨⟨⟨codeTest, holdsTest⟩, ⟨codeYes, holdsYes⟩, codeNo, holdsNo⟩, _, dest⟩
  have cond : m x.dest = some .bool := final.demanded hT .test holdsTest
  refine ⟨?_, fun T' hT' scalar => ?_⟩
  · simp [condCode, codeTest, codeYes, codeNo, cond, dest, ValueOp.operandTy?, eq_comm]
  · obtain ⟨_, Y, N, hY, hN, rfl⟩ := hT'.cond
    have resolved : (env.table.join Y N env.self).resolve env.self = env.table.join Y N env.self :=
      ClassName.resolve_eq_self (ClassTable.join_ne_selfType final.regular final.notSelf Y N)
    have scalar : (env.table.join Y N env.self).Scalar := resolved ▸ scalar
    obtain ⟨atYes, atNo⟩ := final.outlines.join_scalar final.scalars scalar
    have typeYes := (holdsYes Y hY (atYes.symm ▸ scalar)).1
    have typeNo := (holdsNo N hN (atNo.symm ▸ scalar)).1
    have join : env.table.join y.type z.type env.self = env.table.join Y N env.self := by
      rw [typeYes, typeNo, ClassTable.join_resolve]
    refine ⟨join.trans resolved.symm, ?_⟩
    rw [dest, if_pos (by rw [typeYes, typeNo, atYes, atNo]), join, typeYes, atYes]

theorem kept_assignLocal {b : Local}
    (here : AllDirected env hidden ⟨L, s, .assign name e span⟩) (hv : Lowers env s e v t)
    (found : t.find? name.text = some b) (value : env.Kept s t L e v) :
    env.Kept s t L (.assign name e span)
      ⟨v.code ++ [.compute .id b.reg b.type.ty [v.dest]], b.reg, v.type⟩ := by
  have inner := here.child .value
  refine value.imp fun m knows ⟨code, holds⟩ => ⟨?_, fun T hT scalar => ?_⟩
  · simp [code, knows.locals found, ValueOp.operandTy?]
  · obtain ⟨type, _, U, hU, conforms⟩ := hT.assign
    have same := type_of_local (inner.agree.keeps (hv.keeps inner.wellFormed)) type found
    have value := final.eq_of_conforms scalar conforms
    have valueType := (holds U hU (value.symm ▸ scalar)).1.trans value
    exact ⟨valueType, by rw [knows.locals found, same, valueType]⟩

theorem kept_assignAttribute (value : env.Kept s t L e v) :
    env.Kept s (t.skip 2) L (.assign name e span)
      ⟨v.code ++ addressCode t.next i ++ [.perform .store [tempName (t.next + 1), v.dest]],
        v.dest, v.type⟩ := by
  refine (value.bind (address_keepsTo t i)).imp ?_
  rintro m _ ⟨⟨code, holds⟩, address⟩
  refine ⟨by simp [code, address], fun T hT scalar => ?_⟩
  obtain ⟨_, _, U, hU, conforms⟩ := hT.assign
  have value := final.eq_of_conforms scalar conforms
  obtain ⟨type, dest⟩ := holds U hU (value.symm ▸ scalar)
  exact ⟨type.trans value, dest⟩

theorem kept_binary {op : BinaryOp}
    (typed : ∃ T, Typed (env.typing L) (.binary op left right span) T)
    (hx : env.Kept s t L left x) (hy : env.Kept t u L right y) :
    env.Kept s (u.skip 1) L (.binary op left right span)
      ⟨x.code ++ y.code ++ [.compute (operation op).1 (tempName u.next) (operation op).2.ty
        [x.dest, y.dest]], tempName u.next, (operation op).2⟩ := by
  obtain ⟨_, hT⟩ := typed
  refine ((hx.bind hy).bind (.temp u (some (operation op).2.ty))).imp ?_
  rintro m _ ⟨⟨⟨codeLeft, holdsLeft⟩, codeRight, holdsRight⟩, dest⟩
  refine ⟨?_, fun T hT scalar => ⟨?_, dest⟩⟩
  · simp only [keepsTo_append, keepsTo_cons_compute, keepsTo_nil, and_true]
    refine ⟨⟨codeLeft, codeRight⟩, by simp [dest], fun ty hty => ?_⟩
    obtain ⟨notEquals, rfl⟩ := operandTy?_operation hty
    simp [final.demanded hT (.left notEquals) holdsLeft,
      final.demanded hT (.right notEquals) holdsRight]
  · obtain ⟨_, _, rfl⟩ := hT.binary
    cases op <;> rfl

theorem kept_not (typed : ∃ T, Typed (env.typing L) (.unary .not e span) T)
    (h : env.Kept s t L e x) :
    env.Kept s (t.skip 1) L (.unary .not e span)
      ⟨x.code ++ [.compute .not (tempName t.next) .bool [x.dest]], tempName t.next, .bool⟩ := by
  obtain ⟨_, hT⟩ := typed
  refine (h.bind (.temp t (some .bool))).imp ?_
  rintro m _ ⟨⟨code, holds⟩, dest⟩
  refine ⟨?_, fun T hT scalar => ⟨?_, dest⟩⟩
  · simp [code, dest, ValueOp.operandTy?, final.demanded hT .not holds]
  · obtain ⟨_, rfl⟩ := hT.unary
    rfl

theorem kept_complement (typed : ∃ T, Typed (env.typing L) (.unary .complement e span) T)
    (h : env.Kept s t L e x) :
    env.Kept s (t.skip 2) L (.unary .complement e span)
      ⟨x.code ++ [.literal (tempName t.next) (.int 0),
        .compute .sub (tempName (t.next + 1)) .int [tempName t.next, x.dest]],
        tempName (t.next + 1), .int⟩ := by
  obtain ⟨_, hT⟩ := typed
  refine (h.bind (.temp₂ t (some .int) (some .int))).imp ?_
  rintro m _ ⟨⟨code, holds⟩, zero, dest⟩
  refine ⟨?_, fun T hT scalar => ⟨?_, dest⟩⟩
  · simp [code, zero, dest, Literal.ty, ValueOp.operandTy?, final.demanded hT .complement holds]
  · obtain ⟨_, rfl⟩ := hT.unary
    rfl

theorem kept_attribute {c : ClassName} (shown : ∀ n ∈ hidden, env.table.slot? env.self n = none)
    (here : AllDirected env hidden ⟨L, s, .name name⟩) (notSelf : name.isSelf = false)
    (absent : s.find? name.text = none)
    (slot : env.table.slot? env.self name.text = some (i, c)) :
    env.Kept s (s.skip 3) L (.name name)
      ⟨addressCode s.next i ++ [.compute .load (tempName (s.next + 2)) (c.resolve env.self).ty
        [tempName (s.next + 1)]], tempName (s.next + 2), c.resolve env.self⟩ := by
  refine ((address_keepsTo s i).bind (.temp (s.skip 2) (some (c.resolve env.self).ty))).imp ?_
  rintro m _ ⟨address, dest⟩
  refine ⟨?_, fun T hT scalar => ⟨?_, dest⟩⟩
  · simp [address, show m (tempName (s.next + 2)) = _ from dest, ValueOp.operandTy?]
  · exact type_of_slot final.regular here.agree shown (hT.typeOf? notSelf) absent slot

end LowerEnv.Final

end Cases

/-- The registers of an expression are written with types that fit what is computed from them. -/
theorem Lowers.keepsTo (final : env.Final classes) {hidden : List Bytes}
    (shown : ∀ n ∈ hidden, env.table.slot? env.self n = none) (h : Lowers env s e x t)
    (here : AllDirected env hidden ⟨L, s, e⟩) :
    env.Kept s t L e x := by
  induction h using Lowers.rec
    (motive_2 := fun s es xs t _ => ∀ (L : Scopes ClassName),
      ThroughoutRow (fun site => ¬ Misdirected env site) env hidden L s es →
      env.KeptAll s t L es xs)
    (motive_3 := fun s bs code t _ => ∀ (L : Scopes ClassName), (∀ b ∈ bs, IsWord b.name.text) →
      ThroughoutBindings (fun site => ¬ Misdirected env site) env hidden L s bs →
      Settles ownTys s t fun m => KeepsTo m code) generalizing L with
  | assignLocal hv found ih => exact final.kept_assignLocal here hv found (ih (here.child .value))
  | assignAttribute _ _ _ ih => exact final.kept_assignAttribute (ih (here.child .value))
  | selfCall found _ _ ih => exact kept_selfCall found (ih L here.selfArguments)
  | call hr found _ _ ihr iha =>
    exact kept_call here hr found (ihr (here.child .receiver)) (iha L (here.arguments hr))
  | staticCall hr found _ _ ihr iha =>
    exact kept_staticCall found (ihr (here.child .staticReceiver)) (iha L (here.staticArguments hr))
  | cond ht hy hn iht ihy ihn =>
    have yes := here.child (.yes ht)
    have no := here.child (.no ht hy)
    have arms := ((ihy yes).branch (hy.keeps yes.wellFormed)).bind
      ((ihn no).branch (hn.keeps no.wellFormed))
    exact final.joined ((iht (here.child .test)).bind arms) here.typed
  | @loop s _ _ _ _ _ _ _ ht hb iht ihb =>
    have test := here.child .loopTest
    have body := here.child (.loopBody ht)
    have first := ((iht test).branch (ht.keeps test.wellFormed)).after (.skip s 1)
    refine (first.bind ((ihb body).branch (hb.keeps body.wellFormed))).imp ?_
    rintro m _ ⟨⟨codeTest, holds⟩, codeBody, _⟩
    obtain ⟨_, hT⟩ := here.typed
    refine ⟨?_, fun T hT' scalar => ?_⟩
    · simp [loopCode, codeTest, codeBody, final.demanded hT .loopTest holds]
    · obtain ⟨_, _, rfl⟩ := hT'.loop
      exact absurd rfl scalar.ne_object
  | block _ ih =>
    cases here.wellFormed with | block some_ _ =>
    exact kept_block some_ (ih L.push here.items)
  | letIn hb _ ihb ih =>
    cases here.wellFormed with | letIn names _ _ =>
    exact kept_letIn (ihb L.push names here.inits) (ih (here.child (.body hb)))
  | newInt isInt =>
    refine literal_holds rfl fun T hT => ?_
    obtain ⟨_, rfl⟩ := hT.new
    exact isInt.symm
  | newBool isBool =>
    refine literal_holds rfl fun T hT => ?_
    obtain ⟨_, rfl⟩ := hT.new
    exact isBool.symm
  | @newObject s _ _ c isClass notInt notBool _ _ =>
    refine ((Settles.temp₂ s (some .int) (some .object)).before (.recordAlloc _ _)).imp ?_
    rintro m _ ⟨size, dest⟩
    refine ⟨?_, fun T hT scalar => ?_⟩
    · unfold LowerEnv.objectCode
      split <;> simp [size, dest, Literal.ty, ValueOp.operandTy?]
    · obtain ⟨_, rfl⟩ := hT.new
      rw [isClass] at scalar
      exact absurd scalar (not_or.mpr ⟨notInt, notBool⟩)
  | binary hl _ ihl ihr =>
    exact final.kept_binary here.typed (ihl (here.child .left)) (ihr (here.child (.right hl)))
  | not _ ih => exact final.kept_not here.typed (ih (here.child (.operand (by decide))))
  | complement _ ih => exact final.kept_complement here.typed (ih (here.child (.operand (by decide))))
  | self isSelf =>
    refine .here (.refl _) fun m knows => ⟨keepsTo_nil, fun T hT scalar => ?_⟩
    rw [(YieldsSelf.self isSelf : YieldsSelf env.table _ _).type hT] at scalar
    exact absurd (final.notBuiltin.symm.trans scalar.isBuiltin) Bool.false_ne_true
  | «local» notSelf found =>
    refine .here (.refl _) fun m knows => ⟨keepsTo_nil, fun T hT scalar => ?_⟩
    exact ⟨type_of_local here.agree (hT.typeOf? notSelf) found, knows.locals found⟩
  | «attribute» notSelf absent slot => exact final.kept_attribute shown here notSelf absent slot
  | group _ ih =>
    refine (ih (here.child .inner)).imp ?_
    rintro m _ ⟨code, holds⟩
    exact ⟨code, fun T hT scalar => holds T hT.group scalar⟩
  | int =>
    refine literal_holds rfl fun T hT => ?_
    cases hT.int
    rfl
  | bool =>
    refine literal_holds rfl fun T hT => ?_
    cases hT.bool
    rfl
  | nil => exact .here (.refl _) fun m _ => ⟨keepsTo_nil, .nil⟩
  | cons hx _ ih ihs L directed =>
    refine ((ih directed.head).bind (ihs L (directed.tail hx))).imp ?_
    rintro m _ ⟨⟨code, holds⟩, codes, all⟩
    rw [List.flatMap_cons, keepsTo_append]
    exact ⟨⟨code, codes⟩, .cons holds all⟩
  | empty => exact .here (.refl _) fun m _ => keepsTo_nil
  | @init _ t _ _ _ _ _ _ _ _ hv _ ihv ih L words directed =>
    rw [List.forall_mem_cons] at words
    refine ((ihv (directed.head.2 _ rfl)).bind
      ((Settles.bound t words.1 _).bind (ih _ words.2 (directed.tail_init hv)))).imp ?_
    rintro m _ ⟨⟨code, _⟩, reg, rest⟩
    simp [code, reg, rest, ValueOp.operandTy?]
  | @default s _ _ _ _ _ _ _ ih L words directed =>
    rw [List.forall_mem_cons] at words
    refine ((Settles.bound s words.1 _).bind (ih _ words.2 directed.tail_default)).imp ?_
    rintro m _ ⟨reg, rest⟩
    exact keepsTo_append.mpr ⟨keepsTo_defaultCode reg, rest⟩

end Expressions

section Functions

variable {files : SourceFiles} {classes : List ClassDecl} {t : ClassTable} {e : Entry}
  {c : ClassDecl} {f : Function} {env : LowerEnv} {s u : FunctionState} {k : Tys}
  {code : List Instr}

theorem tys_bindParams {ps : List Formal} {params : List Bril.Param}
    (h : (env.bindParams ps).run s = .ok params u) :
    params.map (·.ty) = ps.map fun p => (p.type.className.resolve env.self).ty := by
  induction ps generalizing s params with
  | nil =>
    cases h
    rfl
  | cons p ps ih =>
    obtain ⟨_, hps, rfl⟩ := run_bindParams_cons_eq_ok.mp h
    exact congrArg (_ :: ·) (ih hps)

theorem Sets.keepsTo {a : Attribute} (final : env.Final classes) (h : Sets env s a code u)
    (directed : ∀ init ∈ a.init, AllDirected env [] ⟨.empty, s, init⟩) :
    Settles ownTys s u fun m => KeepsTo m code := by
  cases h with
  | @init t _ init x i type present lowers slot =>
    refine ((lowers.keepsTo final (List.forall_mem_nil _) (directed init present)).bind
      (address_keepsTo t i)).imp ?_
    rintro m _ ⟨⟨code, _⟩, address⟩
    simp [code, address]
  | @default _ v i type absent value slot =>
    refine ((Settles.temp s (some v.ty)).bind (address_keepsTo (s.skip 1) i)).imp ?_
    rintro m _ ⟨temp, address⟩
    simp [temp, show KeepsTo m (addressCode (s.next + 1) i) from address]
  | none => exact .here (.skip s 1) fun _ _ => keepsTo_nil

theorem setAttributes_keepsTo {as : List Attribute} (final : env.Final classes)
    (h : (env.setAttributes as).run s = .ok code u)
    (directed : ∀ a v, SetFrom env s as a v →
      ∀ init ∈ a.init, AllDirected env [] ⟨.empty, v, init⟩) :
    Settles ownTys s u fun m => KeepsTo m code := by
  induction as generalizing s code with
  | nil =>
    cases h
    exact .here (.refl _) fun _ _ => keepsTo_nil
  | cons a as ih =>
    obtain ⟨_, _, _, set, sets, rfl⟩ := run_setAttributes_cons_eq_ok.mp h
    exact (((Sets.of_run set).keepsTo final (directed a s .head)).bind
      (ih sets fun b v later => directed b v (later.tail set))).imp fun _ _ => keepsTo_append.mpr

theorem parentCall_keepsTo {entry : ClassEntry} (h : (parentCall entry).run s = .ok code u) :
    Settles ownTys s u fun m => KeepsTo m code := by
  obtain ⟨rfl, rfl⟩ | ⟨_, _, _, rfl, rfl⟩ := parentCall_ok h
  · exact .here (.refl _) fun _ _ => keepsTo_nil
  · exact (Settles.temp s (some .object)).imp fun m _ dest => by simp [dest]

theorem keepsTo_frees (regs : List String) :
    KeepsTo k (regs.map fun reg => .perform .free [reg]) := by
  induction regs with
  | nil => exact keepsTo_nil
  | cons reg regs ih => exact keepsTo_cons_free.mpr ih

theorem Accepted.final (h : Accepted files classes t) (scalars : ScalarsFinal classes)
    (hc : c ∈ classes) : (c.lowerEnv t).Final classes where
  regular := h.regular
  outlines := h.outlines
  scalars := scalars
  notBuiltin := (h.admits hc).notBuiltin
  notSelf := (h.admits hc).notSelfType

theorem Accepted.allDirected (h : Accepted files classes t) (calls : CallsAgree t e classes)
    (hc : c ∈ classes) {entry : Option Method} {root : Site} (hr : Root t e c entry root) :
    AllDirected (c.lowerEnv t) (hiddenIn entry) root where
  toFits := h.fits_root hc hr
  within site hd := calls c hc entry site ⟨root, hr, hd⟩

/-- The function of a member only reads unboxed values of the right kind. -/
theorem Accepted.function_unboxed (h : Accepted files classes t) (scalars : ScalarsFinal classes)
    (calls : CallsAgree t e classes) (shown : EntryShown t e classes) {b : Member}
    (hb : b.owner ∈ classes) (declared : b.Declared) (made : b.function t e = .ok f) :
    f.Unboxed := by
  have final := h.final scalars hb
  cases Member.makes_of_function made with
  | constructor found called set =>
    obtain ⟨k, ⟨call, code⟩, knows⟩ := ((parentCall_keepsTo called).bind
      (setAttributes_keepsTo final set fun a v ⟨before, after, done, has, more⟩ init hinit =>
        h.allDirected calls hb (.attribute found called has more hinit))).solve
    refine Function.unboxed_of_keepsTo (k := k) (by simp [call, code]) ?_
    exact List.forall_mem_singleton.mpr knows.self
  | @entry c m x _ isEntry body =>
    have root := Root.entry (e := e) declared isEntry
    obtain ⟨k, ⟨size, code, _⟩, knows⟩ := ((Settles.temp .initial (some .int)).bind
      (body.keepsTo final (shown.hidden hb root) (h.allDirected calls hb root))).solve
    refine Function.unboxed_of_keepsTo (k := k) ?_ (List.forall_mem_nil _)
    simp [show k (tempName 0) = _ from size, knows.self, code, keepsTo_frees, Literal.ty,
      ValueOp.operandTy?]
  | @method c m params _ x _ notEntry bound body =>
    have root := Root.method declared notEntry bound
    have words := ((h.wellFormed hb).method declared).1
    obtain ⟨k, ⟨regs, code, _⟩, knows⟩ := ((bindParams_settles bound words).bind
      (body.keepsTo final (shown.hidden hb root) (h.allDirected calls hb root))).solve
    refine Function.unboxed_of_keepsTo (k := k) (by simp [code]) ?_
    have tys : (params.map fun p => k p.name) = params.map fun p => some p.ty := by
      have same := congrArg (List.map some) (tys_bindParams bound)
      rw [List.map_map, List.map_map] at same
      exact regs.trans same.symm
    exact List.forall_mem_cons.mpr ⟨knows.self, List.map_inj_left.mp tys⟩

end Functions

section Program

variable {files : SourceFiles} {classes : List ClassDecl} {t : ClassTable} {e : Entry}
  {p : Bril.Program}

/-- Arithmetic and conditions in a generated program only see unboxed values of the right kind,
where no class inherits from `Int` or `Bool`, calls are those of the methods that the checker found,
and the parameters of the entry method are not called like attributes. -/
theorem generate_unboxed (h : Accepted files classes t) (made : generate t e classes = .ok p)
    (scalars : ScalarsFinal classes) (calls : CallsAgree t e classes)
    (shown : EntryShown t e classes) : ∀ f ∈ p.functions, f.Unboxed := by
  intro f hf
  rcases builtin_or_member made hf with builtin | ⟨b, hb, function⟩
  · cases List.mem_singleton.mp builtin
    intro i hi
    simp only [List.mem_cons, List.not_mem_nil, or_false] at hi
    rcases hi with rfl | rfl <;> exact List.forall_mem_nil _
  · obtain ⟨known, declared⟩ := mem_membersOf.mp hb
    exact h.function_unboxed scalars calls shown known declared function

end Program

def filling : SourceFiles := .ofLines [
  "class Gauge \x7b",
  "  level : Int <- 3;",
  "  full : Bool;",
  "  fill(n : Int, fast : Bool) : Bool \x7b \x7b",
  "    while level < n loop level <- level + (if fast then 2 else 1 fi) pool;",
  "    full <- not (level <= 10);",
  "  \x7d \x7d;",
  "\x7d;",
  "class Main \x7b",
  "  main() : Object \x7b if (new Gauge).fill(7, true) then ~1 else 2 fi \x7d;",
  "\x7d;"]

theorem filling_computed : SourceFiles.CompiledInOrder filling .default ∧
    Plain (SourceFiles.tableInOrder filling) .default (SourceFiles.classes filling) ∧
    ScalarsFinal (SourceFiles.classes filling) := by
  decide +kernel

theorem generate_unboxed_filling :
    Plain (SourceFiles.tableInOrder filling) .default (SourceFiles.classes filling) ∧
    ScalarsFinal (SourceFiles.classes filling) ∧
    ∀ f ∈ (SourceFiles.codeInOrder filling .default).functions, f.Unboxed := by
  obtain ⟨inOrder, plain, scalars⟩ := filling_computed
  have compiled := SourceFiles.compiled_inOrder inOrder
  exact ⟨plain, scalars, generate_unboxed compiled.1 compiled.2 scalars
    (plain.callsAgree compiled.1) plain.entryShown⟩

/-- A program that adds to the result of a call, which is looked up from the class of an assigned
value, where the method returns an object. -/
def misadded : SourceFiles := .ofLines [
  "class A \x7b m() : Int \x7b 1 \x7d; \x7d;",
  "class Main \x7b",
  "  f(a : A) : Int \x7b (a <- new B).m() + 1 \x7d;",
  "  main() : Int \x7b f(new A) \x7d;",
  "\x7d;",
  "class B inherits A \x7b m() : Object \x7b self \x7d; \x7d;"]

theorem misadded_computed : SourceFiles.CompiledInOrder misadded .default ∧
    ¬ ∀ f ∈ (SourceFiles.codeInOrder misadded .default).functions, f.Unboxed := by
  decide +kernel

theorem misadded_refutes :
    Accepted misadded (SourceFiles.classes misadded) (SourceFiles.tableInOrder misadded) ∧
    generate (SourceFiles.tableInOrder misadded) .default (SourceFiles.classes misadded) =
      .ok (SourceFiles.codeInOrder misadded .default) ∧
    ¬ ∀ f ∈ (SourceFiles.codeInOrder misadded .default).functions, f.Unboxed :=
  have compiled := SourceFiles.compiled_inOrder misadded_computed.1
  ⟨compiled.1, compiled.2, misadded_computed.2⟩

end Cool
