import Cool.Lowering.Expr
import Cool.Proofs.Tree.WellFormed
import Cool.Proofs.Outcome
import Cool.Typing.Check

/-!
What code an expression gets, as a relation: one rule for each way in which its code can come about.
-/
namespace Cool

open Bril (Instr Ty Literal)
open FunctionState (tempName labelName)

def FunctionState.skip (s : FunctionState) (n : Nat) : FunctionState :=
  { s with next := s.next + n }

namespace LowerEnv

/-- The code for the address of a slot, in the temporary after the one numbered `id`. -/
def addressCode (id slot : Nat) : List Instr :=
  [.literal (tempName id) (.int slot),
    .compute .ptradd (tempName (id + 1)) .object [selfReg, tempName id]]

/-- A call of a method with the values of operands, of which the first is the receiver. -/
def called (id : Nat) (owner : ClassName) (method : Bytes) (result : ClassName)
    (operands : List Lowered) : Lowered :=
  ⟨operands.flatMap (·.code) ++
    [.call (tempName id) result.ty (owner.memberName method) (operands.map (·.dest))],
    tempName id, result⟩

def receiver (env : LowerEnv) : Lowered := ⟨[], selfReg, env.self⟩

def condCode (id : Nat) (test yes no : Lowered) : List Instr :=
  test.code ++ [.br test.dest (labelName "if" "then" id) (labelName "if" "else" id)]
    ++ [.label (labelName "if" "then" id)] ++ yes.code
    ++ [.compute .id (tempName (id + 1)) yes.type.ty [yes.dest], .jmp (labelName "if" "exit" id)]
    ++ [.label (labelName "if" "else" id)] ++ no.code
    ++ [.compute .id (tempName (id + 1)) no.type.ty [no.dest], .jmp (labelName "if" "exit" id)]
    ++ [.label (labelName "if" "exit" id)]

def objectCode (env : LowerEnv) (id : Nat) (c : ClassName) : List Instr :=
  [.literal (tempName id) (.int (env.table.objectSize c)),
    .compute .alloc (tempName (id + 1)) .object [tempName id]]
  ++ if c.isBuiltin then []
    else [.call (tempName (id + 1)) .object c.constructorName [tempName (id + 1)]]

/-- The last of some values, or the object at hand if there is none. -/
def lastOf (env : LowerEnv) (xs : List Lowered) : Lowered := xs.getLast?.getD env.receiver

/-- Whether a method can be called: it is not built in, or it has a function. -/
def HasCode (owner : ClassName) (method : Bytes) : Prop :=
  (owner.isBuiltin && !hasFunction owner method) = false

end LowerEnv

open LowerEnv

mutual

/-- An expression gets the code `x`, from one state to another. -/
inductive Lowers (env : LowerEnv) : FunctionState → Expr → Lowered → FunctionState → Prop where
  | assignLocal {s t name value span v x} : Lowers env s value v t →
      t.find? name.text = some x →
      Lowers env s (.assign name value span)
        ⟨v.code ++ [.compute .id x.reg x.type.ty [v.dest]], x.reg, v.type⟩ t
  | assignAttribute {s t name value span v slot type} : Lowers env s value v t →
      t.find? name.text = none → env.table.slot? env.self name.text = some (slot, type) →
      Lowers env s (.assign name value span)
        ⟨v.code ++ addressCode t.next slot ++ [.perform .store [tempName (t.next + 1), v.dest]],
          v.dest, v.type⟩ (t.skip 2)
  | selfCall {s t method args span xs owner m} :
      env.table.findMethod? env.self method.text = some (owner, m) → HasCode owner method.text →
      LowersAll env s args xs t →
      Lowers env s (.selfCall method args span)
        (called t.next owner method.text (Env.resultOf env.self m.result) (env.receiver :: xs))
        (t.skip 1)
  | call {s t u receiver method args span r xs owner m} : Lowers env s receiver r t →
      env.table.findMethod? r.type method.text = some (owner, m) → HasCode owner method.text →
      LowersAll env t args xs u →
      Lowers env s (.call receiver method args span)
        (called u.next owner method.text (Env.resultOf r.type m.result) (r :: xs)) (u.skip 1)
  | staticCall {s t u receiver type method args span r xs owner m} : Lowers env s receiver r t →
      env.table.findMethod? (type.className.resolve env.self) method.text = some (owner, m) →
      HasCode owner method.text → LowersAll env t args xs u →
      Lowers env s (.staticCall receiver type method args span)
        (called u.next owner method.text (Env.resultOf r.type m.result) (r :: xs)) (u.skip 1)
  | cond {s t u w test yes no span x y z} : Lowers env s test x t →
      Lowers env t.enterBranch yes y u → Lowers env u.leaveBranch.enterBranch no z w →
      Lowers env s (.cond test yes no span)
        ⟨condCode w.next x y z, tempName (w.next + 1), env.table.join y.type z.type env.self⟩
        (w.leaveBranch.skip 2)
  | loop {s t u test body span x y} : Lowers env (s.skip 1).enterBranch test x t →
      Lowers env t.leaveBranch.enterBranch body y u →
      Lowers env s (.loop test body span) (loopCode s.next x y) u.leaveBranch
  | block {s t body span xs} : LowersAll env s.push body xs t →
      Lowers env s (.block body span)
        ⟨xs.flatMap (·.code), (env.lastOf xs).dest, (env.lastOf xs).type⟩ t.pop
  | letIn {s t u bindings body span code x} : LowersBindings env s.push bindings code t →
      Lowers env t body x u →
      Lowers env s (.letIn bindings body span) ⟨code ++ x.code, x.dest, x.type⟩ u.pop
  | newInt {s type span} : type.className.resolve env.self = .int →
      Lowers env s (.new type span) ⟨[.literal (tempName s.next) (.int 0)], tempName s.next, .int⟩
        (s.skip 1)
  | newBool {s type span} : type.className.resolve env.self = .bool →
      Lowers env s (.new type span)
        ⟨[.literal (tempName s.next) (.bool false)], tempName s.next, .bool⟩ (s.skip 1)
  | newObject {s type span c} : type.className.resolve env.self = c →
      c ≠ .int → c ≠ .bool → c ≠ .string → env.table.contains c = true →
      Lowers env s (.new type span) ⟨env.objectCode s.next c, tempName (s.next + 1), c⟩
        ((s.skip 2).recordAlloc (tempName (s.next + 1)))
  | binary {s t u op left right span x y} : Lowers env s left x t → Lowers env t right y u →
      Lowers env s (.binary op left right span)
        ⟨x.code ++ y.code ++ [.compute (operation op).1 (tempName u.next) (operation op).2.ty
          [x.dest, y.dest]], tempName u.next, (operation op).2⟩ (u.skip 1)
  | not {s t operand span x} : Lowers env s operand x t →
      Lowers env s (.unary .not operand span)
        ⟨x.code ++ [.compute .not (tempName t.next) .bool [x.dest]], tempName t.next, .bool⟩
        (t.skip 1)
  | complement {s t operand span x} : Lowers env s operand x t →
      Lowers env s (.unary .complement operand span)
        ⟨x.code ++ [.literal (tempName t.next) (.int 0),
          .compute .sub (tempName (t.next + 1)) .int [tempName t.next, x.dest]],
          tempName (t.next + 1), .int⟩ (t.skip 2)
  | self {s name} : name.isSelf = true → Lowers env s (.name name) env.receiver s
  | local {s name x} : name.isSelf = false → s.find? name.text = some x →
      Lowers env s (.name name) ⟨[], x.reg, x.type⟩ s
  | attribute {s name slot type} : name.isSelf = false → s.find? name.text = none →
      env.table.slot? env.self name.text = some (slot, type) →
      Lowers env s (.name name)
        ⟨addressCode s.next slot ++ [.compute .load (tempName (s.next + 2))
          (type.resolve env.self).ty [tempName (s.next + 1)]], tempName (s.next + 2),
          type.resolve env.self⟩ (s.skip 3)
  | group {s t inner span x} : Lowers env s inner x t → Lowers env s (.group inner span) x t
  | int {s value span} :
      Lowers env s (.int value span)
        ⟨[.literal (tempName s.next) (.int value)], tempName s.next, .int⟩ (s.skip 1)
  | bool {s value span} :
      Lowers env s (.bool value span)
        ⟨[.literal (tempName s.next) (.bool value)], tempName s.next, .bool⟩ (s.skip 1)

inductive LowersAll (env : LowerEnv) :
    FunctionState → List Expr → List Lowered → FunctionState → Prop where
  | nil {s} : LowersAll env s [] [] s
  | cons {s t u e es x xs} : Lowers env s e x t → LowersAll env t es xs u →
      LowersAll env s (e :: es) (x :: xs) u

inductive LowersBindings (env : LowerEnv) :
    FunctionState → List (Binding Expr) → List Instr → FunctionState → Prop where
  | empty {s} : LowersBindings env s [] [] s
  | init {s t u name type init span rest v code} : Lowers env s init v t →
      LowersBindings env (t.bind name.text (type.className.resolve env.self)).2 rest code u →
      LowersBindings env s (⟨name, type, some init, span⟩ :: rest)
        (v.code ++ [.compute .id (t.bind name.text (type.className.resolve env.self)).1
          (type.className.resolve env.self).ty [v.dest]] ++ code) u
  | default {s u name type span rest code} :
      LowersBindings env (s.bind name.text (type.className.resolve env.self)).2 rest code u →
      LowersBindings env s (⟨name, type, none, span⟩ :: rest)
        (defaultCode (s.bind name.text (type.className.resolve env.self)).1
          (type.className.resolve env.self) ++ code) u

end

section Steps

open Lower

variable {α : Type} {s t : FunctionState}

theorem run_within_eq_ok {enter leave : FunctionState → FunctionState} {x : Lower α} {a : α} :
    (within enter leave x).run s = .ok a t ↔ ∃ u, x.run (enter s) = .ok a u ∧ t = leave u := by
  simp only [within, EStateM.run]
  cases x (enter s) <;> simp [eq_comm]

theorem run_within_eq_error {enter leave : FunctionState → FunctionState} {x : Lower α}
    {err : LoweringError} : (within enter leave x).run s = .error err t ↔
      ∃ u, x.run (enter s) = .error err u ∧ t = leave u := by
  simp only [within, EStateM.run]
  cases x (enter s) <;> simp [eq_comm]

theorem run_inScope_eq_ok {x : Lower α} {a : α} :
    (inScope x).run s = .ok a t ↔ ∃ u, x.run s.push = .ok a u ∧ t = u.pop :=
  run_within_eq_ok

theorem run_inBranch_eq_ok {x : Lower α} {a : α} :
    (inBranch x).run s = .ok a t ↔ ∃ u, x.run s.enterBranch = .ok a u ∧ t = u.leaveBranch :=
  run_within_eq_ok

theorem run_attributeAddress_eq_ok {env : LowerEnv} {name : Name}
    {r : List Instr × String × ClassName} :
    (env.attributeAddress name).run s = .ok r t ↔
      ∃ slot type, env.table.slot? env.self name.text = some (slot, type) ∧
        r = (addressCode s.next slot, tempName (s.next + 1), type.resolve env.self) ∧
        t = s.skip 2 := by
  unfold attributeAddress
  cases env.table.slot? env.self name.text with
  | none =>
    constructor
    · intro h
      cases h
    · rintro ⟨_, _, h, _⟩
      cases h
  | some p =>
    obtain ⟨slot, type⟩ := p
    constructor
    · intro h
      cases h
      exact ⟨slot, type, rfl, rfl, rfl⟩
    · rintro ⟨_, _, h, rfl, rfl⟩
      cases h
      rfl

theorem run_target_eq_ok {env : LowerEnv} {c receiver : ClassName} {method : Name}
    {r : String × ClassName} :
    (env.target c receiver method).run s = .ok r t ↔
      ∃ owner m, env.table.findMethod? c method.text = some (owner, m) ∧
        HasCode owner method.text ∧
        r = (owner.memberName method.text, Env.resultOf receiver m.result) ∧ t = s := by
  unfold target HasCode
  cases env.table.findMethod? c method.text with
  | none =>
    constructor
    · intro h
      cases h
    · rintro ⟨_, _, h, _⟩
      cases h
  | some p =>
    obtain ⟨owner, m⟩ := p
    simp only [Option.some.injEq, Prod.mk.injEq]
    split
    · rename_i builtin
      constructor
      · intro h
        cases h
      · rintro ⟨_, _, ⟨rfl, rfl⟩, h, _⟩
        exact absurd builtin (by simp [h])
    · rename_i code
      constructor
      · intro h
        cases h
        refine ⟨owner, m, ⟨rfl, rfl⟩, Bool.eq_false_iff.mpr code, ?_, rfl⟩
        cases m.result <;> rfl
      · rintro ⟨_, _, ⟨rfl, rfl⟩, _, rfl, rfl⟩
        cases m.result <;> rfl

end Steps

namespace Lowers

variable {env : LowerEnv} {s t u : FunctionState}

theorem of_assign {name : Name} {value : Expr} {span : Span} {v x : Lowered}
    (hv : Lowers env s value v t) (h : (env.assign name v).run t = .ok x u) :
    Lowers env s (.assign name value span) x u := by
  unfold assign at h
  obtain ⟨_, _, hs, h⟩ := run_bind_eq_ok.mp h
  cases hs
  split at h
  · rename_i found
    cases h
    exact assignLocal hv found
  · rename_i absent
    obtain ⟨_, _, ha, h⟩ := run_bind_eq_ok.mp h
    obtain ⟨slot, type, hslot, rfl, rfl⟩ := run_attributeAddress_eq_ok.mp ha
    cases h
    exact assignAttribute hv absent hslot

theorem of_readName {name : Name} {x : Lowered} (h : (env.readName name).run s = .ok x t) :
    Lowers env s (.name name) x t := by
  unfold readName at h
  split at h
  · rename_i isSelf
    cases h
    exact self isSelf
  · rename_i notSelf
    have notSelf : name.isSelf = false := Bool.eq_false_iff.mpr notSelf
    obtain ⟨_, _, hs, h⟩ := run_bind_eq_ok.mp h
    cases hs
    split at h
    · rename_i found
      cases h
      exact «local» notSelf found
    · rename_i absent
      obtain ⟨_, _, ha, h⟩ := run_bind_eq_ok.mp h
      obtain ⟨slot, type, hslot, rfl, rfl⟩ := run_attributeAddress_eq_ok.mp ha
      cases h
      exact «attribute» notSelf absent hslot

theorem of_newObject {type : TypeName} {span : Span} {x : Lowered}
    (h : (env.newObject type span).run s = .ok x t) : Lowers env s (.new type span) x t := by
  unfold LowerEnv.newObject at h
  split at h
  · rename_i isInt
    cases h
    exact newInt isInt
  · rename_i isBool
    cases h
    exact newBool isBool
  · cases h
  · rename_i notInt notBool notString
    split at h
    · cases h
    · rename_i known
      cases h
      exact newObject rfl notInt notBool notString (by simpa using known)

def Covers (env : LowerEnv) (e : Expr) : Prop :=
  ∀ {s x t}, (e.lower env).run s = .ok x t → Lowers env s e x t

theorem of_arguments {es : List Expr} (covers : ∀ e ∈ es, Covers env e)
    {r : List Instr × List String} (h : (lowerArguments env es).run s = .ok r t) :
    ∃ xs, LowersAll env s es xs t ∧ r = (xs.flatMap (·.code), xs.map (·.dest)) := by
  induction es generalizing s r with
  | nil =>
    cases h
    exact ⟨[], .nil, rfl⟩
  | cons e es ih =>
    rw [List.forall_mem_cons] at covers
    unfold lowerArguments at h
    simp only [run_bind_eq_ok] at h
    obtain ⟨x, u, hx, r', _, hr, h⟩ := h
    cases h
    obtain ⟨xs, hxs, rfl⟩ := ih covers.2 hr
    exact ⟨x :: xs, .cons (covers.1 hx) hxs, rfl⟩

theorem of_block {es : List Expr} (covers : ∀ e ∈ es, Covers env e) {y x : Lowered}
    (h : (lowerBlock env y.code y.dest y.type es).run s = .ok x t) :
    ∃ xs, LowersAll env s es xs t ∧ x = ⟨y.code ++ xs.flatMap (·.code),
      (xs.getLast?.getD y).dest, (xs.getLast?.getD y).type⟩ := by
  induction es generalizing s y with
  | nil =>
    cases h
    exact ⟨[], .nil, by simp⟩
  | cons e es ih =>
    rw [List.forall_mem_cons] at covers
    unfold lowerBlock at h
    obtain ⟨z, u, hz, h⟩ := run_bind_eq_ok.mp h
    obtain ⟨xs, hxs, rfl⟩ := ih covers.2 (y := ⟨y.code ++ z.code, z.dest, z.type⟩) h
    refine ⟨z :: xs, .cons (covers.1 hz) hxs, ?_⟩
    rw [List.getLast?_cons]
    cases xs.getLast? <;> simp

theorem of_bindings {bindings : List (Binding Expr)}
    (covers : ∀ b ∈ bindings, ∀ e ∈ b.init, Covers env e) {code : List Instr}
    (h : (lowerBindings env bindings).run s = .ok code t) :
    LowersBindings env s bindings code t := by
  induction bindings generalizing s code with
  | nil =>
    cases h
    exact .empty
  | cons b bindings ih =>
    obtain ⟨name, type, init, span⟩ := b
    rw [List.forall_mem_cons] at covers
    cases init with
    | none =>
      unfold lowerBindings at h
      simp only [run_bind_eq_ok] at h
      obtain ⟨_, _, hb, code', _, hc, h⟩ := h
      cases hb
      cases h
      exact .default (ih covers.2 hc)
    | some init =>
      unfold lowerBindings at h
      simp only [run_bind_eq_ok] at h
      obtain ⟨v, _, hv, _, _, hb, code', _, hc, h⟩ := h
      cases hb
      cases h
      exact .init (covers.1 init rfl hv) (ih covers.2 hc)

theorem of_run (e : Expr) : Covers env e := by
  induction e with
  | assign name value span ih =>
    intro s x t h
    unfold Expr.lower at h
    obtain ⟨v, u, hv, h⟩ := run_bind_eq_ok.mp h
    exact of_assign (ih hv) h
  | selfCall method args span ih =>
    intro s x t h
    unfold Expr.lower at h
    simp only [run_bind_eq_ok] at h
    obtain ⟨_, _, ht, _, _, ha, h⟩ := h
    obtain ⟨owner, m, hm, code, rfl, rfl⟩ := run_target_eq_ok.mp ht
    obtain ⟨xs, hxs, rfl⟩ := of_arguments ih ha
    cases h
    exact selfCall hm code hxs
  | call receiver method args span ihr iha =>
    intro s x t h
    unfold Expr.lower at h
    simp only [run_bind_eq_ok] at h
    obtain ⟨r, _, hr, _, _, ht, _, _, ha, h⟩ := h
    obtain ⟨owner, m, hm, code, rfl, rfl⟩ := run_target_eq_ok.mp ht
    obtain ⟨xs, hxs, rfl⟩ := of_arguments iha ha
    cases h
    exact call (ihr hr) hm code hxs
  | staticCall receiver type method args span ihr iha =>
    intro s x t h
    unfold Expr.lower at h
    simp only [run_bind_eq_ok] at h
    obtain ⟨r, _, hr, _, _, ht, _, _, ha, h⟩ := h
    obtain ⟨owner, m, hm, code, rfl, rfl⟩ := run_target_eq_ok.mp ht
    obtain ⟨xs, hxs, rfl⟩ := of_arguments iha ha
    cases h
    exact staticCall (ihr hr) hm code hxs
  | cond test yes no span iht ihy ihn =>
    intro s x t h
    unfold Expr.lower at h
    simp only [run_bind_eq_ok, run_inBranch_eq_ok] at h
    obtain ⟨_, _, ht, _, _, ⟨_, hy, rfl⟩, _, _, ⟨_, hn, rfl⟩, h⟩ := h
    cases h
    exact cond (iht ht) (ihy hy) (ihn hn)
  | loop test body span iht ihb =>
    intro s x t h
    unfold Expr.lower at h
    simp only [run_bind_eq_ok, run_inBranch_eq_ok] at h
    obtain ⟨_, _, hi, _, _, ⟨_, ht, rfl⟩, _, _, ⟨_, hb, rfl⟩, h⟩ := h
    cases hi
    cases h
    exact loop (iht ht) (ihb hb)
  | block body span ih =>
    intro s x t h
    unfold Expr.lower at h
    obtain ⟨_, hb, rfl⟩ := run_inScope_eq_ok.mp h
    obtain ⟨xs, hxs, rfl⟩ := of_block ih (y := env.receiver) hb
    exact block hxs
  | letIn bindings body span ihb ih =>
    intro s x t h
    unfold Expr.lower at h
    simp only [run_inScope_eq_ok, run_bind_eq_ok] at h
    obtain ⟨_, ⟨_, _, hc, _, _, hb, h⟩, rfl⟩ := h
    cases h
    exact letIn (of_bindings ihb hc) (ih hb)
  | case scrutinee arms span =>
    intro s x t h
    unfold Expr.lower at h
    cases h
  | new type span =>
    intro s x t h
    unfold Expr.lower at h
    exact of_newObject h
  | binary op left right span ihl ihr =>
    intro s x t h
    unfold Expr.lower at h
    obtain ⟨_, _, hl, h⟩ := run_bind_eq_ok.mp h
    obtain ⟨_, _, hr, h⟩ := run_bind_eq_ok.mp h
    cases op <;> cases h <;> exact binary (ihl hl) (ihr hr)
  | unary op operand span ih =>
    intro s x t h
    cases op with
    | isVoid =>
      unfold Expr.lower at h
      cases h
    | not =>
      unfold Expr.lower at h
      obtain ⟨_, _, hx, h⟩ := run_bind_eq_ok.mp h
      cases h
      exact not (ih hx)
    | complement =>
      unfold Expr.lower at h
      obtain ⟨_, _, hx, h⟩ := run_bind_eq_ok.mp h
      cases h
      exact complement (ih hx)
  | name name =>
    intro s x t h
    unfold Expr.lower at h
    exact of_readName h
  | group inner span ih =>
    intro s x t h
    unfold Expr.lower at h
    exact group (ih h)
  | int value span =>
    intro s x t h
    unfold Expr.lower at h
    cases h
    exact int
  | string value span =>
    intro s x t h
    unfold Expr.lower at h
    cases h
  | bool value span =>
    intro s x t h
    unfold Expr.lower at h
    cases h
    exact bool

theorem run {e : Expr} {x : Lowered} (h : Lowers env s e x t) : (e.lower env).run s = .ok x t := by
  induction h using Lowers.rec
    (motive_2 := fun s es xs t _ =>
      (lowerArguments env es).run s = .ok (xs.flatMap (·.code), xs.map (·.dest)) t ∧
      ∀ y : Lowered, (lowerBlock env y.code y.dest y.type es).run s =
        .ok ⟨y.code ++ xs.flatMap (·.code), (xs.getLast?.getD y).dest, (xs.getLast?.getD y).type⟩ t)
    (motive_3 := fun s bs code t _ => (lowerBindings env bs).run s = .ok code t) with
  | assignLocal _ found ih =>
    unfold Expr.lower
    refine run_bind_eq_ok.mpr ⟨_, _, ih, ?_⟩
    refine run_bind_eq_ok.mpr ⟨_, _, rfl, ?_⟩
    simp only [found]
    rfl
  | assignAttribute _ absent hslot ih =>
    unfold Expr.lower
    refine run_bind_eq_ok.mpr ⟨_, _, ih, ?_⟩
    refine run_bind_eq_ok.mpr ⟨_, _, rfl, ?_⟩
    simp only [absent]
    exact run_bind_eq_ok.mpr
      ⟨_, _, run_attributeAddress_eq_ok.mpr ⟨_, _, hslot, rfl, rfl⟩, rfl⟩
  | selfCall hm code _ ih =>
    unfold Expr.lower
    simp only [run_bind_eq_ok]
    exact ⟨_, _, run_target_eq_ok.mpr ⟨_, _, hm, code, rfl, rfl⟩, _, _, ih.1, rfl⟩
  | call _ hm code _ ihr iha =>
    unfold Expr.lower
    simp only [run_bind_eq_ok]
    exact ⟨_, _, ihr, _, _, run_target_eq_ok.mpr ⟨_, _, hm, code, rfl, rfl⟩, _, _, iha.1, rfl⟩
  | staticCall _ hm code _ ihr iha =>
    unfold Expr.lower
    simp only [run_bind_eq_ok]
    exact ⟨_, _, ihr, _, _, run_target_eq_ok.mpr ⟨_, _, hm, code, rfl, rfl⟩, _, _, iha.1, rfl⟩
  | cond _ _ _ iht ihy ihn =>
    unfold Expr.lower
    simp only [run_bind_eq_ok, run_inBranch_eq_ok]
    exact ⟨_, _, iht, _, _, ⟨_, ihy, rfl⟩, _, _, ⟨_, ihn, rfl⟩, rfl⟩
  | loop _ _ iht ihb =>
    unfold Expr.lower
    simp only [run_bind_eq_ok, run_inBranch_eq_ok]
    exact ⟨_, _, rfl, _, _, ⟨_, iht, rfl⟩, _, _, ⟨_, ihb, rfl⟩, rfl⟩
  | block _ ih =>
    unfold Expr.lower
    exact run_inScope_eq_ok.mpr ⟨_, ih.2 env.receiver, rfl⟩
  | letIn _ _ ihb ih =>
    unfold Expr.lower
    simp only [run_inScope_eq_ok, run_bind_eq_ok]
    exact ⟨_, ⟨_, _, ihb, _, _, ih, rfl⟩, rfl⟩
  | newInt isInt =>
    unfold Expr.lower LowerEnv.newObject
    rw [isInt]
    rfl
  | newBool isBool =>
    unfold Expr.lower LowerEnv.newObject
    rw [isBool]
    rfl
  | newObject hc notInt notBool notString known =>
    unfold Expr.lower LowerEnv.newObject
    split
    · exact absurd (hc.symm.trans ‹_›) notInt
    · exact absurd (hc.symm.trans ‹_›) notBool
    · exact absurd (hc.symm.trans ‹_›) notString
    · subst hc
      simp only [known]
      rfl
  | binary _ _ ihl ihr =>
    unfold Expr.lower
    exact run_bind_eq_ok.mpr ⟨_, _, ihl, run_bind_eq_ok.mpr ⟨_, _, ihr, rfl⟩⟩
  | not _ ih =>
    unfold Expr.lower
    exact run_bind_eq_ok.mpr ⟨_, _, ih, rfl⟩
  | complement _ ih =>
    unfold Expr.lower
    exact run_bind_eq_ok.mpr ⟨_, _, ih, rfl⟩
  | self isSelf =>
    unfold Expr.lower readName
    rw [if_pos isSelf]
    rfl
  | «local» notSelf found =>
    unfold Expr.lower readName
    rw [if_neg (by simp [notSelf])]
    refine run_bind_eq_ok.mpr ⟨_, _, rfl, ?_⟩
    simp only [found]
    rfl
  | «attribute» notSelf absent hslot =>
    unfold Expr.lower readName
    rw [if_neg (by simp [notSelf])]
    refine run_bind_eq_ok.mpr ⟨_, _, rfl, ?_⟩
    simp only [absent]
    exact run_bind_eq_ok.mpr
      ⟨_, _, run_attributeAddress_eq_ok.mpr ⟨_, _, hslot, rfl, rfl⟩, rfl⟩
  | group _ ih =>
    unfold Expr.lower
    exact ih
  | int =>
    unfold Expr.lower
    rfl
  | bool =>
    unfold Expr.lower
    rfl
  | nil => exact ⟨rfl, fun y => by simp; rfl⟩
  | cons _ _ ih ihs =>
    rename_i x xs _ _
    constructor
    · unfold lowerArguments
      simp only [run_bind_eq_ok]
      exact ⟨_, _, ih, _, _, ihs.1, rfl⟩
    · intro y
      unfold lowerBlock
      refine run_bind_eq_ok.mpr ⟨_, _, ih, ?_⟩
      rw [ihs.2 ⟨y.code ++ x.code, x.dest, x.type⟩, List.getLast?_cons]
      cases xs.getLast? <;> simp
  | empty =>
    unfold lowerBindings
    rfl
  | init _ _ ihv ih =>
    unfold lowerBindings
    simp only [run_bind_eq_ok]
    exact ⟨_, _, ihv, _, _, rfl, _, _, ih, rfl⟩
  | default _ ih =>
    unfold lowerBindings
    simp only [run_bind_eq_ok]
    exact ⟨_, _, rfl, _, _, ih, rfl⟩

theorem unique {e : Expr} {x y : Lowered} (h : Lowers env s e x t) (h' : Lowers env s e y u) :
    x = y ∧ t = u := by
  have same := h.run.symm.trans h'.run
  cases same
  exact ⟨rfl, rfl⟩

end Lowers

namespace LowersAll

variable {env : LowerEnv} {s t u : FunctionState} {es : List Expr} {xs ys : List Lowered}

theorem unique (h : LowersAll env s es xs t) (h' : LowersAll env s es ys u) : xs = ys ∧ t = u := by
  induction es generalizing s xs ys with
  | nil =>
    cases h
    cases h'
    exact ⟨rfl, rfl⟩
  | cons e es ih =>
    cases h with | cons hx hxs =>
    cases h' with | cons hy hys =>
    obtain ⟨rfl, rfl⟩ := hx.unique hy
    obtain ⟨rfl, rfl⟩ := ih hxs hys
    exact ⟨rfl, rfl⟩

theorem length_eq (h : LowersAll env s es xs t) : es.length = xs.length := by
  induction es generalizing s xs with
  | nil =>
    cases h
    rfl
  | cons e es ih =>
    cases h with | cons _ hxs =>
    exact congrArg (· + 1) (ih hxs)

end LowersAll

end Cool
