import Cool.Proofs.Bril.Machine
import Cool.Proofs.Typing.Checked

/-!
What expressions over integers, booleans and local variables evaluate to, from left to right. A loop
has no value, nor has a conditional or a block that ends in one.
-/
namespace Cool

open Bril (Arithmetic Literal)

abbrev Store := List (Bytes × Literal)

def Store.assign (name : Bytes) (v : Literal) : Store → Store
  | [] => []
  | (n, w) :: ρ => if n = name then (n, v) :: ρ else (n, w) :: Store.assign name v ρ

def ClassName.startValue? : ClassName → Option Literal
  | .builtin .int => some (.int 0)
  | .builtin .bool => some (.bool false)
  | _ => none

def BinaryOp.eval (A : Arithmetic) : BinaryOp → Literal → Literal → Option Literal
  | .add, .int i, .int j => some (.int (A.add i j))
  | .subtract, .int i, .int j => some (.int (A.sub i j))
  | .multiply, .int i, .int j => some (.int (A.mul i j))
  | .divide, .int i, .int j => (A.div i j).map .int
  | .lessThan, .int i, .int j => some (.bool (i < j))
  | .lessEquals, .int i, .int j => some (.bool (i ≤ j))
  | .equals, .int i, .int j => some (.bool (i = j))
  | .equals, .bool a, .bool b => some (.bool (a = b))
  | _, _, _ => none

def UnaryOp.eval (A : Arithmetic) : UnaryOp → Literal → Option Literal
  | .not, .bool b => some (.bool (!b))
  | .complement, .int i => some (.int (A.neg i))
  | _, _ => none

mutual

/-- An expression takes the variables from `ρ` to `ρ'`, with this value if it has one. -/
inductive Eval (A : Arithmetic) : Store → Expr → Option Literal → Store → Prop where
  | assign {ρ ρ' name value span v} : Eval A ρ value (some v) ρ' →
      Eval A ρ (.assign name value span) (some v) (ρ'.assign name.text v)
  | cond {ρ ρ₁ ρ' test yes no span b v} : Eval A ρ test (some (.bool b)) ρ₁ →
      Eval A ρ₁ (if b then yes else no) v ρ' → Eval A ρ (.cond test yes no span) v ρ'
  | leave {ρ ρ' test body span} : Eval A ρ test (some (.bool false)) ρ' →
      Eval A ρ (.loop test body span) none ρ'
  | again {ρ ρ₁ ρ₂ ρ' test body span v} : Eval A ρ test (some (.bool true)) ρ₁ →
      Eval A ρ₁ body v ρ₂ → Eval A ρ₂ (.loop test body span) none ρ' →
      Eval A ρ (.loop test body span) none ρ'
  | block {ρ ρ' body span v} : EvalAll A ρ body v ρ' → Eval A ρ (.block body span) v ρ'
  | letIn {ρ ρ₁ ρ' bindings body span v} : EvalBindings A ρ bindings ρ₁ → Eval A ρ₁ body v ρ' →
      Eval A ρ (.letIn bindings body span) v (ρ'.drop bindings.length)
  | binary {ρ ρ₁ ρ' op left right span v w r} : Eval A ρ left (some v) ρ₁ →
      Eval A ρ₁ right (some w) ρ' → op.eval A v w = some r →
      Eval A ρ (.binary op left right span) (some r) ρ'
  | unary {ρ ρ' op operand span v r} : Eval A ρ operand (some v) ρ' → op.eval A v = some r →
      Eval A ρ (.unary op operand span) (some r) ρ'
  | name {ρ name v} : ρ.lookup name.text = some v → Eval A ρ (.name name) (some v) ρ
  | group {ρ ρ' inner span v} : Eval A ρ inner v ρ' → Eval A ρ (.group inner span) v ρ'
  | int {ρ value span} : Eval A ρ (.int value span) (some (.int value)) ρ
  | bool {ρ value span} : Eval A ρ (.bool value span) (some (.bool value)) ρ

inductive EvalAll (A : Arithmetic) : Store → List Expr → Option Literal → Store → Prop where
  | last {ρ ρ' e v} : Eval A ρ e v ρ' → EvalAll A ρ [e] v ρ'
  | cons {ρ ρ₁ ρ' e es v w} : Eval A ρ e v ρ₁ → EvalAll A ρ₁ es w ρ' → EvalAll A ρ (e :: es) w ρ'

inductive EvalBindings (A : Arithmetic) : Store → List (Binding Expr) → Store → Prop where
  | empty {ρ} : EvalBindings A ρ [] ρ
  | init {ρ ρ₁ ρ' name type init span rest v} : Eval A ρ init (some v) ρ₁ →
      EvalBindings A ((name.text, v) :: ρ₁) rest ρ' →
      EvalBindings A ρ (⟨name, type, some init, span⟩ :: rest) ρ'
  | start {ρ ρ' name type span rest v} : type.className.startValue? = some v →
      EvalBindings A ((name.text, v) :: ρ) rest ρ' →
      EvalBindings A ρ (⟨name, type, none, span⟩ :: rest) ρ'

end

section Interpreter

variable (A : Arithmetic)

mutual

/-- The value of an expression, if it is found within `n` nested steps. -/
def Expr.eval? : Nat → Store → Expr → Option (Option Literal × Store)
  | 0, _, _ => none
  | n + 1, ρ, .assign name value _ => do
    match ← value.eval? n ρ with
    | (some v, ρ') => some (some v, ρ'.assign name.text v)
    | _ => none
  | n + 1, ρ, .cond test yes no _ => do
    match ← test.eval? n ρ with
    | (some (.bool b), ρ₁) => Expr.eval? n ρ₁ (if b then yes else no)
    | _ => none
  | n + 1, ρ, .loop test body span => do
    match ← test.eval? n ρ with
    | (some (.bool false), ρ') => some (none, ρ')
    | (some (.bool true), ρ₁) =>
      let (_, ρ₂) ← body.eval? n ρ₁
      match ← Expr.eval? n ρ₂ (.loop test body span) with
      | (none, ρ') => some (none, ρ')
      | _ => none
    | _ => none
  | n + 1, ρ, .block body _ => evalAll? n ρ body
  | n + 1, ρ, .letIn bindings body _ => do
    let ρ₁ ← evalBindings? n ρ bindings
    let (v, ρ') ← body.eval? n ρ₁
    some (v, ρ'.drop bindings.length)
  | n + 1, ρ, .binary op left right _ => do
    match ← left.eval? n ρ with
    | (some v, ρ₁) => match ← right.eval? n ρ₁ with
      | (some w, ρ') => (op.eval A v w).map fun r => (some r, ρ')
      | _ => none
    | _ => none
  | n + 1, ρ, .unary op operand _ => do
    match ← operand.eval? n ρ with
    | (some v, ρ') => (op.eval A v).map fun r => (some r, ρ')
    | _ => none
  | _ + 1, ρ, .name name => (ρ.lookup name.text).map fun v => (some v, ρ)
  | n + 1, ρ, .group inner _ => inner.eval? n ρ
  | _ + 1, ρ, .int value _ => some (some (.int value), ρ)
  | _ + 1, ρ, .bool value _ => some (some (.bool value), ρ)
  | _ + 1, _, _ => none

def evalAll? : Nat → Store → List Expr → Option (Option Literal × Store)
  | n + 1, ρ, [e] => e.eval? n ρ
  | n + 1, ρ, e :: es => do
    let (_, ρ₁) ← e.eval? n ρ
    evalAll? n ρ₁ es
  | _, _, _ => none

def evalBindings? : Nat → Store → List (Binding Expr) → Option Store
  | _ + 1, ρ, [] => some ρ
  | n + 1, ρ, ⟨name, _, some init, _⟩ :: rest => do
    match ← init.eval? n ρ with
    | (some v, ρ₁) => evalBindings? n ((name.text, v) :: ρ₁) rest
    | _ => none
  | n + 1, ρ, ⟨name, type, none, _⟩ :: rest => do
    let v ← type.className.startValue?
    evalBindings? n ((name.text, v) :: ρ) rest
  | 0, _, _ => none

end

variable {A}

/-- What the interpreter finds is what an expression evaluates to. -/
theorem Expr.eval?_sound (n : Nat) :
    (∀ {ρ e v ρ'}, Expr.eval? A n ρ e = some (v, ρ') → Eval A ρ e v ρ') ∧
    (∀ {ρ es v ρ'}, evalAll? A n ρ es = some (v, ρ') → EvalAll A ρ es v ρ') ∧
    (∀ {ρ bs ρ'}, evalBindings? A n ρ bs = some ρ' → EvalBindings A ρ bs ρ') := by
  induction n with
  | zero =>
    refine ⟨fun h => ?_, fun h => ?_, fun h => ?_⟩
    · simp [Expr.eval?] at h
    · simp [evalAll?] at h
    · simp [evalBindings?] at h
  | succ n ih =>
    obtain ⟨ih, ihAll, ihBindings⟩ := ih
    refine ⟨fun {ρ e v ρ'} h => ?_, fun {ρ es v ρ'} h => ?_, fun {ρ bs ρ'} h => ?_⟩
    · cases e with
      | assign name value span =>
        simp only [Expr.eval?, Option.bind_eq_bind, Option.bind_eq_some_iff] at h
        obtain ⟨⟨_ | w, ρ₁⟩, hv, h⟩ := h <;> cases h
        exact .assign (ih hv)
      | cond test yes no span =>
        simp only [Expr.eval?, Option.bind_eq_bind, Option.bind_eq_some_iff] at h
        obtain ⟨⟨_ | _ | b, ρ₁⟩, ht, h⟩ := h
        · cases h
        · cases h
        · exact .cond (ih ht) (ih h)
      | loop test body span =>
        simp only [Expr.eval?, Option.bind_eq_bind, Option.bind_eq_some_iff] at h
        obtain ⟨⟨_ | _ | _ | _, ρ₁⟩, ht, h⟩ := h
        · cases h
        · cases h
        · cases h
          exact .leave (ih ht)
        · simp only [Option.bind_eq_some_iff] at h
          obtain ⟨⟨w, ρ₂⟩, hb, ⟨_ | _, ρ₃⟩, hl, h⟩ := h <;> cases h
          exact .again (ih ht) (ih hb) (ih hl)
      | block body span => exact .block (ihAll h)
      | letIn bindings body span =>
        simp only [Expr.eval?, Option.bind_eq_bind, Option.bind_eq_some_iff] at h
        obtain ⟨ρ₁, hb, ⟨w, ρ₂⟩, hx, h⟩ := h
        cases h
        exact .letIn (ihBindings hb) (ih hx)
      | binary op left right span =>
        simp only [Expr.eval?, Option.bind_eq_bind, Option.bind_eq_some_iff] at h
        obtain ⟨⟨_ | a, ρ₁⟩, hl, h⟩ := h
        · cases h
        simp only [Option.bind_eq_some_iff] at h
        obtain ⟨⟨_ | b, ρ₂⟩, hr, h⟩ := h
        · cases h
        obtain ⟨r, hop, h⟩ := Option.map_eq_some_iff.mp h
        cases h
        exact .binary (ih hl) (ih hr) hop
      | unary op operand span =>
        simp only [Expr.eval?, Option.bind_eq_bind, Option.bind_eq_some_iff] at h
        obtain ⟨⟨_ | a, ρ₁⟩, hx, h⟩ := h
        · cases h
        obtain ⟨r, hop, h⟩ := Option.map_eq_some_iff.mp h
        cases h
        exact .unary (ih hx) hop
      | name name =>
        obtain ⟨v, found, h⟩ := Option.map_eq_some_iff.mp h
        cases h
        exact .name found
      | group inner span => exact .group (ih h)
      | int value span =>
        cases h
        exact .int
      | bool value span =>
        cases h
        exact .bool
      | selfCall | call | staticCall | case | new | string => cases h
    · cases es with
      | nil => simp [evalAll?] at h
      | cons e es =>
        cases es with
        | nil => exact .last (ih h)
        | cons e' es =>
          simp only [evalAll?, Option.bind_eq_bind, Option.bind_eq_some_iff] at h
          obtain ⟨⟨w, ρ₁⟩, hx, h⟩ := h
          exact .cons (ih hx) (ihAll h)
    · cases bs with
      | nil =>
        cases h
        exact .empty
      | cons b bs =>
        obtain ⟨name, type, init, span⟩ := b
        cases init with
        | none =>
          simp only [evalBindings?, Option.bind_eq_bind, Option.bind_eq_some_iff] at h
          obtain ⟨v, hv, h⟩ := h
          exact .start hv (ihBindings h)
        | some init =>
          simp only [evalBindings?, Option.bind_eq_bind, Option.bind_eq_some_iff] at h
          obtain ⟨⟨_ | w, ρ₁⟩, hv, h⟩ := h
          · cases h
          · exact .init (ih hv) (ihBindings h)

end Interpreter

theorem Env.join_object_left (env : Env) (c : ClassName) : env.join .object c = .object := by
  unfold Env.join ClassTable.join
  simp only [show ClassName.object.resolve env.self = .object from rfl]
  split
  · rfl
  · rw [if_pos (by rfl)]

theorem Env.join_object_right (env : Env) (c : ClassName) : env.join c .object = .object := by
  unfold Env.join ClassTable.join
  simp only [show ClassName.object.resolve env.self = .object from rfl]
  split
  · assumption
  · rw [if_pos (by simp [ClassName.isBuiltin, ClassName.object])]

theorem Eval.type_of_none {A : Arithmetic} {ρ ρ' : Store} {e : Expr} {env : Env} {T : ClassName}
    (h : Eval A ρ e none ρ') (typed : Typed env e T) : T = .object := by
  generalize value : (none : Option Literal) = v at h
  induction h using Eval.rec
    (motive_2 := fun _ es v _ _ => none = v → ∀ env Ts, List.Forall₂ (Typed env) es Ts →
      ∀ last, Ts.getLast?.getD last = .object)
    (motive_3 := fun _ _ _ _ => True) generalizing env T with
  | assign | binary | unary | name | int | bool => cases value
  | @cond _ _ _ _ _ _ _ b _ _ _ _ ih =>
    obtain ⟨_, y, n, hy, hn, rfl⟩ := typed.cond
    cases b with
    | true => rw [ih hy value, Env.join_object_left]
    | false => rw [ih hn value, Env.join_object_right]
  | leave | again => exact typed.loop.2.2
  | block _ ih =>
    obtain ⟨Ts, all, rfl⟩ := typed.block
    exact ih value env.push Ts all .object
  | letIn _ _ _ ih =>
    obtain ⟨inner, _, hT⟩ := typed.letIn
    exact ih hT value
  | group _ ih => exact ih typed.group value
  | last _ ih value env Ts all last =>
    cases all with | cons hT rest =>
    cases rest
    exact ih hT value
  | cons _ rest _ ih value env Ts all last =>
    cases all with | @cons _ T _ Ts hT all =>
    rw [List.getLast?_cons, Option.getD_some]
    exact ih value env Ts all T
  | empty | init | start => trivial

end Cool
