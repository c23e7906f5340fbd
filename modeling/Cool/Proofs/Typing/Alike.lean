import Cool.Proofs.Class.Alike
import Cool.Proofs.Typing.Places

/-!
Checking against tables that hold the same entries. Every question that checking asks has the same
answer in both, so each expression has the same type or the same fault.
-/
namespace Cool

def Env.over (env : Env) (u : ClassTable) : Env := { env with table := u }

namespace Env

variable {env : Env} {u : ClassTable}

theorem checkExists_over (h : env.table.Alike u) : (env.over u).checkExists = env.checkExists := by
  funext c span
  change (if u.contains _ then _ else _) = _
  rw [h.contains]
  rfl

theorem checkAssignable_over (h : env.table.Alike u) :
    (env.over u).checkAssignable = env.checkAssignable := by
  funext sub sup span
  unfold checkAssignable
  rw [checkExists_over h, show (env.over u).table.conforms = env.table.conforms from h.conforms]
  rfl

theorem join_over (h : env.table.Alike u) : (env.over u).join = env.join := by
  funext a b
  unfold join
  rw [show (env.over u).table.join = env.table.join from h.join]
  rfl

theorem typeOf?_over (h : env.table.Alike u) : (env.over u).typeOf? = env.typeOf? := by
  funext name
  unfold typeOf?
  rw [show (env.over u).table.findAttribute? = env.table.findAttribute? from h.findAttribute?]
  rfl

theorem checkFree_over (h : env.table.Alike u) : (env.over u).checkFree = env.checkFree := by
  funext name
  unfold checkFree
  rw [show (env.over u).table.findAttribute? = env.table.findAttribute? from h.findAttribute?]
  rfl

theorem binaryCheck_over (h : env.table.Alike u) (op : BinaryOp) :
    op.check (env.over u) = op.check env := by
  funext left right leftSpan rightSpan span
  unfold BinaryOp.check
  rw [checkAssignable_over h]
  rfl

theorem methodFor_over (h : env.table.Alike u) : (env.over u).methodFor = env.methodFor := by
  funext c method count span
  unfold methodFor
  rw [show (env.over u).table.findMethod? = env.table.findMethod? from h.findMethod?]

theorem checkArgument_over (h : env.table.Alike u) :
    (env.over u).checkArgument = env.checkArgument := by
  funext arg param span
  unfold checkArgument
  rw [checkExists_over h, show (env.over u).table.conforms = env.table.conforms from h.conforms]
  rfl

end Env

section Expressions

variable {env : Env} {u : ClassTable}

def Expr.SameType (u : ClassTable) (e : Expr) : Prop :=
  ∀ env : Env, env.table.Alike u → e.check (env.over u) = e.check env

theorem checkArguments_over (h : env.table.Alike u) {args : List Expr}
    (ih : ∀ a ∈ args, a.SameType u) (params : List ClassName) :
    checkArguments (env.over u) args params = checkArguments env args params := by
  induction args generalizing params with
  | nil => rfl
  | cons a args rest =>
    rw [List.forall_mem_cons] at ih
    cases params with
    | nil => rfl
    | cons p params =>
      simp only [checkArguments]
      rw [ih.1 env h, Env.checkArgument_over h, rest ih.2]

theorem checkBlock_over (h : env.table.Alike u) {es : List Expr} (ih : ∀ e ∈ es, e.SameType u)
    (last : ClassName) : checkBlock (env.over u) last es = checkBlock env last es := by
  induction es generalizing last with
  | nil => rfl
  | cons e es rest =>
    rw [List.forall_mem_cons] at ih
    simp only [checkBlock]
    rw [ih.1 env h]
    simp only [rest ih.2]

theorem checkBindings_over (h : env.table.Alike u) {bindings : List (Binding Expr)}
    (ih : ∀ b ∈ bindings, ∀ e ∈ b.init, e.SameType u) :
    checkBindings (env.over u) bindings = (·.over u) <$> checkBindings env bindings := by
  induction bindings generalizing env with
  | nil => rfl
  | cons b bindings rest =>
    rw [List.forall_mem_cons] at ih
    obtain ⟨name, type, init, span⟩ := b
    have alike : (env.bind name.text type.className).table.Alike u := h
    have more : checkBindings ((env.over u).bind name.text type.className) bindings =
        (·.over u) <$> checkBindings (env.bind name.text type.className) bindings :=
      rest alike ih.2
    cases init with
    | none =>
      simp only [checkBindings, Env.checkExists_over h, Env.checkFree_over h, more, map_bind]
    | some e =>
      simp only [checkBindings, Env.checkExists_over h, Env.checkFree_over h, ih.1 e rfl env h,
        Env.checkAssignable_over h, more, map_bind]

theorem checkArms_over (h : env.table.Alike u) {arms : List (CaseArm Expr)}
    (ih : ∀ a ∈ arms, a.body.SameType u) : checkArms (env.over u) arms = checkArms env arms := by
  induction arms with
  | nil => rfl
  | cons a arms rest =>
    rw [List.forall_mem_cons] at ih
    obtain ⟨name, type, body, span⟩ := a
    have same := ih.1 (env.push.bind name.text type.className) h
    simp only [checkArms, Env.checkExists_over h, rest ih.2]
    rw [show (env.over u).push.bind name.text type.className =
      (env.push.bind name.text type.className).over u from rfl, same]

theorem Expr.sameType (e : Expr) (u : ClassTable) : e.SameType u := by
  induction e with
  | assign name value span ih =>
    intro env h
    simp only [check, Env.typeOf?_over h, ih env h, Env.checkAssignable_over h]
  | selfCall method args span ih =>
    intro env h
    simp only [check, Env.checkExists_over h, Env.methodFor_over h, checkArguments_over h ih]
    rfl
  | call receiver method args span ihr ih =>
    intro env h
    simp only [check, Env.checkExists_over h, Env.methodFor_over h, checkArguments_over h ih,
      ihr env h]
    rfl
  | staticCall receiver type method args span ihr ih =>
    intro env h
    simp only [check, Env.checkExists_over h, Env.methodFor_over h, checkArguments_over h ih,
      ihr env h, Env.checkAssignable_over h]
    rfl
  | cond test yes no span iht ihy ihn =>
    intro env h
    simp only [check, iht env h, ihy env h, ihn env h, Env.checkAssignable_over h, Env.join_over h]
  | loop test body span iht ihb =>
    intro env h
    simp only [check, iht env h, ihb env h, Env.checkAssignable_over h]
  | block body span ih =>
    intro env h
    have alike : env.push.table.Alike u := h
    simp only [check]
    exact checkBlock_over alike ih .object
  | letIn bindings body span ihb ih =>
    intro env h
    have alike : env.push.table.Alike u := h
    have same := checkBindings_over alike ihb
    simp only [check]
    rw [show (env.over u).push = env.push.over u from rfl, same, bind_map_left]
    cases made : checkBindings env.push bindings with
    | error _ => rfl
    | ok inner =>
      cases checkBindings_ok made
      exact ih _ h
  | case scrutinee arms span ihs iha =>
    intro env h
    simp only [check, ihs env h, checkArms_over h iha, Env.join_over h]
  | new type span =>
    intro env h
    simp only [check, Env.checkExists_over h]
  | binary op left right span ihl ihr =>
    intro env h
    simp only [check, ihl env h, ihr env h, Env.binaryCheck_over h]
  | unary op operand span ih =>
    intro env h
    simp only [check, ih env h, Env.checkAssignable_over h]
  | name name =>
    intro env h
    simp only [check, Env.typeOf?_over h]
    rfl
  | group inner span ih =>
    intro env h
    simp only [check, ih env h]
  | int value span | string value span | bool value span =>
    intro env h
    simp only [check]

end Expressions

section Features

variable {env : Env} {u : ClassTable}

theorem checkParams_over (h : env.table.Alike u) (seen : List Bytes) (ps : List Formal) :
    checkParams (env.over u) seen ps = (·.over u) <$> checkParams env seen ps := by
  induction ps generalizing env seen with
  | nil => rfl
  | cons p ps ih =>
    have alike : (env.bind p.name.text p.type.className).table.Alike u := h
    have more := ih alike (p.name.text :: seen)
    simp only [checkParams, Env.checkExists_over h, map_bind]
    split
    · rfl
    · rw [show (env.over u).bind p.name.text p.type.className =
        (env.bind p.name.text p.type.className).over u from rfl, more]

theorem Feature.check_over (h : env.table.Alike u) (f : Feature) :
    f.check (env.over u) = f.check env := by
  cases f with
  | method m =>
    have alike : env.push.table.Alike u := h
    simp only [Feature.check, Method.check]
    rw [show (env.over u).push = env.push.over u from rfl, checkParams_over alike, bind_map_left]
    cases made : checkParams env.push [] m.params with
    | error _ => rfl
    | ok inner =>
      have alike : inner.table.Alike u := by
        cases checkParams_ok made
        exact h
      change (m.body.check (inner.over u) >>= fun t => (inner.over u).checkAssignable t _ _) =
        (m.body.check inner >>= fun t => inner.checkAssignable t _ _)
      rw [m.body.sameType u inner alike, Env.checkAssignable_over alike]
  | «attribute» a =>
    simp only [Feature.check, Attribute.check]
    cases a.init with
    | none => rfl
    | some e => simp only [e.sameType u env h, Env.checkAssignable_over h]

theorem ClassDecl.check_alike {t u : ClassTable} (h : t.Alike u) (c : ClassDecl) :
    c.check u = c.check t := by
  have alike : (Env.mk t c.className .empty).table.Alike u := h
  have same : Feature.check ⟨u, c.className, .empty⟩ = Feature.check ⟨t, c.className, .empty⟩ :=
    funext (Feature.check_over alike)
  unfold ClassDecl.check
  rw [same]

end Features

end Cool
