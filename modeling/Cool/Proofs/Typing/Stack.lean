import Cool.Proofs.Typing.Places

/-!
Checking with one stack of bindings that is changed in place. Scopes are opened where names are
bound and closed behind them, also where a fault is found within. So every expression leaves the
stack as it found it, and has the type or the fault that it has where the names are passed down.
-/
namespace Cool

/-- Checking within a class, with the bindings that are open. They are kept when it fails. -/
abbrev Checking := EStateM TypeError (Scopes ClassName)

def Env.seeing (env : Env) (locals : Scopes ClassName) : Env := { env with locals := locals }

namespace Checking

variable {α β : Type}

def ask (env : Env) (question : Env → Except TypeError α) : Checking α := fun s =>
  match question (env.seeing s) with
  | .ok a => .ok a s
  | .error e => .error e s

def bind (name : Bytes) (type : ClassName) : Checking Unit := modify fun s => s.bind name type

/-- Runs `x` in a scope of its own, which is closed also if `x` fails. -/
def inScope (x : Checking α) : Checking α := fun s =>
  match x.run s.push with
  | .ok a t => .ok a t.pop
  | .error e t => .error e t.pop

end Checking

open Checking

mutual

def Expr.checkOn (env : Env) : Expr → Checking ClassName
  | .assign name value _ => do
    match ← ask env fun env => .ok (env.typeOf? name.text) with
    | none => throw (.undefinedIdentifier name)
    | some declared =>
      if name.isSelf then throw (.undefinedIdentifier name)
      else
        let t ← value.checkOn env
        ask env (·.checkAssignable t declared value.span)
        pure declared
  | .selfCall method args span => do
    ask env (·.checkExists env.self method.span)
    let m ← ask env (·.methodFor env.self method args.length span)
    checkArgumentsOn env args m.params
    pure (Env.resultOf .selfType m.result)
  | .call receiver method args span => do
    let t ← receiver.checkOn env
    ask env (·.checkExists (env.resolve t) receiver.span)
    let m ← ask env (·.methodFor (env.resolve t) method args.length span)
    checkArgumentsOn env args m.params
    pure (Env.resultOf t m.result)
  | .staticCall receiver type method args span => do
    let t ← receiver.checkOn env
    ask env (·.checkExists type.className type.span)
    ask env (·.checkAssignable t type.className receiver.span)
    ask env (·.checkExists (env.resolve type.className) receiver.span)
    let m ← ask env (·.methodFor (env.resolve type.className) method args.length span)
    checkArgumentsOn env args m.params
    pure (Env.resultOf t m.result)
  | .cond test yes no _ => do
    let t ← test.checkOn env
    ask env (·.checkAssignable t .bool test.span)
    let y ← yes.checkOn env
    let n ← no.checkOn env
    pure (env.join y n)
  | .loop test body _ => do
    let t ← test.checkOn env
    ask env (·.checkAssignable t .bool test.span)
    let _ ← body.checkOn env
    pure .object
  | .block body _ => inScope (checkBlockOn env .object body)
  | .letIn bindings body _ => inScope do
    checkBindingsOn env bindings
    body.checkOn env
  | .case scrutinee arms span => do
    if arms.isEmpty then throw (.missingCaseBranch span)
    else
      let _ ← scrutinee.checkOn env
      let types ← checkArmsOn env arms
      pure (match types with
        | [] => .object
        | t :: ts => ts.foldl env.join t)
  | .new type _ => do
    ask env (·.checkExists type.className type.span)
    pure type.className
  | .binary op left right span => do
    let l ← left.checkOn env
    let r ← right.checkOn env
    ask env fun env => op.check env l r left.span right.span span
  | .unary op operand _ => do
    let t ← operand.checkOn env
    match op with
    | .not => ask env (·.checkAssignable t .bool operand.span); pure .bool
    | .complement => ask env (·.checkAssignable t .int operand.span); pure .int
    | .isVoid => pure .bool
  | .name name =>
    ask env fun env => (Expr.name name).check env
  | .group inner _ => inner.checkOn env
  | .int value span => ask env fun env => (Expr.int value span).check env
  | .string value span => ask env fun env => (Expr.string value span).check env
  | .bool _ _ => pure .bool

def checkArgumentsOn (env : Env) : List Expr → List ClassName → Checking Unit
  | arg :: args, param :: params => do
    let t ← arg.checkOn env
    ask env (·.checkArgument t param arg.span)
    checkArgumentsOn env args params
  | _, _ => pure ()

def checkBlockOn (env : Env) (last : ClassName) : List Expr → Checking ClassName
  | [] => pure last
  | e :: es => do
    let t ← e.checkOn env
    checkBlockOn env t es

def checkBindingsOn (env : Env) : List (Binding Expr) → Checking Unit
  | [] => pure ()
  | ⟨name, type, init, _⟩ :: rest => do
    ask env (·.checkExists type.className type.span)
    ask env (·.checkFree name)
    match init with
    | some e =>
      let t ← e.checkOn env
      ask env (·.checkAssignable t type.className e.span)
    | none => pure ()
    bind name.text type.className
    checkBindingsOn env rest

def checkArmsOn (env : Env) : List (CaseArm Expr) → Checking (List ClassName)
  | [] => pure []
  | ⟨name, type, body, _⟩ :: rest => do
    let t ← inScope do
      ask env (·.checkExists type.className type.span)
      bind name.text type.className
      body.checkOn env
    let ts ← checkArmsOn env rest
    pure (t :: ts)

end

def checkParamsOn (env : Env) (seen : List Bytes) : List Formal → Checking Unit
  | [] => pure ()
  | p :: ps => do
    ask env (·.checkExists p.type.className p.type.span)
    if seen.contains p.name.text then throw (.duplicateAttribute p.name false)
    else
      bind p.name.text p.type.className
      checkParamsOn env (p.name.text :: seen) ps

def Method.checkOn (env : Env) (m : Method) : Checking Unit := inScope do
  checkParamsOn env [] m.params
  let t ← m.body.checkOn env
  ask env (·.checkAssignable t m.result.className m.body.span)

def Attribute.checkOn (env : Env) (a : Attribute) : Checking Unit :=
  match a.init with
  | none => pure ()
  | some e => do
    let t ← e.checkOn env
    ask env (·.checkAssignable t a.type.className e.span)

def Feature.checkOn (env : Env) : Feature → Checking Unit
  | .method m => m.checkOn env
  | .attribute a => Attribute.checkOn env a

section Mirrors

variable {α β : Type} {env : Env} {L : Scopes ClassName}

def restoring (L : Scopes ClassName) :
    Except TypeError α → EStateM.Result TypeError (Scopes ClassName) α
  | .ok a => .ok a L
  | .error e => .error e L

/-- Whether `x` has the result `a`, fault or not, and leaves the bindings as they were. -/
def Mirrors (L : Scopes ClassName) (x : Checking α) (a : Except TypeError α) : Prop :=
  x.run L = restoring L a

/-- Whether `x` leaves the bindings that `a` tells, and those of outer scopes as they were. -/
def Binds (L : Scopes ClassName) (x : Checking Unit) : Except TypeError Env → Prop
  | .ok inner => x.run L = .ok () inner.locals ∧ inner.locals.pop = L.pop
  | .error e => ∃ M, x.run L = .error e M ∧ M.pop = L.pop

namespace Mirrors

theorem pure (a : α) : Mirrors L (Pure.pure a) (.ok a) := rfl

theorem throw (e : TypeError) : Mirrors (α := α) L (MonadExcept.throw e) (.error e) := rfl

theorem ask (env : Env) (question : Env → Except TypeError α) :
    Mirrors L (Checking.ask env question) (question (env.seeing L)) := by
  change (match question (env.seeing L) with | .ok a => _ | .error e => _) = _
  cases question (env.seeing L) <;> rfl

theorem bind {x : Checking α} {a : Except TypeError α} {f : α → Checking β}
    {g : α → Except TypeError β} (h : Mirrors L x a) (next : ∀ v, Mirrors L (f v) (g v)) :
    Mirrors L (x >>= f) (a >>= g) := by
  unfold Mirrors at h ⊢
  rw [EStateM.run_bind, h]
  cases a with
  | ok v => exact next v
  | error e => rfl

theorem look (env : Env) (seen : Env → α) {f : α → Checking β} {b : Except TypeError β}
    (next : Mirrors L (f (seen (env.seeing L))) b) :
    Mirrors L (Checking.ask env (fun env => .ok (seen env)) >>= f) b := next

theorem scope {x : Checking α} {a : Except TypeError α} (h : Mirrors L.push x a) :
    Mirrors L (inScope x) a := by
  change (match x.run L.push with | .ok a t => _ | .error e t => _) = _
  rw [h]
  cases a <;> rfl

end Mirrors

namespace Binds

theorem nil : Binds L (pure ()) (.ok (env.seeing L)) := ⟨rfl, rfl⟩

theorem throw (e : TypeError) : Binds L (MonadExcept.throw e) (.error e) := ⟨L, rfl, rfl⟩

theorem after {x : Checking α} {a : Except TypeError α} {f : α → Checking Unit}
    {g : α → Except TypeError Env} (h : Mirrors L x a) (next : ∀ v, Binds L (f v) (g v)) :
    Binds L (x >>= f) (a >>= g) := by
  cases a with
  | ok v =>
    change Binds L (x >>= f) (g v)
    have run : (x >>= f).run L = (f v).run L := by rw [EStateM.run_bind, h]; rfl
    have known := next v
    cases made : g v with
    | ok inner =>
      rw [made] at known
      exact ⟨run.trans known.1, known.2⟩
    | error e =>
      rw [made] at known
      obtain ⟨M, fault, outer⟩ := known
      exact ⟨M, run.trans fault, outer⟩
  | error e => exact ⟨L, by rw [EStateM.run_bind, h]; rfl, rfl⟩

theorem bind {name : Bytes} {type : ClassName} {x : Checking Unit} {a : Except TypeError Env}
    (h : Binds (L.bind name type) x a) : Binds L (Checking.bind name type >>= fun _ => x) a := by
  have outer : (L.bind name type).pop = L.pop := by
    unfold Scopes.bind Scopes.pop
    cases L.frames <;> rfl
  cases a with
  | ok inner => exact ⟨h.1, h.2.trans outer⟩
  | error e => exact ⟨h.choose, h.choose_spec.1, h.choose_spec.2.trans outer⟩

/-- Behind a scope, bindings are what they were before it. -/
theorem scope {x : Checking Unit} {a : Except TypeError Env} {y : Checking β}
    {g : Env → Except TypeError β} (h : Binds L.push x a)
    (next : ∀ inner, a = .ok inner → Mirrors inner.locals y (g inner)) :
    Mirrors L (inScope (x >>= fun _ => y)) (a >>= g) := by
  change (match (x >>= fun _ => y).run L.push with | .ok a t => _ | .error e t => _) = _
  rw [EStateM.run_bind]
  cases a with
  | error e =>
    obtain ⟨M, run, outer⟩ := h
    rw [run]
    exact congrArg (EStateM.Result.error e) outer
  | ok inner =>
    obtain ⟨run, outer⟩ := h
    rw [run]
    have rest := next inner rfl
    change (match y.run inner.locals with | .ok a t => _ | .error e t => _) = restoring L (g inner)
    rw [rest]
    cases g inner with
    | ok b => exact congrArg (EStateM.Result.ok b) outer
    | error e => exact congrArg (EStateM.Result.error e) outer

end Binds

end Mirrors

section Expressions

variable {env : Env}

theorem checkArguments_mirrors {args : List Expr}
    (ih : ∀ a ∈ args, ∀ L, Mirrors L (a.checkOn env) (a.check (env.seeing L)))
    (params : List ClassName) (L : Scopes ClassName) :
    Mirrors L (checkArgumentsOn env args params) (checkArguments (env.seeing L) args params) := by
  induction args generalizing params with
  | nil =>
    unfold checkArgumentsOn checkArguments
    exact .pure ()
  | cons a args rest =>
    rw [List.forall_mem_cons] at ih
    unfold checkArgumentsOn checkArguments
    cases params with
    | nil => exact .pure ()
    | cons p params =>
      exact (ih.1 L).bind fun t => (Mirrors.ask _ _).bind fun _ => rest ih.2 params

theorem checkBlock_mirrors {es : List Expr}
    (ih : ∀ e ∈ es, ∀ L, Mirrors L (e.checkOn env) (e.check (env.seeing L)))
    (last : ClassName) (L : Scopes ClassName) :
    Mirrors L (checkBlockOn env last es) (checkBlock (env.seeing L) last es) := by
  induction es generalizing last with
  | nil =>
    unfold checkBlockOn checkBlock
    exact .pure last
  | cons e es rest =>
    rw [List.forall_mem_cons] at ih
    unfold checkBlockOn checkBlock
    exact (ih.1 L).bind fun t => rest ih.2 t

theorem checkBindings_binds {bindings : List (Binding Expr)}
    (ih : ∀ b ∈ bindings, ∀ e ∈ b.init, ∀ L, Mirrors L (e.checkOn env) (e.check (env.seeing L)))
    (L : Scopes ClassName) :
    Binds L (checkBindingsOn env bindings) (checkBindings (env.seeing L) bindings) := by
  induction bindings generalizing L with
  | nil =>
    unfold checkBindingsOn checkBindings
    exact .nil
  | cons b bindings rest =>
    rw [List.forall_mem_cons] at ih
    obtain ⟨name, type, init, span⟩ := b
    have more : Binds L
        (Checking.bind name.text type.className >>= fun _ => checkBindingsOn env bindings)
        (checkBindings ((env.seeing L).bind name.text type.className) bindings) :=
      .bind (rest ih.2 _)
    unfold checkBindingsOn checkBindings
    cases init with
    | none => exact .after (.ask _ _) fun _ => .after (.ask _ _) fun _ => more
    | some e =>
      exact .after (.ask _ _) fun _ => .after (.ask _ _) fun _ => .after (ih.1 e rfl L) fun t =>
        .after (.ask _ _) fun _ => more

theorem checkArms_mirrors {arms : List (CaseArm Expr)}
    (ih : ∀ a ∈ arms, ∀ L, Mirrors L (a.body.checkOn env) (a.body.check (env.seeing L)))
    (L : Scopes ClassName) :
    Mirrors L (checkArmsOn env arms) (checkArms (env.seeing L) arms) := by
  induction arms with
  | nil =>
    unfold checkArmsOn checkArms
    exact .pure []
  | cons a arms rest =>
    rw [List.forall_mem_cons] at ih
    obtain ⟨name, type, body, span⟩ := a
    have opened : Binds L.push
        (ask env (·.checkExists type.className type.span) >>= fun _ =>
          Checking.bind name.text type.className)
        ((env.seeing L).checkExists type.className type.span >>= fun _ =>
          .ok ((env.seeing L).push.bind name.text type.className)) :=
      .after (.ask _ _) fun _ => .bind .nil
    have closed := opened.scope (g := fun inner => body.check inner) fun inner made => by
      obtain ⟨_, _, made⟩ := bind_eq_ok.mp made
      cases made
      exact ih.1 _
    rw [bind_assoc, bind_assoc] at closed
    have all := closed.bind fun t => (rest ih.2).bind fun ts => .pure (t :: ts)
    rw [bind_assoc] at all
    unfold checkArmsOn checkArms
    exact all

/-- On a stack, an expression has the type or the fault that it has where names are passed down, and
the stack is the same behind it as before. -/
theorem Expr.mirrors (e : Expr) (env : Env) (L : Scopes ClassName) :
    Mirrors L (e.checkOn env) (e.check (env.seeing L)) := by
  induction e generalizing L with
  | assign name value span ih =>
    unfold checkOn check
    refine .look env _ ?_
    cases (env.seeing L).typeOf? name.text with
    | none => exact .throw _
    | some declared =>
      dsimp only
      split
      · exact .throw _
      · exact (ih L).bind fun t => (Mirrors.ask _ _).bind fun _ => .pure _
  | selfCall method args span ih =>
    unfold checkOn check
    exact (Mirrors.ask _ _).bind fun _ => (Mirrors.ask _ _).bind fun m =>
      (checkArguments_mirrors ih m.params L).bind fun _ => .pure _
  | call receiver method args span ihr ih =>
    unfold checkOn check
    exact (ihr L).bind fun t => (Mirrors.ask _ _).bind fun _ => (Mirrors.ask _ _).bind fun m =>
      (checkArguments_mirrors ih m.params L).bind fun _ => .pure _
  | staticCall receiver type method args span ihr ih =>
    unfold checkOn check
    exact (ihr L).bind fun t => (Mirrors.ask _ _).bind fun _ => (Mirrors.ask _ _).bind fun _ =>
      (Mirrors.ask _ _).bind fun _ => (Mirrors.ask _ _).bind fun m =>
      (checkArguments_mirrors ih m.params L).bind fun _ => .pure _
  | cond test yes no span iht ihy ihn =>
    unfold checkOn check
    exact (iht L).bind fun t => (Mirrors.ask _ _).bind fun _ => (ihy L).bind fun y =>
      (ihn L).bind fun n => .pure _
  | loop test body span iht ihb =>
    unfold checkOn check
    exact (iht L).bind fun t => (Mirrors.ask _ _).bind fun _ => (ihb L).bind fun _ => .pure _
  | block body span ih =>
    unfold checkOn check
    exact .scope (checkBlock_mirrors ih .object L.push)
  | letIn bindings body span ihb ih =>
    unfold checkOn check
    refine (checkBindings_binds ihb L.push).scope fun inner made => ?_
    -- The bindings tell what the body sees, and they change nothing else of the environment.
    cases checkBindings_ok made
    exact ih _
  | case scrutinee arms span ihs iha =>
    unfold checkOn check
    split
    · exact .throw _
    · exact (ihs L).bind fun _ => (checkArms_mirrors iha L).bind fun types => .pure _
  | new type span =>
    unfold checkOn check
    exact (Mirrors.ask _ _).bind fun _ => .pure _
  | binary op left right span ihl ihr =>
    unfold checkOn check
    exact (ihl L).bind fun l => (ihr L).bind fun r => .ask _ _
  | unary op operand span ih =>
    unfold checkOn check
    cases op with
    | not | complement => exact (ih L).bind fun t => (Mirrors.ask _ _).bind fun _ => .pure _
    | isVoid => exact (ih L).bind fun t => .pure _
  | group inner span ih =>
    unfold checkOn check
    exact ih L
  | bool value span =>
    unfold checkOn check
    exact .pure _
  | name name | int value span | string value span =>
    unfold checkOn
    exact .ask _ _

end Expressions

section Features

variable {env : Env} {L M : Scopes ClassName}

theorem checkParams_binds (seen : List Bytes) (ps : List Formal) (L : Scopes ClassName) :
    Binds L (checkParamsOn env seen ps) (checkParams (env.seeing L) seen ps) := by
  induction ps generalizing seen L with
  | nil =>
    unfold checkParamsOn checkParams
    exact .nil
  | cons p ps ih =>
    unfold checkParamsOn checkParams
    refine .after (.ask _ _) fun _ => ?_
    split
    · exact .throw _
    · exact .bind (ih _ _)

theorem Feature.mirrors (f : Feature) (env : Env) (L : Scopes ClassName) :
    Mirrors L (f.checkOn env) (f.check (env.seeing L)) := by
  cases f with
  | method m =>
    refine (checkParams_binds [] m.params L.push).scope fun inner made => ?_
    cases checkParams_ok made
    exact (m.body.mirrors env _).bind fun t => .ask _ _
  | «attribute» a =>
    change Mirrors L (Attribute.checkOn env a) (Attribute.check (env.seeing L) a)
    unfold Attribute.checkOn Attribute.check
    cases a.init with
    | none => exact .pure ()
    | some e => exact (e.mirrors env L).bind fun t => .ask _ _

theorem features_mirror (fs : List Feature) (env : Env) (L : Scopes ClassName) :
    Mirrors L (fs.forM (Feature.checkOn env)) (fs.forM (Feature.check (env.seeing L))) := by
  induction fs with
  | nil => exact .pure ()
  | cons f fs ih => exact (f.mirrors env L).bind fun _ => ih

/-- What has been checked without a fault leaves the bindings as they were. -/
theorem Mirrors.eq_of_ok {α : Type} {x : Checking α} {a : Except TypeError α} {v : α}
    (h : Mirrors L x a) (ran : x.run L = .ok v M) : M = L := by
  unfold Mirrors at h
  rw [h] at ran
  cases a <;> cases ran
  rfl

theorem Expr.checkOn_restores {e : Expr} {T : ClassName} (ran : (e.checkOn env).run L = .ok T M) :
    M = L :=
  (e.mirrors env L).eq_of_ok ran

theorem checkArgumentsOn_restores {args : List Expr} {params : List ClassName}
    (ran : (checkArgumentsOn env args params).run L = .ok () M) : M = L :=
  (checkArguments_mirrors (fun a _ => a.mirrors env) params L).eq_of_ok ran

theorem checkBlockOn_restores {es : List Expr} {last T : ClassName}
    (ran : (checkBlockOn env last es).run L = .ok T M) : M = L :=
  (checkBlock_mirrors (fun e _ => e.mirrors env) last L).eq_of_ok ran

theorem features_restore {fs : List Feature}
    (ran : (fs.forM (Feature.checkOn env)).run L = .ok () M) : M = L :=
  (features_mirror fs env L).eq_of_ok ran

theorem Binds.eq_of_ok {x : Checking Unit} {a : Except TypeError Env} (h : Binds L x a)
    (ran : x.run L = .ok () M) : ∃ inner, a = .ok inner ∧ M = inner.locals := by
  cases a with
  | error e =>
    obtain ⟨_, fault, _⟩ := h
    cases ran.symm.trans fault
  | ok inner =>
    cases ran.symm.trans h.1
    exact ⟨inner, rfl, rfl⟩

theorem checkBindingsOn_ok {bindings : List (Binding Expr)}
    (ran : (checkBindingsOn env bindings).run L = .ok () M) : M = L.bindAll bindings := by
  have binds : Binds L (checkBindingsOn env bindings) _ :=
    checkBindings_binds (fun _ _ e _ => e.mirrors env) L
  obtain ⟨_, made, rfl⟩ := binds.eq_of_ok ran
  cases checkBindings_ok made
  rfl

theorem checkParamsOn_ok {seen : List Bytes} {ps : List Formal}
    (ran : (checkParamsOn env seen ps).run L = .ok () M) :
    M = ps.foldl (fun L p => L.bind p.name.text p.type.className) L := by
  obtain ⟨_, made, rfl⟩ := (checkParams_binds seen ps L).eq_of_ok ran
  cases checkParams_ok made
  rfl

end Features

end Cool
