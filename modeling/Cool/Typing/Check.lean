import Cool.Class.Build
import Cool.Scopes

/-!
Checking the types of a program. Expressions are typed from the inside out and from left to right,
and the first fault is the answer. Local names hide attributes of the class, save that a `let` may
not hide anything.
-/
namespace Cool

/-- What an expression sees: the classes, the class it stands in, and the local names. -/
structure Env where
  table : ClassTable
  self : ClassName
  locals : Scopes ClassName

namespace Env

def resolve (env : Env) (c : ClassName) : ClassName := c.resolve env.self

def push (env : Env) : Env := { env with locals := env.locals.push }

def bind (env : Env) (name : Bytes) (type : ClassName) : Env :=
  { env with locals := env.locals.bind name type }

/-- Refuses a class that is not known. -/
def checkExists (env : Env) (c : ClassName) (span : Span) : Except TypeError Unit :=
  if env.table.contains (env.resolve c) then .ok ()
  else .error (.undefinedClass (env.resolve c) span)

/-- Refuses a value of class `sub` where one of class `sup` has to stand. -/
def checkAssignable (env : Env) (sub sup : ClassName) (span : Span) : Except TypeError Unit := do
  env.checkExists sub span
  env.checkExists sup span
  if env.table.conforms sub sup env.self then .ok ()
  else .error (.notAssignable span (env.resolve sub) (env.resolve sup))

def join (env : Env) (a b : ClassName) : ClassName := env.table.join a b env.self

/-- The type of a local name or an attribute. -/
def typeOf? (env : Env) (name : Bytes) : Option ClassName :=
  match env.locals.find? name with
  | some t => some (env.resolve t)
  | none => (env.table.findAttribute? env.self name).map fun (_, t) => env.resolve t

/-- Refuses a `let` name that is taken. -/
def checkFree (env : Env) (name : Name) : Except TypeError Unit :=
  let owner := (env.table.findAttribute? env.self name.text).map Prod.fst
  if name.isSelf || env.locals.isBound name.text || owner.isSome then
    .error (.duplicateAttribute name (owner.any (· ≠ env.self)))
  else .ok ()

/-- The class of a value of type `t` that an expression of type `receiver` returns. -/
def resultOf (receiver t : ClassName) : ClassName :=
  match t with
  | .selfType => receiver
  | _ => t

/-- The type of a method, found from the class `c`, that takes `count` arguments. -/
def methodFor (env : Env) (c : ClassName) (method : Name) (count : Nat) (span : Span) :
    Except TypeError MethodType :=
  match env.table.findMethod? c method.text with
  | none => .error (.undefinedMethod c method)
  | some (_, m) =>
    if m.params.length = count then .ok m
    else .error (.argumentCountMismatch span m.params.length count)

/-- Refuses an argument whose type does not fit the parameter's. -/
def checkArgument (env : Env) (arg param : ClassName) (span : Span) : Except TypeError Unit := do
  env.checkExists param span
  if env.table.conforms arg param env.self then .ok ()
  else .error (.argumentTypeMismatch span (env.resolve param) (env.resolve arg))

end Env

/-- The type of a comparison or an arithmetic operation on operands that have been typed. -/
def BinaryOp.check (env : Env) (op : BinaryOp) (left right : ClassName)
    (leftSpan rightSpan span : Span) : Except TypeError ClassName := do
  if op ≠ .equals then
    env.checkAssignable left .int leftSpan
    env.checkAssignable right .int rightSpan
  if !op.isComparison then .ok .int
  else
    let l := env.resolve left
    let r := env.resolve right
    if (l.isPrimitive || r.isPrimitive) && l ≠ r then .error (.illegalComparison span l r)
    else .ok .bool

mutual

/-- The type of an expression. -/
def Expr.check (env : Env) : Expr → Except TypeError ClassName
  | .assign name value _ => do
    match env.typeOf? name.text with
    | none => .error (.undefinedIdentifier name)
    | some declared =>
      if name.isSelf then .error (.undefinedIdentifier name)
      else
        let t ← value.check env
        env.checkAssignable t declared value.span
        .ok declared
  | .selfCall method args span => do
    env.checkExists env.self method.span
    let m ← env.methodFor env.self method args.length span
    checkArguments env args m.params
    .ok (Env.resultOf .selfType m.result)
  | .call receiver method args span => do
    let t ← receiver.check env
    env.checkExists (env.resolve t) receiver.span
    let m ← env.methodFor (env.resolve t) method args.length span
    checkArguments env args m.params
    .ok (Env.resultOf t m.result)
  | .staticCall receiver type method args span => do
    let t ← receiver.check env
    env.checkExists type.className type.span
    env.checkAssignable t type.className receiver.span
    env.checkExists (env.resolve type.className) receiver.span
    let m ← env.methodFor (env.resolve type.className) method args.length span
    checkArguments env args m.params
    .ok (Env.resultOf t m.result)
  | .cond test yes no _ => do
    let t ← test.check env
    env.checkAssignable t .bool test.span
    let y ← yes.check env
    let n ← no.check env
    .ok (env.join y n)
  | .loop test body _ => do
    let t ← test.check env
    env.checkAssignable t .bool test.span
    let _ ← body.check env
    .ok .object
  | .block body _ => checkBlock env.push .object body
  | .letIn bindings body _ => do
    let inner ← checkBindings env.push bindings
    body.check inner
  | .case scrutinee arms span => do
    if arms.isEmpty then .error (.missingCaseBranch span)
    else
      let _ ← scrutinee.check env
      let types ← checkArms env arms
      .ok (match types with
        | [] => .object
        | t :: ts => ts.foldl env.join t)
  | .new type _ => do
    env.checkExists type.className type.span
    .ok type.className
  | .binary op left right span => do
    let l ← left.check env
    let r ← right.check env
    op.check env l r left.span right.span span
  | .unary op operand _ => do
    let t ← operand.check env
    match op with
    | .not => env.checkAssignable t .bool operand.span; .ok .bool
    | .complement => env.checkAssignable t .int operand.span; .ok .int
    | .isVoid => .ok .bool
  | .name name =>
    if name.isSelf then .ok env.self
    else match env.typeOf? name.text with
      | some t => .ok t
      | none => .error (.undefinedIdentifier name)
  | .group inner _ => inner.check env
  | .int value span =>
    if -0x80000000 ≤ value && value < 0x80000000 then .ok .int
    else .error (.intOutOfRange span value)
  | .string value span => if Utf8.isValid value then .ok .string else .error (.invalidUtf8 span)
  | .bool _ _ => .ok .bool

/-- Arguments against the types of the parameters, in order. -/
def checkArguments (env : Env) : List Expr → List ClassName → Except TypeError Unit
  | arg :: args, param :: params => do
    let t ← arg.check env
    env.checkArgument t param arg.span
    checkArguments env args params
  | _, _ => .ok ()

/-- The type of the last of some expressions, or `last` if there is none. -/
def checkBlock (env : Env) (last : ClassName) : List Expr → Except TypeError ClassName
  | [] => .ok last
  | e :: es => do
    let t ← e.check env
    checkBlock env t es

/-- The names of a `let` in order, each visible to those after it. -/
def checkBindings (env : Env) : List (Binding Expr) → Except TypeError Env
  | [] => .ok env
  | ⟨name, type, init, _⟩ :: rest => do
    env.checkExists type.className type.span
    env.checkFree name
    match init with
    | some e =>
      let t ← e.check env
      env.checkAssignable t type.className e.span
    | none => pure ()
    checkBindings (env.bind name.text type.className) rest

/-- The types of the arms of a case. -/
def checkArms (env : Env) : List (CaseArm Expr) → Except TypeError (List ClassName)
  | [] => .ok []
  | ⟨name, type, body, _⟩ :: rest => do
    env.checkExists type.className type.span
    let t ← body.check (env.push.bind name.text type.className)
    let ts ← checkArms env rest
    .ok (t :: ts)

end

/-- The environment of a method's body: its parameters, no two of one name. -/
def checkParams (env : Env) (seen : List Bytes) : List Formal → Except TypeError Env
  | [] => .ok env
  | p :: ps => do
    env.checkExists p.type.className p.type.span
    if seen.contains p.name.text then .error (.duplicateAttribute p.name false)
    else checkParams (env.bind p.name.text p.type.className) (p.name.text :: seen) ps

def Method.check (env : Env) (m : Method) : Except TypeError Unit := do
  let inner ← checkParams env.push [] m.params
  let t ← m.body.check inner
  inner.checkAssignable t m.result.className m.body.span

def Attribute.check (env : Env) (a : Attribute) : Except TypeError Unit :=
  match a.init with
  | none => .ok ()
  | some e => do
    let t ← e.check env
    env.checkAssignable t a.type.className e.span

def Feature.check (env : Env) : Feature → Except TypeError Unit
  | .method m => m.check env
  | .attribute a => Attribute.check env a

def ClassDecl.check (table : ClassTable) (c : ClassDecl) : Except TypeError Unit :=
  c.features.forM (Feature.check ⟨table, c.className, .empty⟩)

namespace ClassTable

/-- Enters an attribute of a class into the table. What was entered before stays when it is
refused. -/
def enterAttribute (c : ClassName) (a : Attribute) : EStateM TypeError ClassTable Unit := do
  let t ← get
  let type := a.type.className
  if type ≠ .selfType && !t.contains type then throw (.undefinedClass type a.type.span)
  match t.findAttribute? c a.name.text with
  | some (owner, _) => throw (.duplicateAttribute a.name (owner ≠ c))
  | none => set ((t.addAttribute? c a.name.text type).getD t)

/-- Enters the attributes of all classes, those of parents first. -/
def enterAttributes (classes : List ClassDecl) : EStateM TypeError ClassTable Unit := do
  (hierarchyOrder (← get) classes).forM fun c =>
    c.attributes.forM (enterAttribute c.className)

/-- Enters the attributes of all classes and checks the classes in order. -/
def check (classes : List ClassDecl) : EStateM TypeError ClassTable Unit := do
  enterAttributes classes
  let t ← get
  match classes.forM (ClassDecl.check t) with
  | .ok () => pure ()
  | .error e => throw e

end ClassTable

/-- The class table of a program whose types are right. -/
def typecheck (classes : List ClassDecl) : Except TypeError ClassTable := do
  let t ← ClassTable.build classes
  match (ClassTable.check classes).run t with
  | .ok () t => .ok t
  | .error e _ => .error e

end Cool
