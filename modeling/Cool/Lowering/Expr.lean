import Cool.Lowering.Error
import Cool.Lowering.FunctionState

/-!
Code for expressions. The code of an expression leaves its value in a register: that of a
local variable, or a temporary. Operands are computed from left to right.

    attribute           const slot, ptradd, load
    assignment          the value, then id to a local or store to an attribute
    call                receiver, arguments, call of the function of the class that owns the method
    if                  condition, br, and both arms, each with id to the result
    while               the condition behind a label, br, the body, jmp
    let                 first values and defaults in the registers of the locals, then the body
    new                 const size, alloc, call of the constructor
-/
namespace Cool

open Bril (Instr Ty Literal ValueOp EffectOp)

/-- The code of an expression, the register with its value, and its class. -/
structure Lowered where
  code : List Instr
  dest : String
  type : ClassName
deriving DecidableEq, Repr

/-- Generating code within a function. The state is kept when it fails. -/
abbrev Lower := EStateM LoweringError FunctionState

namespace Lower

def temp : Lower String := modifyGet FunctionState.temp

def fresh : Lower Nat := modifyGet FunctionState.fresh

def bind (name : Bytes) (type : ClassName) : Lower String := modifyGet fun s => s.bind name type

/-- Runs `x` between two changes of the state. The second is made also if `x` fails. -/
def within {α : Type} (enter leave : FunctionState → FunctionState) (x : Lower α) : Lower α :=
  fun s => match x.run (enter s) with
    | .ok a t => .ok a (leave t)
    | .error e t => .error e (leave t)

/-- Runs `x` in a scope of its own. -/
def inScope {α : Type} (x : Lower α) : Lower α := within .push .pop x

/-- Runs `x` as code that may run not at all or many times. -/
def inBranch {α : Type} (x : Lower α) : Lower α := within .enterBranch .leaveBranch x

end Lower

/-- The class that code is generated for, and the table it is in. -/
structure LowerEnv where
  table : ClassTable
  self : ClassName

namespace LowerEnv

open Lower
open FunctionState (labelName)

/-- The code for the address of an attribute, the register with it, and the attribute's class. -/
def attributeAddress (env : LowerEnv) (name : Name) : Lower (List Instr × String × ClassName) := do
  match env.table.slot? env.self name.text with
  | none => throw (.unknownName name)
  | some (slot, type) =>
    let offset ← temp
    let addr ← temp
    pure ([.literal offset (.int slot), .compute .ptradd addr .object [selfReg, offset]],
      addr, type.resolve env.self)

/-- A constant in a new register. -/
def constant (value : Literal) (type : ClassName) : Lower Lowered := do
  let dest ← temp
  pure ⟨[.literal dest value], dest, type⟩

/-- The code that gives a variable its first value, if its class has one. -/
def defaultCode (dest : String) (type : ClassName) : List Instr :=
  (type.default?.map (.literal dest)).toList

/-- The value of a variable, from its register or its slot. -/
def readName (env : LowerEnv) (name : Name) : Lower Lowered := do
  if name.isSelf then pure ⟨[], selfReg, env.self⟩
  else match (← get).find? name.text with
    | some x => pure ⟨[], x.reg, x.type⟩
    | none =>
      let (code, addr, type) ← env.attributeAddress name
      let dest ← temp
      pure ⟨code ++ [.compute .load dest type.ty [addr]], dest, type⟩

/-- Gives a variable the value of `v`. -/
def assign (env : LowerEnv) (name : Name) (v : Lowered) : Lower Lowered := do
  match (← get).find? name.text with
  | some x => pure ⟨v.code ++ [.compute .id x.reg x.type.ty [v.dest]], x.reg, v.type⟩
  | none =>
    let (code, addr, _) ← env.attributeAddress name
    pure ⟨v.code ++ code ++ [.perform .store [addr, v.dest]], v.dest, v.type⟩

/-- The built-in methods that have a function. -/
def hasFunction (owner : ClassName) (method : Bytes) : Bool :=
  owner = .io && method == ascii "out_int"

/-- The function of a method that is looked up from class `c`, and the class of its result. -/
def target (env : LowerEnv) (c receiver : ClassName) (method : Name) :
    Lower (String × ClassName) := do
  match env.table.findMethod? c method.text with
  | none => throw (.unknownMethod c method)
  | some (owner, m) =>
    if owner.isBuiltin && !hasFunction owner method.text then
      throw (.unsupported (.builtinMethod owner method.text) method.span)
    else
      pure (owner.memberName method.text, match m.result with
        | .selfType => receiver
        | r => r)

/-- A call of `func`, behind the code of its operands. -/
def finishCall (func : String) (result : ClassName) (code : List Instr) (args : List String) :
    Lower Lowered := do
  let dest ← temp
  pure ⟨code ++ [.call dest result.ty func args], dest, result⟩

/-- A new object. -/
def newObject (env : LowerEnv) (type : TypeName) (span : Span) : Lower Lowered := do
  match type.className.resolve env.self with
  | .builtin .int => constant (.int 0) .int
  | .builtin .bool => constant (.bool false) .bool
  | .builtin .string => throw (.unsupported .stringObject span)
  | c =>
    if !env.table.contains c then throw (.unknownClass c type.span)
    else
      let size ← temp
      let dest ← temp
      let constructor := if c.isBuiltin then []
        else [.call dest .object c.constructorName [dest]]
      modify (·.recordAlloc dest)
      pure ⟨[.literal size (.int (env.table.objectSize c)), .compute .alloc dest .object [size]]
        ++ constructor, dest, c⟩

/-- The operation of a binary operator, and the class of its result. -/
def operation : BinaryOp → ValueOp × ClassName
  | .add => (.add, .int)
  | .subtract => (.sub, .int)
  | .multiply => (.mul, .int)
  | .divide => (.div, .int)
  | .lessThan => (.lt, .bool)
  | .lessEquals => (.le, .bool)
  | .equals => (.eq, .bool)

/-- A conditional from the code of its parts. -/
def finishCond (env : LowerEnv) (test yes no : Lowered) : Lower Lowered := do
  let id ← fresh
  let dest ← temp
  let onYes := labelName "if" "then" id
  let onNo := labelName "if" "else" id
  let exit := labelName "if" "exit" id
  pure ⟨test.code ++ [.br test.dest onYes onNo]
    ++ [.label onYes] ++ yes.code ++ [.compute .id dest yes.type.ty [yes.dest], .jmp exit]
    ++ [.label onNo] ++ no.code ++ [.compute .id dest no.type.ty [no.dest], .jmp exit]
    ++ [.label exit], dest, env.table.join yes.type no.type env.self⟩

/-- A loop from the code of its parts. Its value is that of the last test. -/
def loopCode (id : Nat) (test body : Lowered) : Lowered :=
  let cond := labelName "loop" "cond" id
  let inside := labelName "loop" "body" id
  let exit := labelName "loop" "end" id
  ⟨[.label cond] ++ test.code ++ [.br test.dest inside exit, .label inside] ++ body.code
    ++ [.jmp cond, .label exit], test.dest, .object⟩

end LowerEnv

open Lower LowerEnv

mutual

/-- The code of an expression. -/
def Expr.lower (env : LowerEnv) : Expr → Lower Lowered
  | .assign name value _ => do
    let v ← value.lower env
    env.assign name v
  | .selfCall method args _ => do
    let (func, result) ← env.target env.self env.self method
    let (code, regs) ← lowerArguments env args
    finishCall func result code (selfReg :: regs)
  | .call receiver method args _ => do
    let r ← receiver.lower env
    let (func, result) ← env.target r.type r.type method
    let (code, regs) ← lowerArguments env args
    finishCall func result (r.code ++ code) (r.dest :: regs)
  | .staticCall receiver type method args _ => do
    let r ← receiver.lower env
    let (func, result) ← env.target (type.className.resolve env.self) r.type method
    let (code, regs) ← lowerArguments env args
    finishCall func result (r.code ++ code) (r.dest :: regs)
  | .cond test yes no _ => do
    let t ← test.lower env
    let y ← inBranch (yes.lower env)
    let n ← inBranch (no.lower env)
    env.finishCond t y n
  | .loop test body _ => do
    let id ← fresh
    let t ← inBranch (test.lower env)
    let b ← inBranch (body.lower env)
    pure (loopCode id t b)
  | .block body _ => inScope (lowerBlock env [] selfReg env.self body)
  | .letIn bindings body _ => inScope do
    let code ← lowerBindings env bindings
    let b ← body.lower env
    pure ⟨code ++ b.code, b.dest, b.type⟩
  | .case _ _ span => throw (.unsupported .case span)
  | .new type span => env.newObject type span
  | .binary op left right _ => do
    let l ← left.lower env
    let r ← right.lower env
    let (operation, type) := operation op
    let dest ← temp
    pure ⟨l.code ++ r.code ++ [.compute operation dest type.ty [l.dest, r.dest]], dest, type⟩
  | .unary .isVoid _ span => throw (.unsupported .isVoid span)
  | .unary .not operand _ => do
    let x ← operand.lower env
    let dest ← temp
    pure ⟨x.code ++ [.compute .not dest .bool [x.dest]], dest, .bool⟩
  | .unary .complement operand _ => do
    let x ← operand.lower env
    let zero ← temp
    let dest ← temp
    pure ⟨x.code ++ [.literal zero (.int 0), .compute .sub dest .int [zero, x.dest]], dest, .int⟩
  | .name name => env.readName name
  | .group inner _ => inner.lower env
  | .int value _ => constant (.int value) .int
  | .string _ span => throw (.unsupported .stringLiteral span)
  | .bool value _ => constant (.bool value) .bool

/-- The code of arguments in order, and the registers with their values. -/
def lowerArguments (env : LowerEnv) : List Expr → Lower (List Instr × List String)
  | [] => pure ([], [])
  | e :: es => do
    let x ← e.lower env
    let (code, regs) ← lowerArguments env es
    pure (x.code ++ code, x.dest :: regs)

/-- The code of expressions in order behind `code`, with the value of the last. -/
def lowerBlock (env : LowerEnv) (code : List Instr) (dest : String) (type : ClassName) :
    List Expr → Lower Lowered
  | [] => pure ⟨code, dest, type⟩
  | e :: es => do
    let x ← e.lower env
    lowerBlock env (code ++ x.code) x.dest x.type es

/-- The code that gives the names of a `let` their first values. -/
def lowerBindings (env : LowerEnv) : List (Binding Expr) → Lower (List Instr)
  | [] => pure []
  | ⟨name, type, some init, _⟩ :: rest => do
    let c := type.className.resolve env.self
    let v ← init.lower env
    let reg ← bind name.text c
    let code ← lowerBindings env rest
    pure (v.code ++ [.compute .id reg c.ty [v.dest]] ++ code)
  | ⟨name, type, none, _⟩ :: rest => do
    let c := type.className.resolve env.self
    let reg ← bind name.text c
    let code ← lowerBindings env rest
    pure (defaultCode reg c ++ code)

end

end Cool
