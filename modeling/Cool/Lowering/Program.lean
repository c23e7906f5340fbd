import Cool.Lowering.Expr

/-!
Code for programs: the functions of the built-in methods, and for every class, parents first, a
constructor and its methods. The method that a program starts with becomes the function `main`,
which allocates its receiver and frees what it has allocated.
-/
namespace Cool

open Bril (Instr Ty Literal Function Param)

/-- The method that a program starts with, and its class. -/
structure Entry where
  className : Bytes
  method : Bytes
deriving DecidableEq, Repr

def Entry.default : Entry := ⟨ascii "Main", ascii "main"⟩

namespace LowerEnv

open Lower

/-- The first value of an attribute, if it gets one: the code of it and the register it is in. A
class without a default value leaves its temporary unused. -/
def initialValue (env : LowerEnv) (a : Attribute) : Lower (Option (List Instr × String)) := do
  match a.init with
  | some e =>
    let v ← e.lower env
    pure (some (v.code, v.dest))
  | none =>
    let dest ← temp
    pure ((a.type.className.resolve env.self).default?.map fun v => ([.literal dest v], dest))

/-- The code that sets an attribute to its first value. -/
def setAttribute (env : LowerEnv) (a : Attribute) : Lower (List Instr) := do
  match ← env.initialValue a with
  | none => pure []
  | some (code, value) =>
    let (address, addr, _) ← env.attributeAddress a.name
    pure (code ++ address ++ [.perform .store [addr, value]])

/-- The code of the attributes of a class, in the order of their declaration. -/
def setAttributes (env : LowerEnv) : List Attribute → Lower (List Instr)
  | [] => pure []
  | a :: rest => do
    let code ← env.setAttribute a
    let more ← env.setAttributes rest
    pure (code ++ more)

/-- The call of a parent's constructor, if the parent is not built in. -/
def parentCall (entry : ClassEntry) : Lower (List Instr) := do
  match entry.parent with
  | none => pure []
  | some p =>
    if p.isBuiltin then pure []
    else
      let dest ← temp
      pure [.call dest .object p.constructorName [selfReg]]

/-- The constructor of a class: the parent's constructor first, then its own attributes. -/
def constructor (env : LowerEnv) (c : ClassDecl) : Lower Function := do
  match env.table.get? env.self with
  | none => throw (.unknownClass env.self c.name.span)
  | some entry =>
    let call ← parentCall entry
    let code ← env.setAttributes c.attributes
    pure ⟨env.self.constructorName, [⟨selfReg, .object⟩], some .object,
      call ++ code ++ [.ret (some selfReg)]⟩

/-- Binds the parameters of a method in order, and tells their registers and types. -/
def bindParams (env : LowerEnv) : List Formal → Lower (List Param)
  | [] => pure []
  | p :: ps => do
    let c := p.type.className.resolve env.self
    let reg ← bind p.name.text c
    let more ← env.bindParams ps
    pure (⟨reg, c.ty⟩ :: more)

/-- The function of a method. -/
def method (env : LowerEnv) (m : Method) : Lower Function := do
  let params ← env.bindParams m.params
  let body ← m.body.lower env
  pure ⟨env.self.memberName m.name.text, ⟨selfReg, .object⟩ :: params,
    some (m.result.className.resolve env.self).ty, body.code ++ [.ret (some body.dest)]⟩

/-- The function that a program starts with. Its parameters are not bound, for nothing calls it. -/
def entry (env : LowerEnv) (m : Method) : Lower Function := do
  let size ← temp
  let body ← m.body.lower env
  let pending ← modifyGet FunctionState.takePending
  pure ⟨entryName, [], none,
    [.literal size (.int (env.table.objectSize env.self)),
      .compute .alloc selfReg .object [size],
      .call selfReg .object env.self.constructorName [selfReg]]
    ++ body.code ++ [.perform .free [selfReg]] ++ pending.map (fun reg => .perform .free [reg])
    ++ [.ret none]⟩

/-- Whether a method is the one that the program starts with. -/
def isEntry (env : LowerEnv) (e : Entry) (m : Method) : Bool :=
  env.self.bytes == e.className && m.name.text == e.method

end LowerEnv

/-- The result of generating a function from a fresh state. -/
def Lower.result {α : Type} (x : Lower α) : Except LoweringError α :=
  match x.run .initial with
  | .ok a _ => .ok a
  | .error e _ => .error e

/-- The functions of a class. -/
def ClassDecl.functions (table : ClassTable) (e : Entry) (c : ClassDecl) :
    Except LoweringError (List Function) := do
  let env : LowerEnv := ⟨table, c.className⟩
  let first ← (env.constructor c).result
  let rest ← c.methods.mapM fun m =>
    if env.isEntry e m then (env.entry m).result else (env.method m).result
  pure (first :: rest)

/-- The functions of the built-in methods. -/
def builtinFunctions : List Function :=
  [⟨ClassName.io.memberName (ascii "out_int"), [⟨selfReg, .object⟩, ⟨"number", .int⟩],
    some .object, [.perform .print ["number"], .ret (some selfReg)]⟩]

/-- The code of typed classes, given their table. -/
def generate (table : ClassTable) (e : Entry) (classes : List ClassDecl) :
    Except LoweringError Bril.Program := do
  let functions ← (table.hierarchyOrder classes).mapM (ClassDecl.functions table e)
  pure ⟨builtinFunctions ++ functions.flatten⟩

end Cool
