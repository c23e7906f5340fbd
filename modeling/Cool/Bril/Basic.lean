/-!
Bril programs: functions of instructions over named registers. An instruction is a label, a
constant, an operation with a result, or an operation without one.
-/
namespace Cool.Bril

inductive Ty where
  | int
  | bool
  | ptr (pointee : Ty)
deriving DecidableEq, Repr

/-- The type of every object. -/
def Ty.object : Ty := .ptr .int

inductive Literal where
  | int (value : Int)
  | bool (value : Bool)
deriving DecidableEq, Repr

def Literal.ty : Literal → Ty
  | .int _ => .int
  | .bool _ => .bool

/-- Operations with a result. -/
inductive ValueOp where
  | add | sub | mul | div | lt | le | eq | not | id | call | alloc | ptradd | load
deriving DecidableEq, Repr

/-- Operations without a result. -/
inductive EffectOp where
  | jmp | br | call | ret | print | free | store
deriving DecidableEq, Repr

def ValueOp.text : ValueOp → String
  | .add => "add"
  | .sub => "sub"
  | .mul => "mul"
  | .div => "div"
  | .lt => "lt"
  | .le => "le"
  | .eq => "eq"
  | .not => "not"
  | .id => "id"
  | .call => "call"
  | .alloc => "alloc"
  | .ptradd => "ptradd"
  | .load => "load"

def EffectOp.text : EffectOp → String
  | .jmp => "jmp"
  | .br => "br"
  | .call => "call"
  | .ret => "ret"
  | .print => "print"
  | .free => "free"
  | .store => "store"

inductive Instr where
  | label (name : String)
  | const (dest : String) (ty : Ty) (value : Literal)
  | value (op : ValueOp) (dest : String) (ty : Ty) (args funcs : List String)
  | effect (op : EffectOp) (args funcs labels : List String)
deriving DecidableEq, Repr

namespace Instr

/-- A constant of the type of its value. -/
def literal (dest : String) (value : Literal) : Instr := .const dest value.ty value

/-- An operation on registers alone. -/
def compute (op : ValueOp) (dest : String) (ty : Ty) (args : List String) : Instr :=
  .value op dest ty args []

def call (dest : String) (ty : Ty) (func : String) (args : List String) : Instr :=
  .value .call dest ty args [func]

/-- An effect on registers alone. -/
def perform (op : EffectOp) (args : List String) : Instr := .effect op args [] []

def jmp (label : String) : Instr := .effect .jmp [] [] [label]

def br (cond yes no : String) : Instr := .effect .br [cond] [] [yes, no]

def ret (reg : Option String) : Instr := .effect .ret reg.toList [] []

/-- The register an instruction writes. -/
def dest? : Instr → Option String
  | .const dest _ _ => some dest
  | .value _ dest _ _ _ => some dest
  | .label _ | .effect _ _ _ _ => none

def opText : Instr → String
  | .label _ => "label"
  | .const _ _ _ => "const"
  | .value op _ _ _ _ => op.text
  | .effect op _ _ _ => op.text

end Instr

structure Param where
  name : String
  ty : Ty
deriving DecidableEq, Repr

structure Function where
  name : String
  params : List Param
  result : Option Ty
  instrs : List Instr
deriving DecidableEq, Repr

structure Program where
  functions : List Function
deriving DecidableEq, Repr

/-- The first function of a name. -/
def Program.find? (p : Program) (name : String) : Option Function :=
  p.functions.find? fun f => f.name = name

end Cool.Bril
