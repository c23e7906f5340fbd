import Cool.Bril.Basic
import Cool.Dump.Document

/-!
Bril programs as documents.
-/
namespace Cool.Dump

open Bril

def ty : Ty → Document
  | .int => .unit "Int"
  | .bool => .unit "Bool"
  | .ptr t => .wrap "Ptr" (ty t)

def literal : Literal → Document
  | .int i => .wrap "Int" (.int i)
  | .bool b => .wrap "Bool" (.bool b)

def valueOp : ValueOp → String
  | .add => "Add"
  | .sub => "Sub"
  | .mul => "Mul"
  | .div => "Div"
  | .lt => "Lt"
  | .le => "Le"
  | .eq => "Eq"
  | .not => "Not"
  | .id => "Id"
  | .call => "Call"
  | .alloc => "Alloc"
  | .ptradd => "PtrAdd"
  | .load => "Load"

def effectOp : EffectOp → String
  | .jmp => "Jmp"
  | .br => "Br"
  | .call => "Call"
  | .ret => "Ret"
  | .print => "Print"
  | .free => "Free"
  | .store => "Store"

def texts (names : List String) : Document := .list (names.map .text)

def instr : Instr → Document
  | .label name => .wrap "Label" (.text name)
  | .const dest t v =>
    .record "Const" [("dest", .text dest), ("ty", ty t), ("value", literal v)]
  | .value op dest t args funcs =>
    .record "Value" [("op", .unit (valueOp op)), ("dest", .text dest), ("ty", ty t),
      ("args", texts args), ("funcs", texts funcs)]
  | .effect op args funcs labels =>
    .record "Effect" [("op", .unit (effectOp op)), ("args", texts args), ("funcs", texts funcs),
      ("labels", texts labels)]

def param (p : Bril.Param) : Document := .record "Param" [("name", .text p.name), ("ty", ty p.ty)]

def function (f : Function) : Document :=
  .record "Function" [("name", .text f.name), ("args", .list (f.params.map param)),
    ("ret_ty", .option ty f.result), ("instrs", .list (f.instrs.map instr))]

def brilProgram (p : Bril.Program) : Document :=
  .record "Program" [("functions", .list (p.functions.map function))]

end Cool.Dump
