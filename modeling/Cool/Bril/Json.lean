import Cool.Bril.Basic
import Cool.Json

/-!
Bril programs as JSON. Operand lists that are empty are left out, save the parameters of a
function.
-/
namespace Cool.Bril

def Ty.json : Ty → Json
  | .int => .string "int"
  | .bool => .string "bool"
  | .ptr t => .object [("ptr", t.json)]

def Literal.json : Literal → Json
  | .int value => .int value
  | .bool value => .bool value

/-- A list of operands, if there are any. -/
def operandField (key : String) (names : List String) : List (String × Json) :=
  if names.isEmpty then [] else [(key, .strings names)]

def Instr.json : Instr → Json
  | .label name => .object [("label", .string name)]
  | .const dest ty v =>
    .object [("op", .string "const"), ("dest", .string dest), ("type", ty.json), ("value", v.json)]
  | .value op dest ty args funcs =>
    .object ([("op", .string op.text), ("dest", .string dest), ("type", ty.json)]
      ++ operandField "args" args ++ operandField "funcs" funcs)
  | .effect op args funcs labels =>
    .object ([("op", .string op.text)] ++ operandField "args" args ++ operandField "funcs" funcs
      ++ operandField "labels" labels)

def Param.json (p : Param) : Json := .object [("name", .string p.name), ("type", p.ty.json)]

def Function.json (f : Function) : Json :=
  .object ([("name", .string f.name), ("args", .list (f.params.map Param.json))]
    ++ (match f.result with
      | some ty => [("type", ty.json)]
      | none => [])
    ++ [("instrs", .list (f.instrs.map Instr.json))])

def Program.json (p : Program) : Json :=
  .object [("functions", .list (p.functions.map Function.json))]

end Cool.Bril
