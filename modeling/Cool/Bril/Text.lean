import Cool.Bril.Basic

/-!
Bril programs as text. An operand list names functions behind `@`, then registers, then labels
behind a dot; a label stands at the start of its line and other instructions are indented.
-/
namespace Cool.Bril

def Ty.text : Ty → String
  | .int => "int"
  | .bool => "bool"
  | .ptr t => "ptr<" ++ t.text ++ ">"

def Literal.text : Literal → String
  | .int value => toString value
  | .bool true => "true"
  | .bool false => "false"

def operands (funcs args labels : List String) : String :=
  String.join (funcs.map (" @" ++ ·)) ++ String.join (args.map (" " ++ ·))
    ++ String.join (labels.map (" ." ++ ·))

def Instr.text : Instr → String
  | .label name => "." ++ name ++ ":"
  | .const dest ty v => dest ++ ": " ++ ty.text ++ " = const " ++ v.text ++ ";"
  | .value op dest ty args funcs =>
    dest ++ ": " ++ ty.text ++ " = " ++ op.text ++ operands funcs args [] ++ ";"
  | .effect op args funcs labels => op.text ++ operands funcs args labels ++ ";"

def Instr.line : Instr → String
  | .label name => (Instr.label name).text ++ "\n"
  | i => "  " ++ i.text ++ "\n"

def Param.text (p : Param) : String := p.name ++ ": " ++ p.ty.text

def Function.text (f : Function) : String :=
  "@" ++ f.name
    ++ (if f.params.isEmpty then "" else "(" ++ ", ".intercalate (f.params.map Param.text) ++ ")")
    ++ (match f.result with
      | some ty => ": " ++ ty.text
      | none => "")
    ++ " \x7b\n" ++ String.join (f.instrs.map Instr.line) ++ "\x7d"

def Program.text (p : Program) : String := String.join (p.functions.map (·.text ++ "\n"))

end Cool.Bril
