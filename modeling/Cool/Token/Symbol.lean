import Cool.Text.Bytes

/-!
The fixed words of the language: keywords, punctuation and operators, with their spelling.
-/
namespace Cool

inductive Symbol where
  | kwClass | kwElse | kwFalse | kwFi | kwIf | kwIn | kwInherits | kwIsVoid | kwLet | kwLoop
  | kwPool | kwThen | kwWhile | kwCase | kwEsac | kwNew | kwOf | kwNot | kwTrue
  | braceLeft | braceRight | parenLeft | parenRight | colon | semicolon | comma | dot | at
  | implies
  | arrowLeft | tilde | asterisk | slash | plus | minus | lessEquals | less | equals
deriving DecidableEq, Repr, Inhabited

inductive SymbolCategory where
  | keyword
  | punctuation
  | operator
deriving DecidableEq, Repr

namespace Symbol

def all : List Symbol :=
  [.kwClass, .kwElse, .kwFalse, .kwFi, .kwIf, .kwIn, .kwInherits, .kwIsVoid, .kwLet, .kwLoop,
   .kwPool, .kwThen, .kwWhile, .kwCase, .kwEsac, .kwNew, .kwOf, .kwNot, .kwTrue,
   .braceLeft, .braceRight, .parenLeft, .parenRight, .colon, .semicolon, .comma, .dot, .at,
   .implies,
   .arrowLeft, .tilde, .asterisk, .slash, .plus, .minus, .lessEquals, .less, .equals]

def text : Symbol → String
  | .kwClass => "class"
  | .kwElse => "else"
  | .kwFalse => "false"
  | .kwFi => "fi"
  | .kwIf => "if"
  | .kwIn => "in"
  | .kwInherits => "inherits"
  | .kwIsVoid => "isvoid"
  | .kwLet => "let"
  | .kwLoop => "loop"
  | .kwPool => "pool"
  | .kwThen => "then"
  | .kwWhile => "while"
  | .kwCase => "case"
  | .kwEsac => "esac"
  | .kwNew => "new"
  | .kwOf => "of"
  | .kwNot => "not"
  | .kwTrue => "true"
  | .braceLeft => "\x7b"
  | .braceRight => "\x7d"
  | .parenLeft => "("
  | .parenRight => ")"
  | .colon => ":"
  | .semicolon => ";"
  | .comma => ","
  | .dot => "."
  | .at => "@"
  | .implies => "=>"
  | .arrowLeft => "<-"
  | .tilde => "~"
  | .asterisk => "*"
  | .slash => "/"
  | .plus => "+"
  | .minus => "-"
  | .lessEquals => "<="
  | .less => "<"
  | .equals => "="

/-- The spelling, as it stands in a program. -/
def bytes (s : Symbol) : Bytes := ascii s.text

/-- What the symbol is called, for texts about tokens. -/
def name : Symbol → String
  | .kwClass => "Class"
  | .kwElse => "Else"
  | .kwFalse => "False"
  | .kwFi => "Fi"
  | .kwIf => "If"
  | .kwIn => "In"
  | .kwInherits => "Inherits"
  | .kwIsVoid => "IsVoid"
  | .kwLet => "Let"
  | .kwLoop => "Loop"
  | .kwPool => "Pool"
  | .kwThen => "Then"
  | .kwWhile => "While"
  | .kwCase => "Case"
  | .kwEsac => "Esac"
  | .kwNew => "New"
  | .kwOf => "Of"
  | .kwNot => "Not"
  | .kwTrue => "True"
  | .braceLeft => "BraceLeft"
  | .braceRight => "BraceRight"
  | .parenLeft => "ParenLeft"
  | .parenRight => "ParenRight"
  | .colon => "Colon"
  | .semicolon => "Semicolon"
  | .comma => "Comma"
  | .dot => "Dot"
  | .at => "At"
  | .implies => "Implies"
  | .arrowLeft => "ArrowLeft"
  | .tilde => "Tilde"
  | .asterisk => "Asterisk"
  | .slash => "Slash"
  | .plus => "Plus"
  | .minus => "Minus"
  | .lessEquals => "LessEquals"
  | .less => "Less"
  | .equals => "Equals"

def category : Symbol → SymbolCategory
  | .kwClass | .kwElse | .kwFalse | .kwFi | .kwIf | .kwIn | .kwInherits | .kwIsVoid | .kwLet
  | .kwLoop | .kwPool | .kwThen | .kwWhile | .kwCase | .kwEsac | .kwNew | .kwOf | .kwNot
  | .kwTrue => .keyword
  | .braceLeft | .braceRight | .parenLeft | .parenRight | .colon | .semicolon | .comma | .dot
  | .at | .implies => .punctuation
  | .arrowLeft | .tilde | .asterisk | .slash | .plus | .minus | .lessEquals | .less
  | .equals => .operator

/-- The spelling between backquotes. -/
def quoted (s : Symbol) : String := "`" ++ s.text ++ "`"

/-- The symbol spelled `bs`. -/
def ofBytes? (bs : Bytes) : Option Symbol := all.find? fun s => s.bytes == bs

def longer (best : Option Symbol) (s : Symbol) : Option Symbol :=
  match best with
  | some t => if t.bytes.length < s.bytes.length then some s else best
  | none => some s

/-- The longest symbol `bs` starts with. -/
def leading? (bs : Bytes) : Option Symbol :=
  (all.filter fun s => s.bytes.isPrefixOf bs).foldl longer none

end Symbol

end Cool
