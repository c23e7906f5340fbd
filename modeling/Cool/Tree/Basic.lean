import Cool.Token.Basic

/-!
The tree of a program: classes with their methods and attributes, and expressions. Every part
knows the text it was read from.
-/
namespace Cool

/-- The name of a method, an attribute or a variable. -/
structure Name where
  text : Bytes
  span : Span
deriving DecidableEq, Repr

def Name.isSelf (n : Name) : Bool := n.text == ascii "self"

def Name.display (n : Name) : String := Utf8.lossy n.text

/-- The name of a class, where a type is written. -/
structure TypeName where
  text : Bytes
  span : Span
deriving DecidableEq, Repr

def TypeName.display (t : TypeName) : String := Utf8.lossy t.text

inductive BinaryOp where
  | add | subtract | multiply | divide | lessThan | lessEquals | equals
deriving DecidableEq, Repr

inductive UnaryOp where
  | isVoid | complement | not
deriving DecidableEq, Repr

namespace BinaryOp

def symbol : BinaryOp → Symbol
  | .add => .plus
  | .subtract => .minus
  | .multiply => .asterisk
  | .divide => .slash
  | .lessThan => .less
  | .lessEquals => .lessEquals
  | .equals => .equals

def ofSymbol? : Symbol → Option BinaryOp
  | .plus => some .add
  | .minus => some .subtract
  | .asterisk => some .multiply
  | .slash => some .divide
  | .less => some .lessThan
  | .lessEquals => some .lessEquals
  | .equals => some .equals
  | _ => none

theorem ofSymbol?_symbol (op : BinaryOp) : ofSymbol? op.symbol = some op := by cases op <;> rfl

def name : BinaryOp → String
  | .add => "Add"
  | .subtract => "Subtract"
  | .multiply => "Multiply"
  | .divide => "Divide"
  | .lessThan => "LessThan"
  | .lessEquals => "LessEquals"
  | .equals => "Equals"

def isComparison : BinaryOp → Bool
  | .lessThan | .lessEquals | .equals => true
  | _ => false

end BinaryOp

namespace UnaryOp

def symbol : UnaryOp → Symbol
  | .isVoid => .kwIsVoid
  | .complement => .tilde
  | .not => .kwNot

def ofSymbol? : Symbol → Option UnaryOp
  | .kwIsVoid => some .isVoid
  | .tilde => some .complement
  | .kwNot => some .not
  | _ => none

theorem ofSymbol?_symbol (op : UnaryOp) : ofSymbol? op.symbol = some op := by cases op <;> rfl

def name : UnaryOp → String
  | .isVoid => "IsVoid"
  | .complement => "Complement"
  | .not => "Not"

end UnaryOp

/-- A name with a declared type, and perhaps a first value. -/
structure Binding (ε : Type) where
  name : Name
  type : TypeName
  init : Option ε
  span : Span
deriving Repr

/-- An arm of a case: a name for the value, the type it is taken for, and the result. -/
structure CaseArm (ε : Type) where
  name : Name
  type : TypeName
  body : ε
  span : Span
deriving Repr

/-- Expressions. A call has no receiver, one that it dispatches on, or one with a class named from
which the method is taken. -/
inductive Expr where
  | assign (name : Name) (value : Expr) (span : Span)
  | selfCall (method : Name) (args : List Expr) (span : Span)
  | call (receiver : Expr) (method : Name) (args : List Expr) (span : Span)
  | staticCall (receiver : Expr) (type : TypeName) (method : Name) (args : List Expr) (span : Span)
  | cond (test yes no : Expr) (span : Span)
  | loop (test body : Expr) (span : Span)
  | block (body : List Expr) (span : Span)
  | letIn (bindings : List (Binding Expr)) (body : Expr) (span : Span)
  | case (scrutinee : Expr) (arms : List (CaseArm Expr)) (span : Span)
  | new (type : TypeName) (span : Span)
  | binary (op : BinaryOp) (left right : Expr) (span : Span)
  | unary (op : UnaryOp) (operand : Expr) (span : Span)
  | name (name : Name)
  | group (inner : Expr) (span : Span)
  | int (value : Int) (span : Span)
  | string (value : Bytes) (span : Span)
  | bool (value : Bool) (span : Span)
deriving Inhabited

def Expr.span : Expr → Span
  | .assign _ _ s | .selfCall _ _ s | .call _ _ _ s | .staticCall _ _ _ _ s | .cond _ _ _ s
  | .loop _ _ s | .block _ s | .letIn _ _ s | .case _ _ s | .new _ s | .binary _ _ _ s
  | .unary _ _ s | .group _ s | .int _ s | .string _ s | .bool _ s => s
  | .name n => n.span

/-- A parameter of a method, with its class. -/
structure Formal where
  name : Name
  type : TypeName
  span : Span
deriving DecidableEq, Repr

structure Method where
  name : Name
  params : List Formal
  result : TypeName
  body : Expr
  span : Span

abbrev Attribute := Binding Expr

inductive Feature where
  | method (m : Method)
  | attribute (a : Attribute)

structure ClassDecl where
  name : TypeName
  parent : Option TypeName
  features : List Feature
  span : Span

namespace ClassDecl

def methods (c : ClassDecl) : List Method :=
  c.features.filterMap fun f => match f with
    | .method m => some m
    | .attribute _ => none

def attributes (c : ClassDecl) : List Attribute :=
  c.features.filterMap fun f => match f with
    | .method _ => none
    | .attribute a => some a

end ClassDecl

structure Program where
  classes : List ClassDecl
  span : Span

end Cool
