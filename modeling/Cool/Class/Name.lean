import Cool.Tree.Basic

/-!
The names of classes: the five that every program has, those a program declares, and `SELF_TYPE`,
which stands for the class at hand.
-/
namespace Cool

inductive Builtin where
  | object | io | int | string | bool
deriving DecidableEq, Repr

def Builtin.text : Builtin → String
  | .object => "Object"
  | .io => "IO"
  | .int => "Int"
  | .string => "String"
  | .bool => "Bool"

inductive ClassName where
  | builtin (b : Builtin)
  | named (name : Bytes)
  | selfType
deriving DecidableEq, Repr

namespace ClassName

def object : ClassName := .builtin .object
def io : ClassName := .builtin .io
def int : ClassName := .builtin .int
def string : ClassName := .builtin .string
def bool : ClassName := .builtin .bool

/-- The class a name in a program means. -/
def ofBytes (name : Bytes) : ClassName :=
  if name = ascii "Int" then .int
  else if name = ascii "String" then .string
  else if name = ascii "Bool" then .bool
  else if name = ascii "Object" then .object
  else if name = ascii "IO" then .io
  else if name = ascii "SELF_TYPE" then .selfType
  else .named name

def bytes : ClassName → Bytes
  | .builtin b => ascii b.text
  | .named name => name
  | .selfType => ascii "SELF_TYPE"

def display : ClassName → String
  | .builtin b => b.text
  | .named name => Utf8.lossy name
  | .selfType => "SELF_TYPE"

/-- The name with `SELF_TYPE` read as `self`. -/
def resolve (c self : ClassName) : ClassName :=
  match c with
  | .selfType => self
  | _ => c

/-- Whether values of the class are compared by value. -/
def isPrimitive : ClassName → Bool
  | .builtin .int | .builtin .bool | .builtin .string => true
  | _ => false

def isBuiltin : ClassName → Bool
  | .builtin _ => true
  | _ => false

end ClassName

def TypeName.className (t : TypeName) : ClassName := .ofBytes t.text

def ClassDecl.className (c : ClassDecl) : ClassName := c.name.className

end Cool
