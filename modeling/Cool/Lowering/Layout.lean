import Cool.Bril.Basic
import Cool.Class.Table

/-!
How classes appear in generated code: objects are rows of slots, a row for each attribute from the
furthest ancestor down, and members are named after the class that owns them.
-/
namespace Cool

/-- Integers and truth values are unboxed, and all else is a pointer to slots. -/
def ClassName.ty : ClassName → Bril.Ty
  | .builtin .int => .int
  | .builtin .bool => .bool
  | _ => .object

/-- The value a variable of a class starts with, if it has one. -/
def ClassName.default? : ClassName → Option Bril.Literal
  | .builtin .int => some (.int 0)
  | .builtin .bool => some (.bool false)
  | _ => none

/-- The name of a member's function. -/
def ClassName.memberName (owner : ClassName) (member : Bytes) : String :=
  owner.display ++ "__" ++ Utf8.lossy member

/-- The name of the function that sets up an object. -/
def ClassName.constructorName (c : ClassName) : String := c.memberName (ascii "constructor")

/-- The register of the object at hand. -/
def selfReg : String := "self"

/-- The name of the function that a program starts with. -/
def entryName : String := "main"

namespace ClassTable

/-- The slot of an attribute, with its type. Of attributes with one name the last counts, which is
that of the closest class. -/
def slot? (t : ClassTable) (c : ClassName) (name : Bytes) : Option (Nat × ClassName) :=
  (((t.allAttributes c).mapIdx fun i a => (i, a)).reverse.find? fun (_, a) => a.1 = name).map
    fun (i, a) => (i, a.2)

/-- The number of slots of an object, which is never none. -/
def objectSize (t : ClassTable) (c : ClassName) : Nat := max (t.allAttributes c).length 1

end ClassTable

end Cool
