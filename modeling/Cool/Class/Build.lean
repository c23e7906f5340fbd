import Cool.Typing.Error

/-!
Building the class table of a program: each class with its parent and the types of its methods.
The table is refused if a class has two methods of one name, if two classes have one name, if a
parent is not known, or if a class is its own ancestor.
-/
namespace Cool

def Method.type (m : Method) : MethodType :=
  ⟨m.params.map (·.type.className), m.result.className⟩

def ClassDecl.parentName (c : ClassDecl) : ClassName :=
  match c.parent with
  | some p => p.className
  | none => .object

namespace ClassTable

/-- The entry of a class with its methods. -/
def entryOf (c : ClassDecl) : Except TypeError ClassEntry :=
  c.methods.foldlM (fun e m =>
    match e.addMethod? m.name.text m.type with
    | some e => .ok e
    | none => .error (.duplicateMethod c.className m.name)) (.ofParent (some c.parentName))

/-- The table with one more declared class. -/
def declare (t : ClassTable) (c : ClassDecl) : Except TypeError ClassTable := do
  let e ← entryOf c
  if c.className = .selfType then .error (.duplicateClass c.name)
  else match t.add? c.className e with
    | some t => .ok t
    | none => .error (.duplicateClass c.name)

/-- Refuses a parent that is not a known class. -/
def checkParent (t : ClassTable) (c : ClassDecl) : Except TypeError Unit :=
  match c.parent with
  | none => .ok ()
  | some p =>
    if p.className = .selfType || !t.contains p.className then
      .error (.undefinedClass p.className p.span)
    else .ok ()

/-- Goes up from `name`, having met `met` in `n` steps less than allowed, and tells the classes met
if the first to come back is `start`. -/
def cycleFrom (t : ClassTable) (start : ClassName) :
    Nat → List ClassName → ClassName → Option (List ClassName)
  | 0, _, _ => none
  | n + 1, met, name =>
    if met.contains name then
      if name = start then some met.reverse else none
    else match t.parent? name with
      | some p => cycleFrom t start n (name :: met) p
      | none => none

/-- The classes on a cycle through `start`, from it upwards. -/
def cycleThrough? (t : ClassTable) (start : ClassName) : Option (List ClassName) :=
  cycleFrom t start (t.size + 2) [] start

/-- Refuses a class that is its own ancestor. -/
def checkAcyclic (t : ClassTable) (c : ClassDecl) : Except TypeError Unit :=
  match t.cycleThrough? c.className with
  | some cycle => .error (.inheritanceCycle c.name cycle)
  | none => .ok ()

/-- The table of a program. -/
def build (classes : List ClassDecl) : Except TypeError ClassTable := do
  let t ← classes.foldlM declare builtin
  classes.forM t.checkParent
  classes.forM t.checkAcyclic
  pure t

end ClassTable

end Cool
