import Cool.Class.Name

/-!
The class table: every known class with its parent and the types of its own members, in the order
they were added. Parents may be unknown or lead in circles, so walks up the hierarchy take at most
as many steps as there are classes.
-/
namespace Cool

structure MethodType where
  params : List ClassName
  result : ClassName
deriving DecidableEq, Repr

structure ClassEntry where
  parent : Option ClassName
  methods : List (Bytes × MethodType)
  attributes : List (Bytes × ClassName)
deriving DecidableEq, Repr

namespace ClassEntry

/-- A class without members. -/
def ofParent (parent : Option ClassName) : ClassEntry := ⟨parent, [], []⟩

def method? (e : ClassEntry) (name : Bytes) : Option MethodType := e.methods.lookup name

def attribute? (e : ClassEntry) (name : Bytes) : Option ClassName := e.attributes.lookup name

/-- The class with one more method, unless it has one of that name. -/
def addMethod? (e : ClassEntry) (name : Bytes) (type : MethodType) : Option ClassEntry :=
  match e.method? name with
  | some _ => none
  | none => some { e with methods := e.methods ++ [(name, type)] }

/-- The class with one more attribute, unless it has one of that name. -/
def addAttribute? (e : ClassEntry) (name : Bytes) (type : ClassName) : Option ClassEntry :=
  match e.attribute? name with
  | some _ => none
  | none => some { e with attributes := e.attributes ++ [(name, type)] }

end ClassEntry

structure ClassTable where
  classes : List (ClassName × ClassEntry)
deriving DecidableEq, Repr

namespace ClassTable

def empty : ClassTable := ⟨[]⟩

/-- The classes that every program has. -/
def builtin : ClassTable := ⟨[
  (.object, ⟨none,
    [(ascii "abort", ⟨[], .object⟩), (ascii "type_name", ⟨[], .string⟩),
     (ascii "copy", ⟨[], .object⟩)], []⟩),
  (.io, ⟨some .object,
    [(ascii "in_int", ⟨[], .int⟩), (ascii "in_string", ⟨[], .string⟩),
     (ascii "out_int", ⟨[.int], .selfType⟩), (ascii "out_string", ⟨[.string], .selfType⟩)], []⟩),
  (.int, ⟨some .object, [], []⟩),
  (.string, ⟨some .object,
    [(ascii "length", ⟨[], .int⟩), (ascii "concat", ⟨[.string], .string⟩),
     (ascii "substr", ⟨[.int, .int], .string⟩)], []⟩),
  (.bool, ⟨some .object, [], []⟩)]⟩

def size (t : ClassTable) : Nat := t.classes.length

def get? (t : ClassTable) (c : ClassName) : Option ClassEntry := t.classes.lookup c

def contains (t : ClassTable) (c : ClassName) : Bool := (t.get? c).isSome

def parent? (t : ClassTable) (c : ClassName) : Option ClassName := (t.get? c).bind (·.parent)

/-- The table with one more class, unless it has one of that name. -/
def add? (t : ClassTable) (c : ClassName) (e : ClassEntry) : Option ClassTable :=
  if t.contains c then none else some ⟨t.classes ++ [(c, e)]⟩

/-- The table with the entry of `c` replaced. -/
def replace (t : ClassTable) (c : ClassName) (e : ClassEntry) : ClassTable :=
  ⟨t.classes.map fun (d, old) => (d, if d = c then e else old)⟩

/-- Adds a method to a class. It is refused if the class is not known or has it already. -/
def addMethod? (t : ClassTable) (c : ClassName) (name : Bytes) (type : MethodType) :
    Option ClassTable := do
  let e ← t.get? c
  let e ← e.addMethod? name type
  pure (t.replace c e)

/-- Adds an attribute to a class. It is refused if the class is not known or has it already. -/
def addAttribute? (t : ClassTable) (c : ClassName) (name : Bytes) (type : ClassName) :
    Option ClassTable := do
  let e ← t.get? c
  let e ← e.addAttribute? name type
  pure (t.replace c e)

/-- A class and its ancestors, closest first, `n` in all at most. -/
def walk (t : ClassTable) : Nat → ClassName → List ClassName
  | 0, _ => []
  | n + 1, c => c :: match t.parent? c with
    | some p => t.walk n p
    | none => []

/-- A class and its ancestors, closest first. -/
def lineage (t : ClassTable) (c : ClassName) : List ClassName := t.walk (max t.size 1) c

/-- The closest class that has a method, with the method's type. -/
def findMethod? (t : ClassTable) (c : ClassName) (name : Bytes) :
    Option (ClassName × MethodType) :=
  (t.lineage c).findSome? fun d => do
    let e ← t.get? d
    let m ← e.method? name
    pure (d, m)

/-- The closest class that has an attribute, with the attribute's type. -/
def findAttribute? (t : ClassTable) (c : ClassName) (name : Bytes) :
    Option (ClassName × ClassName) :=
  (t.lineage c).findSome? fun d => do
    let e ← t.get? d
    let a ← e.attribute? name
    pure (d, a)

/-- All attributes of a class: those of its furthest ancestor first, each class's in the order of
their declaration. -/
def allAttributes (t : ClassTable) (c : ClassName) : List (Bytes × ClassName) :=
  (t.lineage c).reverse.flatMap fun d => match t.get? d with
    | some e => e.attributes
    | none => []

/-- The number of ancestors of a class. -/
def depth (t : ClassTable) (c : ClassName) : Nat := (t.lineage c).length - 1

/-- Whether `sub` is `sup` or one of its descendants. -/
def conforms (t : ClassTable) (sub sup self : ClassName) : Bool :=
  (t.lineage (sub.resolve self)).any (· == sup.resolve self)

/-- The class two classes have in common. A built-in class has only `Object` in common with any
other. -/
def join (t : ClassTable) (a b self : ClassName) : ClassName :=
  let a := a.resolve self
  let b := b.resolve self
  if a = b then a
  else if a.isBuiltin || b.isBuiltin then .object
  else ((t.lineage a).find? fun c => (t.lineage b).contains c).getD .object

/-- Classes with parents before their children; classes of one depth keep their order. -/
def hierarchyOrder (t : ClassTable) (classes : List ClassDecl) : List ClassDecl :=
  classes.mergeSort fun a b => t.depth a.className ≤ t.depth b.className

end ClassTable

end Cool
