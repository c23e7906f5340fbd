import Cool.Lowering.Layout
import Cool.Scopes

/-!
What is remembered while one function is generated: the names given out, the registers of the
local variables, and the objects to free before it returns.
-/
namespace Cool

/-- A local variable: its register and its class. -/
structure Local where
  reg : String
  type : ClassName
deriving DecidableEq, Repr

structure FunctionState where
  /-- The next number, of temporaries, labels and registers alike. -/
  next : Nat
  scopes : Scopes Local
  /-- The registers of locals so far, and that of the object at hand. -/
  used : List String
  /-- The objects to free, in the order of their allocation. -/
  pending : List String
  /-- How many branches and loops the code being generated lies in. -/
  branches : Nat

namespace FunctionState

def initial : FunctionState := ⟨0, .empty, [selfReg], [], 0⟩

/-- A number that has not been given out. -/
def fresh (s : FunctionState) : Nat × FunctionState := (s.next, { s with next := s.next + 1 })

def tempName (id : Nat) : String := "t." ++ toString id

/-- A new temporary register. -/
def temp (s : FunctionState) : String × FunctionState := (tempName s.fresh.1, s.fresh.2)

/-- A label of the construct numbered `id`. -/
def labelName (construct part : String) (id : Nat) : String :=
  construct ++ "." ++ part ++ "." ++ toString id

/-- New labels for the parts of a construct, all with one number. -/
def labels (s : FunctionState) (construct : String) (parts : List String) :
    List String × FunctionState :=
  (parts.map (labelName construct · s.fresh.1), s.fresh.2)

def push (s : FunctionState) : FunctionState := { s with scopes := s.scopes.push }

def pop (s : FunctionState) : FunctionState := { s with scopes := s.scopes.pop }

/-- Binds a name in the innermost scope. Its register is called like it, with a number behind a dot
if the function has used that name. -/
def bind (s : FunctionState) (name : Bytes) (type : ClassName) : String × FunctionState :=
  let base := Utf8.lossy name
  if base ∈ s.used then
    let reg := base ++ "." ++ toString s.next
    (reg, { s with next := s.next + 1, scopes := s.scopes.bind name ⟨reg, type⟩,
                   used := reg :: s.used })
  else
    (base, { s with scopes := s.scopes.bind name ⟨base, type⟩, used := base :: s.used })

def find? (s : FunctionState) (name : Bytes) : Option Local := s.scopes.find? name

def enterBranch (s : FunctionState) : FunctionState := { s with branches := s.branches + 1 }

def leaveBranch (s : FunctionState) : FunctionState := { s with branches := s.branches - 1 }

/-- Remembers an object to free. One that is allocated in a branch or a loop is not, for it need
not exist, or not alone, when the function returns. -/
def recordAlloc (s : FunctionState) (reg : String) : FunctionState :=
  if s.branches = 0 then { s with pending := s.pending ++ [reg] } else s

/-- The objects to free, of which none is left. -/
def takePending (s : FunctionState) : List String × FunctionState :=
  (s.pending, { s with pending := [] })

end FunctionState

end Cool
