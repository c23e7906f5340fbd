import Cool.Text.Bytes

/-!
Bindings in nested scopes. A name means what the innermost scope that binds it says, and a later
binding in one scope replaces an earlier one.
-/
namespace Cool

/-- The open scopes, innermost first, each with its bindings, latest first. -/
structure Scopes (α : Type) where
  frames : List (List (Bytes × α))

namespace Scopes

variable {α : Type}

/-- One scope, and nothing bound. -/
def empty : Scopes α := ⟨[[]]⟩

def push (s : Scopes α) : Scopes α := ⟨[] :: s.frames⟩

def pop (s : Scopes α) : Scopes α := ⟨s.frames.tail⟩

/-- Binds a name in the innermost scope, which is opened if there is none. -/
def bind (s : Scopes α) (name : Bytes) (a : α) : Scopes α :=
  match s.frames with
  | [] => ⟨[[(name, a)]]⟩
  | f :: fs => ⟨((name, a) :: f) :: fs⟩

/-- What the innermost scope alone binds a name to. -/
def innermost? (s : Scopes α) (name : Bytes) : Option α :=
  s.frames.head?.bind (List.lookup name)

def find? (s : Scopes α) (name : Bytes) : Option α := s.frames.findSome? (List.lookup name)

def isBound (s : Scopes α) (name : Bytes) : Bool := (s.find? name).isSome

theorem find?_bind_self (s : Scopes α) (name : Bytes) (a : α) :
    (s.bind name a).find? name = some a := by
  unfold bind find?
  cases s.frames <;> simp

theorem find?_bind_of_ne (s : Scopes α) {name other : Bytes} (a : α) (h : other ≠ name) :
    (s.bind name a).find? other = s.find? other := by
  have hne : (other == name) = false := by simpa using h
  unfold bind find?
  cases s.frames <;> simp [List.findSome?_cons, List.lookup_cons, hne]

end Scopes

end Cool
