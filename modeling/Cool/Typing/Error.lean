import Cool.Class.Table

/-!
Why a program has no type.
-/
namespace Cool

inductive TypeError where
  | undefinedClass (name : ClassName) (span : Span)
  | undefinedIdentifier (name : Name)
  | undefinedMethod (owner : ClassName) (method : Name)
  | duplicateAttribute (name : Name) (inherited : Bool)
  | notAssignable (span : Span) (found expected : ClassName)
  | illegalComparison (span : Span) (left right : ClassName)
  | argumentTypeMismatch (span : Span) (expected found : ClassName)
  | argumentCountMismatch (span : Span) (expected supplied : Nat)
  | missingCaseBranch (span : Span)
  | intOutOfRange (span : Span) (value : Int)
  | invalidUtf8 (span : Span)
  | inheritanceCycle (name : TypeName) (cycle : List ClassName)
  | duplicateClass (name : TypeName)
  | duplicateMethod (owner : ClassName) (method : Name)
deriving DecidableEq, Repr

namespace TypeError

def ticked (s : String) : String := "`" ++ s ++ "`"

/-- A count of arguments. -/
def arguments (n : Nat) : String := toString n ++ if n = 1 then " argument" else " arguments"

def message : TypeError → String
  | .undefinedClass name _ => "the type name " ++ ticked name.display ++ " is not recognized"
  | .undefinedIdentifier name => "unrecognized name " ++ ticked name.display
  | .undefinedMethod owner method =>
    "class " ++ ticked owner.display ++ " does not have a method named " ++ ticked method.display
  | .duplicateAttribute name inherited =>
    "detected multiple definition: " ++ ticked name.display ++ " is already defined"
      ++ if inherited then " in a superclass" else ""
  | .notAssignable _ found expected =>
    "mismatched types: expected " ++ ticked expected.display ++ ", found " ++ ticked found.display
  | .illegalComparison _ left right =>
    "cannot compare a value of type " ++ ticked left.display
      ++ " with a value of type " ++ ticked right.display
  | .argumentTypeMismatch _ expected found =>
    "mismatched argument type: expected " ++ ticked expected.display
      ++ ", found " ++ ticked found.display
  | .argumentCountMismatch _ expected supplied =>
    "this function takes " ++ arguments expected ++ " but " ++ arguments supplied
      ++ (if supplied = 1 then " was" else " were") ++ " supplied"
  | .missingCaseBranch _ => "a case expression must have at least one branch"
  | .intOutOfRange _ value =>
    "the integer literal " ++ toString value ++ " does not fit in a 32-bit signed integer"
  | .invalidUtf8 _ => "the string literal is not valid UTF-8"
  | .inheritanceCycle name cycle =>
    "an inheritance cycle containing " ++ ticked name.display ++ " has been detected: "
      ++ " -> ".intercalate (cycle.map ClassName.display)
  | .duplicateClass name =>
    "detected multiple definition: class " ++ ticked name.display ++ " is already defined"
  | .duplicateMethod owner method =>
    "detected multiple definition: method " ++ ticked method.display
      ++ " is already defined in class " ++ ticked owner.display

def span : TypeError → Span
  | .undefinedClass _ s | .notAssignable s _ _ | .illegalComparison s _ _
  | .argumentTypeMismatch s _ _ | .argumentCountMismatch s _ _ | .missingCaseBranch s
  | .intOutOfRange s _ | .invalidUtf8 s => s
  | .undefinedIdentifier name | .undefinedMethod _ name | .duplicateAttribute name _
  | .duplicateMethod _ name => name.span
  | .inheritanceCycle name _ | .duplicateClass name => name.span

end TypeError

end Cool
