import Cool.Class.Name

/-!
Why a program has no code: it uses something that Bril has no counterpart for, or a name that the
class table does not know.
-/
namespace Cool

/-- What can be typed but not compiled. -/
inductive Unsupported where
  | stringLiteral
  | stringObject
  | case
  | isVoid
  | builtinMethod (owner : ClassName) (method : Bytes)
deriving DecidableEq, Repr

def Unsupported.describe : Unsupported → String
  | .stringLiteral => "string literals"
  | .stringObject => "`new String`"
  | .case => "case expressions"
  | .isVoid => "`isvoid`"
  | .builtinMethod owner method =>
    "the built-in method `" ++ owner.display ++ "." ++ Utf8.lossy method ++ "`"

inductive LoweringError where
  | unsupported (what : Unsupported) (span : Span)
  | unknownClass (name : ClassName) (span : Span)
  | unknownMethod (owner : ClassName) (method : Name)
  | unknownName (name : Name)
deriving DecidableEq, Repr

namespace LoweringError

def message : LoweringError → String
  | .unsupported what _ => what.describe ++ " cannot be compiled to Bril"
  | .unknownClass name _ => "unknown class `" ++ name.display ++ "`"
  | .unknownMethod owner method =>
    "class `" ++ owner.display ++ "` does not have a method named `" ++ method.display ++ "`"
  | .unknownName name => "unknown name `" ++ name.display ++ "`"

def span : LoweringError → Span
  | .unsupported _ s | .unknownClass _ s => s
  | .unknownMethod _ name | .unknownName name => name.span

end LoweringError

end Cool
