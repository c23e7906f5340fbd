import Cool.Tree.Basic

/-!
Why a row of tokens is not a program.
-/
namespace Cool

inductive ParseError where
  | unexpected (expected : List TokenKind) (actual : Token)
  | uppercaseName (name : TypeName)
  | lowercaseTypeName (name : Name)
  | nestedTooDeeply (span : Span)
  | lexical (e : LexError)
  /-- The items stop before the end of a text or a fault; no scanned text does. -/
  | cutShort

namespace ParseError

/-- What was expected, as texts in alphabetical order. -/
def expectedTexts (expected : List TokenKind) : List String :=
  (expected.map TokenKind.describe).mergeSort fun a b => !(b < a)

/-- Alternatives, the last two joined by `or`. -/
def alternatives : List String → String
  | [] => ""
  | [a] => " (expected " ++ a ++ ")"
  | [a, b] => " (expected " ++ a ++ " or " ++ b ++ ")"
  | texts => " (expected " ++ ", ".intercalate texts.dropLast ++ ", or " ++ texts.getLastD "" ++ ")"

def message : ParseError → String
  | .unexpected expected actual =>
    "encountered an unexpected token: " ++ actual.kind.describe
      ++ alternatives (expectedTexts expected)
  | .uppercaseName name =>
    "an object name cannot start with an uppercase letter: `" ++ name.display ++ "`"
  | .lowercaseTypeName name =>
    "a type name cannot start with a lowercase letter: `" ++ name.display ++ "`"
  | .nestedTooDeeply _ => "a recursion limit has been reached while parsing"
  | .lexical e => e.message
  | .cutShort => "the tokens stop before the end of the text"

def span : ParseError → Span
  | .unexpected _ actual => actual.span
  | .uppercaseName name => name.span
  | .lowercaseTypeName name => name.span
  | .nestedTooDeeply s => s
  | .lexical e => e.span
  | .cutShort => .unknown

end ParseError

end Cool
