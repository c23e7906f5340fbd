import Cool.Json
import Cool.Text.Quoted

/-!
Values laid out for people. A document says how a value is built, and three layouts write it:
`detailed` names every record and gives each part a line, `compact` leaves the names of records to
the document and keeps wrappers on one line, and `json` has neither wrappers nor names of its own.
The compact layout is refused for values that are nested too deeply.
-/
namespace Cool

inductive Document where
  | none
  | some (value : Document)
  | bool (value : Bool)
  | int (value : Int)
  | text (value : String)
  | bytes (value : Bytes)
  | unit (name : String)
  | wrap (name : String) (value : Document)
  | record (name : String) (fields : List (String × Document))
  | list (items : List Document)
  | map (entries : List (Document × Document))
deriving Inhabited

namespace Document

def margin (depth : Nat) : String := String.ofList (List.replicate (4 * depth) ' ')

def boolText (b : Bool) : String := if b then "true" else "false"

/-- Parts between brackets, one a line, each with a comma; an empty row keeps the brackets
together. -/
def rows (opening closing : String) (depth : Nat) (parts : List String) : String :=
  if parts.isEmpty then opening ++ closing
  else
    opening ++ "\n" ++ String.join (parts.map fun p => margin (depth + 1) ++ p ++ ",\n")
      ++ margin depth ++ closing

mutual

def detailedAt (depth : Nat) : Document → String
  | .none => "None"
  | .some value => rows "Some(" ")" depth [detailedAt (depth + 1) value]
  | .bool value => boolText value
  | .int value => toString value
  | .text value => Quoted.text false value
  | .bytes value => Escaped.bytes value
  | .unit name => name
  | .wrap name value => rows (name ++ "(") ")" depth [detailedAt (depth + 1) value]
  | .record name fields =>
    rows (name ++ " \x7b") "\x7d" depth (detailedFields (depth + 1) fields)
  | .list items => rows "[" "]" depth (detailedItems (depth + 1) items)
  | .map entries => rows "\x7b" "\x7d" depth (detailedEntries (depth + 1) entries)

def detailedItems (depth : Nat) : List Document → List String
  | [] => []
  | d :: ds => detailedAt depth d :: detailedItems depth ds

def detailedFields (depth : Nat) : List (String × Document) → List String
  | [] => []
  | (name, d) :: ds => (name ++ ": " ++ detailedAt depth d) :: detailedFields depth ds

def detailedEntries (depth : Nat) : List (Document × Document) → List String
  | [] => []
  | (k, d) :: ds =>
    (detailedAt depth k ++ ": " ++ detailedAt depth d) :: detailedEntries depth ds

end

/-- Every record by name, every part on a line of its own. -/
def detailed (d : Document) : String := detailedAt 0 d

mutual

def compactAt (depth : Nat) : Document → String
  | .none => "None"
  | .some value => "Some(" ++ compactAt depth value ++ ")"
  | .bool value => boolText value
  | .int value => toString value
  | .text value => Quoted.text true value
  | .bytes value => Escaped.bytes value
  | .unit name => name
  | .wrap name value => name ++ "(" ++ compactAt depth value ++ ")"
  | .record name fields => rows (name ++ "(") ")" depth (compactFields (depth + 1) fields)
  | .list items => rows "[" "]" depth (compactItems (depth + 1) items)
  | .map entries => rows "\x7b" "\x7d" depth (compactEntries (depth + 1) entries)

def compactItems (depth : Nat) : List Document → List String
  | [] => []
  | d :: ds => compactAt depth d :: compactItems depth ds

def compactFields (depth : Nat) : List (String × Document) → List String
  | [] => []
  | (name, d) :: ds => (name ++ ": " ++ compactAt depth d) :: compactFields depth ds

def compactEntries (depth : Nat) : List (Document × Document) → List String
  | [] => []
  | (k, d) :: ds => (compactAt depth k ++ ": " ++ compactAt depth d) :: compactEntries depth ds

end

/-- Records as rows between parentheses, behind the names that the document gives them. -/
def compact (d : Document) : String := compactAt 0 d

mutual

/-- How many brackets and parts of brackets are open at once where that number is largest. A wrapped
value is one level below its wrapper, a part of a row one below the brackets around the row. -/
def nesting : Document → Nat
  | .some value | .wrap _ value => nesting value + 1
  | .record _ fields => nestingFields fields + 1
  | .list items => nestingItems items + 1
  | .map entries => nestingEntries entries + 1
  | .none | .bool _ | .int _ | .text _ | .bytes _ | .unit _ => 0

def nestingItems : List Document → Nat
  | [] => 0
  | d :: ds => max (nesting d + 1) (nestingItems ds)

def nestingFields : List (String × Document) → Nat
  | [] => 0
  | (_, d) :: ds => max (nesting d + 1) (nestingFields ds)

def nestingEntries : List (Document × Document) → Nat
  | [] => 0
  | (k, d) :: ds => max (max (nesting k) (nesting d) + 1) (nestingEntries ds)

end

/-- What the compact layout can nest. -/
def nestingLimit : Nat := 128

/-- The compact layout, of values that are not nested too deeply. -/
def compact? (d : Document) : Option String :=
  if d.nesting ≤ nestingLimit then .some d.compact else .none

/-- A value under its name, if it has one. -/
def named (name : String) (j : Json) : Json := if name.isEmpty then j else .object [(name, j)]

/-- What a document is called where a key is needed. -/
def key : Document → String
  | .text value => value
  | d => d.compact

mutual

def json : Document → Json
  | .none => .null
  | .some value => value.json
  | .bool value => .bool value
  | .int value => .int value
  | .text value => .string value
  | .bytes value => .string (Escaped.bytes value)
  | .unit name => .string name
  | .wrap name value => named name value.json
  | .record name fields => named name (.object (jsonFields fields))
  | .list items => .list (jsonItems items)
  | .map entries => .object (jsonEntries entries)

def jsonItems : List Document → List Json
  | [] => []
  | d :: ds => d.json :: jsonItems ds

def jsonFields : List (String × Document) → List (String × Json)
  | [] => []
  | (name, d) :: ds => (name, d.json) :: jsonFields ds

def jsonEntries : List (Document × Document) → List (String × Json)
  | [] => []
  | (k, d) :: ds => (k.key, d.json) :: jsonEntries ds

end

/-- A value that may be missing. -/
def option {α : Type} (f : α → Document) : Option α → Document
  | .none => .none
  | .some a => .some (f a)

/-- A number. -/
def nat (n : Nat) : Document := .int n

end Document

end Cool
