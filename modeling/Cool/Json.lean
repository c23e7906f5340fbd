import Cool.Text.Escaped

/-!
JSON values and their text. A list or an object with contents takes a line for each, two blanks
further in; an empty one is a pair of brackets.
-/
namespace Cool

inductive Json where
  | null
  | bool (value : Bool)
  | int (value : Int)
  | string (value : String)
  | list (items : List Json)
  | object (fields : List (String × Json))
deriving Inhabited

namespace Json

/-- A list of texts. -/
def strings (ss : List String) : Json := .list (ss.map .string)

/-- Quotes, backslashes and the control characters are escaped, the latter by a letter where there
is one. -/
def charText (c : Char) : String :=
  if c = '"' then "\\\""
  else if c = '\\' then "\\\\"
  else if c = '\n' then "\\n"
  else if c = '\r' then "\\r"
  else if c = '\t' then "\\t"
  else if c.toNat = 0x08 then "\\b"
  else if c.toNat = 0x0C then "\\f"
  else if c.toNat < 0x20 then "\\u00" ++ Escaped.hexByte c.toNat.toUInt8
  else String.singleton c

def quoted (s : String) : String := "\"" ++ String.join (s.toList.map charText) ++ "\""

def margin (depth : Nat) : String := String.ofList (List.replicate (2 * depth) ' ')

/-- Items between brackets, one a line. -/
def bracketed (opening closing : String) (depth : Nat) (items : List String) : String :=
  if items.isEmpty then opening ++ closing
  else
    opening ++ "\n" ++ ",\n".intercalate (items.map (margin (depth + 1) ++ ·)) ++ "\n"
      ++ margin depth ++ closing

mutual

/-- The text of a value that stands `depth` levels in. -/
def textAt (depth : Nat) : Json → String
  | .null => "null"
  | .bool true => "true"
  | .bool false => "false"
  | .int value => toString value
  | .string value => quoted value
  | .list items => bracketed "[" "]" depth (itemTexts (depth + 1) items)
  | .object fields => bracketed "\x7b" "\x7d" depth (fieldTexts (depth + 1) fields)

def itemTexts (depth : Nat) : List Json → List String
  | [] => []
  | j :: js => textAt depth j :: itemTexts depth js

def fieldTexts (depth : Nat) : List (String × Json) → List String
  | [] => []
  | (key, j) :: js => (quoted key ++ ": " ++ textAt depth j) :: fieldTexts depth js

end

def text (j : Json) : String := textAt 0 j

end Json

end Cool
