import Cool.Text.Escaped
import Cool.Text.Unprinted

/-!
Text between double quotes, in which every character that is not seen, or not seen alone, is
escaped.
-/
namespace Cool.Quoted

/-- One character between quotes; `single` tells whether single quotes are escaped too. -/
def charText (single : Bool) (c : Char) : String :=
  if c.toNat = 0 then "\\0"
  else if c = '\t' then "\\t"
  else if c = '\r' then "\\r"
  else if c = '\n' then "\\n"
  else if c = '"' then "\\\""
  else if c.toNat = 0x27 then if single then "\\'" else String.singleton c
  else if c = '\\' then "\\\\"
  else if c.toNat < 0x20 || c.toNat = 0x7F || Unprinted.contains c then
    "\\u\x7b" ++ Escaped.hex c.toNat ++ "\x7d"
  else String.singleton c

def text (single : Bool) (s : String) : String :=
  "\"" ++ String.join (s.toList.map (charText single)) ++ "\""

end Cool.Quoted
