/-!
Byte strings. Program text, names and string values are lists of bytes; no encoding is assumed
until one of them is shown. The letter and digit classes know ASCII alone: every other byte is in
none of them.
-/
namespace Cool

abbrev Bytes := List UInt8

/-- The byte of an ASCII character. -/
def byte (c : Char) : UInt8 := c.toNat.toUInt8

/-- The bytes of a text of ASCII characters. -/
def ascii (s : String) : Bytes := s.toList.map byte

def isDigit (c : UInt8) : Bool := byte '0' ≤ c && c ≤ byte '9'

def isUpper (c : UInt8) : Bool := byte 'A' ≤ c && c ≤ byte 'Z'

def isLower (c : UInt8) : Bool := byte 'a' ≤ c && c ≤ byte 'z'

def isLetter (c : UInt8) : Bool := isUpper c || isLower c

def toLower (c : UInt8) : UInt8 := if isUpper c then c + 32 else c

/-- Printable and not a blank. -/
def isGraphic (c : UInt8) : Bool := byte '!' ≤ c && c ≤ byte '~'

end Cool
