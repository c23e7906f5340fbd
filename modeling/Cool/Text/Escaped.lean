import Cool.Text.Bytes

/-!
Bytes and characters written with escapes, for texts that are read by people or by tools.
-/
namespace Cool.Escaped

def hexDigit (n : Nat) : Char :=
  if n < 10 then Char.ofNat (48 + n) else Char.ofNat (87 + n)

/-- Lowercase hexadecimal digits of `n`, no more than it needs. -/
def hex (n : Nat) : String := String.ofList (Nat.toDigits 16 n)

/-- Two hexadecimal digits. -/
def hexByte (b : UInt8) : String :=
  String.ofList [hexDigit (b.toNat / 16), hexDigit (b.toNat % 16)]

/-- Quotes and the backslash stand behind a backslash, tab, carriage return and line feed have a
letter, and other bytes that ASCII does not print are two hexadecimal digits. -/
def byteText (b : UInt8) : String :=
  if b = byte '\t' then "\\t"
  else if b = byte '\r' then "\\r"
  else if b = byte '\n' then "\\n"
  else if b = 0x27 then "\\'"
  else if b = byte '"' then "\\\""
  else if b = byte '\\' then "\\\\"
  else if b = byte ' ' || isGraphic b then String.singleton (Char.ofNat b.toNat)
  else "\\x" ++ hexByte b

/-- A byte string between quotes, behind the letter `b`. -/
def bytes (bs : Bytes) : String := "b\"" ++ String.join (bs.map byteText) ++ "\""

end Cool.Escaped
