import Cool.Text.Bytes

/-!
Reading bytes as UTF-8. A character is begun by its first byte, which says how many more are owed
and in which range the next one lies. A byte outside that range ends the character short: what was
read of it is one ill-formed part, and the byte begins anew. So every longest part that could have
become a character counts as one fault.
-/
namespace Cool.Utf8

/-- A character that has been begun: its bits so far, the bytes owed, and the range of the next. -/
structure Begun where
  bits : Nat
  owed : Nat
  low : UInt8
  high : UInt8

/-- What a first byte begins: a character that is complete, one that owes bytes, or nothing. -/
inductive Lead where
  | whole (c : Char)
  | begun (b : Begun)
  | stray

def lead (b : UInt8) : Lead :=
  let n := b.toNat
  if n < 0x80 then .whole (Char.ofNat n)
  else if n < 0xC2 then .stray
  else if n < 0xE0 then .begun ⟨n - 0xC0, 1, 0x80, 0xBF⟩
  else if n = 0xE0 then .begun ⟨0, 2, 0xA0, 0xBF⟩
  else if n = 0xED then .begun ⟨0xD, 2, 0x80, 0x9F⟩
  else if n < 0xF0 then .begun ⟨n - 0xE0, 2, 0x80, 0xBF⟩
  else if n = 0xF0 then .begun ⟨0, 3, 0x90, 0xBF⟩
  else if n < 0xF4 then .begun ⟨n - 0xF0, 3, 0x80, 0xBF⟩
  else if n = 0xF4 then .begun ⟨4, 3, 0x80, 0x8F⟩
  else .stray

/-- The characters of `bs` after what has been begun; `none` stands for an ill-formed part. -/
def decodeAfter : Option Begun → Bytes → List (Option Char)
  | none, [] => []
  | some _, [] => [none]
  | some p, b :: bs =>
    if p.low ≤ b && b ≤ p.high then
      let bits := p.bits * 64 + (b.toNat - 0x80)
      if p.owed = 1 then some (Char.ofNat bits) :: decodeAfter none bs
      else decodeAfter (some ⟨bits, p.owed - 1, 0x80, 0xBF⟩) bs
    else match lead b with
      | .whole c => none :: some c :: decodeAfter none bs
      | .begun q => none :: decodeAfter (some q) bs
      | .stray => none :: none :: decodeAfter none bs
  | none, b :: bs => match lead b with
      | .whole c => some c :: decodeAfter none bs
      | .begun q => decodeAfter (some q) bs
      | .stray => none :: decodeAfter none bs

def decode (bs : Bytes) : List (Option Char) := decodeAfter none bs

def isValid (bs : Bytes) : Bool := (decode bs).all Option.isSome

/-- The text of `bs`, with the replacement character for every ill-formed part. -/
def lossy (bs : Bytes) : String := String.ofList ((decode bs).map (·.getD '\uFFFD'))

/-- The bytes that write a text. -/
def encode (s : String) : Bytes := s.toUTF8.toList

end Cool.Utf8
