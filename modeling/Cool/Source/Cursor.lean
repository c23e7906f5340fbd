import Cool.Source.Position

/-!
A reader that stands somewhere in a text. It keeps the bytes ahead, the position of the next one,
and the position of the one read last (the start, while none has been read).
-/
namespace Cool

structure Cursor where
  rest : Bytes
  pos : Position
  last : Position
deriving DecidableEq, Repr

namespace Cursor

/-- A reader at the start of a text. -/
def ofText (file : Option Nat) (text : Bytes) : Cursor := ⟨text, .start file, .start file⟩

/-- The next byte, and the reader behind it. -/
def next? (c : Cursor) : Option (UInt8 × Cursor) :=
  match c.rest with
  | [] => none
  | b :: bs => some (b, ⟨bs, c.pos.after b bs.head?, c.pos⟩)

/-- The reader behind up to `n` bytes. -/
def advance (c : Cursor) : Nat → Cursor
  | 0 => c
  | n + 1 => match c.next? with
    | none => c
    | some (_, d) => d.advance n

def peek? (c : Cursor) : Option UInt8 := c.rest.head?

def startsWith (c : Cursor) (bs : Bytes) : Bool := bs.isPrefixOf c.rest

/-- Reads up to `n` bytes. -/
def take (c : Cursor) (n : Nat) : Bytes × Cursor := (c.rest.take n, c.advance n)

/-- Reads `bs` if it comes next. -/
def takeExact? (c : Cursor) (bs : Bytes) : Option (Bytes × Cursor) :=
  if c.startsWith bs then some (c.take bs.length) else none

/-- Reads the longest run of bytes that satisfy `p`. -/
def takeWhile (c : Cursor) (p : UInt8 → Bool) : Bytes × Cursor :=
  c.take (c.rest.takeWhile p).length

end Cursor

end Cool
