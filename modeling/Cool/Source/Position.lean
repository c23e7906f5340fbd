import Cool.Text.Bytes

/-!
Places in program text. A position knows the number of its file, counted from one, the byte offset
from zero, and line and column from one. Columns count characters: the bytes that continue a
UTF-8 character take no column. A line ends at a line feed, a carriage return, or both together.
-/
namespace Cool

structure Position where
  file : Option Nat
  byte : Nat
  line : Nat
  col : Nat
deriving DecidableEq, Repr, Inhabited

namespace Position

/-- The first place of a text. -/
def start (file : Option Nat) : Position := ⟨file, 0, 1, 1⟩

def isContinuation (c : UInt8) : Bool := c &&& 0xC0 == 0x80

/-- The place after reading `c`, when `following` comes next. A carriage return before a line feed
leaves the line break to it. -/
def after (p : Position) (c : UInt8) (following : Option UInt8) : Position :=
  if c = Cool.byte '\r' && following == some (Cool.byte '\n') then { p with byte := p.byte + 1 }
  else if c = Cool.byte '\n' || c = Cool.byte '\r' then ⟨p.file, p.byte + 1, p.line + 1, 1⟩
  else if isContinuation c then { p with byte := p.byte + 1 }
  else { p with byte := p.byte + 1, col := p.col + 1 }

end Position

/-- A stretch of text, both ends included. -/
structure Span where
  start : Position
  stop : Position
deriving DecidableEq, Repr, Inhabited

namespace Span

/-- The span of text that is nowhere. -/
def unknown : Span := ⟨.start none, .start none⟩

/-- The smallest span over two spans of one file. Of two files the first span wins, and so do its
ends where both spans have the same. -/
def hull (a b : Span) : Span :=
  if a.start.file = b.start.file then
    ⟨if a.start.byte ≤ b.start.byte then a.start else b.start,
     if b.stop.byte ≤ a.stop.byte then a.stop else b.stop⟩
  else a

/-- Lines and columns, the line once when both ends share it. -/
def place (s : Span) : String :=
  if s.start.line = s.stop.line then s!"{s.start.line}:{s.start.col}-{s.stop.col}"
  else s!"{s.start.line}:{s.start.col}-{s.stop.line}:{s.stop.col}"

end Span

end Cool
