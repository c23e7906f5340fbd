import Cool.Text.Utf8

/-!
Text that may command a terminal. A control sequence is begun by the escape character, and what
follows says where it ends. Where a text is shown without colours its control sequences are left
out, and so are the control characters that do not lay out text. Layout opens an unfinished
sequence: from there on text is seen, up to the next control character, with which the sequence
goes on.
-/
namespace Cool.Terminal

/-- What the next character belongs to. -/
inductive Part where
  | text
  /-- What stands behind the escape character. -/
  | escape
  /-- The rest of a short sequence. -/
  | short
  /-- A sequence behind `ESC [`, up to its last letter. -/
  | control
  /-- The start of a string to a device, behind `ESC P`. -/
  | device
  /-- The numbers in front of a string to a device. -/
  | deviceNumbers
  /-- The marks between the numbers and the string. -/
  | deviceMarks
  /-- A string to a device or to a program. -/
  | string
  /-- A title or another string behind `ESC ]`, up to a bell. -/
  | title
deriving DecidableEq, Repr

/-- Tab, line feed, form feed and carriage return. -/
def isLayout (c : Char) : Bool := c = '\t' || c = '\n' || c.toNat = 0x0C || c = '\r'

/-- Whether a character is seen where it commands nothing. -/
def isSeen (c : Char) : Bool := isLayout c || 0x20 ≤ c.toNat && c.toNat ≠ 0x7F

def within (low high : Nat) (c : Char) : Bool := low ≤ c.toNat && c.toNat ≤ high

/-- The marks that stand in the middle of a sequence: the blank and others up to `/`. -/
def isMark (c : Char) : Bool := within 0x20 0x2F c

/-- What ends a sequence. -/
def isFinal (c : Char) : Bool := within 0x40 0x7E c

/-- Whether the byte that ends a string to a device is one of those that write `c`. -/
def holdsTerminator (c : Char) : Bool := (Utf8.encode (String.singleton c)).contains 0x9C

namespace Part

/-- Whether layout is seen in the middle of a part. -/
def admitsLayout : Part → Bool
  | .text | .escape | .short | .control => true
  | .device | .deviceNumbers | .deviceMarks | .string | .title => false

/-- What the character behind the escape character begins. -/
def begun (c : Char) : Part :=
  if c = '[' then .control
  else if c = ']' then .title
  else if c = 'P' then .device
  else if c = 'X' || c = '^' || c = '_' then .string
  else if isMark c then .short
  else if within 0x30 0x7E c then .text
  else .escape

/-- What stands behind a character of a part that is not seen. -/
def behind (p : Part) (c : Char) : Part :=
  match p with
  | .text => .text
  | .escape => begun c
  | .short => if within 0x30 0x7E c then .text else .short
  | .control => if isFinal c then .text else .control
  | .device =>
    if isFinal c then .string
    else if isMark c then .deviceMarks
    else if within 0x30 0x3F c then .deviceNumbers
    else .device
  | .deviceNumbers =>
    if isFinal c || within 0x3C 0x3F c then .string
    else if isMark c then .deviceMarks
    else .deviceNumbers
  | .deviceMarks => if isFinal c || within 0x30 0x3F c then .string else .deviceMarks
  | .string => if holdsTerminator c then .text else .string
  | .title => if c.toNat = 0x07 then .text else .title

end Part

/-- A part, and whether layout has opened it, so that text is seen in it. -/
structure State where
  part : Part
  opened : Bool
deriving DecidableEq, Repr

namespace State

def shows (s : State) (c : Char) : Bool :=
  if s.part = .text || s.opened then isSeen c else s.part.admitsLayout && isLayout c

/-- The state behind a character. Cancel and substitute end every sequence, and so does a character
beyond ASCII that is seen in it. The escape character begins one anywhere. -/
def next (s : State) (c : Char) : State :=
  if c.toNat = 0x18 || c.toNat = 0x1A then ⟨.text, false⟩
  else if c.toNat = 0x1B then ⟨.escape, false⟩
  else if s.shows c then ⟨if c.toNat < 0x80 then s.part else .text, true⟩
  else ⟨s.part.behind c, false⟩

end State

/-- What is seen of a text that begins in a state. -/
def shownFrom (s : State) : List Char → List Char
  | [] => []
  | c :: cs => if s.shows c then c :: shownFrom (s.next c) cs else shownFrom (s.next c) cs

/-- What is seen of a text. -/
def shown (s : String) : String := String.ofList (shownFrom ⟨.text, false⟩ s.toList)

end Cool.Terminal
