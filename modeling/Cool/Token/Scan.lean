import Cool.Source.Cursor
import Cool.Token.Basic

/-!
Splitting a text into tokens. A text is a row of pieces: blanks and comments, tokens, and at most
one fault at its end. `piece` tells the first piece of the bytes ahead by its length alone, so that
positions come only from moving the reader over it. The longest symbol wins, comments nest, and a
string keeps its meaning after escapes.
-/
namespace Cool.Scan

/-- The first piece of a text. A fault ends `upto` bytes into it and takes up `length` bytes. -/
inductive Piece where
  | done
  | trivia (length : Nat)
  | token (value : TokenValue) (length : Nat)
  | fault (f : LexFault) (upto length : Nat)
deriving DecidableEq, Repr

def isBlank (c : UInt8) : Bool :=
  c = byte ' ' || c = byte '\n' || c = 0x0C || c = byte '\r' || c = byte '\t' || c = 0x0B

def isNameByte (c : UInt8) : Bool := isLetter c || isDigit c || c = byte '_'

/-- The largest integer a literal may have. -/
def maxInt : Nat := 0x7FFFFFFFFFFFFFFF

/-- A number, if it is not too large for a literal. -/
def fitting? (n : Nat) : Option Nat := if n ≤ maxInt then some n else none

/-- The number `n` with one more digit. It is too large as soon as a step to it is. -/
def addDigit? (n : Nat) (digit : UInt8) : Option Nat := do
  let tens ← fitting? (n * 10)
  fitting? (tens + (digit - byte '0').toNat)

def number (bs : Bytes) : Piece :=
  let digits := bs.takeWhile isDigit
  match digits.foldlM addDigit? 0 with
  | some n => .token (.int n) digits.length
  | none => .fault .numberTooLarge (digits.length - 1) digits.length

/-- Keywords are read in any case, but the truth values begin with a lowercase letter. -/
def keyword? (word : Bytes) : Option Symbol :=
  match Symbol.ofBytes? (word.map toLower) with
  | some s =>
    if (s = .kwTrue || s = .kwFalse) && !(word.head?.any isLower) then none else some s
  | none => none

def word (bs : Bytes) : Piece :=
  let w := bs.takeWhile isNameByte
  match keyword? w with
  | some s => .token (.symbol s) w.length
  | none => .token (.ident w) w.length

/-- What a byte behind a backslash means. -/
def unescape (c : UInt8) : UInt8 :=
  if c = byte 'b' then 0x08
  else if c = byte 't' then byte '\t'
  else if c = byte 'n' then byte '\n'
  else if c = byte 'f' then 0x0C
  else c

/-- Reads a string from behind its opening quote, `offset` bytes of the text `raw` being read. The
value is a part of `raw` as long as no escape is read, and then goes on in `copy`, in reverse. `nul`
tells where the first NUL byte ends the piece; that a string does not end is worse than that. -/
def stringFrom (raw : Bytes) (offset : Nat) (copy : Option Bytes) (nul : Option Nat) :
    Bytes → Piece
  | [] => .fault .unterminatedString (offset + 1) (offset + 1)
  | c :: rest =>
    if c = byte '"' then
      match nul with
      | some k => .fault (.unrecognizedCharacter 0) k (offset + 2)
      | none => .token (.string ((copy.map List.reverse).getD (raw.take offset))) (offset + 2)
    else if c = byte '\n' then .fault .unterminatedString (offset + 1) (offset + 1)
    else if c = byte '\\' then
      match rest with
      | [] => .fault .unterminatedString (offset + 2) (offset + 2)
      | e :: rest =>
        stringFrom raw (offset + 2) (some (unescape e :: copy.getD (raw.take offset).reverse))
          (nul <|> if e = 0 then some (offset + 2) else none) rest
    else
      stringFrom raw (offset + 1) (copy.map (c :: ·))
        (nul <|> if c = 0 then some (offset + 1) else none) rest

/-- A string, from behind its opening quote. -/
def string (text : Bytes) : Piece := stringFrom text 0 none none text

/-- Reads a comment from inside it, `depth` more comments being open around it, and tells the
offset behind the outermost end. -/
def commentFrom (offset depth : Nat) : Bytes → Option Nat
  | a :: b :: rest =>
    if a = byte '(' && b = byte '*' then commentFrom (offset + 2) (depth + 1) rest
    else if a = byte '*' && b = byte ')' then
      match depth with
      | 0 => some (offset + 2)
      | d + 1 => commentFrom (offset + 2) d rest
    else commentFrom (offset + 1) depth (b :: rest)
  | _ => none

/-- A block comment. -/
def comment (bs : Bytes) : Piece :=
  match commentFrom 2 0 (bs.drop 2) with
  | some n => .trivia n
  | none => .fault .unterminatedComment bs.length bs.length

/-- A comment up to the end of its line, the line feed included. -/
def lineComment (bs : Bytes) : Piece :=
  .trivia (min ((bs.takeWhile (· ≠ byte '\n')).length + 1) bs.length)

def symbol (c : UInt8) (bs : Bytes) : Piece :=
  match Symbol.leading? bs with
  | some s => .token (.symbol s) s.bytes.length
  | none => .fault (.unrecognizedCharacter c) 0 0

def piece : Bytes → Piece
  | [] => .done
  | c :: rest =>
    let bs := c :: rest
    if (ascii "--").isPrefixOf bs then lineComment bs
    else if (ascii "(*").isPrefixOf bs then comment bs
    else if isBlank c then .trivia (bs.takeWhile isBlank).length
    else if c = byte '"' then string rest
    else if isDigit c then number bs
    else if isLetter c then word bs
    else symbol c bs

/-- The pieces ahead of a reader, each with the reader before it. Every piece but the last takes up
a byte, so as many rounds as there are bytes, and one, are enough. -/
def piecesFrom : Nat → Cursor → List (Cursor × Piece)
  | 0, _ => []
  | rounds + 1, c =>
    match piece c.rest with
    | .trivia n => (c, .trivia n) :: piecesFrom rounds (c.advance n)
    | .token v n => (c, .token v n) :: piecesFrom rounds (c.advance n)
    | p => [(c, p)]

def pieces (c : Cursor) : List (Cursor × Piece) := piecesFrom (c.rest.length + 1) c

/-- What a piece contributes. A token ends at its last byte. -/
def item? : Cursor × Piece → Option ScanItem
  | (c, .done) => some (.ok ⟨.eof, ⟨c.pos, c.pos⟩⟩)
  | (_, .trivia _) => none
  | (c, .token v n) => some (.ok ⟨v, ⟨c.pos, (c.advance n).last⟩⟩)
  | (c, .fault f upto _) => some (.error ⟨f, ⟨c.pos, (c.advance upto).pos⟩⟩)

/-- Where the reader stands behind a piece. -/
def behind : Cursor × Piece → Cursor
  | (c, .done) => c
  | (c, .trivia n) => c.advance n
  | (c, .token _ n) => c.advance n
  | (c, .fault _ _ n) => c.advance n

end Cool.Scan

namespace Cool

/-- The tokens of what is ahead of a reader, and what ends them. -/
def scan (c : Cursor) : List ScanItem := (Scan.pieces c).filterMap Scan.item?

/-- Where scanning stops. -/
def scanStop (c : Cursor) : Cursor :=
  match (Scan.pieces c).getLast? with
  | some p => Scan.behind p
  | none => c

end Cool
