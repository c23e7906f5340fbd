import Cool.Source.Position
import Cool.Text.Escaped
import Cool.Text.Utf8
import Cool.Token.Symbol

/-!
Tokens, the kinds a reader may ask for, and the faults that end a text early.
-/
namespace Cool

/-- What a token stands for. Strings are held with their escapes replaced. -/
inductive TokenValue where
  | int (value : Int)
  | symbol (s : Symbol)
  | ident (name : Bytes)
  | string (value : Bytes)
  | eof
deriving DecidableEq, Repr, Inhabited

structure Token where
  value : TokenValue
  span : Span
deriving DecidableEq, Repr, Inhabited

/-- A token without its contents. -/
inductive TokenKind where
  | int
  | symbol (s : Symbol)
  | ident
  | string
  | eof
deriving DecidableEq, Repr

def TokenValue.kind : TokenValue → TokenKind
  | .int _ => .int
  | .symbol s => .symbol s
  | .ident _ => .ident
  | .string _ => .string
  | .eof => .eof

def Token.kind (t : Token) : TokenKind := t.value.kind

def TokenKind.describe : TokenKind → String
  | .int => "an integer literal"
  | .symbol s => if s.category = .keyword then "keyword " ++ s.quoted else s.quoted
  | .ident => "an identifier"
  | .string => "a string literal"
  | .eof => "the end of file"

def TokenValue.display : TokenValue → String
  | .int i => toString i
  | .symbol s => s.quoted
  | .ident name => "`" ++ Utf8.lossy name ++ "`"
  | .string value => Escaped.bytes value
  | .eof => "<eof>"

/-- Why a text cannot be split into tokens. -/
inductive LexFault where
  | numberTooLarge
  | unterminatedComment
  | unterminatedString
  | unrecognizedCharacter (c : UInt8)
deriving DecidableEq, Repr

def LexFault.message : LexFault → String
  | .numberTooLarge => "the number literal is too large"
  | .unterminatedComment => "the block comment is not terminated"
  | .unterminatedString => "the string is not terminated"
  | .unrecognizedCharacter c =>
    let shown := if isGraphic c then String.singleton (Char.ofNat c.toNat)
      else "\\x" ++ Escaped.hexByte c
    "encountered an unrecognized character '" ++ shown ++ "'"

structure LexError where
  fault : LexFault
  span : Span
deriving DecidableEq, Repr

def LexError.message (e : LexError) : String := "lexical analysis failed: " ++ e.fault.message

/-- What scanning yields one after another: tokens, the last of them the end of the text, or the
fault that stops it. -/
abbrev ScanItem := Except LexError Token

end Cool
