import Cool.Dump.Tree

/-!
Scanned items as documents.
-/
namespace Cool.Dump

open Document (nat)

def tokenValue : TokenValue → Document
  | .int i => .wrap "Int" (.int i)
  | .symbol s => .wrap "Symbol" (.unit s.name)
  | .ident name => .wrap "Ident" (.bytes name)
  | .string value => .wrap "String" (.bytes value)
  | .eof => .unit "Eof"

def token (t : Token) : Document :=
  .record "Token" [("span", fullSpan t.span), ("value", tokenValue t.value)]

def lexFault : LexFault → Document
  | .numberTooLarge => .unit "NumberTooLarge"
  | .unterminatedComment => .unit "UnterminatedComment"
  | .unterminatedString => .unit "UnterminatedString"
  | .unrecognizedCharacter c => .wrap "UnrecognizedCharacter" (nat c.toNat)

def lexError (e : LexError) : Document :=
  .record "LexerError" [("span", fullSpan e.span), ("kind", lexFault e.fault)]

def scanItem : ScanItem → Document
  | .ok t => .wrap "Ok" (token t)
  | .error e => .wrap "Err" (lexError e)

def scanItems (items : List ScanItem) : Document := .list (items.map scanItem)

end Cool.Dump
