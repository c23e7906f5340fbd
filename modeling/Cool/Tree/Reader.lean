import Cool.Tree.ParseError

/-!
Reading items in order: the steps that programs and expressions are read with. A step that looks
at the next item and finds a fault there stops with it; only `head?` and `second?`, which decide
between two ways to go on, take a fault for no match.
-/
namespace Cool

/-- A reader of items: what it makes of the first of them and the items it leaves. -/
abbrev Reader := StateT (List ScanItem) (Except ParseError)

namespace Reader

def fail {α : Type} (e : ParseError) : Reader α := fun _ => .error e

/-- Takes the next token if its kind is one of `kinds`. -/
def oneOf (kinds : List TokenKind) : Reader Token
  | [] => .error .cutShort
  | .error e :: _ => .error (.lexical e)
  | .ok t :: rest => if t.kind ∈ kinds then .ok (t, rest) else .error (.unexpected kinds t)

def kind (k : TokenKind) : Reader Token := oneOf [k]

def symbol (s : Symbol) : Reader Token := oneOf [.symbol s]

/-- Takes the next token if it is of kind `k`, and leaves it otherwise. -/
def kind? (k : TokenKind) : Reader (Option Token)
  | [] => .error .cutShort
  | .error e :: _ => .error (.lexical e)
  | .ok t :: rest => if t.kind = k then .ok (some t, rest) else .ok (none, .ok t :: rest)

def symbol? (s : Symbol) : Reader (Option Token) := kind? (.symbol s)

/-- The kind of the next token, which stays. -/
def head? : Reader (Option TokenKind)
  | .ok t :: rest => .ok (some t.kind, .ok t :: rest)
  | items => .ok (none, items)

/-- The kind of the token after the next, which stays. -/
def second? : Reader (Option TokenKind)
  | i :: .ok t :: rest => .ok (some t.kind, i :: .ok t :: rest)
  | items => .ok (none, items)

/-- Fails at the next token, in whose place one of `kinds` was expected. -/
def expected {α : Type} (kinds : List TokenKind) : Reader α
  | [] => .error .cutShort
  | .error e :: _ => .error (.lexical e)
  | .ok t :: _ => .error (.unexpected kinds t)

/-- Where the next item starts. -/
def here : Reader Position
  | [] => .error .cutShort
  | .error e :: rest => .ok (e.span.start, .error e :: rest)
  | .ok t :: rest => .ok (t.span.start, .ok t :: rest)

/-- The outcome of a round: go on with a new state, or stop with a result. -/
inductive Round (α β : Type) where
  | more (state : α)
  | stop (result : β)

/-- Rounds of `step`, at most one more than `bound` has items. -/
def rounds {α β : Type} (step : α → Reader (Round α β)) (bound : List ScanItem) (a : α) :
    Reader β := do
  match ← step a with
  | .stop b => pure b
  | .more a => match bound with
    | [] => fail .cutShort
    | _ :: bound => rounds step bound a

/-- Repeats `step` until it stops. Every round but the last takes an item, so the items left bound
the rounds. -/
def repeating {α β : Type} (step : α → Reader (Round α β)) (a : α) : Reader β :=
  fun items => rounds step items a items

/-- Items between commas up to a closing parenthesis, with that parenthesis. -/
def commaSeparated {α : Type} (item : Reader α) : Reader (List α × Token) :=
  repeating (fun found => do
    match ← symbol? .parenRight with
    | some paren => pure (.stop (found.reverse, paren))
    | none =>
      if !found.isEmpty then
        let _ ← symbol .comma
      let x ← item
      pure (.more (x :: found))) []

end Reader

end Cool
