import Cool.Source.Files
import Cool.Token.Scan
import Cool.Tree.Reader

/-!
Reading programs. Operators bind, loosest first: `not`, comparisons, sums, products, `isvoid`, `~`.
Sums and products associate to the left and comparisons do not associate; an operator that stands
in front is taken where it binds at least as tightly as its place demands, and nothing follows
the operand of a `not` there. Expressions nest at most `nestingLimit` deep, where parentheses, the
parts of a construct, arguments, the right side of an assignment and the operand of a leading
operator each lie one level further in.
-/
namespace Cool

def nestingLimit : Nat := 32

/-- How tightly operators bind. -/
inductive Strength where
  | lowest | not | comparison | sum | product | isVoid | complement
deriving DecidableEq, Repr

namespace Strength

def rank : Strength → Nat
  | .lowest => 0
  | .not => 1
  | .comparison => 2
  | .sum => 3
  | .product => 4
  | .isVoid => 5
  | .complement => 6

/-- How many kinds of binary operators bind more tightly. -/
def tighter : Strength → Nat
  | .lowest | .not => 3
  | .comparison => 2
  | .sum => 1
  | .product | .isVoid | .complement => 0

end Strength

def BinaryOp.strength : BinaryOp → Strength
  | .lessThan | .lessEquals | .equals => .comparison
  | .add | .subtract => .sum
  | .multiply | .divide => .product

def UnaryOp.strength : UnaryOp → Strength
  | .not => .not
  | .isVoid => .isVoid
  | .complement => .complement

namespace Parse

open Reader

/-- The contents of an identifier. -/
def ident : Reader (Bytes × Span) := do
  let t ← kind .ident
  match t.value with
  | .ident name => pure (name, t.span)
  | _ => fail (.unexpected [.ident] t)

def objectName : Reader Name := do
  let (text, span) ← ident
  if text.head?.any isUpper then fail (.uppercaseName ⟨text, span⟩) else pure ⟨text, span⟩

def typeName : Reader TypeName := do
  let (text, span) ← ident
  if text.head?.any isLower then fail (.lowercaseTypeName ⟨text, span⟩) else pure ⟨text, span⟩

/-- The readers of what lies one level further in: a whole expression, or an operand whose binary
operators all bind tighter than a strength. -/
structure Inner where
  whole : Reader Expr
  operand : Strength → Reader Expr

def binaryOp? : Option TokenKind → Option BinaryOp
  | some (.symbol s) => BinaryOp.ofSymbol? s
  | _ => none

def unaryOp? : Option TokenKind → Option UnaryOp
  | some (.symbol s) => UnaryOp.ofSymbol? s
  | _ => none

/-- A method name with its arguments, and the closing parenthesis. -/
def callTail (inner : Inner) : Reader (Name × List Expr × Token) := do
  let method ← objectName
  let _ ← symbol .parenLeft
  let (args, paren) ← commaSeparated inner.whole
  pure (method, args, paren)

/-- A name, its type, and perhaps a first value, behind the name. -/
def bindingOf (inner : Inner) (name : Name) : Reader (Binding Expr) := do
  let _ ← symbol .colon
  let type ← typeName
  match ← symbol? .arrowLeft with
  | some _ =>
    let init ← inner.whole
    pure ⟨name, type, some init, name.span.hull init.span⟩
  | none => pure ⟨name, type, none, name.span.hull type.span⟩

def conditional (inner : Inner) : Reader Expr := do
  let first ← symbol .kwIf
  let test ← inner.whole
  let _ ← symbol .kwThen
  let yes ← inner.whole
  let _ ← symbol .kwElse
  let no ← inner.whole
  let last ← symbol .kwFi
  pure (.cond test yes no (first.span.hull last.span))

def whileLoop (inner : Inner) : Reader Expr := do
  let first ← symbol .kwWhile
  let test ← inner.whole
  let _ ← symbol .kwLoop
  let body ← inner.whole
  let last ← symbol .kwPool
  pure (.loop test body (first.span.hull last.span))

def blockBody (inner : Inner) : Reader (List Expr × Token) :=
  repeating (fun found => do
    let e ← inner.whole
    let _ ← symbol .semicolon
    match ← symbol? .braceRight with
    | some brace => pure (.stop ((e :: found).reverse, brace))
    | none => pure (.more (e :: found))) []

def block (inner : Inner) : Reader Expr := do
  let first ← symbol .braceLeft
  let (body, last) ← blockBody inner
  pure (.block body (first.span.hull last.span))

def letBindings (inner : Inner) : Reader (List (Binding Expr)) :=
  repeating (fun found => do
    let name ← objectName
    let b ← bindingOf inner name
    match ← symbol? .kwIn with
    | some _ => pure (.stop (b :: found).reverse)
    | none =>
      let _ ← symbol .comma
      pure (.more (b :: found))) []

def letIn (inner : Inner) : Reader Expr := do
  let first ← symbol .kwLet
  let bindings ← letBindings inner
  let body ← inner.whole
  pure (.letIn bindings body (first.span.hull body.span))

def caseArm (inner : Inner) : Reader (CaseArm Expr) := do
  let name ← objectName
  let _ ← symbol .colon
  let type ← typeName
  let _ ← symbol .implies
  let body ← inner.whole
  let last ← symbol .semicolon
  pure ⟨name, type, body, name.span.hull last.span⟩

def caseArms (inner : Inner) : Reader (List (CaseArm Expr) × Token) :=
  repeating (fun found => do
    let arm ← caseArm inner
    match ← symbol? .kwEsac with
    | some last => pure (.stop ((arm :: found).reverse, last))
    | none => pure (.more (arm :: found))) []

def caseOf (inner : Inner) : Reader Expr := do
  let first ← symbol .kwCase
  let scrutinee ← inner.whole
  let _ ← symbol .kwOf
  let (arms, last) ← caseArms inner
  pure (.case scrutinee arms (first.span.hull last.span))

def newObject : Reader Expr := do
  let first ← symbol .kwNew
  let type ← typeName
  pure (.new type (first.span.hull type.span))

def group (inner : Inner) : Reader Expr := do
  let first ← symbol .parenLeft
  let e ← inner.whole
  let last ← symbol .parenRight
  pure (.group e (first.span.hull last.span))

/-- A name, or a call of a method of the object at hand. -/
def nameOrCall (inner : Inner) : Reader Expr := do
  if (← second?) = some (.symbol .parenLeft) then
    let (method, args, paren) ← callTail inner
    pure (.selfCall method args (method.span.hull paren.span))
  else
    let name ← objectName
    pure (.name name)

def intLiteral : Reader Expr := do
  let t ← kind .int
  match t.value with
  | .int i => pure (.int i t.span)
  | _ => fail (.unexpected [.int] t)

def stringLiteral : Reader Expr := do
  let t ← kind .string
  match t.value with
  | .string s => pure (.string s t.span)
  | _ => fail (.unexpected [.string] t)

def boolLiteral : Reader Expr := do
  let t ← oneOf [.symbol .kwTrue, .symbol .kwFalse]
  pure (.bool (t.kind = .symbol .kwTrue) t.span)

/-- What an atom may start with. -/
def atomStarts : List TokenKind :=
  [.symbol .kwIf, .symbol .kwWhile, .symbol .braceLeft, .symbol .kwLet, .symbol .kwCase,
   .symbol .kwNew, .symbol .parenLeft, .ident, .int, .string, .symbol .kwTrue, .symbol .kwFalse]

def atom (inner : Inner) : Reader Expr := do
  match ← head? with
  | some (.symbol .kwIf) => conditional inner
  | some (.symbol .kwWhile) => whileLoop inner
  | some (.symbol .braceLeft) => block inner
  | some (.symbol .kwLet) => letIn inner
  | some (.symbol .kwCase) => caseOf inner
  | some (.symbol .kwNew) => newObject
  | some (.symbol .parenLeft) => group inner
  | some .ident => nameOrCall inner
  | some .int => intLiteral
  | some .string => stringLiteral
  | some (.symbol .kwTrue) => boolLiteral
  | some (.symbol .kwFalse) => boolLiteral
  | _ => expected atomStarts

/-- An atom with the calls made on it in turn. -/
def dispatch (inner : Inner) : Reader Expr := do
  let object ← atom inner
  repeating (fun object => do
    match ← symbol? .dot with
    | some _ =>
      let (method, args, paren) ← callTail inner
      pure (.more (.call object method args (object.span.hull paren.span)))
    | none =>
      match ← symbol? .at with
      | some _ =>
        let type ← typeName
        let _ ← symbol .dot
        let (method, args, paren) ← callTail inner
        pure (.more (.staticCall object type method args (object.span.hull paren.span)))
      | none => pure (.stop object)) object

/-- A dispatch, or a leading operator that binds at least as tightly as `min` with its operand. The
flag tells whether that operator is `not`. -/
def leading (inner : Inner) (min : Strength) : Reader (Expr × Bool) := do
  match (unaryOp? (← head?)).filter fun op => min.rank ≤ op.strength.rank with
  | some op =>
    let t ← symbol op.symbol
    let e ← inner.operand op.strength
    pure (.unary op e (t.span.hull e.span), op = .not)
  | none =>
    let e ← dispatch inner
    pure (e, false)

/-- An expression whose binary operators all bind tighter than `min`; `n` is `min.tighter` or more,
and is used up as the strength rises. -/
def climb (inner : Inner) : Nat → Strength → Reader Expr
  | 0, min => do
    let (e, _) ← leading inner min
    pure e
  | n + 1, min => do
    let (e, negated) ← leading inner min
    if negated then
      pure e
    else
      repeating (fun (left, compared) => do
        match binaryOp? (← head?) with
        | none => pure (.stop left)
        | some op =>
          let isComparison := op.strength = .comparison
          if op.strength.rank ≤ min.rank || (isComparison && compared) then
            pure (.stop left)
          else
            let _ ← symbol op.symbol
            let right ← climb inner n op.strength
            pure (.more (.binary op left right (left.span.hull right.span),
              compared || isComparison))) (e, false)

def operand (inner : Inner) (min : Strength) : Reader Expr := climb inner min.tighter min

/-- An assignment or an operator expression. -/
def whole (inner : Inner) : Reader Expr := do
  if (← head?) = some .ident && (← second?) = some (.symbol .arrowLeft) then
    let name ← objectName
    let _ ← symbol .arrowLeft
    let value ← inner.whole
    pure (.assign name value (name.span.hull value.span))
  else
    operand inner .lowest

/-- The readers one level further in, from a level that begins at `start` and has `depth` levels
below it. -/
def innerAt : Nat → Position → Inner
  | 0, start =>
    let refuse : Reader Expr := do fail (.nestedTooDeeply ⟨start, ← here⟩)
    ⟨refuse, fun _ => refuse⟩
  | depth + 1, _ =>
    ⟨do whole (innerAt depth (← here)), fun min => do operand (innerAt depth (← here)) min⟩

/-- The reader of an expression that no expression contains. -/
def outermost : Inner := innerAt nestingLimit (.start none)

def formal : Reader Formal := do
  let name ← objectName
  let _ ← symbol .colon
  let type ← typeName
  pure ⟨name, type, name.span.hull type.span⟩

def methodOf (name : Name) : Reader Method := do
  let _ ← symbol .parenLeft
  let (params, _) ← commaSeparated formal
  let _ ← symbol .colon
  let result ← typeName
  let _ ← symbol .braceLeft
  let body ← outermost.whole
  let last ← symbol .braceRight
  pure ⟨name, params, result, body, name.span.hull last.span⟩

def feature : Reader Feature := do
  let name ← objectName
  match ← head? with
  | some (.symbol .parenLeft) => .method <$> methodOf name
  | some (.symbol .colon) => .attribute <$> bindingOf outermost name
  | _ => expected [.symbol .parenLeft, .symbol .colon]

def features : Reader (List Feature × Token) :=
  repeating (fun found => do
    match ← symbol? .braceRight with
    | some last => pure (.stop (found.reverse, last))
    | none =>
      let f ← feature
      let _ ← symbol .semicolon
      pure (.more (f :: found))) []

def classDecl : Reader ClassDecl := do
  let first ← symbol .kwClass
  let name ← typeName
  let parent ← match ← symbol? .kwInherits with
    | some _ => some <$> typeName
    | none => pure none
  let _ ← symbol .braceLeft
  let (features, last) ← features
  pure ⟨name, parent, features, first.span.hull last.span⟩

/-- Classes, each closed by a semicolon, up to the end of the text. -/
def program : Reader Program :=
  repeating (fun found => do
    let c ← classDecl
    let semicolon ← symbol .semicolon
    let classes := c :: found
    match ← kind? .eof with
    | some _ =>
      let first := classes.getLastD c
      pure (.stop ⟨classes.reverse, first.span.hull semicolon.span⟩)
    | none => pure (.more classes)) []

end Parse

/-- The program that a row of items writes. -/
def parse (items : List ScanItem) : Except ParseError Program := do
  let (program, _) ← Parse.program.run items
  pure program

/-- The program in a file. -/
def parseFile (number : Nat) (file : SourceFile) : Except ParseError Program :=
  parse (scan (.ofText (some number) file.text))

end Cool
