import Cool.Proofs.Tree.WellFormed

/-!
How a tree is written: the values of the tokens of its parts in their order, with the keywords and
the punctuation that each form has. The end of the text is not part of it.
-/
namespace Cool

/-- Rows of tokens, with a comma before each but the first. -/
def separated : List (List TokenValue) → List TokenValue
  | [] => []
  | row :: rows => row ++ rows.flatMap (.symbol .comma :: ·)

theorem separated_concat {rows : List (List TokenValue)} (h : rows ≠ []) (row : List TokenValue) :
    separated (rows ++ [row]) = separated rows ++ .symbol .comma :: row := by
  cases rows with
  | nil => exact absurd rfl h
  | cons first rows => simp [separated]

/-- The same row, where a comma stands behind each but the last. -/
theorem flatMap_comma (rows : List (List TokenValue)) (row : List TokenValue) :
    rows.flatMap (· ++ [.symbol .comma]) ++ row = separated (rows ++ [row]) := by
  induction rows with
  | nil => simp [separated]
  | cons first rows ih =>
    cases rows with
    | nil => simp [separated]
    | cons second rows =>
      rw [List.flatMap_cons, List.append_assoc, ih]
      simp [separated]

def Name.word (n : Name) : TokenValue := .ident n.text

def TypeName.word (t : TypeName) : TokenValue := .ident t.text

mutual

def Expr.spelling : Expr → List TokenValue
  | .assign name value _ => name.word :: .symbol .arrowLeft :: value.spelling
  | .selfCall method args _ =>
    method.word :: .symbol .parenLeft :: (separated (spellings args) ++ [.symbol .parenRight])
  | .call receiver method args _ =>
    receiver.spelling ++ .symbol .dot :: method.word :: .symbol .parenLeft ::
      (separated (spellings args) ++ [.symbol .parenRight])
  | .staticCall receiver type method args _ =>
    receiver.spelling ++ .symbol .at :: type.word :: .symbol .dot :: method.word ::
      .symbol .parenLeft :: (separated (spellings args) ++ [.symbol .parenRight])
  | .cond test yes no _ =>
    .symbol .kwIf :: (test.spelling ++ .symbol .kwThen :: (yes.spelling ++ .symbol .kwElse ::
      (no.spelling ++ [.symbol .kwFi])))
  | .loop test body _ =>
    .symbol .kwWhile :: (test.spelling ++ .symbol .kwLoop :: (body.spelling ++ [.symbol .kwPool]))
  | .block body _ =>
    .symbol .braceLeft :: ((spellings body).flatMap (· ++ [.symbol .semicolon]) ++
      [.symbol .braceRight])
  | .letIn bindings body _ =>
    .symbol .kwLet :: (separated (spellingsOfBindings bindings) ++ .symbol .kwIn :: body.spelling)
  | .case scrutinee arms _ =>
    .symbol .kwCase :: (scrutinee.spelling ++ .symbol .kwOf :: ((spellingsOfArms arms).flatten ++
      [.symbol .kwEsac]))
  | .new type _ => [.symbol .kwNew, type.word]
  | .binary op left right _ => left.spelling ++ .symbol op.symbol :: right.spelling
  | .unary op operand _ => .symbol op.symbol :: operand.spelling
  | .name name => [name.word]
  | .group inner _ => .symbol .parenLeft :: (inner.spelling ++ [.symbol .parenRight])
  | .int value _ => [.int value]
  | .string value _ => [.string value]
  | .bool value _ => [.symbol (if value then .kwTrue else .kwFalse)]

def spellings : List Expr → List (List TokenValue)
  | [] => []
  | e :: es => e.spelling :: spellings es

def spellingsOfBindings : List (Binding Expr) → List (List TokenValue)
  | [] => []
  | ⟨name, type, some e, _⟩ :: rest =>
    (name.word :: .symbol .colon :: type.word :: .symbol .arrowLeft :: e.spelling) ::
      spellingsOfBindings rest
  | ⟨name, type, none, _⟩ :: rest =>
    [name.word, .symbol .colon, type.word] :: spellingsOfBindings rest

def spellingsOfArms : List (CaseArm Expr) → List (List TokenValue)
  | [] => []
  | ⟨name, type, body, _⟩ :: rest =>
    (name.word :: .symbol .colon :: type.word :: .symbol .implies ::
      (body.spelling ++ [.symbol .semicolon])) :: spellingsOfArms rest

end

def Binding.spelling (b : Binding Expr) : List TokenValue :=
  b.name.word :: .symbol .colon :: b.type.word ::
    match b.init with
    | some e => .symbol .arrowLeft :: e.spelling
    | none => []

def CaseArm.spelling (a : CaseArm Expr) : List TokenValue :=
  a.name.word :: .symbol .colon :: a.type.word :: .symbol .implies ::
    (a.body.spelling ++ [.symbol .semicolon])

@[simp] theorem spellings_eq (es : List Expr) : spellings es = es.map Expr.spelling := by
  induction es with
  | nil => rfl
  | cons e es ih => simp [spellings, ih]

@[simp] theorem spellingsOfBindings_eq (bindings : List (Binding Expr)) :
    spellingsOfBindings bindings = bindings.map Binding.spelling := by
  induction bindings with
  | nil => rfl
  | cons b bindings ih =>
    obtain ⟨_, _, init, _⟩ := b
    cases init <;> simp [spellingsOfBindings, Binding.spelling, ih]

@[simp] theorem spellingsOfArms_eq (arms : List (CaseArm Expr)) :
    spellingsOfArms arms = arms.map CaseArm.spelling := by
  induction arms with
  | nil => rfl
  | cons a arms ih => simp [spellingsOfArms, CaseArm.spelling, ih]

def Formal.spelling (p : Formal) : List TokenValue := [p.name.word, .symbol .colon, p.type.word]

def Method.spelling (m : Method) : List TokenValue :=
  m.name.word :: .symbol .parenLeft :: (separated (m.params.map Formal.spelling) ++
    .symbol .parenRight :: .symbol .colon :: m.result.word :: .symbol .braceLeft ::
      (m.body.spelling ++ [.symbol .braceRight]))

def Feature.spelling : Feature → List TokenValue
  | .method m => m.spelling
  | .attribute a => Binding.spelling a

def ClassDecl.spelling (c : ClassDecl) : List TokenValue :=
  .symbol .kwClass :: c.name.word :: (c.parent.elim [] (fun p => [.symbol .kwInherits, p.word]) ++
    .symbol .braceLeft :: (c.features.flatMap (·.spelling ++ [.symbol .semicolon]) ++
      [.symbol .braceRight]))

def Program.spelling (p : Program) : List TokenValue :=
  p.classes.flatMap (·.spelling ++ [.symbol .semicolon])

def TokenKind.starts (k : TokenKind) : Bool :=
  k = .ident || k = .int || k = .string ||
    k ∈ ([.kwIf, .kwWhile, .braceLeft, .kwLet, .kwCase, .kwNew, .parenLeft, .kwTrue, .kwFalse,
      .kwNot, .kwIsVoid, .tilde] : List Symbol).map .symbol

theorem Expr.spelling_eq_cons (e : Expr) : ∃ v vs, e.spelling = v :: vs ∧ v.kind.starts = true := by
  induction e with
  | call _ _ _ _ ih | staticCall _ _ _ _ _ ih | binary _ _ _ _ ih _ =>
    obtain ⟨v, vs, h, hv⟩ := ih
    exact ⟨v, _, by rw [spelling, h]; rfl, hv⟩
  | unary op => cases op <;> exact ⟨_, _, by rw [spelling], by decide⟩
  | bool value => cases value <;> exact ⟨_, _, by rw [spelling], by decide⟩
  | _ => exact ⟨_, _, by rw [spelling], rfl⟩

end Cool
