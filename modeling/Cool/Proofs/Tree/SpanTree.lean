import Cool.Proofs.Tree.Spelling

/-!
Which text the parts of a tree take up. A tree of spans has the parts of a program in the order in
which they are written, down to the tokens. Where every node spans its first to its last token, a
node lies within the one around it and behind those in front of it.
-/
namespace Cool

/-- The parts of a tree as they are written: tokens, and nodes of which the tree knows the span. -/
inductive SpanTree where
  | token (value : TokenValue)
  | node (span : Span) (children : List SpanTree)

namespace SpanTree

def symbol (s : Symbol) : SpanTree := .token (.symbol s)

def span? : SpanTree → Option Span
  | .token _ => none
  | .node s _ => some s

def commas (row : List SpanTree) : List SpanTree := row.intersperse (symbol .comma)

@[simp] theorem commas_nil : commas [] = [] := rfl

@[simp] theorem commas_singleton (l : SpanTree) : commas [l] = [l] := rfl

theorem commas_concat {row : List SpanTree} (h : row ≠ []) (l : SpanTree) :
    commas (row ++ [l]) = commas row ++ [symbol .comma, l] := by
  induction row with
  | nil => exact absurd rfl h
  | cons first row ih =>
    cases row with
    | nil => rfl
    | cons second row =>
      simp only [commas, List.cons_append, List.intersperse_cons_cons] at ih ⊢
      rw [ih (List.cons_ne_nil _ _)]

/-- The same row, where a comma stands behind each but the last. -/
theorem flatMap_comma_concat (row : List SpanTree) (l : SpanTree) :
    (row.flatMap fun r => [r, symbol .comma]) ++ [l] = commas (row ++ [l]) := by
  induction row with
  | nil => rfl
  | cons first row ih =>
    rw [List.flatMap_cons, List.append_assoc, ih]
    cases row <;> rfl

end SpanTree

def Name.spanTree (n : Name) : SpanTree := .node n.span [.token n.word]

def TypeName.spanTree (t : TypeName) : SpanTree := .node t.span [.token t.word]

mutual

def Expr.spanTree : Expr → SpanTree
  | .assign name value s => .node s [name.spanTree, .symbol .arrowLeft, value.spanTree]
  | .selfCall method args s =>
    .node s (method.spanTree :: .symbol .parenLeft ::
      (SpanTree.commas (spanTrees args) ++ [.symbol .parenRight]))
  | .call receiver method args s =>
    .node s (receiver.spanTree :: .symbol .dot :: method.spanTree :: .symbol .parenLeft ::
      (SpanTree.commas (spanTrees args) ++ [.symbol .parenRight]))
  | .staticCall receiver type method args s =>
    .node s (receiver.spanTree :: .symbol .at :: type.spanTree :: .symbol .dot :: method.spanTree ::
      .symbol .parenLeft :: (SpanTree.commas (spanTrees args) ++ [.symbol .parenRight]))
  | .cond test yes no s =>
    .node s [.symbol .kwIf, test.spanTree, .symbol .kwThen, yes.spanTree, .symbol .kwElse,
      no.spanTree, .symbol .kwFi]
  | .loop test body s =>
    .node s [.symbol .kwWhile, test.spanTree, .symbol .kwLoop, body.spanTree, .symbol .kwPool]
  | .block body s =>
    .node s (.symbol .braceLeft :: ((spanTrees body).flatMap (fun e => [e, .symbol .semicolon]) ++
      [.symbol .braceRight]))
  | .letIn bindings body s =>
    .node s (.symbol .kwLet :: (SpanTree.commas (spanTreesOfBindings bindings) ++
      [.symbol .kwIn, body.spanTree]))
  | .case scrutinee arms s =>
    .node s (.symbol .kwCase :: scrutinee.spanTree :: .symbol .kwOf ::
      (spanTreesOfArms arms ++ [.symbol .kwEsac]))
  | .new type s => .node s [.symbol .kwNew, type.spanTree]
  | .binary op left right s => .node s [left.spanTree, .symbol op.symbol, right.spanTree]
  | .unary op operand s => .node s [.symbol op.symbol, operand.spanTree]
  | .name name => name.spanTree
  | .group inner s => .node s [.symbol .parenLeft, inner.spanTree, .symbol .parenRight]
  | .int value s => .node s [.token (.int value)]
  | .string value s => .node s [.token (.string value)]
  | .bool value s => .node s [.symbol (if value then .kwTrue else .kwFalse)]

def spanTrees : List Expr → List SpanTree
  | [] => []
  | e :: es => e.spanTree :: spanTrees es

def spanTreesOfBindings : List (Binding Expr) → List SpanTree
  | [] => []
  | ⟨name, type, some e, s⟩ :: rest =>
    .node s [name.spanTree, .symbol .colon, type.spanTree, .symbol .arrowLeft, e.spanTree] ::
      spanTreesOfBindings rest
  | ⟨name, type, none, s⟩ :: rest =>
    .node s [name.spanTree, .symbol .colon, type.spanTree] :: spanTreesOfBindings rest

def spanTreesOfArms : List (CaseArm Expr) → List SpanTree
  | [] => []
  | ⟨name, type, body, s⟩ :: rest =>
    .node s [name.spanTree, .symbol .colon, type.spanTree, .symbol .implies, body.spanTree,
      .symbol .semicolon] :: spanTreesOfArms rest

end

def Binding.spanTree (b : Binding Expr) : SpanTree :=
  .node b.span (b.name.spanTree :: .symbol .colon :: b.type.spanTree ::
    match b.init with
    | some e => [.symbol .arrowLeft, e.spanTree]
    | none => [])

def CaseArm.spanTree (a : CaseArm Expr) : SpanTree :=
  .node a.span [a.name.spanTree, .symbol .colon, a.type.spanTree, .symbol .implies, a.body.spanTree,
    .symbol .semicolon]

@[simp] theorem spanTrees_eq (es : List Expr) : spanTrees es = es.map Expr.spanTree := by
  induction es with
  | nil => rfl
  | cons e es ih => simp [spanTrees, ih]

@[simp] theorem spanTreesOfBindings_eq (bindings : List (Binding Expr)) :
    spanTreesOfBindings bindings = bindings.map Binding.spanTree := by
  induction bindings with
  | nil => rfl
  | cons b bindings ih =>
    obtain ⟨_, _, init, _⟩ := b
    cases init <;> simp [spanTreesOfBindings, Binding.spanTree, ih]

@[simp] theorem spanTreesOfArms_eq (arms : List (CaseArm Expr)) :
    spanTreesOfArms arms = arms.map CaseArm.spanTree := by
  induction arms with
  | nil => rfl
  | cons a arms ih => simp [spanTreesOfArms, CaseArm.spanTree, ih]

def Formal.spanTree (p : Formal) : SpanTree :=
  .node p.span [p.name.spanTree, .symbol .colon, p.type.spanTree]

def Method.spanTree (m : Method) : SpanTree :=
  .node m.span (m.name.spanTree :: .symbol .parenLeft ::
    (SpanTree.commas (m.params.map Formal.spanTree) ++ [.symbol .parenRight, .symbol .colon,
      m.result.spanTree, .symbol .braceLeft, m.body.spanTree, .symbol .braceRight]))

def Feature.spanTree : Feature → SpanTree
  | .method m => m.spanTree
  | .attribute a => Binding.spanTree a

/-- The node of a class. The semicolons behind its features are its own. -/
def ClassDecl.spanTree (c : ClassDecl) : SpanTree :=
  .node c.span (.symbol .kwClass :: c.name.spanTree ::
    (c.parent.elim [] (fun p => [.symbol .kwInherits, p.spanTree]) ++ .symbol .braceLeft ::
      (c.features.flatMap (fun f => [f.spanTree, .symbol .semicolon]) ++ [.symbol .braceRight])))

/-- The node of a program. The semicolons behind the classes are its own, and the end of the text is
not part of it. -/
def Program.spanTree (p : Program) : SpanTree :=
  .node p.span (p.classes.flatMap fun c => [c.spanTree, .symbol .semicolon])

/-! ## Tokens and spans -/

/-- Whether a span goes from where the first of some tokens starts to where the last one ends. -/
def Covers (s : Span) (ts : List Token) : Prop :=
  ∃ first last, ts.head? = some first ∧ ts.getLast? = some last ∧
    s = ⟨first.span.start, last.span.stop⟩

/-- Whether a row of trees is written with some tokens, each node with the tokens that it covers. -/
inductive Spanned : List SpanTree → List Token → Prop where
  | nil : Spanned [] []
  | token {t : Token} {row : List SpanTree} {ts : List Token} : Spanned row ts →
      Spanned (.token t.value :: row) (t :: ts)
  | node {s : Span} {children row : List SpanTree} {front ts : List Token} : Covers s front →
      Spanned children front → Spanned row ts → Spanned (.node s children :: row) (front ++ ts)

structure Successive (ts : List Token) : Prop where
  wide : ∀ t ∈ ts, t.span.start.byte ≤ t.span.stop.byte
  ordered : ts.Pairwise fun t u =>
    t.span.start.file = u.span.start.file ∧ t.span.stop.byte < u.span.start.byte

def Span.Within (inner outer : Span) : Prop :=
  outer.start.byte ≤ inner.start.byte ∧ inner.start.byte ≤ inner.stop.byte ∧
    inner.stop.byte ≤ outer.stop.byte

/-- Whether all nodes lie within the ones around them, and behind those in front of them. -/
inductive SpanTree.Arranged : SpanTree → Prop where
  | token (value : TokenValue) : Arranged (.token value)
  | node {s : Span} {children : List SpanTree} : (∀ c ∈ children, c.Arranged) →
      (∀ c ∈ children, ∀ t ∈ c.span?, t.Within s) →
      ((children.filterMap span?).Pairwise fun a b => a.stop.byte < b.start.byte) →
      Arranged (.node s children)

namespace Successive

variable {ts us : List Token} {t u : Token}

theorem sublist (h : Successive ts) (sub : us.Sublist ts) : Successive us :=
  ⟨fun t ht => h.wide t (sub.subset ht), h.ordered.sublist sub⟩

theorem head_le (h : Successive ts) (first : ts.head? = some t) (hu : u ∈ ts) :
    t.span.start.file = u.span.start.file ∧ t.span.start.byte ≤ u.span.start.byte := by
  obtain ⟨rest, rfl⟩ := List.head?_eq_some_iff.mp first
  rcases List.mem_cons.mp hu with rfl | hu
  · exact ⟨rfl, Nat.le_refl _⟩
  · obtain ⟨file, before⟩ := List.rel_of_pairwise_cons h.ordered hu
    have := h.wide t (.head _)
    exact ⟨file, by omega⟩

theorem le_last (h : Successive ts) (last : ts.getLast? = some t) (hu : u ∈ ts) :
    u = t ∨ u.span.stop.byte < t.span.stop.byte := by
  obtain ⟨front, rfl⟩ := List.getLast?_eq_some_iff.mp last
  rcases List.mem_append.mp hu with hu | hu
  · obtain ⟨_, before⟩ := (List.pairwise_append.mp h.ordered).2.2 u hu t (.head _)
    have := h.wide t (List.mem_append_right _ (.head _))
    exact .inr (by omega)
  · exact .inl (List.mem_singleton.mp hu)

end Successive

namespace Covers

variable {s a b : Span} {ts : List Token}

theorem singleton (t : Token) : Covers t.span [t] := ⟨t, t, rfl, rfl, rfl⟩

theorem ne_nil (h : Covers s ts) : ts ≠ [] := by
  obtain ⟨first, _, head, _⟩ := h
  rintro rfl
  cases head

/-- The hull of a span that starts where some tokens do and one that stops there covers them. -/
theorem hull (order : Successive ts)
    (starts : ∃ first last, ts.head? = some first ∧ last ∈ ts ∧
      a = ⟨first.span.start, last.span.stop⟩)
    (ends : ∃ first last, first ∈ ts ∧ ts.getLast? = some last ∧
      b = ⟨first.span.start, last.span.stop⟩) : Covers (a.hull b) ts := by
  obtain ⟨f, l, first, inside, rfl⟩ := starts
  obtain ⟨f', l', inside', last, rfl⟩ := ends
  obtain ⟨file, before⟩ := order.head_le first inside'
  refine ⟨f, l', first, last, ?_⟩
  rw [Span.hull, if_pos file, if_pos before]
  rcases order.le_last last inside with rfl | behind
  · rw [if_pos (Nat.le_refl _)]
  · rw [if_neg (Nat.not_le_of_lt behind)]

end Covers

namespace Spanned

variable {row row' : List SpanTree} {ts us : List Token}

theorem append (h : Spanned row ts) (h' : Spanned row' us) : Spanned (row ++ row') (ts ++ us) := by
  induction h with
  | nil => exact h'
  | token _ ih => exact .token ih
  | node covers inner _ _ ih =>
    rw [List.append_assoc, List.cons_append]
    exact .node covers inner ih

theorem ne_nil {l : SpanTree} (h : Spanned (l :: row) ts) : ts ≠ [] := by
  cases h with
  | token => exact List.cons_ne_nil _ _
  | node covers => exact List.append_ne_nil_of_left_ne_nil covers.ne_nil _

/-- A node reaches from one of the tokens to one that is not before it. -/
theorem of_mem {l : SpanTree} {s : Span} (h : Spanned row ts) (order : Successive ts) (hl : l ∈ row)
    (hs : s ∈ l.span?) : s.start.byte ≤ s.stop.byte ∧
      ∃ first ∈ ts, ∃ last ∈ ts, s = ⟨first.span.start, last.span.stop⟩ := by
  induction h with
  | nil => cases hl
  | token _ ih =>
    rcases List.mem_cons.mp hl with rfl | hl
    · cases hs
    · obtain ⟨wide, f, hf, l, hl, same⟩ := ih (order.sublist (List.sublist_cons_self _ _)) hl
      exact ⟨wide, f, .tail _ hf, l, .tail _ hl, same⟩
  | node covers _ _ _ ih =>
    rcases List.mem_cons.mp hl with rfl | hl
    · obtain rfl : _ = s := Option.some.inj hs
      obtain ⟨f, l, first, last, rfl⟩ := covers
      have order := order.sublist (List.sublist_append_left _ _)
      have inside := List.mem_of_getLast? last
      have before := (order.head_le first inside).2
      have wide := order.wide l inside
      exact ⟨Nat.le_trans before wide, f, List.mem_append_left _ (List.mem_of_head? first),
        l, List.mem_append_left _ inside, rfl⟩
    · obtain ⟨wide, f, hf, l, hl, same⟩ := ih (order.sublist (List.sublist_append_right _ _)) hl
      exact ⟨wide, f, List.mem_append_right _ hf, l, List.mem_append_right _ hl, same⟩

/-- Nodes that cover the tokens they are written with are arranged. -/
theorem arranged (h : Spanned row ts) (order : Successive ts) : (∀ l ∈ row, l.Arranged) ∧
    (row.filterMap SpanTree.span?).Pairwise fun a b => a.stop.byte < b.start.byte := by
  induction h with
  | nil => exact ⟨List.forall_mem_nil _, .nil⟩
  | @token t _ _ _ ih =>
    obtain ⟨all, apart⟩ := ih (order.sublist (List.sublist_cons_self _ _))
    exact ⟨List.forall_mem_cons.mpr ⟨.token t.value, all⟩, apart⟩
  | @node s children row front ts covers inner behind ih ih' =>
    have order₁ := order.sublist (List.sublist_append_left front ts)
    have order₂ := order.sublist (List.sublist_append_right front ts)
    have across := (List.pairwise_append.mp order.ordered).2.2
    obtain ⟨all, apart⟩ := ih order₁
    obtain ⟨all', apart'⟩ := ih' order₂
    obtain ⟨f, l, first, last, rfl⟩ := covers
    refine ⟨List.forall_mem_cons.mpr ⟨.node all (fun c hc t ht => ?_) apart, all'⟩,
      List.pairwise_cons.mpr ⟨fun t ht => ?_, apart'⟩⟩
    · obtain ⟨wide, f', hf, l', hl, rfl⟩ := inner.of_mem order₁ hc ht
      refine ⟨(order₁.head_le first hf).2, wide, ?_⟩
      rcases order₁.le_last last hl with rfl | before
      · exact Nat.le_refl _
      · exact Nat.le_of_lt before
    · obtain ⟨c, hc, ht⟩ := List.mem_filterMap.mp ht
      obtain ⟨_, f', hf, _, _, rfl⟩ := behind.of_mem order₂ hc ht
      exact (across l (List.mem_of_getLast? last) f' hf).2

end Spanned

/-! ## Rows that are put together -/

def Spans (row : List SpanTree) (ts : List Token) : Prop := Successive ts → Spanned row ts

def Span.StartsWith (s : Span) (ts : List Token) : Prop :=
  Successive ts → ∃ first last, ts.head? = some first ∧ last ∈ ts ∧
    s = ⟨first.span.start, last.span.stop⟩

def Span.StopsWith (s : Span) (ts : List Token) : Prop :=
  Successive ts → ∃ first last, first ∈ ts ∧ ts.getLast? = some last ∧
    s = ⟨first.span.start, last.span.stop⟩

structure SpansTo (s : Span) (row : List SpanTree) (ts : List Token) : Prop where
  spans : Spans row ts
  stops : s.StopsWith ts

section

variable {s a b : Span} {l : SpanTree} {row row' children : List SpanTree} {ts us : List Token}
  {t : Token}

theorem Span.StartsWith.token (t : Token) (ts : List Token) : t.span.StartsWith (t :: ts) :=
  fun _ => ⟨t, t, rfl, .head _, rfl⟩

theorem Span.StartsWith.append (h : s.StartsWith ts) (us : List Token) :
    s.StartsWith (ts ++ us) := by
  intro order
  obtain ⟨first, last, head, mem, same⟩ := h (order.sublist (List.sublist_append_left _ _))
  exact ⟨first, last, by simp [head], List.mem_append_left _ mem, same⟩

theorem Span.StopsWith.token (t : Token) : t.span.StopsWith [t] :=
  fun _ => ⟨t, t, .head _, rfl, rfl⟩

theorem Span.StopsWith.append (h : s.StopsWith us) (ts : List Token) : s.StopsWith (ts ++ us) := by
  intro order
  obtain ⟨first, last, mem, final, same⟩ := h (order.sublist (List.sublist_append_right _ _))
  exact ⟨first, last, List.mem_append_right _ mem, by simp [final], same⟩

namespace Spans

theorem nil : Spans [] [] := fun _ => .nil

theorem append (h : Spans row ts) (h' : Spans row' us) : Spans (row ++ row') (ts ++ us) :=
  fun order => (h (order.sublist (List.sublist_append_left _ _))).append
    (h' (order.sublist (List.sublist_append_right _ _)))

theorem cons (h : Spans [l] ts) (h' : Spans row us) : Spans (l :: row) (ts ++ us) := h.append h'

theorem symbol {s : Symbol} (ht : t.value = .symbol s) (h : Spans row ts) :
    Spans (.symbol s :: row) (t :: ts) := by
  intro order
  rw [SpanTree.symbol, ← ht]
  exact .token (h (order.sublist (List.sublist_cons_self _ _)))

theorem word {v : TokenValue} (value : t.value = v) (span : t.span = s) (h : Spans row ts) :
    Spans (.node s [.token v] :: row) (t :: ts) := by
  subst value span
  exact fun order => .node (.singleton t) (.token .nil)
    (h (order.sublist (List.sublist_cons_self _ _)))

theorem ne_nil (h : Spans (l :: row) ts) : ts ≠ [] := by
  rintro rfl
  exact (h ⟨List.forall_mem_nil _, .nil⟩).ne_nil rfl

theorem covers (h : Spans [.node s children] ts) (order : Successive ts) : Covers s ts := by
  cases h order with
  | node covers _ behind =>
    cases behind
    rwa [List.append_nil]

theorem starts (h : Spans (.node s children :: row) ts) : s.StartsWith ts := by
  intro order
  cases h order with
  | node covers _ _ =>
    obtain ⟨first, last, head, final, same⟩ := covers
    exact ⟨first, last, by simp [head], List.mem_append_left _ (List.mem_of_getLast? final), same⟩

theorem ends (h : Spans [.node s children] ts) : s.StopsWith ts := by
  intro order
  obtain ⟨first, last, head, final, same⟩ := h.covers order
  exact ⟨first, last, List.mem_of_head? head, final, same⟩

end Spans

namespace SpansTo

theorem append (h : Spans row ts) (h' : SpansTo s row' us) :
    SpansTo s (row ++ row') (ts ++ us) :=
  ⟨h.append h'.spans, h'.stops.append ts⟩

theorem cons (h : Spans [l] ts) (h' : SpansTo s row us) : SpansTo s (l :: row) (ts ++ us) :=
  append h h'

theorem symbol {x : Symbol} (ht : t.value = .symbol x) (h : SpansTo s row ts) :
    SpansTo s (.symbol x :: row) (t :: ts) :=
  ⟨.symbol ht h.spans, h.stops.append [t]⟩

theorem last {x : Symbol} (ht : t.value = .symbol x) : SpansTo t.span [.symbol x] [t] :=
  ⟨.symbol ht .nil, .token t⟩

theorem word {v : TokenValue} (value : t.value = v) (span : t.span = a) (h : SpansTo s row ts) :
    SpansTo s (.node a [.token v] :: row) (t :: ts) :=
  ⟨.word value span h.spans, h.stops.append [t]⟩

theorem lastWord {v : TokenValue} (value : t.value = v) (span : t.span = a) :
    SpansTo a [.node a [.token v]] [t] :=
  ⟨.word value span .nil, span ▸ .token t⟩

end SpansTo

/-- The node over a row from where it starts to where it stops. -/
theorem Spans.hull (h : SpansTo b row ts) (starts : a.StartsWith ts) :
    Spans [.node (a.hull b) row] ts := by
  intro order
  have node := Spanned.node (.hull order (starts order) (h.stops order)) (h.spans order) .nil
  rwa [List.append_nil] at node

end

end Cool
