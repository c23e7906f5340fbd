import Cool.Proofs.Token.Scanning
import Cool.Proofs.Tree.Faithful
import Cool.Proofs.Tree.SpanTree

/-!
Where what is read was written. Each reader returns a tree whose nodes cover the tokens that they
were read from, and which nests no deeper than the levels that the reader had left.
-/
namespace Cool

structure Made (limit : Nat) (ts : List Token) (e : Expr) : Prop where
  spans : Spans [e.spanTree] ts
  levels : e.levels < limit

theorem Expr.spanTree_eq (e : Expr) : ∃ children, e.spanTree = .node e.span children := by
  cases e <;> exact ⟨_, by rw [spanTree]; rfl⟩

namespace Made

variable {limit : Nat} {ts : List Token} {e : Expr}

theorem starts (h : Made limit ts e) : e.span.StartsWith ts := by
  obtain ⟨children, node⟩ := e.spanTree_eq
  exact (node ▸ h.spans : Spans [.node e.span children] ts).starts

theorem upTo (h : Made limit ts e) : SpansTo e.span [e.spanTree] ts := by
  obtain ⟨children, node⟩ := e.spanTree_eq
  exact ⟨h.spans, (node ▸ h.spans : Spans [.node e.span children] ts).ends⟩

end Made

namespace Parse

open Reader

variable {items : List ScanItem}

theorem places_ident : Reads items ident fun ts r _ =>
    ∃ t : Token, ts = [t] ∧ t.value = .ident r.1 ∧ t.span = r.2 := by
  refine (reads_oneOf [.ident] (by simp)).bind ?_
  rintro _ t rest ⟨rfl, _⟩
  split
  · rename_i value
    exact reads_pure ⟨t, rfl, value, rfl⟩
  · exact reads_fail (by simp)

theorem places_objectName : Reads items objectName fun ts n _ =>
    ∃ t : Token, ts = [t] ∧ t.value = n.word ∧ t.span = n.span := by
  refine places_ident.bind ?_
  rintro ts ⟨text, span⟩ rest h
  dsimp only
  split
  · exact reads_fail (by simp)
  · exact reads_pure (by rw [List.append_nil]; exact h)

theorem places_typeName : Reads items typeName fun ts n _ =>
    ∃ t : Token, ts = [t] ∧ t.value = n.word ∧ t.span = n.span := by
  refine places_ident.bind ?_
  rintro ts ⟨text, span⟩ rest h
  dsimp only
  split
  · exact reads_fail (by simp)
  · exact reads_pure (by rw [List.append_nil]; exact h)

theorem places_commaSeparated {α : Type} {item : Reader α} {tree : α → SpanTree} {P : α → Prop}
    (h : ∀ {items}, Reads items item fun ts a _ => Spans [tree a] ts ∧ P a) :
    Reads items (commaSeparated item) fun ts r _ =>
      SpansTo r.2.span (SpanTree.commas (r.1.map tree) ++ [.symbol .parenRight]) ts ∧
        ∀ a ∈ r.1, P a := by
  refine reads_repeating (I := fun ts found _ =>
    Spans (SpanTree.commas (found.reverse.map tree)) ts ∧ ∀ a ∈ found, P a)
    ⟨by simpa using Spans.nil, by simp⟩ ?_
  rintro before found rest ⟨spans, holds⟩
  refine .symbol? (fun paren _ hp _ => reads_pure
    ⟨.append spans (.last hp), by simpa using holds⟩) fun _ => ?_
  dsimp only
  split
  · rename_i nonempty
    refine .symbol fun comma _ hc => h.bind fun ts x _ hx => reads_pure ⟨by simp, ?_,
      List.forall_mem_cons.mpr ⟨hx.2, holds⟩⟩
    have others : found.reverse.map tree ≠ [] := by simpa using nonempty
    rw [List.reverse_cons, List.map_append, List.map_singleton, SpanTree.commas_concat others,
      List.append_nil]
    exact spans.append (.symbol hc hx.1)
  · rename_i empty
    obtain rfl : found = [] := by simpa using empty
    refine h.bind fun ts x _ hx => reads_pure ⟨?_, ?_, List.forall_mem_cons.mpr ⟨hx.2, holds⟩⟩
    · simpa using hx.1.ne_nil
    · simpa using spans.append hx.1

structure Inner.Places (inner : Inner) (limit : Nat) : Prop where
  whole : ∀ {items}, Reads items inner.whole fun ts e _ => Made limit ts e
  operand : ∀ {items} min, Reads items (inner.operand min) fun ts e _ => Made limit ts e

variable {inner : Inner} {limit : Nat} (hi : inner.Places limit)
include hi

theorem places_callTail : Reads items (callTail inner) fun ts r _ =>
    SpansTo r.2.2.span (r.1.spanTree :: .symbol .parenLeft ::
      (SpanTree.commas (r.2.1.map Expr.spanTree) ++ [.symbol .parenRight])) ts ∧
    r.1.span.StartsWith ts ∧ levelsOf r.2.1 ≤ limit := by
  have item {items : List ScanItem} : Reads items inner.whole fun ts e _ =>
      Spans [e.spanTree] ts ∧ e.levels < limit :=
    hi.whole.imp fun _ _ _ h => ⟨h.spans, h.levels⟩
  refine places_objectName.bind ?_
  rintro _ method _ ⟨m, rfl, word, span⟩
  refine .symbol fun paren _ hp => (places_commaSeparated item).bind
    fun ts r _ ⟨spans, levels⟩ => reads_pure ?_
  rw [List.append_nil]
  exact ⟨.word word span (.symbol hp spans), span ▸ .token m _, levelsOf_le.mpr levels⟩

/-- What comes behind the name of a binding, which is a token `t` in front. -/
theorem places_bindingOf {name : Name} {t : Token} (word : t.value = name.word)
    (span : t.span = name.span) : Reads items (bindingOf inner name) fun ts b _ =>
      Spans [Binding.spanTree b] (t :: ts) ∧ ∀ e ∈ b.init, e.levels < limit := by
  have front (ts : List Token) : name.span.StartsWith (t :: ts) := span ▸ .token t ts
  refine .symbol fun c _ hc => places_typeName.bind ?_
  rintro _ type _ ⟨u, rfl, word', span'⟩
  refine .symbol? (fun a _ ha _ => hi.whole.bind fun _ init _ h => reads_pure ⟨?_, ?_⟩) fun _ =>
    reads_pure ⟨?_, by simp⟩
  · rw [List.append_nil]
    exact .hull (.word word span (.symbol hc (.word word' span' (.symbol ha h.upTo)))) (front _)
  · simpa using h.levels
  · exact .hull (.word word span (.symbol hc (.lastWord word' span'))) (front _)

theorem places_conditional : Reads items (conditional inner) fun ts e _ =>
    Made (limit + 1) ts e := by
  refine .symbol fun t _ h₁ => hi.whole.bind fun _ test _ ht => .symbol fun _ _ h₂ =>
    hi.whole.bind fun _ yes _ hy => .symbol fun _ _ h₃ => hi.whole.bind fun _ no _ hn =>
      .symbol fun _ _ h₄ => reads_pure ⟨?_, ?_⟩
  · exact .hull (.symbol h₁ (.cons ht.spans (.symbol h₂ (.cons hy.spans (.symbol h₃
      (.cons hn.spans (.last h₄))))))) (.token t _)
  · have := ht.levels
    have := hy.levels
    have := hn.levels
    rw [Expr.levels]
    omega

theorem places_whileLoop : Reads items (whileLoop inner) fun ts e _ => Made (limit + 1) ts e := by
  refine .symbol fun t _ h₁ => hi.whole.bind fun _ test _ ht => .symbol fun _ _ h₂ =>
    hi.whole.bind fun _ body _ hb => .symbol fun _ _ h₃ => reads_pure ⟨?_, ?_⟩
  · exact .hull (.symbol h₁ (.cons ht.spans (.symbol h₂ (.cons hb.spans (.last h₃)))))
      (.token t _)
  · have := ht.levels
    have := hb.levels
    rw [Expr.levels]
    omega

theorem places_blockBody : Reads items (blockBody inner) fun ts r _ =>
    SpansTo r.2.span ((r.1.map Expr.spanTree).flatMap (fun e => [e, .symbol .semicolon]) ++
      [.symbol .braceRight]) ts ∧ ∀ e ∈ r.1, e.levels < limit := by
  refine reads_repeating (I := fun ts found _ =>
    Spans ((found.reverse.map Expr.spanTree).flatMap fun e => [e, .symbol .semicolon]) ts ∧
      ∀ e ∈ found, e.levels < limit) ⟨by simpa using Spans.nil, by simp⟩ ?_
  rintro before found rest ⟨spans, levels⟩
  refine hi.whole.bind fun ts e _ he => .symbol fun s _ hs => ?_
  have all : ∀ x ∈ e :: found, x.levels < limit := List.forall_mem_cons.mpr ⟨he.levels, levels⟩
  have more := spans.append (he.spans.cons (.symbol hs .nil))
  refine .symbol? (fun b _ hb _ => reads_pure ⟨?_, ?_⟩) fun _ => reads_pure ⟨by simp, ?_, all⟩
  · simpa using SpansTo.append more (.last hb)
  · exact fun x hx => all x (List.mem_reverse.mp hx)
  · simpa using more

theorem places_block : Reads items (block inner) fun ts e _ => Made (limit + 1) ts e := by
  refine .symbol fun t _ h => (places_blockBody hi).bind fun ts r _ ⟨spans, levels⟩ =>
    reads_pure ⟨?_, ?_⟩
  · rw [List.append_nil, Expr.spanTree, spanTrees_eq]
    exact .hull (.symbol h spans) (.token t _)
  · rw [Expr.levels]
    exact Nat.lt_succ_of_le (levelsOf_le.mpr levels)

theorem places_letBindings : Reads items (letBindings inner) fun ts bindings _ =>
    Spans (SpanTree.commas (bindings.map Binding.spanTree) ++ [.symbol .kwIn]) ts ∧
      ∀ b ∈ bindings, ∀ e ∈ b.init, e.levels < limit := by
  refine reads_repeating (I := fun ts found _ =>
    Spans ((found.reverse.map Binding.spanTree).flatMap fun b => [b, .symbol .comma]) ts ∧
      ∀ b ∈ found, ∀ e ∈ b.init, e.levels < limit) ⟨by simpa using Spans.nil, by simp⟩ ?_
  rintro before found rest ⟨spans, levels⟩
  refine places_objectName.bind ?_
  rintro _ name _ ⟨t, rfl, word, span⟩
  refine (places_bindingOf hi word span).bind fun ts b _ hb => ?_
  have all : ∀ x ∈ b :: found, ∀ e ∈ x.init, e.levels < limit :=
    List.forall_mem_cons.mpr ⟨hb.2, levels⟩
  refine .symbol? (fun i _ h₁ _ => reads_pure ⟨?_, ?_⟩) fun _ => .symbol fun c _ h₂ =>
    reads_pure ⟨by simp, ?_, all⟩
  · have row := SpanTree.flatMap_comma_concat (found.reverse.map Binding.spanTree) b.spanTree
    have more := (spans.append hb.1).append (.symbol h₁ .nil)
    rw [row] at more
    simpa using more
  · exact fun x hx => all x (List.mem_reverse.mp hx)
  · simpa using spans.append (hb.1.cons (.symbol h₂ .nil))

theorem places_letIn : Reads items (letIn inner) fun ts e _ => Made (limit + 1) ts e := by
  refine .symbol fun t _ h => (places_letBindings hi).bind fun ts bindings _ ⟨spans, levels⟩ =>
    hi.whole.bind fun us body _ hb => reads_pure ⟨?_, ?_⟩
  · have row := SpansTo.append (.symbol h spans) hb.upTo
    rw [List.append_nil, Expr.spanTree, spanTreesOfBindings_eq]
    refine .hull ?_ (.token t _)
    simpa using row
  · have := levelsOfBindings_le.mpr levels
    have := hb.levels
    rw [Expr.levels]
    omega

theorem places_caseArm : Reads items (caseArm inner) fun ts a _ =>
    Spans [a.spanTree] ts ∧ a.body.levels < limit := by
  refine places_objectName.bind ?_
  rintro _ name _ ⟨t, rfl, word, span⟩
  refine .symbol fun _ _ h₁ => places_typeName.bind ?_
  rintro _ type _ ⟨u, rfl, word', span'⟩
  refine .symbol fun _ _ h₂ => hi.whole.bind fun _ body _ hb => .symbol fun _ _ h₃ =>
    reads_pure ⟨?_, hb.levels⟩
  exact .hull (.word word span (.symbol h₁ (.word word' span' (.symbol h₂ (.cons hb.spans
    (.last h₃)))))) (span ▸ .token t _)

theorem places_caseArms : Reads items (caseArms inner) fun ts r _ =>
    SpansTo r.2.span (r.1.map CaseArm.spanTree ++ [.symbol .kwEsac]) ts ∧
      ∀ a ∈ r.1, a.body.levels < limit := by
  refine reads_repeating (I := fun ts found _ =>
    Spans (found.reverse.map CaseArm.spanTree) ts ∧ ∀ a ∈ found, a.body.levels < limit)
    ⟨by simpa using Spans.nil, by simp⟩ ?_
  rintro before found rest ⟨spans, levels⟩
  refine (places_caseArm hi).bind fun ts arm _ ha => ?_
  have all : ∀ x ∈ arm :: found, x.body.levels < limit := List.forall_mem_cons.mpr ⟨ha.2, levels⟩
  refine .symbol? (fun t _ h _ => reads_pure ⟨?_, ?_⟩) fun _ => reads_pure ⟨?_, ?_, all⟩
  · simpa using SpansTo.append spans (.cons ha.1 (.last h))
  · exact fun x hx => all x (List.mem_reverse.mp hx)
  · simpa using ha.1.ne_nil
  · simpa using spans.append ha.1

theorem places_caseOf : Reads items (caseOf inner) fun ts e _ => Made (limit + 1) ts e := by
  refine .symbol fun t _ h₁ => hi.whole.bind fun _ scrutinee _ hs => .symbol fun _ _ h₂ =>
    (places_caseArms hi).bind fun _ r _ ⟨spans, levels⟩ => reads_pure ⟨?_, ?_⟩
  · rw [List.append_nil, Expr.spanTree, spanTreesOfArms_eq]
    exact .hull (.symbol h₁ (.cons hs.spans (.symbol h₂ spans))) (.token t _)
  · have := levelsOfArms_le.mpr levels
    have := hs.levels
    rw [Expr.levels]
    omega

omit hi in
theorem places_newObject : Reads items newObject fun ts e _ => Made (limit + 1) ts e := by
  refine .symbol fun t _ h => places_typeName.bind ?_
  rintro _ type _ ⟨u, rfl, word, span⟩
  refine reads_pure ⟨?_, Nat.succ_pos limit⟩
  exact .hull (.symbol h (.lastWord word span)) (.token t _)

theorem places_group : Reads items (group inner) fun ts e _ => Made (limit + 1) ts e := by
  refine .symbol fun t _ h₁ => hi.whole.bind fun _ e _ he => .symbol fun _ _ h₂ =>
    reads_pure ⟨?_, Nat.succ_lt_succ he.levels⟩
  exact .hull (.symbol h₁ (.cons he.spans (.last h₂))) (.token t _)

theorem places_nameOrCall (first : next items = some .ident) :
    Reads items (nameOrCall inner) fun ts e _ => Made (limit + 1) ts e := by
  refine .second? first nofun ?_
  split
  · refine (places_callTail hi).bind fun ts r _ ⟨spans, starts, levels⟩ => reads_pure ⟨?_, ?_⟩
    · rw [List.append_nil, Expr.spanTree, spanTrees_eq]
      exact .hull spans starts
    · rw [Expr.levels]
      exact Nat.lt_succ_of_le levels
  · refine places_objectName.bind ?_
    rintro _ name _ ⟨t, rfl, word, span⟩
    exact reads_pure ⟨.word word span .nil, Nat.succ_pos limit⟩

omit hi in
theorem places_intLiteral : Reads items intLiteral fun ts e _ => Made (limit + 1) ts e := by
  refine (reads_oneOf [.int] (by simp)).bind ?_
  rintro _ t rest ⟨rfl, _⟩
  split
  · rename_i value
    exact reads_pure ⟨.word value rfl .nil, Nat.succ_pos limit⟩
  · exact reads_fail (by simp)

omit hi in
theorem places_stringLiteral : Reads items stringLiteral fun ts e _ => Made (limit + 1) ts e := by
  refine (reads_oneOf [.string] (by simp)).bind ?_
  rintro _ t rest ⟨rfl, _⟩
  split
  · rename_i value
    exact reads_pure ⟨.word value rfl .nil, Nat.succ_pos limit⟩
  · exact reads_fail (by simp)

omit hi in
theorem places_boolLiteral : Reads items boolLiteral fun ts e _ => Made (limit + 1) ts e := by
  refine (reads_oneOf [.symbol .kwTrue, .symbol .kwFalse] (by simp)).bind ?_
  rintro _ t rest ⟨rfl, ht⟩
  simp only [List.mem_cons, List.not_mem_nil, or_false] at ht
  refine reads_pure ⟨.word ?_ rfl .nil, Nat.succ_pos limit⟩
  rcases ht with ht | ht <;> simp [ht, kind_eq_symbol.mp ht]

theorem places_atom : Reads items (atom inner) fun ts e _ => Made (limit + 1) ts e := by
  refine .head? ?_
  split
  · exact places_conditional hi
  · exact places_whileLoop hi
  · exact places_block hi
  · exact places_letIn hi
  · exact places_caseOf hi
  · exact places_newObject
  · exact places_group hi
  · exact places_nameOrCall hi ‹_›
  · exact places_intLiteral
  · exact places_stringLiteral
  · exact places_boolLiteral
  · exact places_boolLiteral
  · exact reads_expected _

theorem places_dispatchRound {before : List Token} {object : Expr}
    (made : Made (limit + 1) before object) :
    Reads items (dispatchRound inner object) (Round.Reads (fun ts e _ => Made (limit + 1) ts e)
      (fun ts e _ => Made (limit + 1) ts e) before) := by
  refine .symbol? (fun t _ h _ => ?_) fun _ => ?_
  · refine (places_callTail hi).bind fun ts r _ ⟨spans, _, levels⟩ =>
      reads_pure ⟨by simp, ?_, ?_⟩
    · rw [List.append_nil, Expr.spanTree, spanTrees_eq]
      exact .hull (.cons made.spans (.symbol h spans)) (made.starts.append _)
    · rw [Expr.levels]
      exact Nat.max_lt.mpr ⟨made.levels, Nat.lt_succ_of_le levels⟩
  · refine .symbol? (fun t _ h _ => ?_) fun _ => reads_pure (by simpa [Round.Reads] using made)
    refine places_typeName.bind ?_
    rintro _ type _ ⟨u, rfl, word, span⟩
    refine .symbol fun d _ hd => (places_callTail hi).bind fun ts r _ ⟨spans, _, levels⟩ =>
      reads_pure ⟨by simp, ?_, ?_⟩
    · rw [List.append_nil, Expr.spanTree, spanTrees_eq]
      exact .hull (.cons made.spans (.symbol h (.word word span (.symbol hd spans))))
        (made.starts.append _)
    · rw [Expr.levels]
      exact Nat.max_lt.mpr ⟨made.levels, Nat.lt_succ_of_le levels⟩

theorem places_dispatch : Reads items (dispatch inner) fun ts e _ => Made (limit + 1) ts e := by
  rw [dispatch_eq]
  exact (places_atom hi).bind fun ts object _ made =>
    reads_repeating_behind made fun _ _ _ => places_dispatchRound hi

theorem places_leading (min : Strength) :
    Reads items (leading inner min) fun ts r _ => Made (limit + 1) ts r.1 := by
  refine .head? ?_
  split
  · refine .symbol fun t _ h => (hi.operand _).bind fun ts e _ he =>
      reads_pure ⟨?_, Nat.succ_lt_succ he.levels⟩
    rw [List.append_nil]
    exact .hull (.symbol h he.upTo) (.token t _)
  · exact (places_dispatch hi).bind fun ts e _ made => reads_pure (by simpa using made)

theorem places_climb (n : Nat) (min : Strength) :
    Reads items (climb inner n min) fun ts e _ => Made (limit + 1) ts e := by
  induction n generalizing min items with
  | zero =>
    exact (places_leading hi min).bind fun ts r _ made => reads_pure (by simpa using made)
  | succ n ih =>
    rw [climb_succ]
    refine (places_leading hi min).bind fun ts r rest made => ?_
    split
    · exact reads_pure (by simpa using made)
    · have start : Made (limit + 1) ts (r.1, false).1 := made
      refine reads_repeating_behind (Q := fun ts e _ => Made (limit + 1) ts e)
        (I := fun ts state _ => Made (limit + 1) ts state.1) start fun before state rest made => ?_
      refine .head? ?_
      split
      · exact reads_pure (by simpa [Round.Reads] using made)
      split
      · exact reads_pure (by simpa [Round.Reads] using made)
      refine .symbol fun t _ h => (ih _).bind fun us right _ hr => reads_pure ⟨by simp, ?_, ?_⟩
      · rw [List.append_nil]
        exact .hull (.cons made.spans (.symbol h hr.upTo)) (made.starts.append _)
      · exact Nat.max_lt.mpr ⟨made.levels, hr.levels⟩

theorem places_assignment : Reads items (assignment inner) fun ts e _ => Made (limit + 1) ts e := by
  refine places_objectName.bind ?_
  rintro _ name _ ⟨t, rfl, word, span⟩
  refine .symbol fun u _ h => hi.whole.bind fun ts value _ hv =>
    reads_pure ⟨?_, Nat.succ_lt_succ hv.levels⟩
  rw [List.append_nil]
  exact .hull (.word word span (.symbol h hv.upTo)) (span ▸ .token t _)

theorem places_whole : Reads items (whole inner) fun ts e _ => Made (limit + 1) ts e :=
  reads_either (places_assignment hi) (places_climb hi _ _)

omit hi in
theorem innerAt_places (depth : Nat) (start : Position) : (innerAt depth start).Places depth := by
  induction depth generalizing start with
  | zero =>
    exact ⟨.here fun _ => reads_fail (by simp), fun _ => .here fun _ => reads_fail (by simp)⟩
  | succ depth ih =>
    exact ⟨.here fun _ => places_whole (ih _), fun min => .here fun _ => places_climb (ih _) _ min⟩

structure MadeFeature (ts : List Token) (f : Feature) : Prop where
  spans : Spans [f.spanTree] ts
  levels : ∀ e ∈ f.exprs, e.levels < nestingLimit

omit hi in
theorem places_formal : Reads items formal fun ts p _ => Spans [p.spanTree] ts ∧ True := by
  refine places_objectName.bind ?_
  rintro _ name _ ⟨t, rfl, word, span⟩
  refine .symbol fun c _ h => places_typeName.bind ?_
  rintro _ type _ ⟨u, rfl, word', span'⟩
  refine reads_pure ⟨?_, trivial⟩
  exact .hull (.word word span (.symbol h (.lastWord word' span'))) (span ▸ .token t _)

omit hi in
theorem places_methodOf {name : Name} {t : Token} (word : t.value = name.word)
    (span : t.span = name.span) : Reads items (methodOf name) fun ts m _ =>
      MadeFeature (t :: ts) (.method m) := by
  refine .symbol fun _ _ h₁ => (places_commaSeparated places_formal).bind
    fun ts params _ ⟨⟨spans, _⟩, _⟩ => .symbol fun _ _ h₂ => places_typeName.bind ?_
  rintro _ result _ ⟨u, rfl, word', span'⟩
  refine .symbol fun _ _ h₃ => (innerAt_places _ _).whole.bind fun _ body _ hb =>
    .symbol fun _ _ h₄ => reads_pure ⟨?_, by simpa [Feature.exprs] using hb.levels⟩
  have row := SpansTo.word word span (.symbol h₁ (.append spans (.symbol h₂ (.word word' span'
    (.symbol h₃ (.cons hb.spans (.last h₄)))))))
  rw [List.append_assoc] at row
  exact .hull row (span ▸ .token t _)

omit hi in
theorem places_feature : Reads items feature fun ts f _ => MadeFeature ts f := by
  refine places_objectName.bind ?_
  rintro _ name _ ⟨t, rfl, word, span⟩
  refine .head? ?_
  split
  · exact (places_methodOf word span).map fun _ _ _ h => h
  · exact (places_bindingOf (innerAt_places _ _) word span).map fun _ _ _ h =>
      ⟨h.1, by simpa [Feature.exprs] using h.2⟩
  · exact reads_expected _

omit hi in
theorem places_features : Reads items features fun ts r _ =>
    SpansTo r.2.span
      (r.1.flatMap (fun f => [f.spanTree, .symbol .semicolon]) ++ [.symbol .braceRight]) ts ∧
        ∀ f ∈ r.1, ∀ e ∈ f.exprs, e.levels < nestingLimit := by
  refine reads_repeating (I := fun ts found _ =>
    Spans (found.reverse.flatMap fun f => [f.spanTree, .symbol .semicolon]) ts ∧
      ∀ f ∈ found, ∀ e ∈ f.exprs, e.levels < nestingLimit) ⟨by simpa using Spans.nil, by simp⟩ ?_
  rintro before found rest ⟨spans, levels⟩
  refine .symbol? (fun _ _ h₁ _ => reads_pure ⟨.append spans (.last h₁), ?_⟩) fun _ =>
    places_feature.bind fun ts f _ hf => .symbol fun _ _ h₂ =>
      reads_pure ⟨by simp, ?_, List.forall_mem_cons.mpr ⟨hf.levels, levels⟩⟩
  · exact fun f hf => levels f (List.mem_reverse.mp hf)
  · simpa using spans.append (hf.spans.cons (.symbol h₂ .nil))

structure MadeClass (ts : List Token) (c : ClassDecl) : Prop where
  spans : Spans [c.spanTree] ts
  levels : ∀ f ∈ c.features, ∀ e ∈ f.exprs, e.levels < nestingLimit

omit hi in
theorem places_classDecl : Reads items classDecl fun ts c _ => MadeClass ts c := by
  refine .symbol fun t _ h => places_typeName.bind ?_
  rintro _ name _ ⟨u, rfl, word, span⟩
  refine .symbol? (fun t₁ _ h₁ _ => ?_) fun _ => ?_
  · have parent {items : List ScanItem} : Reads items (some <$> typeName) fun ts o _ =>
        ∃ p : TypeName, o = some p ∧ ∃ t : Token, ts = [t] ∧ t.value = p.word ∧ t.span = p.span :=
      places_typeName.map fun _ p _ h => ⟨p, rfl, h⟩
    refine parent.bind ?_
    rintro _ _ _ ⟨p, rfl, v, rfl, word', span'⟩
    refine .symbol fun _ _ h₂ => places_features.bind fun ts r _ ⟨spans, levels⟩ =>
      reads_pure ⟨?_, levels⟩
    rw [List.append_nil]
    exact .hull (.symbol h (.word word span (.symbol h₁ (.word word' span' (.symbol h₂ spans)))))
      (.token t _)
  · have parent {items : List ScanItem} : Reads items (pure none) fun ts (o : Option TypeName) _ =>
        o = none ∧ ts = [] :=
      reads_pure ⟨rfl, rfl⟩
    refine parent.bind ?_
    rintro _ _ _ ⟨rfl, rfl⟩
    refine .symbol fun _ _ h₂ => places_features.bind fun ts r _ ⟨spans, levels⟩ =>
      reads_pure ⟨?_, levels⟩
    rw [List.append_nil]
    exact .hull (.symbol h (.word word span (.symbol h₂ spans))) (.token t _)

omit hi in
theorem decides_placed (ended : Ended items) : Decides items program fun p _ =>
    ∃ (ts : List Token) (stop : Token), items = (ts ++ [stop]).map .ok ∧ stop.value = .eof ∧
      Spans [p.spanTree] ts ∧
      ∀ c ∈ p.classes, ∀ f ∈ c.features, ∀ e ∈ f.exprs, e.levels < nestingLimit := by
  refine decides_repeating (I := fun found rest => Ended rest ∧
    (∃ ts : List Token, items = ts.map .ok ++ rest ∧
      Spans (found.reverse.flatMap fun c => [c.spanTree, .symbol .semicolon]) ts) ∧
    ∀ c ∈ found, ∀ f ∈ c.features, ∀ e ∈ f.exprs, e.levels < nestingLimit) ?_
    ⟨ended, ⟨[], by simp, Spans.nil⟩, by simp⟩
  rintro found rest ⟨rest_ended, ⟨before, rfl, spans⟩, levels⟩
  refine (places_classDecl rest_ended).bind ?_
  rintro c mid ⟨mid_ended, ts, rfl, hc⟩
  refine (reads_oneOf [.symbol .semicolon] (by simp) mid_ended).bind ?_
  rintro semicolon left ⟨left_ended, _, rfl, rfl, h⟩
  have h := kind_eq_symbol.mp (List.mem_singleton.mp h)
  have all : ∀ x ∈ c :: found, ∀ f ∈ x.features, ∀ e ∈ f.exprs, e.levels < nestingLimit :=
    List.forall_mem_cons.mpr ⟨hc.levels, levels⟩
  have more := SpansTo.append spans (.cons hc.spans (.last h))
  refine (decides_eof left_ended).bind ?_
  rintro (_ | last) left h_last
  · subst h_last
    refine .inl ⟨.more (c :: found), left,
      ⟨⟨left_ended, ⟨before ++ (ts ++ [semicolon]), ?_, ?_⟩, all⟩, ?_⟩, fun _ => rfl⟩
    · simp
    · simpa using more.spans
    · simp only [List.length_append, List.length_map, List.length_singleton]
      omega
  · obtain ⟨rfl, value, rfl⟩ := h_last
    refine .inl ⟨.stop _, [], ⟨before ++ (ts ++ [semicolon]), last, ?_, value, ?_, ?_⟩,
      fun _ => rfl⟩
    · simp
    · obtain ⟨first, later, eq⟩ := List.exists_cons_of_ne_nil
        (List.reverse_ne_nil_iff.mpr (List.cons_ne_nil c found))
      have row : SpansTo semicolon.span
          ((c :: found).reverse.flatMap fun c => [c.spanTree, .symbol .semicolon])
          (before ++ (ts ++ [semicolon])) := by simpa using more
      have starts := row.spans
      rw [eq] at starts
      have same : (c :: found).getLastD c = first := by
        rw [List.getLastD_eq_getLast?, ← List.head?_reverse, eq]
        rfl
      rw [← same] at starts
      exact .hull row starts.starts
    · exact fun x hx => all x (List.mem_reverse.mp hx)

end Parse

/-- In a program that was read, expressions nest no deeper than the limit. -/
theorem levels_of_parse {c : Cursor} {p : Program} (h : parse (scan c) = .ok p) :
    p.levels ≤ nestingLimit := by
  obtain ⟨_, read⟩ := program_of_parse h
  obtain ⟨_, _, _, _, _, levels⟩ := (Parse.decides_placed (Scan.scan_ended c)).of_ok read
  exact Program.levels_le.mpr levels

theorem scan_successive {file : Option Nat} {text : Bytes} {tokens : List Token} {stop : ScanItem}
    (h : scan (.ofText file text) = tokens.map .ok ++ [stop]) : Successive tokens := by
  obtain ⟨⟨tokens', last, whole, tiled⟩, -⟩ := scan_tiles file text
  have same : tokens' = tokens := by
    have front := (List.append_inj' (whole.symm.trans h) rfl).1
    exact (List.map_inj_right fun _ _ => Except.ok.inj).mp front
  subst same
  refine ⟨fun t ht => (tiled.inside t ht).2.2.1, ?_⟩
  have apart := (List.pairwise_append.mp tiled.ordered).1
  refine (List.pairwise_map.mp apart).imp_of_mem fun ht hu before => ⟨?_, before⟩
  have within {t : Token} (ht : t ∈ tokens') : .ok t ∈ scan (.ofText file text) := by
    rw [whole]
    exact List.mem_append_left _ (List.mem_map_of_mem ht)
  exact (Scan.scan_file (within ht)).trans (Scan.scan_file (within hu)).symm

/-- In a program that was read, each node covers the tokens that it was read from. So nodes lie
within the nodes around them, and behind the nodes in front of them. -/
theorem parse_places {file : Option Nat} {text : Bytes} {p : Program}
    (h : parse (scan (.ofText file text)) = .ok p) : ∃ (tokens : List Token) (stop : Token),
      scan (.ofText file text) = (tokens ++ [stop]).map .ok ∧ stop.value = .eof ∧
        Spanned [p.spanTree] tokens ∧ p.spanTree.Arranged := by
  obtain ⟨_, read⟩ := program_of_parse h
  obtain ⟨tokens, stop, scanned, eof, spans, -⟩ :=
    (Parse.decides_placed (Scan.scan_ended _)).of_ok read
  have order : Successive tokens := scan_successive (scanned.trans List.map_append)
  exact ⟨tokens, stop, scanned, eof, spans order, ((spans order).arranged order).1 _ (.head _)⟩

theorem parse_places_assorted : ∃ p, parse (scan assorted) = .ok p ∧
    ∃ (tokens : List Token) (stop : Token), scan assorted = (tokens ++ [stop]).map .ok ∧
      stop.value = .eof ∧ Spanned [p.spanTree] tokens ∧ p.spanTree.Arranged :=
  have ⟨p, parsed⟩ := assorted_parsed
  ⟨p, parsed, parse_places parsed⟩

end Cool
