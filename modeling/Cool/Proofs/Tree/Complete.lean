import Cool.Proofs.Outcome
import Cool.Proofs.Tree.Readable

/-!
What can be written is read. A canonical program is read back from the tokens that spell it, up to
places, if its expressions nest at most `nestingLimit` deep, and refused for its depth otherwise.
-/
namespace Cool

namespace Parse

open Reader

variable {F : Option TokenKind → Prop}

theorem takes_formal {p : Formal} (cased : p.name.cased = true ∧ p.type.cased = true) :
    Takes p.spelling F True formal fun a => a.unplaced = p.unplaced := by
  refine .token (takes_objectName cased.1) fun n hn => .symbol fun _ =>
    ((takes_typeName cased.2).behind fun _ _ => trivial).bind_pure fun t ht => ?_
  simp [Formal.unplaced, hn, ht]

theorem takes_methodOf {m : Method} (cased : (Feature.method m).cased = true)
    (h : Readable m.body) {name : Name} (same : name.unplaced = m.name.unplaced) :
    Takes m.spelling.tail F (m.body.levels < nestingLimit) (methodOf name) fun a =>
      a.unplaced = m.unplaced := by
  obtain ⟨⟨_, result⟩, params⟩ : (m.name.cased = true ∧ m.result.cased = true) ∧
      ∀ p ∈ m.params, p.name.cased = true ∧ p.type.cased = true := by
    simpa [Feature.cased] using cased
  have formals : Takes (separated (m.params.map Formal.spelling) ++ [TokenValue.symbol .parenRight])
      (fun _ => True) (∀ p ∈ m.params, True) (commaSeparated formal) fun r =>
        r.1.map Formal.unplaced = m.params.map Formal.unplaced :=
    takes_commaSeparated (fun _ _ _ _ => ⟨.ident, rfl, by decide⟩) fun p hp =>
      takes_formal (params p hp)
  have spelt : m.spelling.tail = TokenValue.symbol .parenLeft ::
      ((separated (m.params.map Formal.spelling) ++ [TokenValue.symbol .parenRight]) ++
        TokenValue.symbol .colon :: m.result.word :: .symbol .braceLeft ::
          (m.body.spelling ++ [TokenValue.symbol .braceRight])) := by
    simp [Method.spelling]
  rw [spelt]
  refine .of_iff (.symbol fun _ => formals.bind (fun _ _ => trivial) fun r hr => .symbol fun _ =>
    .token (takes_typeName result) fun t ht => .symbol fun _ =>
      h.before (by decide) fun b _ hb => takes_pure ?_) (by simp)
  simp [Method.unplaced, same, hr, ht, hb]

theorem takes_feature {f : Feature} (cased : f.cased = true) (h : ∀ e ∈ f.exprs, Readable e) :
    Takes f.spelling Closes (∀ e ∈ f.exprs, e.levels < nestingLimit) feature fun a =>
      a.unplaced = f.unplaced := by
  cases f with
  | method m =>
    have named : m.name.cased = true := by simp_all [Feature.cased]
    refine .of_iff (.token (takes_objectName named) fun n hn => .head? fun _ _ =>
      (takes_methodOf cased (h _ (by simp [Feature.exprs])) hn).map fun a ha => ?_)
      (by simp [Feature.exprs])
    simp [Feature.unplaced, ha]
  | «attribute» a =>
    obtain ⟨named, typed⟩ : a.name.cased = true ∧ a.type.cased = true := by
      simpa [Feature.cased] using cased
    refine .of_iff (.token (takes_objectName named) fun n hn => .head? fun _ _ =>
      (takes_bindingOf typed (fun e he => h e (Option.mem_toList.mpr he)) hn).map fun b hb => ?_)
      (by simp [Feature.exprs])
    simp [Feature.unplaced, hb]

theorem first_feature (f : Feature) (ws : List TokenValue) (o : Option TokenKind) :
    first (f.spelling ++ ws) o = some .ident := by
  cases f <;> rfl

theorem takes_features {fs : List Feature} (cased : ∀ f ∈ fs, f.cased = true)
    (h : ∀ f ∈ fs, ∀ e ∈ f.exprs, Readable e) :
    Takes (fs.flatMap (·.spelling ++ [TokenValue.symbol .semicolon]) ++
        [TokenValue.symbol .braceRight]) F
      (∀ f ∈ fs, ∀ e ∈ f.exprs, e.levels < nestingLimit) features fun r =>
        r.1.map Feature.unplaced = fs.map Feature.unplaced := by
  refine (Continues.rows (I := fun _ => True) (H := fun _ => True)
    (R := fun views (r : List Feature × Token) => r.1.map Feature.unplaced = views)
    (by simp) (fun _ _ _ _ => trivial) (fun _ _ => trivial) (fun f hf found _ => ?_)
    (fun found => ?_) (fun _ _ => trivial) [] trivial).repeating
  · refine .kind?_none (fun o _ => ⟨_, first_feature f _ o, by decide⟩) ?_
    refine .of_iff ((takes_feature (cased f hf) (h f hf)).bind (fun _ _ => closes_first (by decide))
      fun a ha => .symbol fun _ => takes_pure ⟨_, rfl, a, ha, rfl⟩) (by simp)
  · exact .kind?_some rfl fun last => takes_pure ⟨(found.reverse, last), rfl, rfl⟩

theorem takes_classDecl {c : ClassDecl} (cased : c.cased = true)
    (h : ∀ f ∈ c.features, ∀ e ∈ f.exprs, Readable e) :
    Takes c.spelling F (∀ f ∈ c.features, ∀ e ∈ f.exprs, e.levels < nestingLimit) classDecl fun a =>
      a.unplaced = c.unplaced := by
  obtain ⟨name, parent, fs, span⟩ := c
  obtain ⟨⟨named, parented⟩, featured⟩ : (name.cased = true ∧ parent.all TypeName.cased = true) ∧
      ∀ f ∈ fs, f.cased = true := by
    simpa [ClassDecl.cased] using cased
  have behind (start : Token) (n : TypeName) (hn : n.unplaced = name.unplaced)
      (o : Option TypeName) (ho : o.map TypeName.unplaced = parent.map TypeName.unplaced) :
      Takes (.symbol .braceLeft :: (fs.flatMap (·.spelling ++ [TokenValue.symbol .semicolon]) ++
          [TokenValue.symbol .braceRight])) F (∀ f ∈ fs, ∀ e ∈ f.exprs, e.levels < nestingLimit)
        (do
          let _ ← symbol .braceLeft
          let r ← features
          pure (ClassDecl.mk n o r.1 (start.span.hull r.2.span))) fun a =>
        a.unplaced = (ClassDecl.mk name parent fs span).unplaced := by
    refine .symbol fun _ => (takes_features featured h).bind_pure fun r hr => ?_
    simp [ClassDecl.unplaced, hn, ho, hr]
  refine .symbol fun start => .token (takes_typeName named) fun n hn => ?_
  cases parent with
  | none =>
    refine .kind?_other (by decide) ?_
    exact behind start n hn none rfl
  | some p =>
    have inherited : Takes [p.word] (fun _ => True) True (some <$> typeName) fun o =>
        o.map TypeName.unplaced = (some p).map TypeName.unplaced :=
      (takes_typeName parented).map fun q hq => congrArg some hq
    exact .kind?_some rfl fun _ => .token inherited (behind start n hn)

theorem takes_program {p : Program} (canonical : p.Canonical) :
    Takes (p.spelling ++ [TokenValue.eof]) F (p.levels ≤ nestingLimit) program fun a =>
      a.unplaced = p.unplaced := by
  refine (Continues.joined
    (fun cs => cs.flatMap (·.spelling ++ [TokenValue.symbol .semicolon]) ++ [TokenValue.eof])
    (fun c => c.spelling ++ [TokenValue.symbol .semicolon])
    (fun c => c.spelling ++ [TokenValue.symbol .semicolon, .eof])
    (R := fun views (q : Program) => q.classes.map ClassDecl.unplaced = views)
    (H := fun o => ∃ k, o = some k ∧ k ≠ .eof) (by simp) (by simp) (by simp)
    (fun _ _ _ _ => ⟨.symbol .kwClass, rfl, by decide⟩) ?_ ?_
    canonical.inhabited []).repeating.of_iff Program.levels_le.symm |>.imp fun q hq =>
      congrArg (Program.mk · .unknown) hq
  · intro c hc found
    refine .of_iff ((takes_classDecl (canonical.cased c hc)
      fun f hf e he => readable e (canonical.expr hc hf he)).bind (F := fun _ => True)
      (fun _ _ => trivial) fun a ha => .symbol fun _ => .kind?_none (fun _ ho => ho)
        (takes_pure ⟨_, rfl, a, ha, rfl⟩)) (by simp)
  · intro c hc found
    refine .of_iff ((takes_classDecl (canonical.cased c hc)
      fun f hf e he => readable e (canonical.expr hc hf he)).bind (F := fun _ => True)
      (fun _ _ => trivial) fun a ha => .symbol fun _ => .kind?_some rfl fun _ =>
        takes_pure ⟨_, rfl, a, ha, ?_⟩) (by simp)
    rfl

end Parse

/-- A canonical program is read back from its tokens, wherever they stand, if its expressions do not
nest too deep, and otherwise refused for that. -/
theorem parse_spelling {p : Program} (canonical : p.Canonical) {tokens : List Token}
    (spells : tokens.map Token.value = p.spelling ++ [.eof]) :
    (p.levels ≤ nestingLimit →
      ∃ q, parse (tokens.map .ok) = .ok q ∧ q.unplaced = p.unplaced) ∧
    (nestingLimit < p.levels →
      ∃ span, parse (tokens.map .ok) = .error (.nestedTooDeeply span)) := by
  obtain ⟨result, fault⟩ := Parse.takes_program (F := fun _ => True) canonical (tokens.map .ok) []
    ⟨tokens, spells, by simp⟩ trivial
  refine ⟨fun fits => ?_, fun deep => ?_⟩
  · obtain ⟨q, read, same⟩ := result fits
    exact ⟨q, bind_eq_ok.mpr ⟨_, read, rfl⟩, same⟩
  · obtain ⟨span, refused⟩ := fault (Nat.not_le_of_lt deep)
    exact ⟨span, bind_eq_error.mpr (.inl refused)⟩

/-- The tokens of a program and of the end, at no place in particular. -/
def Program.tokens (p : Program) : List Token :=
  (p.spelling ++ [TokenValue.eof]).map fun v => ⟨v, .unknown⟩

/-- A program with a row of expressions, in the last of which `n` groups lie in each other. -/
def towering (n : Nat) : Program :=
  let named (text : String) : Name := ⟨ascii text, .unknown⟩
  let typed (text : String) : TypeName := ⟨ascii text, .unknown⟩
  let read (text : String) : Expr := .name (named text)
  let int (i : Int) : Expr := .int i .unknown
  let sum : Expr := .binary .subtract (.binary .add (int 1) (.binary .multiply (int 2)
    (.unary .complement (int 3) .unknown) .unknown) .unknown) (int 4) .unknown
  let compared : Expr := .unary .not (.binary .lessThan sum (.letIn
    [⟨named "x", typed "Int", some sum, .unknown⟩, ⟨named "y", typed "A", none, .unknown⟩]
    (.binary .equals (read "x") (int 5) .unknown) .unknown) .unknown) .unknown
  let called : Expr := .staticCall (.call (read "a") (named "f") [read "self", compared] .unknown)
    (typed "B") (named "f") [] .unknown
  let body : List Expr := List.replicate 40 called ++
    [.assign (named "n") (.unary .isVoid called .unknown) .unknown,
     .cond compared (.new (typed "B") .unknown) (.loop compared (.string [] .unknown) .unknown)
      .unknown,
     .case sum [⟨named "x", typed "Int", read "x", .unknown⟩] .unknown,
     Nat.repeat (Expr.group · .unknown) n (.bool true .unknown)]
  ⟨[⟨typed "A", some (typed "B"),
     [.attribute ⟨named "n", typed "Int", some sum, .unknown⟩,
      .method ⟨named "f", [⟨named "a", typed "A", .unknown⟩, ⟨named "b", typed "Bool", .unknown⟩],
        typed "Object", .block body .unknown, .unknown⟩], .unknown⟩,
    ⟨typed "B", none, [], .unknown⟩], .unknown⟩

theorem parse_spelling_towering :
    ((towering 30).Canonical ∧ (towering 30).levels = 32 ∧
      ∃ q, parse ((towering 30).tokens.map .ok) = .ok q ∧ q.unplaced = (towering 30).unplaced) ∧
    (towering 31).Canonical ∧ (towering 31).levels = 33 ∧
      ∃ span, parse ((towering 31).tokens.map .ok) = .error (.nestedTooDeeply span) := by
  have low : (towering 30).Canonical :=
    ⟨List.cons_ne_nil _ _, by decide +kernel, by decide +kernel⟩
  have high : (towering 31).Canonical :=
    ⟨List.cons_ne_nil _ _, by decide +kernel, by decide +kernel⟩
  have spells (p : Program) : p.tokens.map Token.value = p.spelling ++ [.eof] := by
    simp [Program.tokens, Function.comp_def]
  have low_levels : (towering 30).levels = 32 := by decide +kernel
  have high_levels : (towering 31).levels = 33 := by decide +kernel
  exact ⟨⟨low, low_levels, (parse_spelling low (spells _)).1 (by rw [low_levels]; decide)⟩,
    high, high_levels, (parse_spelling high (spells _)).2 (by rw [high_levels]; decide)⟩

end Cool
