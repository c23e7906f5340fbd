import Cool.Proofs.Outcome
import Cool.Proofs.Tree.Extent

/-!
What is read is what was written. Each reader returns a tree that its tokens spell, with operands
that bind as tightly as their places ask and with `let`s that reach as far as they can, and stops at
a fault of the text if it does not.
-/
namespace Cool

def Feature.Shaped (f : Feature) : Prop := ∀ e ∈ f.exprs, e.Shaped

def Feature.Sound (f : Feature) : Prop := ∀ e ∈ f.exprs, e.Sound

structure Wrote (ts : List Token) (e : Expr) : Prop where
  values : ts.map Token.value = e.spelling
  sound : e.Sound

theorem Wrote.of_parts {ts : List Token} {e : Expr} (values : ts.map Token.value = e.spelling)
    (root : e.sound = true) (parts : ∀ p ∈ e.parts, p.Sound) : Wrote ts e := by
  refine ⟨values, fun x hx => ?_⟩
  rcases Expr.mem_subterms.mp hx with rfl | ⟨p, hp, hx⟩
  · exact root
  · exact parts p hp x hx

namespace Parse

open Reader

structure Undispatched (items : List ScanItem) : Prop where
  dot : next items ≠ some (.symbol .dot)
  at_sign : next items ≠ some (.symbol .at)

/-- An operator behind a `let` is a comparison that the body of the `let` does not take. -/
def Stopped (e : Expr) (items : List ScanItem) : Prop :=
  ∀ op, binaryOp? (next items) = some op → e.opens = true → op.isComparison = true ∧ e.stops = true

/-- What stands behind an operand whose binary operators all bind tighter than `min`: of such
operators only a comparison, where one was read already. -/
structure Halts (min : Strength) (e : Expr) (items : List ScanItem) : Prop
    extends Undispatched items where
  operator : ∀ op, binaryOp? (next items) = some op →
    op.strength.rank ≤ min.rank ∨ op.isComparison = true ∧ e.refuses = true
  stopped : Stopped e items

variable {items : List ScanItem}

theorem Stopped.of_isReceiver {e : Expr} (h : e.isReceiver = true) : Stopped e items :=
  fun _ _ opens => Bool.noConfusion ((Expr.not_opens_of_isReceiver h).symm.trans opens)

/-- Behind a whole expression comes no operator but a comparison that it does not take. -/
theorem Halts.stopped_letIn {bindings : List (Binding Expr)} {body : Expr} {span : Span}
    (h : Halts .lowest body items) : Stopped (.letIn bindings body span) items := by
  intro op seen _
  have low : ¬ op.strength.rank ≤ Strength.lowest.rank :=
    Nat.not_le_of_lt (Nat.lt_trans (by decide) op.rank_pos)
  obtain ⟨compares, refuses⟩ := (h.operator op seen).resolve_left low
  have stops : body.stops = true := by
    cases opens : body.opens with
    | false => exact Expr.stops_of_not_opens opens
    | true => exact (h.stopped op seen opens).2
  exact ⟨compares, by rw [Expr.stops, refuses, stops]; rfl⟩

theorem reads_ident :
    Reads items ident fun ts r _ => ts.map Token.value = [.ident r.1] := by
  refine (reads_oneOf [.ident] (by simp)).bind ?_
  rintro _ t rest ⟨rfl, _⟩
  split
  · rename_i value
    exact reads_pure (by simp [value])
  · exact reads_fail (by simp)

theorem reads_objectName :
    Reads items objectName fun ts n _ => ts.map Token.value = [n.word] := by
  refine reads_ident.bind ?_
  rintro ts ⟨text, span⟩ rest h
  dsimp only
  split
  · exact reads_fail (by simp)
  · exact reads_pure (by rw [List.append_nil]; exact h)

theorem reads_typeName :
    Reads items typeName fun ts n _ => ts.map Token.value = [n.word] := by
  refine reads_ident.bind ?_
  rintro ts ⟨text, span⟩ rest h
  dsimp only
  split
  · exact reads_fail (by simp)
  · exact reads_pure (by rw [List.append_nil]; exact h)

structure Inner.Faithful (inner : Inner) : Prop where
  whole : ∀ {items}, Reads items inner.whole fun ts e rest => Wrote ts e ∧ Halts .lowest e rest
  operand : ∀ {items} min, Reads items (inner.operand min) fun ts e rest =>
    Wrote ts e ∧ e.fits min = true ∧ Halts min e rest

variable {inner : Inner} (hi : inner.Faithful)
include hi

theorem reads_callTail : Reads items (callTail inner) fun ts r _ =>
    ts.map Token.value = r.1.word :: .symbol .parenLeft ::
      (separated (r.2.1.map Expr.spelling) ++ [.symbol .parenRight]) ∧
    ∀ a ∈ r.2.1, a.Sound := by
  have item {items : List ScanItem} : Reads items inner.whole fun ts e _ =>
      ts.map Token.value = e.spelling ∧ e.Sound :=
    hi.whole.imp fun _ _ _ h => ⟨h.1.values, h.1.sound⟩
  have inhabited (e : Expr) : e.spelling ≠ [] := by
    obtain ⟨v, vs, h, _⟩ := e.spelling_eq_cons
    simp [h]
  refine reads_objectName.bind fun _ method _ hm => .symbol fun paren _ hp => ?_
  refine (reads_commaSeparated inhabited item).bind fun ts args _ ha => reads_pure ⟨?_, ha.2⟩
  simp [hm, hp, ha.1]

theorem reads_bindingOf {name : Name} : Reads items (bindingOf inner name) fun ts b _ =>
    name.word :: ts.map Token.value = Binding.spelling b ∧ ∀ e ∈ b.init, e.Sound := by
  refine .symbol fun colon _ hc => reads_typeName.bind fun _ type _ ht => .symbol? ?_ ?_
  · intro arrow _ ha _
    refine hi.whole.bind fun _ init _ h => reads_pure ⟨?_, ?_⟩
    · simp [Binding.spelling, hc, ht, ha, h.1.values]
    · simpa using h.1.sound
  · exact fun _ => reads_pure ⟨by simp [Binding.spelling, hc, ht], by simp⟩

theorem reads_conditional : Reads items (conditional inner) fun ts e _ =>
    Wrote ts e ∧ e.isReceiver = true := by
  refine .symbol fun _ _ h₁ => hi.whole.bind fun _ test _ ht => .symbol fun _ _ h₂ =>
    hi.whole.bind fun _ yes _ hy => .symbol fun _ _ h₃ => hi.whole.bind fun _ no _ hn =>
      .symbol fun _ _ h₄ => reads_pure ⟨.of_parts ?_ rfl ?_, rfl⟩
  · simp [Expr.spelling, h₁, h₂, h₃, h₄, ht.1.values, hy.1.values, hn.1.values]
  · simp [Expr.parts, ht.1.sound, hy.1.sound, hn.1.sound]

theorem reads_whileLoop : Reads items (whileLoop inner) fun ts e _ =>
    Wrote ts e ∧ e.isReceiver = true := by
  refine .symbol fun _ _ h₁ => hi.whole.bind fun _ test _ ht => .symbol fun _ _ h₂ =>
    hi.whole.bind fun _ body _ hb => .symbol fun _ _ h₃ => reads_pure ⟨.of_parts ?_ rfl ?_, rfl⟩
  · simp [Expr.spelling, h₁, h₂, h₃, ht.1.values, hb.1.values]
  · simp [Expr.parts, ht.1.sound, hb.1.sound]

theorem reads_blockBody : Reads items (blockBody inner) fun ts r _ =>
    ts.map Token.value = r.1.flatMap (·.spelling ++ [TokenValue.symbol .semicolon]) ++
        [TokenValue.symbol .braceRight] ∧
      r.1 ≠ [] ∧ ∀ e ∈ r.1, e.Sound := by
  refine reads_repeating (I := fun ts found _ =>
    ts.map Token.value = found.reverse.flatMap (·.spelling ++ [TokenValue.symbol .semicolon]) ∧
      ∀ e ∈ found, e.Sound) (by simp) ?_
  rintro before found rest ⟨spelt, sound⟩
  refine hi.whole.bind fun _ e _ he => .symbol fun _ _ hs => ?_
  have all : ∀ x ∈ e :: found, x.Sound := List.forall_mem_cons.mpr ⟨he.1.sound, sound⟩
  refine .symbol? (fun _ _ hb _ => reads_pure ⟨?_, by simp, ?_⟩) fun _ =>
    reads_pure ⟨by simp, ?_, all⟩
  · simp [spelt, he.1.values, hs, hb]
  · exact fun x hx => all x (List.mem_reverse.mp hx)
  · simp [spelt, he.1.values, hs]

theorem reads_block : Reads items (block inner) fun ts e _ =>
    Wrote ts e ∧ e.isReceiver = true := by
  refine .symbol fun _ _ h₁ => (reads_blockBody hi).bind fun _ r _ ⟨values, inhabited, sound⟩ =>
    reads_pure ⟨.of_parts ?_ (Expr.sound_of_filled ?_ rfl rfl) sound, rfl⟩
  · simp [Expr.spelling, h₁, values, List.flatMap_map]
  · simpa [Expr.filled] using inhabited

theorem reads_letBindings : Reads items (letBindings inner) fun ts bindings _ =>
    ts.map Token.value = separated (bindings.map Binding.spelling) ++ [TokenValue.symbol .kwIn] ∧
      bindings ≠ [] ∧ ∀ b ∈ bindings, ∀ e ∈ b.init, e.Sound := by
  refine reads_repeating (I := fun ts found _ =>
    ts.map Token.value =
        (found.map Binding.spelling).reverse.flatMap (· ++ [TokenValue.symbol .comma]) ∧
      ∀ b ∈ found, ∀ e ∈ b.init, e.Sound) (by simp) ?_
  rintro before found rest ⟨spelt, sound⟩
  refine reads_objectName.bind fun _ name _ hn => (reads_bindingOf hi).bind fun _ b _ hb => ?_
  have all : ∀ x ∈ b :: found, ∀ e ∈ x.init, e.Sound := List.forall_mem_cons.mpr ⟨hb.2, sound⟩
  refine .symbol? (fun _ _ h₁ _ => reads_pure ⟨?_, by simp, ?_⟩) fun _ => .symbol fun _ _ h₂ =>
    reads_pure ⟨by simp, ?_, all⟩
  · simp [hn, h₁, ← hb.1, ← flatMap_comma, ← spelt]
  · exact fun x hx => all x (List.mem_reverse.mp hx)
  · simp [spelt, hn, h₂, ← hb.1]

theorem reads_letIn : Reads items (letIn inner) fun ts e rest =>
    Wrote ts e ∧ e.isPrimary = true ∧ Undispatched rest ∧ Stopped e rest := by
  refine .symbol fun _ _ h₁ => (reads_letBindings hi).bind
    fun _ bindings _ ⟨values, inhabited, sound⟩ => hi.whole.bind fun _ body _ he =>
      reads_pure ⟨.of_parts ?_ (Expr.sound_of_filled ?_ rfl rfl) ?_, rfl, he.2.toUndispatched,
        he.2.stopped_letIn⟩
  · simp [Expr.spelling, h₁, values, he.1.values]
  · simpa [Expr.filled] using inhabited
  · simp only [Expr.parts, List.forall_mem_append, List.mem_filterMap, List.mem_singleton]
    refine ⟨?_, fun p hp => hp ▸ he.1.sound⟩
    rintro p ⟨b, mem, init⟩
    exact sound b mem p init

theorem reads_caseArm : Reads items (caseArm inner) fun ts a _ =>
    ts.map Token.value = a.spelling ∧ a.body.Sound := by
  refine reads_objectName.bind fun _ _ _ hn => .symbol fun _ _ h₁ => reads_typeName.bind
    fun _ _ _ ht => .symbol fun _ _ h₂ => hi.whole.bind fun _ body _ hb => .symbol fun _ _ h₃ =>
      reads_pure ⟨?_, hb.1.sound⟩
  simp [CaseArm.spelling, hn, h₁, ht, h₂, hb.1.values, h₃]

theorem reads_caseArms : Reads items (caseArms inner) fun ts r _ =>
    ts.map Token.value = r.1.flatMap CaseArm.spelling ++ [TokenValue.symbol .kwEsac] ∧
      r.1 ≠ [] ∧ ∀ a ∈ r.1, a.body.Sound := by
  refine reads_repeating (I := fun ts found _ =>
    ts.map Token.value = found.reverse.flatMap CaseArm.spelling ∧ ∀ a ∈ found, a.body.Sound)
    (by simp) ?_
  rintro before found rest ⟨spelt, sound⟩
  refine (reads_caseArm hi).bind fun ts arm _ ha => ?_
  have all : ∀ x ∈ arm :: found, x.body.Sound := List.forall_mem_cons.mpr ⟨ha.2, sound⟩
  refine .symbol? (fun _ _ he _ => reads_pure ⟨?_, by simp, ?_⟩) fun _ => reads_pure ⟨?_, ?_, all⟩
  · simp [spelt, ha.1, he]
  · exact fun x hx => all x (List.mem_reverse.mp hx)
  · intro none
    have values := ha.1
    rw [(List.append_eq_nil_iff.mp none).1] at values
    cases values
  · simp [spelt, ha.1]

theorem reads_caseOf : Reads items (caseOf inner) fun ts e _ =>
    Wrote ts e ∧ e.isReceiver = true := by
  refine .symbol fun _ _ h₁ => hi.whole.bind fun _ scrutinee _ hs => .symbol fun _ _ h₂ =>
    (reads_caseArms hi).bind fun _ arms _ ⟨values, inhabited, sound⟩ =>
      reads_pure ⟨.of_parts ?_ (Expr.sound_of_filled ?_ rfl rfl) ?_, rfl⟩
  · simp [Expr.spelling, h₁, hs.1.values, h₂, values, List.flatMap]
  · simpa [Expr.filled] using inhabited
  · simpa [Expr.parts, hs.1.sound] using sound

omit hi in
theorem reads_newObject : Reads items newObject fun ts e _ =>
    Wrote ts e ∧ e.isReceiver = true := by
  refine .symbol fun _ _ h₁ => reads_typeName.bind fun _ _ _ ht =>
    reads_pure ⟨.of_parts ?_ rfl (List.forall_mem_nil _), rfl⟩
  simp [Expr.spelling, h₁, ht]

theorem reads_group : Reads items (group inner) fun ts e _ =>
    Wrote ts e ∧ e.isReceiver = true := by
  refine .symbol fun _ _ h₁ => hi.whole.bind fun _ _ _ he => .symbol fun _ _ h₂ =>
    reads_pure ⟨.of_parts ?_ rfl ?_, rfl⟩
  · simp [Expr.spelling, h₁, he.1.values, h₂]
  · simp [Expr.parts, he.1.sound]

theorem reads_nameOrCall (first : next items = some .ident) : Reads items (nameOrCall inner)
    fun ts e _ => Wrote ts e ∧ e.isReceiver = true := by
  refine .second? first nofun ?_
  split
  · refine (reads_callTail hi).bind fun _ r _ hr => reads_pure ⟨.of_parts ?_ rfl hr.2, rfl⟩
    simp [Expr.spelling, hr.1]
  · refine reads_objectName.bind fun _ _ _ hn =>
      reads_pure ⟨.of_parts ?_ rfl (List.forall_mem_nil _), rfl⟩
    simp [Expr.spelling, hn]

omit hi in
theorem reads_intLiteral : Reads items intLiteral fun ts e _ =>
    Wrote ts e ∧ e.isReceiver = true := by
  refine (reads_oneOf [.int] (by simp)).bind ?_
  rintro _ t rest ⟨rfl, _⟩
  split
  · rename_i value
    exact reads_pure ⟨.of_parts (by simp [Expr.spelling, value]) rfl (List.forall_mem_nil _), rfl⟩
  · exact reads_fail (by simp)

omit hi in
theorem reads_stringLiteral : Reads items stringLiteral fun ts e _ =>
    Wrote ts e ∧ e.isReceiver = true := by
  refine (reads_oneOf [.string] (by simp)).bind ?_
  rintro _ t rest ⟨rfl, _⟩
  split
  · rename_i value
    exact reads_pure ⟨.of_parts (by simp [Expr.spelling, value]) rfl (List.forall_mem_nil _), rfl⟩
  · exact reads_fail (by simp)

omit hi in
theorem reads_boolLiteral : Reads items boolLiteral fun ts e _ =>
    Wrote ts e ∧ e.isReceiver = true := by
  refine (reads_oneOf [.symbol .kwTrue, .symbol .kwFalse] (by simp)).bind ?_
  rintro _ t rest ⟨rfl, ht⟩
  refine reads_pure ⟨.of_parts ?_ rfl (List.forall_mem_nil _), rfl⟩
  simp only [List.mem_cons, List.not_mem_nil, or_false, kind_eq_symbol] at ht
  rcases ht with ht | ht <;> simp [Expr.spelling, ht, Token.kind, TokenValue.kind]

structure Calls (ts : List Token) (e : Expr) (rest : List ScanItem) : Prop where
  wrote : Wrote ts e
  primary : e.isPrimary = true
  callable : e.isReceiver = true ∨ Undispatched rest
  stopped : Stopped e rest

theorem reads_atom : Reads items (atom inner) Calls := by
  have receiver {r : Reader Expr}
      (h : Reads items r fun ts e _ => Wrote ts e ∧ e.isReceiver = true) : Reads items r Calls :=
    h.imp fun _ _ _ h => ⟨h.1, Expr.isPrimary_of_isReceiver h.2, .inl h.2, .of_isReceiver h.2⟩
  refine .head? ?_
  split
  · exact receiver (reads_conditional hi)
  · exact receiver (reads_whileLoop hi)
  · exact receiver (reads_block hi)
  · exact (reads_letIn hi).imp fun _ _ _ h => ⟨h.1, h.2.1, .inr h.2.2.1, h.2.2.2⟩
  · exact receiver (reads_caseOf hi)
  · exact receiver reads_newObject
  · exact receiver (reads_group hi)
  · exact receiver (reads_nameOrCall hi ‹_›)
  · exact receiver reads_intLiteral
  · exact receiver reads_stringLiteral
  · exact receiver reads_boolLiteral
  · exact receiver reads_boolLiteral
  · exact reads_expected _

theorem reads_dispatchRound {before : List Token} {object : Expr}
    (calls : Calls before object items) :
    Reads items (dispatchRound inner object) (Round.Reads Calls
      (fun ts e rest => Wrote ts e ∧ e.isPrimary = true ∧ Undispatched rest ∧ Stopped e rest)
      before) := by
  refine .symbol? (fun _ _ h₁ seen => ?_) fun no_dot => ?_
  · have receiver : object.isReceiver = true := calls.callable.resolve_right fun h => h.dot seen
    refine (reads_callTail hi).bind fun _ r _ hr =>
      reads_pure ⟨by simp, .of_parts ?_ (Expr.sound_of_isReceiver receiver rfl rfl) ?_, rfl,
        .inl rfl, .of_isReceiver rfl⟩
    · simp [Expr.spelling, ← calls.wrote.values, h₁, hr.1]
    · exact List.forall_mem_cons.mpr ⟨calls.wrote.sound, hr.2⟩
  · refine .symbol? (fun _ _ h₁ seen => ?_) fun no_at => ?_
    · have receiver : object.isReceiver = true :=
        calls.callable.resolve_right fun h => h.at_sign seen
      refine reads_typeName.bind fun _ _ _ ht => .symbol fun _ _ h₂ =>
        (reads_callTail hi).bind fun _ r _ hr =>
          reads_pure ⟨by simp, .of_parts ?_ (Expr.sound_of_isReceiver receiver rfl rfl) ?_, rfl,
            .inl rfl, .of_isReceiver rfl⟩
      · simp [Expr.spelling, ← calls.wrote.values, h₁, ht, h₂, hr.1]
      · exact List.forall_mem_cons.mpr ⟨calls.wrote.sound, hr.2⟩
    · exact reads_pure ⟨by simpa using calls.wrote, calls.primary, ⟨no_dot, no_at⟩, calls.stopped⟩

theorem reads_dispatch : Reads items (dispatch inner) fun ts e rest =>
    Wrote ts e ∧ e.isPrimary = true ∧ Undispatched rest ∧ Stopped e rest := by
  rw [dispatch_eq]
  exact (reads_atom hi).bind fun ts object _ calls =>
    reads_repeating_behind calls fun _ _ _ => reads_dispatchRound hi

/-- A leading `not` ends what is read; behind any other operand may stand an operator. -/
theorem reads_leading (min : Strength) : Reads items (leading inner min) fun ts r rest =>
    Wrote ts r.1 ∧ r.1.fits min = true ∧
      if r.2 then Halts min r.1 rest
      else r.1.isOperand (· ≠ .not) (fun _ => false) = true ∧ Undispatched rest ∧
        Stopped r.1 rest := by
  refine .head? ?_
  split
  · rename_i op hop
    obtain ⟨_, binds⟩ := Option.filter_eq_some_iff.mp hop
    refine .symbol fun _ _ h₁ => (hi.operand _).bind fun _ e _ ⟨wrote, fits, halts⟩ => reads_pure ?_
    refine ⟨.of_parts ?_ (Expr.sound_of_closed (Expr.grouped_unary.mpr fits) rfl) ?_, binds, ?_⟩
    · simp [Expr.spelling, h₁, wrote.values]
    · simp [Expr.parts, wrote.sound]
    · by_cases negates : op = .not
      · rw [if_pos (by simpa using negates)]
        subst negates
        -- All binary operators bind tighter than `not`: what is left can only be a comparison.
        refine ⟨halts.toUndispatched, fun o ho => .inr ?_, halts.stopped⟩
        exact (halts.operator o ho).resolve_left (Nat.not_le_of_lt o.rank_pos)
      · rw [if_neg (by simpa using negates)]
        exact ⟨decide_eq_true negates, halts.toUndispatched, halts.stopped⟩
  · refine (reads_dispatch hi).bind ?_
    rintro _ e _ ⟨wrote, primary, undispatched, stopped⟩
    refine reads_pure ⟨by simpa using wrote, ?_, ?_, undispatched, stopped⟩
    · exact Expr.isOperand_of_isPrimary primary
    · exact Expr.isOperand_of_isPrimary primary

/-- What holds between the rounds that take an operator and its right operand: the operator that
comes next binds no tighter than the one at the root. -/
structure Climbs (min : Strength) (ts : List Token) (state : Expr × Bool)
    (rest : List ScanItem) : Prop where
  wrote : Wrote ts state.1
  fits : state.1.fits min = true
  behind : Undispatched rest
  compared : state.2 = state.1.compares
  yields : ∀ op, binaryOp? (next rest) = some op → state.1.yields op = true
  stopped : Stopped state.1 rest

omit hi in
theorem Climbs.binary {min : Strength} {before ts : List Token} {state : Expr × Bool}
    {op : BinaryOp} {t : Token} {right : Expr} {rest : List ScanItem}
    (h : Climbs min before state items) (seen : binaryOp? (next items) = some op)
    (tighter : min.rank < op.strength.rank)
    (once : op.isComparison = true → state.1.compares = false) (ht : t.value = .symbol op.symbol)
    (wrote : Wrote ts right) (fits : right.fits op.strength = true)
    (halts : Halts op.strength right rest) (span : Span) :
    Climbs min (before ++ t :: ts) (.binary op state.1 right span, state.2 || op.isComparison)
      rest where
  wrote := by
    have grouped : (Expr.binary op state.1 right span).grouped = true :=
      Expr.grouped_binary.mpr ⟨⟨h.yields op seen, once⟩, fits⟩
    refine .of_parts ?_ (Expr.sound_binary grouped (h.stopped op seen)) ?_
    · simp [Expr.spelling, h.wrote.values, ht, wrote.values]
    · simp [Expr.parts, h.wrote.sound, wrote.sound]
  fits := decide_eq_true tighter
  behind := halts.toUndispatched
  compared := by
    -- Behind a comparison at the root only another would be taken, and that `once` excludes.
    have apart : state.1.compares = false := by
      cases compares : state.1.compares with
      | false => rfl
      | true => exact compares ▸ once (Expr.isComparison_of_yields (h.yields op seen) compares)
    rw [h.compared, apart]
    rfl
  yields o ho := by
    refine decide_eq_true ?_
    rcases halts.operator o ho with low | ⟨compares, _⟩
    · exact low
    · exact Nat.le_trans (BinaryOp.isComparison_iff_rank.mp compares) op.rank_pos
  stopped := halts.stopped

omit hi in
theorem reads_climbRound {n : Nat} {min : Strength} {before : List Token} {state : Expr × Bool}
    (hr : ∀ {items} (op : BinaryOp), min.rank < op.strength.rank →
      Reads items (climb inner n op.strength) fun ts e rest =>
        Wrote ts e ∧ e.fits op.strength = true ∧ Halts op.strength e rest)
    (climbs : Climbs min before state items) :
    Reads items (climbRound inner n min state) (Round.Reads (Climbs min)
      (fun ts e rest => Wrote ts e ∧ e.fits min = true ∧ Halts min e rest) before) := by
  have stop (h : ∀ op, binaryOp? (next items) = some op →
      op.strength.rank ≤ min.rank ∨ op.isComparison = true ∧ state.1.refuses = true) :
      Reads items (pure (.stop state.1)) (Round.Reads (Climbs min)
        (fun ts e rest => Wrote ts e ∧ e.fits min = true ∧ Halts min e rest) before) :=
    reads_pure ⟨by simpa using climbs.wrote, climbs.fits, climbs.behind, h, climbs.stopped⟩
  refine .head? ?_
  split
  · rename_i none
    exact stop fun op h => nomatch none.symm.trans h
  · rename_i op seen
    split
    · rename_i ends
      refine stop fun o h => ?_
      cases seen.symm.trans h
      refine ends.imp_right fun ⟨compares, compared⟩ => ⟨compares, Expr.refuses_of_compares ?_⟩
      exact climbs.compared.symm.trans compared
    · rename_i goes
      obtain ⟨tighter, once⟩ := not_or.mp goes
      have tighter := Nat.lt_of_not_le tighter
      refine .symbol fun t _ ht => (hr op tighter).bind fun ts right _ ⟨wrote, fits, halts⟩ =>
        reads_pure ⟨by simp, ?_⟩
      rw [List.append_nil]
      refine climbs.binary seen tighter (fun compares => ?_) ht wrote fits halts _
      rw [← climbs.compared]
      exact Bool.eq_false_iff.mpr fun again => once ⟨compares, again⟩

theorem reads_climb (n : Nat) (min : Strength) (hn : min.tighter ≤ n) :
    Reads items (climb inner n min) fun ts e rest =>
      Wrote ts e ∧ e.fits min = true ∧ Halts min e rest := by
  induction n generalizing min items with
  | zero =>
    refine (reads_leading hi min).bind fun ts r _ ⟨wrote, fits, halts⟩ => reads_pure ?_
    refine ⟨by simpa using wrote, fits, ?_⟩
    split at halts
    · exact halts
    · exact ⟨halts.2.1, fun op _ => .inl (op.rank_le_of_tighter (Nat.le_zero.mp hn)), halts.2.2⟩
  | succ n ih =>
    -- An operator that is taken here binds tighter than `min`, so less is left to climb behind it.
    rw [climb_succ]
    refine (reads_leading hi min).bind fun ts r rest ⟨wrote, fits, halts⟩ => ?_
    split
    · rename_i negated
      rw [if_pos negated] at halts
      exact reads_pure ⟨by simpa using wrote, fits, halts⟩
    · rename_i positive
      rw [if_neg positive] at halts
      have start : Climbs min ts (r.1, false) rest :=
        ⟨wrote, fits, halts.2.1, (Expr.compares_of_isOperand halts.1).symm,
          fun op _ => Expr.isOperand_imp halts.1 (fun _ h => h) nofun, halts.2.2⟩
      refine reads_repeating_behind start fun before state rest climbs =>
        reads_climbRound (fun op tighter => ih _ ?_) climbs
      have := BinaryOp.tighter_lt tighter
      omega

theorem reads_operand (min : Strength) : Reads items (operand inner min) fun ts e rest =>
    Wrote ts e ∧ e.fits min = true ∧ Halts min e rest :=
  reads_climb hi _ min (Nat.le_refl _)

theorem reads_assignment : Reads items (assignment inner) fun ts e rest =>
    Wrote ts e ∧ Halts .lowest e rest := by
  refine reads_objectName.bind fun _ _ _ hn => .symbol fun _ _ h₁ => hi.whole.bind
    fun _ value _ ⟨wrote, halts⟩ => reads_pure ⟨.of_parts ?_ rfl ?_,
      ⟨halts.toUndispatched, halts.operator, halts.stopped⟩⟩
  · simp [Expr.spelling, hn, h₁, wrote.values]
  · simp [Expr.parts, wrote.sound]

theorem reads_whole : Reads items (whole inner) fun ts e rest =>
    Wrote ts e ∧ Halts .lowest e rest :=
  reads_either (reads_assignment hi) ((reads_operand hi _).imp fun _ _ _ h => ⟨h.1, h.2.2⟩)

omit hi in
theorem innerAt_faithful (depth : Nat) (start : Position) : (innerAt depth start).Faithful := by
  induction depth generalizing start with
  | zero =>
    exact ⟨.here fun _ => reads_fail (by simp), fun _ => .here fun _ => reads_fail (by simp)⟩
  | succ depth ih =>
    exact ⟨.here fun _ => reads_whole (ih _), fun min => .here fun _ => reads_operand (ih _) min⟩

omit hi in
theorem reads_formal : Reads items formal fun ts p _ => ts.map Token.value = p.spelling := by
  refine reads_objectName.bind fun _ _ _ hn => .symbol fun _ _ h₁ => reads_typeName.bind
    fun _ _ _ ht => reads_pure ?_
  simp [Formal.spelling, hn, h₁, ht]

omit hi in
theorem reads_methodOf {name : Name} : Reads items (methodOf name) fun ts m _ =>
    name.word :: ts.map Token.value = m.spelling ∧ m.body.Sound := by
  have params {items : List ScanItem} : Reads items formal fun ts p _ =>
      ts.map Token.value = p.spelling ∧ True :=
    reads_formal.imp fun _ _ _ h => ⟨h, trivial⟩
  refine .symbol fun _ _ h₁ => (reads_commaSeparated nofun params).bind fun _ _ _ hp =>
    .symbol fun _ _ h₂ => reads_typeName.bind fun _ _ _ ht => .symbol fun _ _ h₃ =>
      (innerAt_faithful _ _).whole.bind fun _ body _ hb => .symbol fun _ _ h₄ =>
        reads_pure ⟨?_, hb.1.sound⟩
  simp [Method.spelling, h₁, hp.1, h₂, ht, h₃, hb.1.values, h₄]

omit hi in
theorem reads_feature : Reads items feature fun ts f _ =>
    ts.map Token.value = f.spelling ∧ f.Sound := by
  refine reads_objectName.bind fun _ name _ hn => .head? ?_
  split
  · exact reads_methodOf.map fun _ _ _ h =>
      ⟨by simp [Feature.spelling, hn, ← h.1], by simpa [Feature.Sound, Feature.exprs] using h.2⟩
  · exact (reads_bindingOf (innerAt_faithful _ _)).map fun _ _ _ h =>
      ⟨by simp [Feature.spelling, hn, ← h.1], by simpa [Feature.Sound, Feature.exprs] using h.2⟩
  · exact reads_expected _

omit hi in
theorem reads_features : Reads items features fun ts r _ =>
    ts.map Token.value = r.1.flatMap (·.spelling ++ [TokenValue.symbol .semicolon]) ++
        [TokenValue.symbol .braceRight] ∧
      ∀ f ∈ r.1, f.Sound := by
  refine reads_repeating (I := fun ts found _ =>
    ts.map Token.value = found.reverse.flatMap (·.spelling ++ [TokenValue.symbol .semicolon]) ∧
      ∀ f ∈ found, f.Sound) (by simp) ?_
  rintro before found rest ⟨spelt, sound⟩
  refine .symbol? (fun _ _ h₁ _ => reads_pure ⟨?_, ?_⟩) fun _ => reads_feature.bind fun _ f _ hf =>
    .symbol fun _ _ h₂ => reads_pure ⟨by simp, ?_, List.forall_mem_cons.mpr ⟨hf.2, sound⟩⟩
  · simp [spelt, h₁]
  · exact fun x hx => sound x (List.mem_reverse.mp hx)
  · simp [spelt, hf.1, h₂]

omit hi in
theorem reads_classDecl : Reads items classDecl fun ts c _ =>
    ts.map Token.value = c.spelling ∧ ∀ f ∈ c.features, f.Sound := by
  refine .symbol fun _ _ h₁ => reads_typeName.bind fun _ name _ hn => .symbol? ?_ ?_
  · intro _ _ h₂ _
    have parent {items : List ScanItem} : Reads items (some <$> typeName) fun ts o _ =>
        ∃ p, o = some p ∧ ts.map Token.value = [p.word] :=
      reads_typeName.map fun _ p _ h => ⟨p, rfl, h⟩
    refine parent.bind fun _ _ _ ⟨p, hp, h₃⟩ => .symbol fun _ _ h₄ => reads_features.bind
      fun _ r _ hr => reads_pure ⟨?_, hr.2⟩
    simp [ClassDecl.spelling, h₁, hn, h₂, hp, h₃, h₄, hr.1]
  · intro _
    have parent {items : List ScanItem} : Reads items (pure none) fun ts (o : Option TypeName) _ =>
        o = none ∧ ts = [] :=
      reads_pure ⟨rfl, rfl⟩
    refine parent.bind fun _ _ _ ⟨hp, h₃⟩ => .symbol fun _ _ h₄ => reads_features.bind
      fun _ r _ hr => reads_pure ⟨?_, hr.2⟩
    simp [ClassDecl.spelling, h₁, hn, hp, h₃, h₄, hr.1]

omit hi in
theorem decides_sound (ended : Ended items) : Decides items program fun p _ =>
    (∃ ts : List Token, items = ts.map .ok ∧ ts.map Token.value = p.spelling ++ [TokenValue.eof]) ∧
      ∀ c ∈ p.classes, ∀ f ∈ c.features, f.Sound := by
  refine decides_repeating (I := fun found rest => Ended rest ∧
    (∃ ts : List Token, items = ts.map .ok ++ rest ∧
      ts.map Token.value = found.reverse.flatMap (·.spelling ++ [TokenValue.symbol .semicolon])) ∧
    ∀ c ∈ found, ∀ f ∈ c.features, f.Sound) ?_ ⟨ended, ⟨[], by simp⟩, by simp⟩
  rintro found rest ⟨rest_ended, ⟨before, rfl, spelt⟩, sound⟩
  refine (reads_classDecl rest_ended).bind ?_
  rintro c mid ⟨mid_ended, ts, rfl, values, hc⟩
  refine (reads_oneOf [.symbol .semicolon] (by simp) mid_ended).bind ?_
  rintro semicolon left ⟨left_ended, _, rfl, rfl, h⟩
  have h := kind_eq_symbol.mp (List.mem_singleton.mp h)
  have all : ∀ x ∈ c :: found, ∀ f ∈ x.features, f.Sound := List.forall_mem_cons.mpr ⟨hc, sound⟩
  refine (decides_eof left_ended).bind ?_
  rintro (_ | last) left h_last
  · subst h_last
    refine .inl ⟨.more (c :: found), left,
      ⟨⟨left_ended, ⟨before ++ ts ++ [semicolon], ?_, ?_⟩, all⟩, ?_⟩, fun _ => rfl⟩
    · simp
    · simp [spelt, values, h]
    · simp only [List.length_append, List.length_map, List.length_singleton]
      omega
  · obtain ⟨rfl, value, rfl⟩ := h_last
    refine .inl ⟨.stop _, [], ⟨⟨before ++ ts ++ [semicolon, last], ?_, ?_⟩, ?_⟩, fun _ => rfl⟩
    · simp
    · simp [Program.spelling, spelt, values, h, value]
    · exact fun x hx => all x (List.mem_reverse.mp hx)

omit hi in
theorem decides_program (ended : Ended items) : Decides items program fun p _ =>
    (∃ ts : List Token, items = ts.map .ok ∧ ts.map Token.value = p.spelling ++ [TokenValue.eof]) ∧
      ∀ c ∈ p.classes, ∀ f ∈ c.features, f.Shaped :=
  (decides_sound ended).imp fun _ _ h => ⟨h.1, fun c hc f hf e he => (h.2 c hc f hf e he).shaped⟩

end Parse

/-- Parsing a text comes to a program, or to a fault that the text has; what might stand behind the
end of the text is not looked at. -/
theorem parse_decides (c : Cursor) (more : List ScanItem) :
    ((∃ p, parse (scan c) = .ok p) ∨ ∃ e, parse (scan c) = .error e ∧ e ≠ .cutShort) ∧
      parse (scan c ++ more) = parse (scan c) := by
  rcases Parse.decides_program (Scan.scan_ended c) with ⟨p, rest, _, h⟩ | ⟨e, he, h⟩
  · have run (more : List ScanItem) : parse (scan c ++ more) = .ok p :=
      bind_eq_ok.mpr ⟨_, h more, rfl⟩
    have here := run []
    rw [List.append_nil] at here
    exact ⟨.inl ⟨p, here⟩, (run more).trans here.symm⟩
  · have run (more : List ScanItem) : parse (scan c ++ more) = .error e :=
      bind_eq_error.mpr (.inl (h more))
    have here := run []
    rw [List.append_nil] at here
    exact ⟨.inr ⟨e, here, he⟩, (run more).trans here.symm⟩

theorem program_of_parse {items : List ScanItem} {p : Program} (h : parse items = .ok p) :
    ∃ rest, Parse.program items = .ok (p, rest) := by
  obtain ⟨⟨q, rest⟩, read, made⟩ := bind_eq_ok.mp h
  cases made
  exact ⟨rest, read⟩

/-- The tokens of a text that is a program are those that its tree is written with, and the end. -/
theorem parse_spells {c : Cursor} {p : Program} (h : parse (scan c) = .ok p) :
    ∃ tokens : List Token, scan c = tokens.map .ok ∧
      tokens.map Token.value = p.spelling ++ [.eof] := by
  obtain ⟨_, read⟩ := program_of_parse h
  exact ((Parse.decides_program (Scan.scan_ended c)).of_ok read).1

/-- In a program that was read, operands bind as tightly as the operators and calls at which they
stand ask. -/
theorem parse_grouped {c : Cursor} {p : Program} (h : parse (scan c) = .ok p) :
    ∀ d ∈ p.classes, ∀ e ∈ d.subterms, e.grouped = true := by
  obtain ⟨_, read⟩ := program_of_parse h
  intro d hd x hx
  obtain ⟨f, hf, e, he, hx⟩ := ClassDecl.mem_subterms.mp hx
  have shaped := ((Parse.decides_program (Scan.scan_ended c)).of_ok read).2 d hd f hf e he x hx
  rw [Expr.shaped, Bool.and_eq_true] at shaped
  exact shaped.2

/-- In a program that was read, the body of each `let` extends as far as it can, but for comparisons
behind a body that is one. -/
theorem lets_extend_iff {c : Cursor} {p : Program} (h : parse (scan c) = .ok p) :
    p.LetsExtend ↔ p.Unchained := by
  obtain ⟨_, read⟩ := program_of_parse h
  have sound := ((Parse.decides_sound (Scan.scan_ended c)).of_ok read).2
  refine ⟨Program.LetsExtend.unchained, fun unchained d hd op left right span he => ?_⟩
  obtain ⟨f, hf, root, hr, hx⟩ := ClassDecl.mem_subterms.mp he
  have reaches := (Bool.and_eq_true_iff.mp (sound d hd f hf root hr _ hx)).2
  have apart := unchained d hd _ he
  cases opens : left.opens with
  | false => rfl
  | true =>
    obtain ⟨compares, stops⟩ := Expr.reaches_binary.mp reaches opens
    simp [Expr.chains, compares, opens, stops] at apart

def assorted : Cursor := .ofText (some 1) <| [
  "class A inherits B \x7b",
  "  n : Int <- 1 + 2 * ~3 - 4 / isvoid ~5;",
  "  s : String;",
  "  f(a : A, b : B) : Object \x7b",
  "    \x7b",
  "      n <- not n + 1 <= 2;",
  "      if true = false then g() else a.f(self, b)@B.f(n, (n <- 1)).g() fi;",
  "      while isvoid a loop s <- \"text\" pool;",
  "      case new A of x : A => x; y : B => not y; esac;",
  "      1 + let x : Int, y : Int <- 2 in x < y;",
  "    \x7d",
  "  \x7d;",
  "\x7d;",
  "class B \x7b g() : Int \x7b 0 \x7d; \x7d;"].flatMap ascii

theorem assorted_parsed : ∃ p, parse (scan assorted) = .ok p := by
  have parsed : (parse (scan assorted)).toOption.isSome = true := by decide +kernel
  cases h : parse (scan assorted) with
  | ok p => exact ⟨p, rfl⟩
  | error e => rw [h] at parsed; cases parsed

theorem parse_spells_assorted : ∃ p, parse (scan assorted) = .ok p ∧
    ∃ tokens : List Token, scan assorted = tokens.map .ok ∧
      tokens.map Token.value = p.spelling ++ [.eof] :=
  have ⟨p, parsed⟩ := assorted_parsed
  ⟨p, parsed, parse_spells parsed⟩

theorem parse_grouped_assorted : ∃ p, parse (scan assorted) = .ok p ∧
    ∀ d ∈ p.classes, ∀ e ∈ d.subterms, e.grouped = true :=
  have ⟨p, parsed⟩ := assorted_parsed
  ⟨p, parsed, parse_grouped parsed⟩

theorem lets_extend_assorted : ∃ p, parse (scan assorted) = .ok p ∧ p.LetsExtend := by
  have computed : (parse (scan assorted)).toOption.any (fun p => p.Unchained) = true := by
    decide +kernel
  cases h : parse (scan assorted) with
  | ok p =>
    rw [h] at computed
    exact ⟨p, rfl, (lets_extend_iff h).mpr (of_decide_eq_true computed)⟩
  | error e =>
    rw [h] at computed
    cases computed

/-- A `let` with a comparison for its body, and one more behind it. -/
def chained : Cursor := .ofText (some 1) <| [
  "class Main \x7b\n",
  "  main() : Bool \x7b let x : Int in 1 < 2 = true \x7d;\n",
  "\x7d;\n"].flatMap ascii

theorem chained_refutes : ∃ p, parse (scan chained) = .ok p ∧ ¬ p.LetsExtend := by
  have computed : (parse (scan chained)).toOption.any (fun p => !p.Unchained) = true := by
    decide +kernel
  cases h : parse (scan chained) with
  | ok p =>
    rw [h] at computed
    simp only [Except.toOption, Option.any_some, Bool.not_eq_true', decide_eq_false_iff_not]
      at computed
    exact ⟨p, rfl, fun extend => computed extend.unchained⟩
  | error e =>
    rw [h] at computed
    cases computed

end Cool
