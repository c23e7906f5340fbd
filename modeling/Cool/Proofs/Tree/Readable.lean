import Cool.Proofs.Tree.Canonical
import Cool.Proofs.Tree.Takes

/-!
Canonical expressions are read. What reading makes of the tokens that spell one is the expression,
up to places, wherever it may stand; and where it nests too deep, the fault that tells so.
-/
namespace Cool

namespace Parse

open Reader

/-! ## What stands behind an expression -/

/-- The symbols that end a whole expression. -/
def closers : List Symbol :=
  [.kwThen, .kwElse, .kwFi, .kwLoop, .kwPool, .kwOf, .kwIn, .semicolon, .comma, .parenRight,
   .braceRight]

def Closes (o : Option TokenKind) : Prop := ∃ s ∈ closers, o = some (.symbol s)

/-- What may stand behind an operand: the end of the whole expression or an operator with `P`, but
no operator where a `let` would take it. -/
def Follows (opens : Bool) (P : BinaryOp → Prop) (o : Option TokenKind) : Prop :=
  Closes o ∨ opens = false ∧ ∃ op, P op ∧ o = some (.symbol op.symbol)

variable {o : Option TokenKind} {opens : Bool} {P P' : BinaryOp → Prop}

theorem closes_first {s : Symbol} {vs : List TokenValue} (h : s ∈ closers) :
    Closes (first (.symbol s :: vs) o) :=
  ⟨s, h, rfl⟩

theorem Closes.binaryOp? (h : Closes o) : Parse.binaryOp? o = none := by
  obtain ⟨s, hs, rfl⟩ := h
  revert s
  decide

theorem Closes.other (h : Closes o) {s : Symbol} (hs : s ∉ closers) :
    ∃ k, o = some k ∧ k ≠ .symbol s := by
  obtain ⟨s', hs', rfl⟩ := h
  refine ⟨_, rfl, ?_⟩
  rintro ⟨⟩
  exact hs hs'

namespace Follows

theorem imp (h : Follows opens P o) (hP : ∀ op, P op → P' op) : Follows opens P' o :=
  h.imp_right fun ⟨shut, op, hop, seen⟩ => ⟨shut, op, hP op hop, seen⟩

theorem closes (h : Follows true P o) : Closes o := h.resolve_right fun taken => nomatch taken.1

theorem other (h : Follows opens P o) {s : Symbol} (hs : s ∉ closers)
    (not_op : BinaryOp.ofSymbol? s = none) : ∃ k, o = some k ∧ k ≠ .symbol s := by
  rcases h with closes | ⟨_, op, _, rfl⟩
  · exact closes.other hs
  · refine ⟨_, rfl, ?_⟩
    rintro ⟨⟩
    rw [op.ofSymbol?_symbol] at not_op
    cases not_op

theorem binaryOp? (h : Follows opens P o) {op : BinaryOp} (hop : Parse.binaryOp? o = some op) :
    P op := by
  rcases h with closes | ⟨_, op', hP, rfl⟩
  · rw [closes.binaryOp?] at hop
    cases hop
  · cases op'.ofSymbol?_symbol.symm.trans hop
    exact hP

end Follows

/-! ## What an expression starts with -/

theorem first_spelling (e : Expr) (ws : List TokenValue) (o : Option TokenKind) :
    ∃ k, first (e.spelling ++ ws) o = some k ∧ k.starts = true := by
  obtain ⟨v, vs, spelt, starts⟩ := e.spelling_eq_cons
  exact ⟨v.kind, by rw [spelt]; rfl, starts⟩

theorem first_spelling_ne (e : Expr) {s : Symbol} (hs : (TokenKind.symbol s).starts = false)
    (ws : List TokenValue) (o : Option TokenKind) :
    ∃ k, first (e.spelling ++ ws) o = some k ∧ k ≠ .symbol s := by
  obtain ⟨k, seen, starts⟩ := first_spelling e ws o
  refine ⟨k, seen, ?_⟩
  rintro rfl
  exact Bool.false_ne_true (hs.symm.trans starts)

theorem unaryOp?_first {e : Expr} (primary : e.isPrimary = true)
    (canonical : e.Canonical) (ws : List TokenValue) (o : Option TokenKind) :
    unaryOp? (first (e.spelling ++ ws) o) = none := by
  induction e generalizing ws with
  | call receiver _ _ _ ih | staticCall receiver _ _ _ _ ih =>
    have grouped : receiver.isReceiver = true := canonical.grouped
    rw [Expr.spelling, List.append_assoc]
    exact ih (Expr.isPrimary_of_isReceiver grouped) (canonical.part (.head _)) _
  | assign | binary | unary => cases primary
  | bool value => cases value <;> rfl
  | _ => rw [Expr.spelling]; rfl

/-- A name with `<-` behind it stands in front of assignments only. -/
theorem not_assigns {e : Expr} (operand : e.isOperand (fun _ => true) (fun _ => true) = true)
    (canonical : e.Canonical) (ws : List TokenValue) (o : Option TokenKind)
    (behind : first ws o ≠ some (.symbol .arrowLeft)) :
    ¬ (first (e.spelling ++ ws) o = some .ident ∧
      first (e.spelling ++ ws).tail o = some (.symbol .arrowLeft)) := by
  induction e generalizing ws with
  | call receiver _ _ _ ih | staticCall receiver _ _ _ _ ih =>
    have grouped : receiver.isReceiver = true := canonical.grouped
    rw [Expr.spelling, List.append_assoc]
    have primary := Expr.isPrimary_of_isReceiver grouped
    exact ih (Expr.isOperand_of_isPrimary primary) (canonical.part (.head _)) _
      (first_ne (by decide))
  | binary op left _ _ ih _ =>
    have grouped := canonical.grouped
    rw [Expr.grouped, Bool.and_eq_true] at grouped
    rw [Expr.spelling, List.append_assoc]
    refine ih (Expr.isOperand_imp grouped.1 (fun _ _ => rfl) fun _ _ => rfl)
      (canonical.part (.head _)) _ ?_
    exact first_ne (by cases op <;> decide)
  | assign => cases operand
  | name => exact fun h => behind h.2
  | _ => simp [Expr.spelling, first, TokenValue.kind, Name.word]

/-! ## Names -/

theorem takes_ident {text : Bytes} {F : Option TokenKind → Prop} :
    Takes [.ident text] F True ident fun r => r.1 = text := by
  unfold ident
  refine .oneOf (List.mem_singleton_self _) fun t ht => ?_
  rw [ht]
  exact takes_pure rfl

theorem not_isUpper {text : Bytes} (h : text.head?.any isLower = true) :
    text.head?.any isUpper = false := by
  cases text with
  | nil => rfl
  | cons c _ =>
    simp only [List.head?_cons, Option.any_some, isLower, isUpper, Bool.and_eq_true,
      decide_eq_true_eq, Bool.and_eq_false_iff, decide_eq_false_iff_not] at h ⊢
    exact .inr fun high => absurd (UInt8.le_trans h.1 high) (by decide)

theorem not_isLower {text : Bytes} (h : text.head?.any isUpper = true) :
    text.head?.any isLower = false := by
  cases low : text.head?.any isLower with
  | false => rfl
  | true => exact absurd h (Bool.eq_false_iff.mp (not_isUpper low))

theorem takes_objectName {n : Name} (h : n.cased = true) :
    Takes [n.word] (fun _ => True) True objectName fun m => m.unplaced = n.unplaced := by
  refine .token takes_ident ?_
  rintro ⟨text, span⟩ rfl
  have lower : n.text.head?.any isUpper = false := not_isUpper h
  dsimp only
  rw [lower]
  exact takes_pure rfl

theorem takes_typeName {t : TypeName} (h : t.cased = true) :
    Takes [t.word] (fun _ => True) True typeName fun u => u.unplaced = t.unplaced := by
  refine .token takes_ident ?_
  rintro ⟨text, span⟩ rfl
  have upper : t.text.head?.any isLower = false := not_isLower h
  dsimp only
  rw [upper]
  exact takes_pure rfl

/-! ## Reading an expression

A left operand and the operator behind it are read in the rounds of one loop, and so are a receiver
and the call on it. `TakesClimbed` and `TakesCalled` therefore speak of an expression with all that
the rounds take behind it: this is what an operator needs to know of its left operand, and a call of
its receiver. -/

abbrev Makes (e : Expr) (F : Option TokenKind → Prop) (depth : Nat) (r : Reader Expr) : Prop :=
  Takes e.spelling F (e.levels ≤ depth) r fun a => a.unplaced = e.unplaced

def TakesWhole (e : Expr) : Prop :=
  ∀ depth start, Takes e.spelling Closes (e.levels < depth) (innerAt depth start).whole
    fun a => a.unplaced = e.unplaced

def TakesOperand (e : Expr) : Prop :=
  ∀ depth start n min, e.fits min = true → min.tighter ≤ n →
    Makes e (Follows e.opens fun op => op.strength.rank ≤ min.rank) depth
      (climb (innerAt depth start) n min)

def TakesClimbed (e : Expr) : Prop :=
  ∀ ⦃depth start n min ws G q⦄ ⦃R : Expr → Prop⦄, e.fits min = true → min.tighter ≤ n + 1 →
    (∀ o, G o → Follows e.opens (e.yields · = true) (first ws o)) →
    (∀ a, a.unplaced = e.unplaced →
      Continues (climbRound (innerAt depth start) n min) (a, e.compares) ws G q R) →
    Takes (e.spelling ++ ws) G (e.levels ≤ depth ∧ q) (climb (innerAt depth start) (n + 1) min) R

def TakesLeading (e : Expr) : Prop :=
  ∀ depth start min, e.fits min = true →
    Takes e.spelling (Follows e.opens (e.yields · = true)) (e.levels ≤ depth)
      (leading (innerAt depth start) min) fun r => r.1.unplaced = e.unplaced ∧ r.2 = e.negates

def TakesCalled (e : Expr) : Prop :=
  ∀ ⦃depth start ws G q⦄ ⦃R : Expr → Prop⦄,
    (∀ o, G o → first ws o ≠ some (.symbol .parenLeft)) →
    (∀ a, a.unplaced = e.unplaced →
      Continues (dispatchRound (innerAt depth start)) a ws G q R) →
    Takes (e.spelling ++ ws) G (e.levels ≤ depth ∧ q) (dispatch (innerAt depth start)) R

variable {e : Expr} {depth : Nat} {start : Position}

/-- Where no level is left, nothing is read. -/
theorem takes_refused {Q : Expr → Prop} {F : Option TokenKind → Prop} {p : Prop} (deep : ¬p)
    {vs : List TokenValue} (inhabited : vs ≠ []) :
    Takes vs F p (do fail (.nestedTooDeeply ⟨start, ← here⟩)) Q := by
  refine .here inhabited fun at_ items rest _ _ => ⟨fun fits => absurd fits deep, fun _ => ?_⟩
  exact ⟨⟨start, at_⟩, rfl⟩

theorem spelling_ne_nil (e : Expr) : e.spelling ≠ [] := by
  obtain ⟨v, vs, spelt, _⟩ := e.spelling_eq_cons
  rw [spelt]
  exact List.cons_ne_nil v vs

theorem TakesOperand.inner (h : TakesOperand e) {min : Strength} (fits : e.fits min = true) :
    Takes e.spelling (Follows e.opens fun op => op.strength.rank ≤ min.rank) (e.levels < depth)
      ((innerAt depth start).operand min) fun a => a.unplaced = e.unplaced := by
  cases depth with
  | zero => exact takes_refused (Nat.not_lt_zero _) (spelling_ne_nil e)
  | succ depth =>
    refine .here (spelling_ne_nil e) fun at_ => ?_
    exact (h depth at_ _ min fits (Nat.le_refl _)).of_iff Nat.lt_succ_iff.symm

theorem TakesOperand.whole (h : TakesOperand e) (canonical : e.Canonical)
    (operand : e.isOperand (fun _ => true) (fun _ => true) = true) : TakesWhole e := by
  intro depth start
  cases depth with
  | zero => exact takes_refused (Nat.not_lt_zero _) (spelling_ne_nil e)
  | succ depth =>
    have fits : e.fits .lowest = true :=
      Expr.isOperand_imp operand (fun _ _ => rfl) fun op _ => by cases op <;> rfl
    refine .here (spelling_ne_nil e) fun at_ => ?_
    refine Takes.congr (s := Parse.operand (innerAt depth at_) .lowest) ?_ ?_
    · refine ((h depth at_ _ .lowest fits (Nat.le_refl _)).of_iff Nat.lt_succ_iff.symm).behind ?_
      exact fun _ closes => .inl closes
    · intro items rest spelt closes
      -- The one token that is looked at behind a name is `<-`, which stands there in no operand.
      obtain ⟨v, vs, shape, _⟩ := e.spelling_eq_cons
      have no_arrow : next rest ≠ some (.symbol .arrowLeft) := by
        obtain ⟨k, seen, ne⟩ := closes.other (s := .arrowLeft) (by decide)
        rwa [seen, ne_eq, Option.some.injEq]
      have not_assigned := not_assigns operand canonical [] (next rest) no_arrow
      rw [List.append_nil, shape] at not_assigned
      rw [shape] at spelt
      rw [run_whole, if_neg]
      rw [spelt.next_eq, spelt.next_tail_eq]
      exact not_assigned

theorem TakesLeading.climbed (h : TakesLeading e)
    (alone : e.isOperand (· ≠ .not) (fun _ => false) = true) : TakesClimbed e := by
  intro depth start n min ws G q R fits _ behind continues
  have positive : e.negates = false := Expr.negates_of_isOperand alone
  rw [climb_succ]
  refine (h depth start min fits).bind behind ?_
  rintro ⟨a, negated⟩ ⟨same, rfl⟩
  rw [if_neg (by simp [positive])]
  have apart : e.compares = false := Expr.compares_of_isOperand alone
  exact (apart ▸ continues a same).repeating

theorem TakesClimbed.operand_succ (h : TakesClimbed e) {n : Nat} {min : Strength}
    (fits : e.fits min = true) (enough : min.tighter ≤ n + 1) :
    Makes e (Follows e.opens fun op => op.strength.rank ≤ min.rank) depth
      (climb (innerAt depth start) (n + 1) min) := by
  rw [Makes, ← e.spelling.append_nil]
  refine (h (q := True) (G := Follows e.opens _) fits enough ?_ ?_).of_iff (by simp)
  · exact fun o behind => behind.imp fun op low => Expr.yields_of_fits fits low
  · refine fun a same => .stop (.head? fun o behind => ?_)
    rw [first]
    split
    · exact takes_pure ⟨a, rfl, same⟩
    · rename_i op seen
      rw [if_pos (.inl (behind.binaryOp? seen))]
      exact takes_pure ⟨a, rfl, same⟩

theorem TakesLeading.operand (h : TakesLeading e)
    (single : e.isOperand (fun _ => true) (fun _ => false) = true) : TakesOperand e := by
  intro depth start n min fits enough
  have led : Takes e.spelling (Follows e.opens fun op => op.strength.rank ≤ min.rank)
      (e.levels ≤ depth) (leading (innerAt depth start) min) fun r =>
        r.1.unplaced = e.unplaced ∧ r.2 = e.negates :=
    (h depth start min fits).behind fun o behind =>
      behind.imp fun op low => Expr.yields_of_fits fits low
  cases n with
  | zero => exact led.bind_pure fun r same => same.1
  | succ n =>
    cases negates : e.negates with
    | true =>
      rw [climb_succ]
      refine led.last ?_
      rintro ⟨a, _⟩ ⟨same, rfl⟩
      rw [if_pos (by simp [negates])]
      exact takes_pure same
    | false => exact (h.climbed (Expr.isOperand_of_negates single negates)).operand_succ fits enough

theorem takesLeading_of_dispatch (primary : e.isPrimary = true)
    (canonical : e.Canonical)
    (h : ∀ depth start, Makes e (Follows e.opens fun _ => True) depth
      (dispatch (innerAt depth start))) : TakesLeading e := by
  intro depth start min _
  have positive : e.negates = false :=
    Expr.negates_of_isOperand (b := fun _ => true) (Expr.isOperand_of_isPrimary primary)
  refine .head? fun o _ => ?_
  have no_operator := unaryOp?_first primary canonical [] o
  rw [List.append_nil] at no_operator
  rw [no_operator, Option.filter_none]
  refine ((h depth start).behind fun o behind => behind.imp fun _ _ => trivial).bind_pure ?_
  exact fun a same => ⟨same, positive.symm⟩

theorem continues_uncalled {inner : Inner} {a : Expr} (ha : a.unplaced = e.unplaced) :
    Continues (dispatchRound inner) a [] (Follows opens P) True fun b =>
      b.unplaced = e.unplaced := by
  refine .stop (.kind?_none (fun o behind => behind.other (by decide) rfl) ?_)
  exact .kind?_none (fun o behind => behind.other (by decide) rfl) (takes_pure ⟨a, rfl, ha⟩)

theorem TakesCalled.dispatch (h : TakesCalled e) :
    Makes e (Follows e.opens fun _ => True) depth (dispatch (innerAt depth start)) := by
  rw [Makes, ← e.spelling.append_nil]
  refine (h (q := True) (G := Follows e.opens _) (fun o behind paren => ?_) ?_).of_iff (by simp)
  · obtain ⟨k, seen, ne⟩ := behind.other (s := .parenLeft) (by decide) rfl
    exact ne (Option.some.inj (seen.symm.trans paren))
  · exact fun a same => continues_uncalled same

theorem takesCalled_of_atom (h : ∀ depth start,
    Makes e (· ≠ some (.symbol .parenLeft)) depth (atom (innerAt depth start))) :
    TakesCalled e := by
  intro depth start ws G q R behind continues
  rw [dispatch_eq]
  exact (h depth start).bind behind fun a same => (continues a same).repeating

theorem takesLeading_unary {op : UnaryOp} {operand : Expr} {span : Span} (h : TakesOperand operand)
    (canonical : (Expr.unary op operand span).Canonical) :
    TakesLeading (.unary op operand span) := by
  intro depth start min fits
  have inside : operand.fits op.strength = true := Expr.grouped_unary.mp canonical.grouped
  rw [Expr.spelling]
  refine .of_iff (.head? fun o _ => ?_) (by rw [Expr.levels])
  have seen : (unaryOp? (first (.symbol op.symbol :: operand.spelling) o)).filter
      (fun op => min.rank ≤ op.strength.rank) = some op := by
    change (UnaryOp.ofSymbol? op.symbol).filter _ = _
    rw [op.ofSymbol?_symbol]
    exact if_pos fits
  rw [seen]
  refine .symbol fun _ => ((h.inner inside).behind fun o behind => ?_).bind_pure fun a same => ?_
  · exact behind.imp fun b yields => b.rank_le_unary (of_decide_eq_true yields)
  · simp [Expr.unplaced, Expr.negates, same]

theorem takes_climbRound {op : BinaryOp} {right : Expr} {n : Nat} {min : Strength} {a : Expr}
    {compared : Bool} (h : TakesOperand right) (tighter : right.fits op.strength = true)
    (rises : min.rank < op.strength.rank) (once : op.isComparison = true → compared = false)
    (enough : min.tighter ≤ n + 1) :
    Takes (.symbol op.symbol :: right.spelling)
      (Follows right.opens fun o => o.strength.rank ≤ op.strength.rank) (right.levels ≤ depth)
      (climbRound (innerAt depth start) n min (a, compared)) fun round =>
        ∃ state, round = .more state ∧ ∃ b span, b.unplaced = right.unplaced ∧
          state = (.binary op a b span, compared || op.isComparison) := by
  refine .head? fun o _ => ?_
  have seen : binaryOp? (first (.symbol op.symbol :: right.spelling) o) = some op :=
    op.ofSymbol?_symbol
  have goes : ¬ (op.strength.rank ≤ min.rank ∨ op.isComparison = true ∧ compared = true) := by
    rintro (low | ⟨compares, again⟩)
    · exact Nat.not_le_of_lt rises low
    · exact Bool.false_ne_true ((once compares).symm.trans again)
  have used := BinaryOp.tighter_lt rises
  rw [seen]
  dsimp only
  rw [if_neg goes]
  refine .symbol fun _ => (h depth start n _ tighter (by omega)).bind_pure ?_
  exact fun b same => ⟨_, rfl, b, _, same, rfl⟩

theorem takesClimbed_binary {op : BinaryOp} {left right : Expr} {span : Span}
    (hl : TakesClimbed left) (hr : TakesOperand right)
    (canonical : (Expr.binary op left right span).Canonical) :
    TakesClimbed (.binary op left right span) := by
  intro depth start n min ws G q R fits enough behind continues
  have rises : min.rank < op.strength.rank := of_decide_eq_true fits
  obtain ⟨⟨yields, once⟩, tighter⟩ := Expr.grouped_binary.mp canonical.grouped
  have shut : left.opens = false := by simpa [Expr.closed] using canonical.closed
  have apart : left.compares = false := by
    cases compares : left.compares with
    | false => rfl
    | true => exact compares ▸ once (Expr.isComparison_of_yields yields compares)
  rw [Expr.spelling, List.append_assoc]
  -- The rounds that go on from the left operand begin with the one that takes `op`.
  refine .of_iff (hl (q := right.levels ≤ depth ∧ q) (Expr.fits_of_yields yields rises) enough
    (fun o _ => .inr ⟨shut, op, yields, rfl⟩) fun a ha => ?_) ?_
  · refine .more (takes_climbRound hr tighter rises once enough) (List.cons_ne_nil _ _) ?_ ?_
    · exact fun o ho => (behind o ho).imp fun _ low => of_decide_eq_true low
    · rintro _ ⟨b, span, hb, rfl⟩
      rw [apart, Bool.false_or]
      exact continues _ (by simp [Expr.unplaced, ha, hb])
  · rw [Expr.levels, Nat.max_le, and_assoc]

structure Readable (e : Expr) : Prop where
  called : e.isReceiver = true → TakesCalled e
  climbed : e.isOperand (· ≠ .not) (fun _ => true) = true → TakesClimbed e
  operand : e.isOperand (fun _ => true) (fun _ => true) = true → TakesOperand e
  whole : TakesWhole e

namespace Readable

theorem of_leading (h : TakesLeading e) (canonical : e.Canonical)
    (single : e.isOperand (fun _ => true) (fun _ => false) = true)
    (called : e.isReceiver = true → TakesCalled e) : Readable e where
  called := called
  climbed operand :=
    h.climbed (Expr.isOperand_of_negates single (Expr.negates_of_isOperand operand))
  operand _ := h.operand single
  whole := (h.operand single).whole canonical (Expr.isOperand_imp single (fun _ h => h) nofun)

theorem of_called (h : TakesCalled e) (receiver : e.isReceiver = true) (canonical : e.Canonical) :
    Readable e :=
  have primary := Expr.isPrimary_of_isReceiver receiver
  .of_leading (takesLeading_of_dispatch primary canonical fun _ _ => h.dispatch) canonical
    (Expr.isOperand_of_isPrimary primary) fun _ => h

theorem of_atom (receiver : e.isReceiver = true) (canonical : e.Canonical)
    (h : ∀ depth start,
      Makes e (· ≠ some (.symbol .parenLeft)) depth (atom (innerAt depth start))) : Readable e :=
  of_called (takesCalled_of_atom h) receiver canonical

theorem unary {op : UnaryOp} {operand : Expr} {span : Span} (h : Readable operand)
    (canonical : (Expr.unary op operand span).Canonical) : Readable (.unary op operand span) := by
  refine of_leading (takesLeading_unary (h.operand ?_) canonical) canonical rfl nofun
  exact Expr.isOperand_imp (Expr.grouped_unary.mp canonical.grouped) (fun _ _ => rfl) fun _ _ => rfl

theorem binary {op : BinaryOp} {left right : Expr} {span : Span} (hl : Readable left)
    (hr : Readable right) (canonical : (Expr.binary op left right span).Canonical) :
    Readable (.binary op left right span) := by
  obtain ⟨⟨yields, _⟩, tighter⟩ := Expr.grouped_binary.mp canonical.grouped
  have climbed : TakesClimbed (.binary op left right span) := by
    refine takesClimbed_binary (hl.climbed ?_) (hr.operand ?_) canonical
    · exact Expr.isOperand_imp yields (fun _ h => h) fun _ _ => rfl
    · exact Expr.isOperand_imp tighter (fun _ _ => rfl) fun _ _ => rfl
  have operand : TakesOperand (.binary op left right span) := by
    intro depth start n min fits enough
    cases n with
    | zero =>
      have low := op.rank_le_of_tighter (Nat.le_zero.mp enough)
      exact absurd (of_decide_eq_true fits) (Nat.not_lt_of_le low)
    | succ n => exact climbed.operand_succ fits enough
  exact ⟨nofun, fun _ => climbed, fun _ => operand, operand.whole canonical rfl⟩

theorem assign {name : Name} {value : Expr} {span : Span} (h : Readable value)
    (canonical : (Expr.assign name value span).Canonical) : Readable (.assign name value span) := by
  refine ⟨nofun, nofun, nofun, fun depth start => ?_⟩
  cases depth with
  | zero => exact takes_refused (Nat.not_lt_zero _) (spelling_ne_nil _)
  | succ depth =>
    refine .here (spelling_ne_nil _) fun at_ => ?_
    refine Takes.congr (s := assignment (innerAt depth at_)) ?_ ?_
    · rw [Expr.spelling]
      refine .of_iff (.token (takes_objectName canonical.cased) fun m hm => .symbol fun _ =>
        (h.whole depth at_).bind_pure fun a ha => ?_) ?_
      · simp [Expr.unplaced, hm, ha]
      · rw [Expr.levels, Nat.succ_lt_succ_iff]
    · intro items rest spelt _
      rw [run_whole, if_pos]
      rw [Expr.spelling] at spelt
      rw [spelt.next_eq, spelt.next_tail_eq]
      exact ⟨rfl, rfl⟩

end Readable

/-! ## Atoms and calls -/

section Parts

variable {F G : Option TokenKind → Prop} {ws : List TokenValue} {q : Prop}

/-- A whole expression in front of a symbol that ends it. -/
theorem Readable.before {β : Type} (h : Readable e) {s : Symbol} (ends : s ∈ closers)
    {f : Expr → Token → Reader β} {R : β → Prop}
    (hf : ∀ a t, a.unplaced = e.unplaced → Takes ws G q (f a t) R) :
    Takes (e.spelling ++ .symbol s :: ws) G (e.levels < depth ∧ q)
      (do let a ← (innerAt depth start).whole; let t ← symbol s; f a t) R :=
  (h.whole depth start).bind (fun _ _ => closes_first ends) fun a ha => .symbol fun t => hf a t ha

theorem takes_arguments {args : List Expr} (h : ∀ a ∈ args, Readable a) :
    Takes (separated (args.map Expr.spelling) ++ [TokenValue.symbol .parenRight]) F
      (levelsOf args ≤ depth) (commaSeparated (innerAt depth start).whole) fun r =>
        r.1.map Expr.unplaced = args.map Expr.unplaced := by
  refine (takes_commaSeparated (fun a _ => first_spelling_ne a rfl) fun a ha =>
    ((h a ha).whole depth start).behind ?_).of_iff levelsOf_le.symm
  rintro _ (rfl | rfl)
  · exact ⟨.comma, by decide, rfl⟩
  · exact ⟨.parenRight, by decide, rfl⟩

theorem takes_callTail {method : Name} {args : List Expr} (cased : method.cased = true)
    (h : ∀ a ∈ args, Readable a) :
    Takes (method.word :: .symbol .parenLeft :: (separated (args.map Expr.spelling) ++
      [.symbol .parenRight])) F (levelsOf args ≤ depth) (callTail (innerAt depth start)) fun r =>
        r.1.unplaced = method.unplaced ∧ r.2.1.map Expr.unplaced = args.map Expr.unplaced :=
  .token (takes_objectName cased) fun _ hm => .symbol fun _ =>
    (takes_arguments h).bind_pure fun _ ha => ⟨hm, ha⟩

theorem takes_bindingOf {b : Binding Expr} (cased : b.type.cased = true)
    (h : ∀ e ∈ b.init, Readable e) {name : Name} (same : name.unplaced = b.name.unplaced) :
    Takes (Binding.spelling b).tail Closes (∀ e ∈ b.init, e.levels < depth)
      (bindingOf (innerAt depth start) name) fun a => a.unplaced = b.unplaced := by
  obtain ⟨_, type, init, _⟩ := b
  cases init with
  | none =>
    refine .of_iff (.symbol fun _ => .token (takes_typeName cased) fun u hu =>
      .kind?_none ?_ (takes_pure ?_)) (by simp)
    · exact fun o closes => closes.other (by decide)
    · simp [Binding.unplaced, same, hu]
  | some e =>
    refine .of_iff (.symbol fun _ => .token (takes_typeName cased) fun u hu =>
      .kind?_some rfl fun _ => ((h e rfl).whole depth start).bind_pure fun a ha => ?_) (by simp)
    simp [Binding.unplaced, same, hu, ha]

theorem takes_conditional {test yes no : Expr} {span : Span} (ht : Readable test)
    (hy : Readable yes) (hn : Readable no) :
    Makes (.cond test yes no span) F depth (conditional (innerAt depth start)) := by
  rw [Makes, Expr.spelling]
  refine .of_iff (.symbol fun _ => ht.before (by decide) fun _ _ h₁ =>
    hy.before (by decide) fun _ _ h₂ => hn.before (by decide) fun _ _ h₃ => takes_pure ?_) ?_
  · simp [Expr.unplaced, h₁, h₂, h₃]
  · simp only [Expr.levels, and_true]
    omega

theorem takes_whileLoop {test body : Expr} {span : Span} (ht : Readable test)
    (hb : Readable body) :
    Makes (.loop test body span) F depth (whileLoop (innerAt depth start)) := by
  rw [Makes, Expr.spelling]
  refine .of_iff (.symbol fun _ => ht.before (by decide) fun _ _ h₁ =>
    hb.before (by decide) fun _ _ h₂ => takes_pure ?_) ?_
  · simp [Expr.unplaced, h₁, h₂]
  · simp only [Expr.levels, and_true]
    omega

theorem takes_group {e : Expr} {span : Span} (h : Readable e) :
    Makes (.group e span) F depth (group (innerAt depth start)) := by
  rw [Makes, Expr.spelling]
  refine .of_iff (.symbol fun _ => h.before (by decide) fun _ _ h₁ => takes_pure ?_) ?_
  · simp [Expr.unplaced, h₁]
  · simp only [Expr.levels, and_true]
    omega

theorem takes_blockBody {body : List Expr} (inhabited : body ≠ []) (h : ∀ e ∈ body, Readable e) :
    Takes (body.flatMap (·.spelling ++ [TokenValue.symbol .semicolon]) ++
        [TokenValue.symbol .braceRight]) F
      (levelsOf body ≤ depth) (blockBody (innerAt depth start)) fun r =>
        r.1.map Expr.unplaced = body.map Expr.unplaced := by
  refine (Continues.joined
    (fun es => es.flatMap (·.spelling ++ [TokenValue.symbol .semicolon]) ++
      [TokenValue.symbol .braceRight])
    (fun e => e.spelling ++ [TokenValue.symbol .semicolon])
    (fun e => e.spelling ++ [TokenValue.symbol .semicolon, .symbol .braceRight])
    (R := fun views (r : List Expr × Token) => r.1.map Expr.unplaced = views)
    (H := fun o => ∃ k, o = some k ∧ k ≠ .symbol .braceRight)
    (by simp) (by simp) (by simp) ?_ ?_ ?_ inhabited []).repeating.of_iff levelsOf_le.symm
  · intro e _ es o
    rw [List.flatMap_cons, List.append_assoc, List.append_assoc]
    exact first_spelling_ne e rfl _ o
  · exact fun e he found => .of_iff ((h e he).before (by decide) fun a _ ha =>
      .kind?_none (fun _ ho => ho) (takes_pure ⟨_, rfl, a, ha, rfl⟩)) (by simp)
  · exact fun e he found => .of_iff ((h e he).before (by decide) fun a _ ha =>
      .kind?_some rfl fun brace => takes_pure ⟨((a :: found).reverse, brace), rfl, a, ha, rfl⟩)
      (by simp)

theorem takes_block {body : List Expr} {span : Span} (h : ∀ e ∈ body, Readable e)
    (canonical : (Expr.block body span).Canonical) :
    Makes (.block body span) F depth (block (innerAt depth start)) := by
  have inhabited : body ≠ [] := by simpa [Expr.filled] using canonical.filled
  rw [Makes, Expr.spelling, spellings_eq, List.flatMap_map]
  refine .symbol fun _ => (takes_blockBody inhabited h).bind_pure fun r hr => ?_
  simp [Expr.unplaced, hr]

theorem takes_letBindings {bindings : List (Binding Expr)} (inhabited : bindings ≠ [])
    (cased : ∀ b ∈ bindings, b.name.cased = true ∧ b.type.cased = true)
    (h : ∀ b ∈ bindings, ∀ e ∈ b.init, Readable e) :
    Takes (separated (bindings.map Binding.spelling) ++ [TokenValue.symbol .kwIn]) F
      (levelsOfBindings bindings ≤ depth) (letBindings (innerAt depth start)) fun r =>
        r.map Binding.unplaced = bindings.map Binding.unplaced := by
  refine (Continues.joined
    (fun bs => separated (bs.map Binding.spelling) ++ [TokenValue.symbol .kwIn])
    (fun b => Binding.spelling b ++ [TokenValue.symbol .comma])
    (fun b => Binding.spelling b ++ [TokenValue.symbol .kwIn])
    (R := fun views (r : List (Binding Expr)) => r.map Binding.unplaced = views)
    (H := fun _ => True) (by simp [separated]) (by simp [separated]) (by simp)
    (fun _ _ _ _ => trivial) ?_ ?_ inhabited []).repeating.of_iff levelsOfBindings_le.symm
  · intro b hb found
    refine .of_iff (.token (takes_objectName (cased b hb).1) fun m hm =>
      (takes_bindingOf (cased b hb).2 (h b hb) hm).bind (fun _ _ => closes_first (by decide))
        fun a ha => .kind?_other (by decide) (.symbol fun _ =>
          takes_pure ⟨_, rfl, a, ha, rfl⟩)) (by simp)
  · intro b hb found
    refine .of_iff (.token (takes_objectName (cased b hb).1) fun m hm =>
      (takes_bindingOf (cased b hb).2 (h b hb) hm).bind (fun _ _ => closes_first (by decide))
        fun a ha => .kind?_some rfl fun _ => takes_pure ⟨(a :: found).reverse, rfl, a, ha, rfl⟩)
      (by simp)

theorem takes_letIn {bindings : List (Binding Expr)} {body : Expr} {span : Span}
    (h : ∀ b ∈ bindings, ∀ e ∈ b.init, Readable e) (hb : Readable body)
    (canonical : (Expr.letIn bindings body span).Canonical) :
    Makes (.letIn bindings body span) Closes depth (letIn (innerAt depth start)) := by
  have inhabited : bindings ≠ [] := by simpa [Expr.filled] using canonical.filled
  have cased : ∀ b ∈ bindings, b.name.cased = true ∧ b.type.cased = true := by
    simpa [Expr.cased] using canonical.cased
  have spelt : (Expr.letIn bindings body span).spelling = TokenValue.symbol .kwLet ::
      ((separated (bindings.map Binding.spelling) ++ [TokenValue.symbol .kwIn]) ++
        body.spelling) := by
    simp [Expr.spelling]
  rw [Makes, spelt]
  refine .of_iff (.symbol fun _ => (takes_letBindings (F := fun _ => True) inhabited cased h).bind
    (fun _ _ => trivial) fun bs hbs => (hb.whole depth start).bind_pure fun a ha => ?_) ?_
  · simp [Expr.unplaced, hbs, ha]
  · rw [Expr.levels, Nat.max_le, Nat.succ_le_iff]

theorem takes_caseArm {arm : CaseArm Expr} (cased : arm.name.cased = true ∧ arm.type.cased = true)
    (h : Readable arm.body) :
    Takes arm.spelling F (arm.body.levels < depth) (caseArm (innerAt depth start)) fun a =>
      a.unplaced = arm.unplaced := by
  refine .of_iff (.token (takes_objectName cased.1) fun n hn => .symbol fun _ =>
    .token (takes_typeName cased.2) fun t ht => .symbol fun _ =>
      h.before (by decide) fun a _ ha => takes_pure ?_) (by simp)
  simp [CaseArm.unplaced, hn, ht, ha]

theorem takes_caseArms {arms : List (CaseArm Expr)} (inhabited : arms ≠ [])
    (cased : ∀ a ∈ arms, a.name.cased = true ∧ a.type.cased = true)
    (h : ∀ a ∈ arms, Readable a.body) :
    Takes (arms.flatMap CaseArm.spelling ++ [TokenValue.symbol .kwEsac]) F
      (levelsOfArms arms ≤ depth) (caseArms (innerAt depth start)) fun r =>
        r.1.map CaseArm.unplaced = arms.map CaseArm.unplaced := by
  refine (Continues.joined (fun as => as.flatMap CaseArm.spelling ++ [TokenValue.symbol .kwEsac])
    CaseArm.spelling (fun a => a.spelling ++ [TokenValue.symbol .kwEsac])
    (R := fun views (r : List (CaseArm Expr) × Token) => r.1.map CaseArm.unplaced = views)
    (H := fun o => ∃ k, o = some k ∧ k ≠ .symbol .kwEsac) (by simp) (by simp) (fun _ _ => nofun)
    (fun _ _ _ _ => ⟨_, rfl, nofun⟩) ?_ ?_ inhabited []).repeating.of_iff levelsOfArms_le.symm
  · exact fun a ha found => (takes_caseArm (cased a ha) (h a ha)).last fun b hb =>
      .kind?_none (fun _ ho => ho) (takes_pure ⟨_, rfl, b, hb, rfl⟩)
  · exact fun a ha found => .of_iff ((takes_caseArm (F := fun _ => True) (cased a ha) (h a ha)).bind
      (fun _ _ => trivial) fun b hb => .kind?_some rfl fun last =>
        takes_pure ⟨((b :: found).reverse, last), rfl, b, hb, rfl⟩) (by simp)

theorem takes_caseOf {scrutinee : Expr} {arms : List (CaseArm Expr)} {span : Span}
    (hs : Readable scrutinee) (h : ∀ a ∈ arms, Readable a.body)
    (canonical : (Expr.case scrutinee arms span).Canonical) :
    Makes (.case scrutinee arms span) F depth (caseOf (innerAt depth start)) := by
  have inhabited : arms ≠ [] := by simpa [Expr.filled] using canonical.filled
  have cased : ∀ a ∈ arms, a.name.cased = true ∧ a.type.cased = true := by
    simpa [Expr.cased] using canonical.cased
  rw [Makes, Expr.spelling, spellingsOfArms_eq, ← List.flatMap_def]
  refine .of_iff (.symbol fun _ => hs.before (by decide) fun a _ ha =>
    (takes_caseArms inhabited cased h).bind_pure fun r hr => ?_) ?_
  · simp [Expr.unplaced, ha, hr]
  · rw [Expr.levels, Nat.max_le, Nat.succ_le_iff]

theorem takes_newObject {type : TypeName} {span : Span}
    (canonical : (Expr.new type span).Canonical) : Makes (.new type span) F depth newObject := by
  rw [Makes, Expr.spelling]
  refine .of_iff (.symbol fun _ => (takes_typeName canonical.cased).behind (fun _ _ => trivial)
    |>.bind_pure fun t ht => ?_) (by simp [Expr.levels])
  simp [Expr.unplaced, ht]

theorem takes_selfCall {method : Name} {args : List Expr} {span : Span}
    (h : ∀ a ∈ args, Readable a) (canonical : (Expr.selfCall method args span).Canonical) :
    Makes (.selfCall method args span) F depth (nameOrCall (innerAt depth start)) := by
  rw [Makes, Expr.spelling, spellings_eq]
  refine .second? fun o _ => ?_
  rw [if_pos (by rfl)]
  refine (takes_callTail canonical.cased h).bind_pure fun r hr => ?_
  simp [Expr.unplaced, hr]

theorem takes_name {name : Name} (canonical : (Expr.name name).Canonical) :
    Makes (.name name) (· ≠ some (.symbol .parenLeft)) depth
      (nameOrCall (innerAt depth start)) := by
  rw [Makes, Expr.spelling]
  refine .second? fun o behind => ?_
  rw [first, if_neg behind]
  refine .of_iff (((takes_objectName canonical.cased).behind fun _ _ => trivial).bind_pure
    fun n hn => ?_) (by simp [Expr.levels])
  simp [Expr.unplaced, hn]

theorem takes_intLiteral {value : Int} {span : Span} :
    Makes (.int value span) F depth intLiteral := by
  rw [Makes, Expr.spelling]
  refine .of_iff (p := True) (.oneOf (List.mem_singleton_self _) fun t ht => ?_)
    (by simp [Expr.levels])
  rw [ht]
  exact takes_pure rfl

theorem takes_stringLiteral {value : Bytes} {span : Span} :
    Makes (.string value span) F depth stringLiteral := by
  rw [Makes, Expr.spelling]
  refine .of_iff (p := True) (.oneOf (List.mem_singleton_self _) fun t ht => ?_)
    (by simp [Expr.levels])
  rw [ht]
  exact takes_pure rfl

theorem takes_boolLiteral {value : Bool} {span : Span} :
    Makes (.bool value span) F depth boolLiteral := by
  rw [Makes, Expr.spelling]
  refine .of_iff (p := True) (.oneOf ?_ fun t ht => takes_pure ?_) (by simp [Expr.levels])
  · cases value <;> decide
  · cases value <;> simp [Expr.unplaced, Token.kind, TokenValue.kind, ht]

theorem takesLeading_letIn {bindings : List (Binding Expr)} {body : Expr} {span : Span}
    (h : ∀ b ∈ bindings, ∀ e ∈ b.init, Readable e) (hb : Readable body)
    (canonical : (Expr.letIn bindings body span).Canonical) :
    TakesLeading (.letIn bindings body span) := by
  refine takesLeading_of_dispatch rfl canonical fun depth start => ?_
  rw [Makes, dispatch_eq]
  have atom : Makes (.letIn bindings body span) Closes depth (atom (innerAt depth start)) :=
    .head? fun _ _ => takes_letIn h hb canonical
  exact (atom.behind fun _ behind => Follows.closes behind).last fun a ha =>
    (continues_uncalled ha).repeating

theorem takesCalled_call {receiver : Expr} {method : Name} {args : List Expr} {span : Span}
    (hr : TakesCalled receiver) (h : ∀ a ∈ args, Readable a)
    (canonical : (Expr.call receiver method args span).Canonical) :
    TakesCalled (.call receiver method args span) := by
  intro depth start ws G q R _ continues
  rw [Expr.spelling, spellings_eq, List.append_assoc]
  refine .of_iff
    (hr (q := levelsOf args ≤ depth ∧ q) (fun _ _ => first_ne (by decide)) fun a ha => ?_) ?_
  · refine .more (F := fun _ => True) (Q := fun b => b.unplaced = _) (.kind?_some rfl fun _ =>
      (takes_callTail canonical.cased h).bind_pure fun r hr => ⟨_, rfl, ?_⟩)
      (List.cons_ne_nil _ _) (fun _ _ => trivial) continues
    simp [Expr.unplaced, ha, hr]
  · rw [Expr.levels, Nat.max_le, and_assoc]

theorem takesCalled_staticCall {receiver : Expr} {type : TypeName} {method : Name}
    {args : List Expr} {span : Span} (hr : TakesCalled receiver) (h : ∀ a ∈ args, Readable a)
    (canonical : (Expr.staticCall receiver type method args span).Canonical) :
    TakesCalled (.staticCall receiver type method args span) := by
  intro depth start ws G q R _ continues
  obtain ⟨type_cased, method_cased⟩ : type.cased = true ∧ method.cased = true := by
    simpa [Expr.cased] using canonical.cased
  rw [Expr.spelling, spellings_eq, List.append_assoc]
  refine .of_iff
    (hr (q := levelsOf args ≤ depth ∧ q) (fun _ _ => first_ne (by decide)) fun a ha => ?_) ?_
  · refine .more (F := fun _ => True) (Q := fun b => b.unplaced = _)
      (.kind?_other (by decide) (.kind?_some rfl fun _ =>
        .token (takes_typeName type_cased) fun t ht => .symbol fun _ =>
          (takes_callTail method_cased h).bind_pure fun r hr => ⟨_, rfl, ?_⟩))
      (List.cons_ne_nil _ _) (fun _ _ => trivial) continues
    simp [Expr.unplaced, ha, ht, hr]
  · rw [Expr.levels, Nat.max_le, and_assoc]

end Parts

/-- Canonical expressions are read wherever they may stand. -/
theorem readable (e : Expr) (canonical : e.Canonical) : Readable e := by
  induction e with
  | assign _ _ _ ih => exact (ih (canonical.part (by simp [Expr.parts]))).assign canonical
  | selfCall method args span ih =>
    have hargs : ∀ a ∈ args, Readable a := fun a ha => ih a ha (canonical.part ha)
    exact .of_atom rfl canonical fun _ _ => .head? fun _ _ => takes_selfCall hargs canonical
  | call receiver method args span hr ih =>
    have inside := hr (canonical.part (by simp [Expr.parts]))
    have hargs : ∀ a ∈ args, Readable a := fun a ha => ih a ha (canonical.part (.tail _ ha))
    exact .of_called (takesCalled_call (inside.called canonical.grouped) hargs canonical) rfl
      canonical
  | staticCall receiver type method args span hr ih =>
    have inside := hr (canonical.part (by simp [Expr.parts]))
    have hargs : ∀ a ∈ args, Readable a := fun a ha => ih a ha (canonical.part (.tail _ ha))
    exact .of_called (takesCalled_staticCall (inside.called canonical.grouped) hargs canonical) rfl
      canonical
  | cond test yes no span ht hy hn =>
    have ht := ht (canonical.part (by simp [Expr.parts]))
    have hy := hy (canonical.part (by simp [Expr.parts]))
    have hn := hn (canonical.part (by simp [Expr.parts]))
    exact .of_atom rfl canonical fun _ _ => .head? fun _ _ => takes_conditional ht hy hn
  | loop test body span ht hb =>
    have ht := ht (canonical.part (by simp [Expr.parts]))
    have hb := hb (canonical.part (by simp [Expr.parts]))
    exact .of_atom rfl canonical fun _ _ => .head? fun _ _ => takes_whileLoop ht hb
  | block body span ih =>
    have hbody : ∀ e ∈ body, Readable e := fun e he => ih e he (canonical.part he)
    exact .of_atom rfl canonical fun _ _ => .head? fun _ _ => takes_block hbody canonical
  | letIn bindings body span ih hb =>
    have hbindings : ∀ b ∈ bindings, ∀ e ∈ b.init, Readable e := fun b hb e he => by
      refine ih b hb e he (canonical.part (List.mem_append_left _ ?_))
      exact List.mem_filterMap.mpr ⟨b, hb, he⟩
    have hb := hb (canonical.part (by simp [Expr.parts]))
    exact .of_leading (takesLeading_letIn hbindings hb canonical) canonical rfl fun called =>
      absurd called Bool.false_ne_true
  | case scrutinee arms span hs ih =>
    have hs := hs (canonical.part (by simp [Expr.parts]))
    have harms : ∀ a ∈ arms, Readable a.body := fun a ha =>
      ih a ha (canonical.part (.tail _ (List.mem_map_of_mem ha)))
    exact .of_atom rfl canonical fun _ _ => .head? fun _ _ => takes_caseOf hs harms canonical
  | new type span =>
    exact .of_atom rfl canonical fun _ _ => .head? fun _ _ => takes_newObject canonical
  | binary op left right span hl hr =>
    exact (hl (canonical.part (by simp [Expr.parts]))).binary
      (hr (canonical.part (by simp [Expr.parts]))) canonical
  | unary op operand span ih => exact (ih (canonical.part (by simp [Expr.parts]))).unary canonical
  | name name =>
    exact .of_atom rfl canonical fun _ _ => .head? fun _ _ => takes_name canonical
  | group inner span ih =>
    have inside := ih (canonical.part (by simp [Expr.parts]))
    exact .of_atom rfl canonical fun _ _ => .head? fun _ _ => takes_group inside
  | int value span =>
    exact .of_atom rfl canonical fun _ _ => .head? fun _ _ => takes_intLiteral
  | string value span =>
    exact .of_atom rfl canonical fun _ _ => .head? fun _ _ => takes_stringLiteral
  | bool value span =>
    refine .of_atom rfl canonical fun _ _ => .head? fun _ _ => ?_
    cases value <;> exact takes_boolLiteral

end Parse

end Cool
