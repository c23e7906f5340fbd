import Cool.Proofs.Tree.Reads
import Cool.Tree.Parse

/-!
Which operand may stand where. Calls and atoms stand everywhere but for a `let` that something is
called on; an operator stands where it binds tightly enough, and an assignment is no operand.
-/
namespace Cool

/-- A call, an atom, or an operator of a kind that is admitted; no assignment. -/
def Expr.isOperand (unary : UnaryOp → Bool) (binary : BinaryOp → Bool) : Expr → Bool
  | .assign .. => false
  | .unary op _ _ => unary op
  | .binary op _ _ _ => binary op
  | _ => true

def Expr.isPrimary (e : Expr) : Bool := e.isOperand (fun _ => false) (fun _ => false)

/-- A call, or an atom that is not a `let`. -/
def Expr.isReceiver : Expr → Bool
  | .letIn .. => false
  | e => e.isPrimary

/-- Whether the operands of an operator, and what a method is called on, bind tightly enough. -/
def Expr.grouped : Expr → Bool
  | .binary op left right _ =>
    left.isOperand (· ≠ .not) (fun o =>
        if op.isComparison then op.strength.rank < o.strength.rank
        else op.strength.rank ≤ o.strength.rank) &&
      right.isOperand (· ≠ .not) fun o => op.strength.rank < o.strength.rank
  | .unary .not operand _ => operand.isOperand (fun _ => true) (fun _ => true)
  | .unary .isVoid operand _ => operand.isOperand (· ≠ .not) (fun _ => false)
  | .unary .complement operand _ => operand.isOperand (· = .complement) (fun _ => false)
  | .call receiver _ _ _ | .staticCall receiver _ _ _ _ => receiver.isReceiver
  | _ => true

def Expr.filled : Expr → Bool
  | .block body _ => !body.isEmpty
  | .letIn bindings _ _ => !bindings.isEmpty
  | .case _ arms _ => !arms.isEmpty
  | _ => true

def Expr.shaped (e : Expr) : Bool := e.filled && e.grouped

def Expr.Shaped (e : Expr) : Prop := ∀ x ∈ e.subterms, x.shaped = true

def Expr.compares : Expr → Bool
  | .binary op _ _ _ => op.isComparison
  | _ => false

def Expr.negates : Expr → Bool
  | .unary op _ _ => op = .not
  | _ => false

/-- Whether an expression is an operand to the left of an operator behind it. -/
def Expr.yields (e : Expr) (op : BinaryOp) : Bool :=
  e.isOperand (· ≠ .not) fun o => op.strength.rank ≤ o.strength.rank

/-- What may stand where all binary operators bind tighter than `min`, and operators in front at
least as tight. -/
def Expr.fits (min : Strength) (e : Expr) : Bool :=
  e.isOperand (fun op => min.rank ≤ op.strength.rank) fun op => min.rank < op.strength.rank

namespace Expr

variable {u u' : UnaryOp → Bool} {b b' : BinaryOp → Bool} {e : Expr}

theorem isOperand_imp (h : e.isOperand u b = true) (hu : ∀ op, u op = true → u' op = true)
    (hb : ∀ op, b op = true → b' op = true) : e.isOperand u' b' = true := by
  cases e with
  | assign => cases h
  | unary op => exact hu op h
  | binary op => exact hb op h
  | _ => rfl

theorem isOperand_congr (hu : ∀ op, u op = u' op) (hb : ∀ op, b op = b' op) :
    e.isOperand u b = true ↔ e.isOperand u' b' = true := by
  rw [funext hu, funext hb]

end Expr

theorem Strength.tighter_eq (s : Strength) : s.tighter = min 3 (4 - s.rank) := by
  cases s <;> rfl

namespace BinaryOp

theorem rank_pos (op : BinaryOp) : Strength.not.rank < op.strength.rank := by
  cases op <;> decide

theorem rank_le (op : BinaryOp) : op.strength.rank ≤ Strength.product.rank := by
  cases op <;> decide

theorem isComparison_iff_rank {op : BinaryOp} :
    op.isComparison = true ↔ op.strength.rank ≤ Strength.comparison.rank := by
  cases op <;> decide

theorem tighter_lt {op : BinaryOp} {min : Strength} (h : min.rank < op.strength.rank) :
    op.strength.tighter < min.tighter := by
  have low : 1 < op.strength.rank := op.rank_pos
  have high : op.strength.rank ≤ 4 := op.rank_le
  -- `tighter` tells the strengths of binary operators apart, and no others.
  rw [Strength.tighter_eq, Strength.tighter_eq]
  omega

theorem rank_le_unary {u : UnaryOp} (h : u ≠ .not) (op : BinaryOp) :
    op.strength.rank ≤ u.strength.rank := by
  cases u with
  | not => exact absurd rfl h
  | isVoid | complement => exact Nat.le_trans op.rank_le (by decide)

theorem rank_le_of_tighter {min : Strength} (h : min.tighter = 0) (op : BinaryOp) :
    op.strength.rank ≤ min.rank := by
  refine Nat.le_of_not_lt fun rises => ?_
  have := tighter_lt rises
  omega

end BinaryOp

namespace Expr

variable {e : Expr}

theorem isOperand_of_isPrimary {u : UnaryOp → Bool} {b : BinaryOp → Bool}
    (h : e.isPrimary = true) : e.isOperand u b = true :=
  isOperand_imp h nofun nofun

theorem isPrimary_of_isReceiver (h : e.isReceiver = true) : e.isPrimary = true := by
  cases e with
  | assign | unary | binary => exact h
  | _ => rfl

theorem compares_of_isOperand {u : UnaryOp → Bool} (h : e.isOperand u (fun _ => false) = true) :
    e.compares = false := by
  cases e with
  | binary => cases h
  | _ => rfl

theorem negates_of_isOperand {b : BinaryOp → Bool} (h : e.isOperand (· ≠ .not) b = true) :
    e.negates = false := by
  cases e with
  | unary op => exact decide_eq_false (of_decide_eq_true h)
  | _ => rfl

theorem isOperand_of_negates {b : BinaryOp → Bool} (h : e.isOperand (fun _ => true) b = true)
    (positive : e.negates = false) : e.isOperand (· ≠ .not) b = true := by
  cases e with
  | assign => cases h
  | unary op => exact decide_eq_true (of_decide_eq_false positive)
  | binary op => exact h
  | _ => rfl

/-- An operator that does not bind tighter than `min` asks for no more than `min` does. -/
theorem yields_of_fits {min : Strength} {op : BinaryOp} (fits : e.fits min = true)
    (low : op.strength.rank ≤ min.rank) : e.yields op = true := by
  refine isOperand_imp fits (fun u hu => decide_eq_true fun negated => ?_) fun o ho => ?_
  · have least : min.rank ≤ Strength.not.rank := by
      rw [negated] at hu
      exact of_decide_eq_true hu
    exact Nat.not_le_of_lt op.rank_pos (Nat.le_trans low least)
  · exact decide_eq_true (Nat.le_trans low (Nat.le_of_lt (of_decide_eq_true ho)))

/-- What stands in front of an operator stands wherever that operator does. -/
theorem fits_of_yields {min : Strength} {op : BinaryOp} (yields : e.yields op = true)
    (rises : min.rank < op.strength.rank) : e.fits min = true := by
  refine isOperand_imp yields (fun u hu => ?_) fun o ho => ?_
  · have loose := op.rank_le_unary (of_decide_eq_true hu)
    exact decide_eq_true (Nat.le_of_lt (Nat.lt_of_lt_of_le rises loose))
  · exact decide_eq_true (Nat.lt_of_lt_of_le rises (of_decide_eq_true ho))

theorem isComparison_of_yields {op : BinaryOp} (yields : e.yields op = true)
    (compares : e.compares = true) : op.isComparison = true := by
  cases e with
  | binary o =>
    have low : op.strength.rank ≤ o.strength.rank := of_decide_eq_true yields
    have least := BinaryOp.isComparison_iff_rank.mp compares
    exact BinaryOp.isComparison_iff_rank.mpr (Nat.le_trans low least)
  | _ => cases compares

/-- What stands to the left of an operator binds as tightly. Of two comparisons neither is an
operand of the other. -/
theorem isLeft_iff {op : BinaryOp} :
    e.isOperand (· ≠ .not) (fun o =>
      if op.isComparison then op.strength.rank < o.strength.rank
      else op.strength.rank ≤ o.strength.rank) = true ↔
    e.yields op = true ∧ (op.isComparison = true → e.compares = false) := by
  cases e with
  | assign => simp [isOperand, yields]
  | unary u => simp [isOperand, yields, compares]
  | binary o =>
    have apart : o.isComparison = true ↔ o.strength.rank ≤ Strength.comparison.rank :=
      BinaryOp.isComparison_iff_rank
    simp only [isOperand, yields, compares]
    cases compares : op.isComparison with
    | false => simp
    | true =>
      -- All comparisons have one strength, so none is stricter than another: a left operand that
      -- binds as tightly as `op` binds tighter exactly if it is no comparison itself.
      have low : 1 < op.strength.rank := op.rank_pos
      have high : op.strength.rank ≤ 2 := BinaryOp.isComparison_iff_rank.mp compares
      have two : Strength.comparison.rank = 2 := rfl
      simp only [if_true, decide_eq_true_eq, true_imp_iff, Bool.eq_false_iff, ne_eq, apart]
      omega
  | _ => simp [isOperand, yields, compares]

theorem isRight_iff {op : BinaryOp} :
    e.isOperand (· ≠ .not) (fun o => op.strength.rank < o.strength.rank) = true ↔
      e.fits op.strength = true := by
  refine ⟨fun h => isOperand_imp h (fun u hu => ?_) fun _ hb => hb,
    fun h => isOperand_imp h (fun u hu => decide_eq_true fun same => ?_) fun _ hb => hb⟩
  · cases u with
    | not => cases hu
    | isVoid | complement => exact decide_eq_true (Nat.le_trans op.rank_le (by decide))
  · rw [same] at hu
    exact Nat.not_le_of_lt op.rank_pos (of_decide_eq_true hu)

theorem grouped_binary {op : BinaryOp} {left right : Expr} {span : Span} :
    (Expr.binary op left right span).grouped = true ↔
      (left.yields op = true ∧ (op.isComparison = true → left.compares = false)) ∧
        right.fits op.strength = true := by
  rw [grouped, Bool.and_eq_true, isLeft_iff, isRight_iff]

theorem grouped_unary {op : UnaryOp} {span : Span} :
    (Expr.unary op e span).grouped = true ↔ e.fits op.strength = true := by
  have none (s : Strength) (high : Strength.product.rank ≤ s.rank) (b : BinaryOp) :
      decide (s.rank < b.strength.rank) = false :=
    decide_eq_false (Nat.not_lt_of_le (Nat.le_trans b.rank_le high))
  cases op with
  | not =>
    exact isOperand_congr (fun u => by cases u <;> rfl) fun b => (decide_eq_true b.rank_pos).symm
  | isVoid =>
    exact isOperand_congr (fun u => by cases u <;> rfl) fun b => (none .isVoid (by decide) b).symm
  | complement =>
    exact isOperand_congr (fun u => by cases u <;> rfl) fun b =>
      (none .complement (by decide) b).symm

end Expr

namespace Parse

open Reader

/-- A round of `dispatch`: a call on what was read, or the end. -/
def dispatchRound (inner : Inner) (object : Expr) : Reader (Round Expr Expr) := do
  match ← symbol? .dot with
  | some _ =>
    let (method, args, paren) ← callTail inner
    pure (.more (.call object method args (object.span.hull paren.span)))
  | none =>
    match ← symbol? .at with
    | some _ =>
      let type ← typeName
      let _ ← symbol .dot
      let (method, args, paren) ← callTail inner
      pure (.more (.staticCall object type method args (object.span.hull paren.span)))
    | none => pure (.stop object)

theorem dispatch_eq (inner : Inner) :
    dispatch inner = (do repeating (dispatchRound inner) (← atom inner)) :=
  rfl

def climbRound (inner : Inner) (n : Nat) (min : Strength) (state : Expr × Bool) :
    Reader (Round (Expr × Bool) Expr) := do
  match binaryOp? (← head?) with
  | none => pure (.stop state.1)
  | some op =>
    if op.strength.rank ≤ min.rank ∨ op.isComparison = true ∧ state.2 = true then
      pure (.stop state.1)
    else
      let _ ← symbol op.symbol
      let right ← climb inner n op.strength
      pure (.more (.binary op state.1 right (state.1.span.hull right.span),
        state.2 || op.isComparison))

theorem climb_succ (inner : Inner) (n : Nat) (min : Strength) :
    climb inner (n + 1) min = (do
      let r ← leading inner min
      if r.2 then pure r.1 else repeating (climbRound inner n min) (r.1, false)) := by
  have test (op : BinaryOp) : decide (op.strength = .comparison) = op.isComparison := by
    cases op <;> rfl
  rw [climb]
  simp only [test, Bool.or_eq_true, Bool.and_eq_true, decide_eq_true_eq]
  rfl

def assignment (inner : Inner) : Reader Expr := do
  let name ← objectName
  let _ ← symbol .arrowLeft
  let value ← inner.whole
  pure (.assign name value (name.span.hull value.span))

theorem run_whole (inner : Inner) (items : List ScanItem) : whole inner items =
    if next items = some .ident ∧ next items.tail = some (.symbol .arrowLeft) then
      assignment inner items
    else operand inner .lowest items := by
  unfold whole
  rw [bind_of_ok (head?_eq items), bind_of_ok (second?_eq items)]
  by_cases h : next items = some .ident ∧ next items.tail = some (.symbol .arrowLeft)
  · rw [if_pos h, if_pos (by simp [h])]
    rfl
  · rw [if_neg h, if_neg (by simpa using h)]

/-- What is read of an assignment and what is read of an operand is read of a whole expression. -/
theorem reads_either {inner : Inner} {items : List ScanItem}
    {R : List Token → Expr → List ScanItem → Prop} (assigns : Reads items (assignment inner) R)
    (operates : Reads items (operand inner .lowest) R) : Reads items (whole inner) R := by
  intro ended
  -- If the first token is no name, the second may stand behind the end: it does not matter then.
  have run (more : List ScanItem) := run_whole inner (items ++ more)
  simp only [next_append ended.ne_nil] at run
  by_cases first : next items = some .ident
  · obtain ⟨t, rest, rfl, ht⟩ := exists_of_next first
    have behind : rest ≠ [] :=
      (ended.tail fun last => by rw [Token.kind, last] at ht; cases ht).ne_nil
    simp only [first, true_and, List.cons_append, List.tail_cons, next_append behind] at run
    split at run
    · exact (assigns ended).congr run
    · exact (operates ended).congr run
  · simp only [first, false_and, if_false] at run
    exact (operates ended).congr run

end Parse

end Cool
