import Cool.Proofs.Tree.Canonical

/-!
How far the body of a `let` reaches. All that stands behind it belongs to it, but for a comparison
where it is one already: comparisons do not chain, so the body ends there, and what is around the
`let` is free to take the second one.
-/
namespace Cool.Expr

/-- Whether an expression takes no comparison behind it, for it is one, or negates or assigns
one. -/
def refuses : Expr → Bool
  | .binary op _ _ _ => op.isComparison
  | .unary .not operand _ => operand.refuses
  | .assign _ value _ => value.refuses
  | _ => false

/-- Whether the body of each `let` that an expression ends in takes no comparison behind it. -/
def stops : Expr → Bool
  | .letIn _ body _ => body.refuses && body.stops
  | .assign _ value _ => value.stops
  | .binary _ _ right _ => right.stops
  | .unary _ operand _ => operand.stops
  | _ => true

/-- Whether a comparison has such a `let` to its left, as in `let x : Int in a < b < c`. -/
def chains : Expr → Bool
  | .binary op left _ _ => op.isComparison && left.opens && left.stops
  | _ => false

def reaches (e : Expr) : Bool := e.closed || e.chains

def sound (e : Expr) : Bool := e.shaped && e.reaches

def Sound (e : Expr) : Prop := ∀ x ∈ e.subterms, x.sound = true

variable {e : Expr}

theorem stops_of_not_opens (h : e.opens = false) : e.stops = true := by
  induction e with
  | letIn => cases h
  | assign _ _ _ ih => exact ih h
  | binary _ _ _ _ _ ih => exact ih h
  | unary _ _ _ ih => exact ih h
  | _ => rfl

theorem not_opens_of_isReceiver (h : e.isReceiver = true) : e.opens = false := by
  cases e with
  | letIn | assign | unary | binary => cases h
  | _ => rfl

theorem refuses_of_compares (h : e.compares = true) : e.refuses = true := by
  cases e with
  | binary => exact h
  | _ => cases h

theorem reaches_binary {op : BinaryOp} {left right : Expr} {span : Span} :
    (binary op left right span).reaches = true ↔
      (left.opens = true → op.isComparison = true ∧ left.stops = true) := by
  simp only [reaches, closed, chains]
  cases left.opens <;> simp

theorem sound_of_closed (shaped : e.shaped = true) (closed : e.closed = true) :
    e.sound = true := by
  simp [sound, reaches, shaped, closed]

theorem sound_of_filled (filled : e.filled = true) (grouped : e.grouped = true)
    (closed : e.closed = true) : e.sound = true :=
  sound_of_closed (by simp [shaped, filled, grouped]) closed

/-- Nothing is called on a `let` that reaches up to the call. -/
theorem sound_of_isReceiver {receiver : Expr} (h : receiver.isReceiver = true)
    (grouped : e.shaped = receiver.isReceiver) (closed : e.closed = !receiver.opens) :
    e.sound = true := by
  refine sound_of_closed (grouped.trans h) ?_
  rw [closed, not_opens_of_isReceiver h]
  rfl

theorem sound_binary {op : BinaryOp} {left right : Expr} {span : Span}
    (grouped : (binary op left right span).grouped = true)
    (stopped : left.opens = true → op.isComparison = true ∧ left.stops = true) :
    (binary op left right span).sound = true :=
  Bool.and_eq_true_iff.mpr ⟨grouped, reaches_binary.mpr stopped⟩

theorem Sound.shaped (h : e.Sound) : e.Shaped :=
  fun x hx => (Bool.and_eq_true_iff.mp (h x hx)).1

end Cool.Expr

namespace Cool

/-- Whether no operator has a `let` at the end of its left operand, so that the body of each `let`
extends as far to the right as it can. -/
def Program.LetsExtend (p : Program) : Prop :=
  ∀ d ∈ p.classes, ∀ op left right span, .binary op left right span ∈ d.subterms →
    left.opens = false

def Program.Unchained (p : Program) : Prop :=
  ∀ d ∈ p.classes, ∀ e ∈ d.subterms, e.chains = false

instance (p : Program) : Decidable p.Unchained :=
  inferInstanceAs (Decidable (∀ d ∈ p.classes, ∀ e ∈ d.subterms, e.chains = false))

theorem Program.LetsExtend.unchained {p : Program} (h : p.LetsExtend) : p.Unchained := by
  intro d hd e he
  cases e with
  | binary op left right span => simp [Expr.chains, h d hd op left right span he]
  | _ => rfl

end Cool
