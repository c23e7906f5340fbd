import Cool.Proofs.Tree.Precedence

/-!
Trees that a text can write. `Program.Canonical` asks of a tree what the grammar asks of a text:
names in the right case, lists that are not empty where one item is needed, and operands that need
no parentheses where they stand. `levels` tells how deep expressions nest.
-/
namespace Cool

/-! ## Trees without places -/

def Name.unplaced (n : Name) : Name := ⟨n.text, .unknown⟩

def TypeName.unplaced (t : TypeName) : TypeName := ⟨t.text, .unknown⟩

mutual

def Expr.unplaced : Expr → Expr
  | .assign name value _ => .assign name.unplaced value.unplaced .unknown
  | .selfCall method args _ => .selfCall method.unplaced (unplacedAll args) .unknown
  | .call receiver method args _ =>
    .call receiver.unplaced method.unplaced (unplacedAll args) .unknown
  | .staticCall receiver type method args _ =>
    .staticCall receiver.unplaced type.unplaced method.unplaced (unplacedAll args) .unknown
  | .cond test yes no _ => .cond test.unplaced yes.unplaced no.unplaced .unknown
  | .loop test body _ => .loop test.unplaced body.unplaced .unknown
  | .block body _ => .block (unplacedAll body) .unknown
  | .letIn bindings body _ => .letIn (unplacedBindings bindings) body.unplaced .unknown
  | .case scrutinee arms _ => .case scrutinee.unplaced (unplacedArms arms) .unknown
  | .new type _ => .new type.unplaced .unknown
  | .binary op left right _ => .binary op left.unplaced right.unplaced .unknown
  | .unary op operand _ => .unary op operand.unplaced .unknown
  | .name name => .name name.unplaced
  | .group inner _ => .group inner.unplaced .unknown
  | .int value _ => .int value .unknown
  | .string value _ => .string value .unknown
  | .bool value _ => .bool value .unknown

def unplacedAll : List Expr → List Expr
  | [] => []
  | e :: es => e.unplaced :: unplacedAll es

def unplacedBindings : List (Binding Expr) → List (Binding Expr)
  | [] => []
  | ⟨name, type, some e, _⟩ :: rest =>
    ⟨name.unplaced, type.unplaced, some e.unplaced, .unknown⟩ :: unplacedBindings rest
  | ⟨name, type, none, _⟩ :: rest =>
    ⟨name.unplaced, type.unplaced, none, .unknown⟩ :: unplacedBindings rest

def unplacedArms : List (CaseArm Expr) → List (CaseArm Expr)
  | [] => []
  | ⟨name, type, body, _⟩ :: rest =>
    ⟨name.unplaced, type.unplaced, body.unplaced, .unknown⟩ :: unplacedArms rest

end

def Binding.unplaced (b : Binding Expr) : Binding Expr :=
  ⟨b.name.unplaced, b.type.unplaced, b.init.map Expr.unplaced, .unknown⟩

def CaseArm.unplaced (a : CaseArm Expr) : CaseArm Expr :=
  ⟨a.name.unplaced, a.type.unplaced, a.body.unplaced, .unknown⟩

@[simp] theorem unplacedAll_eq (es : List Expr) : unplacedAll es = es.map Expr.unplaced := by
  induction es with
  | nil => rfl
  | cons e es ih => simp [unplacedAll, ih]

@[simp] theorem unplacedBindings_eq (bindings : List (Binding Expr)) :
    unplacedBindings bindings = bindings.map Binding.unplaced := by
  induction bindings with
  | nil => rfl
  | cons b bindings ih =>
    obtain ⟨_, _, init, _⟩ := b
    cases init <;> simp [unplacedBindings, Binding.unplaced, ih]

@[simp] theorem unplacedArms_eq (arms : List (CaseArm Expr)) :
    unplacedArms arms = arms.map CaseArm.unplaced := by
  induction arms with
  | nil => rfl
  | cons a arms ih => simp [unplacedArms, CaseArm.unplaced, ih]

def Formal.unplaced (p : Formal) : Formal := ⟨p.name.unplaced, p.type.unplaced, .unknown⟩

def Method.unplaced (m : Method) : Method :=
  ⟨m.name.unplaced, m.params.map Formal.unplaced, m.result.unplaced, m.body.unplaced, .unknown⟩

def Feature.unplaced : Feature → Feature
  | .method m => .method m.unplaced
  | .attribute a => .attribute (Binding.unplaced a)

def ClassDecl.unplaced (c : ClassDecl) : ClassDecl :=
  ⟨c.name.unplaced, c.parent.map TypeName.unplaced, c.features.map Feature.unplaced, .unknown⟩

def Program.unplaced (p : Program) : Program := ⟨p.classes.map ClassDecl.unplaced, .unknown⟩

/-! ## Nesting -/

mutual

/-- How many levels lie inside an expression. An operand of a binary operator and what a method is
called on stand on its own level, all other parts one further in. -/
def Expr.levels : Expr → Nat
  | .assign _ value _ => value.levels + 1
  | .selfCall _ args _ => levelsOf args
  | .call receiver _ args _ => max receiver.levels (levelsOf args)
  | .staticCall receiver _ _ args _ => max receiver.levels (levelsOf args)
  | .cond test yes no _ => max test.levels (max yes.levels no.levels) + 1
  | .loop test body _ => max test.levels body.levels + 1
  | .block body _ => levelsOf body
  | .letIn bindings body _ => max (levelsOfBindings bindings) (body.levels + 1)
  | .case scrutinee arms _ => max (scrutinee.levels + 1) (levelsOfArms arms)
  | .binary _ left right _ => max left.levels right.levels
  | .unary _ operand _ => operand.levels + 1
  | .group inner _ => inner.levels + 1
  | .new .. | .name _ | .int .. | .string .. | .bool .. => 0

def levelsOf : List Expr → Nat
  | [] => 0
  | e :: es => max (e.levels + 1) (levelsOf es)

def levelsOfBindings : List (Binding Expr) → Nat
  | [] => 0
  | ⟨_, _, some e, _⟩ :: rest => max (e.levels + 1) (levelsOfBindings rest)
  | ⟨_, _, none, _⟩ :: rest => levelsOfBindings rest

def levelsOfArms : List (CaseArm Expr) → Nat
  | [] => 0
  | ⟨_, _, e, _⟩ :: rest => max (e.levels + 1) (levelsOfArms rest)

end

theorem levelsOf_le {es : List Expr} {n : Nat} : levelsOf es ≤ n ↔ ∀ e ∈ es, e.levels < n := by
  induction es with
  | nil => simp [levelsOf]
  | cons e es ih => rw [levelsOf, Nat.max_le, ih, Nat.succ_le_iff, List.forall_mem_cons]

theorem levelsOfBindings_le {bindings : List (Binding Expr)} {n : Nat} :
    levelsOfBindings bindings ≤ n ↔ ∀ b ∈ bindings, ∀ e ∈ b.init, e.levels < n := by
  induction bindings with
  | nil => simp [levelsOfBindings]
  | cons b bindings ih =>
    obtain ⟨_, _, init, _⟩ := b
    cases init with
    | none => simp [levelsOfBindings, ih]
    | some e =>
      rw [levelsOfBindings, Nat.max_le, ih, Nat.succ_le_iff, List.forall_mem_cons]
      simp

theorem levelsOfArms_le {arms : List (CaseArm Expr)} {n : Nat} :
    levelsOfArms arms ≤ n ↔ ∀ a ∈ arms, a.body.levels < n := by
  induction arms with
  | nil => simp [levelsOfArms]
  | cons a arms ih => rw [levelsOfArms, Nat.max_le, ih, Nat.succ_le_iff, List.forall_mem_cons]

/-- How many levels the expressions of a program nest. The body of a method and the first value of
an attribute stand on the first. -/
def Program.levels (p : Program) : Nat :=
  levelsOf ((p.classes.flatMap (·.features)).flatMap (·.exprs))

theorem Program.levels_le {p : Program} {n : Nat} :
    p.levels ≤ n ↔ ∀ c ∈ p.classes, ∀ f ∈ c.features, ∀ e ∈ f.exprs, e.levels < n := by
  simp only [levels, levelsOf_le, List.mem_flatMap]
  constructor
  · exact fun h c hc f hf e he => h e ⟨f, ⟨c, hc, hf⟩, he⟩
  · rintro h e ⟨f, ⟨c, hc, hf⟩, he⟩
    exact h c hc f hf e he

/-! ## Canonical trees -/

def Name.cased (n : Name) : Bool := n.text.head?.any isLower

def TypeName.cased (t : TypeName) : Bool := t.text.head?.any isUpper

def Expr.cased : Expr → Bool
  | .assign n _ _ => n.cased
  | .selfCall method _ _ => method.cased
  | .call _ method _ _ => method.cased
  | .staticCall _ type method _ _ => type.cased && method.cased
  | .letIn bindings _ _ => bindings.all fun b => b.name.cased && b.type.cased
  | .case _ arms _ => arms.all fun a => a.name.cased && a.type.cased
  | .new type _ => type.cased
  | .name n => n.cased
  | _ => true

/-- Whether a `let` without parentheses around it is the last part of an expression. -/
def Expr.opens : Expr → Bool
  | .letIn .. => true
  | .assign _ value _ => value.opens
  | .binary _ _ right _ => right.opens
  | .unary _ operand _ => operand.opens
  | _ => false

/-- Whether a `let` in a left operand or in what a method is called on stops short of what stands
behind that. -/
def Expr.closed : Expr → Bool
  | .binary _ left _ _ => !left.opens
  | .call receiver _ _ _ | .staticCall receiver _ _ _ _ => !receiver.opens
  | _ => true

def Expr.canonical (e : Expr) : Bool := e.cased && e.shaped && e.closed

def Expr.Canonical (e : Expr) : Prop := ∀ x ∈ e.subterms, x.canonical = true

namespace Expr.Canonical

variable {e p : Expr}

theorem part (h : e.Canonical) (hp : p ∈ e.parts) : p.Canonical :=
  fun x hx => h x (mem_subterms.mpr (.inr ⟨p, hp, hx⟩))

theorem root (h : e.Canonical) :
    e.cased = true ∧ e.filled = true ∧ e.grouped = true ∧ e.closed = true := by
  have all := h e e.mem_subterms_self
  simpa only [Expr.canonical, Expr.shaped, Bool.and_eq_true, and_assoc] using all

theorem cased (h : e.Canonical) : e.cased = true := h.root.1

theorem filled (h : e.Canonical) : e.filled = true := h.root.2.1

theorem grouped (h : e.Canonical) : e.grouped = true := h.root.2.2.1

theorem closed (h : e.Canonical) : e.closed = true := h.root.2.2.2

end Expr.Canonical

def Feature.cased : Feature → Bool
  | .method m =>
    m.name.cased && m.result.cased && m.params.all fun p => p.name.cased && p.type.cased
  | .attribute a => a.name.cased && a.type.cased

def ClassDecl.cased (c : ClassDecl) : Bool :=
  c.name.cased && c.parent.all TypeName.cased && c.features.all Feature.cased

/-- A program that a text can write, if it does not nest too deep. -/
structure Program.Canonical (p : Program) : Prop where
  inhabited : p.classes ≠ []
  cased : ∀ c ∈ p.classes, c.cased = true
  canonical : ∀ c ∈ p.classes, ∀ e ∈ c.subterms, e.canonical = true

theorem Program.Canonical.expr {p : Program} (h : p.Canonical) {c : ClassDecl} (hc : c ∈ p.classes)
    {f : Feature} (hf : f ∈ c.features) {e : Expr} (he : e ∈ f.exprs) : e.Canonical :=
  fun x hx => h.canonical c hc x (ClassDecl.mem_subterms.mpr ⟨f, hf, e, he, hx⟩)

end Cool
