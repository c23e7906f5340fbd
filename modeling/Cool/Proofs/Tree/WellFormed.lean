import Cool.Token.Scan
import Cool.Tree.Basic

/-!
What every tree that was read from a text has in common: names are identifiers, and blocks are not
empty.
-/
namespace Cool

/-- Whether a name holds letters, digits and underscores alone. -/
def IsWord (bs : Bytes) : Prop := ∀ b ∈ bs, Scan.isNameByte b = true

def IsIdentifier (bs : Bytes) : Prop := IsWord bs ∧ bs.head?.any isLetter = true

instance (bs : Bytes) : Decidable (IsWord bs) :=
  decidable_of_iff (bs.all Scan.isNameByte = true) List.all_eq_true

instance (bs : Bytes) : Decidable (IsIdentifier bs) :=
  inferInstanceAs (Decidable (IsWord bs ∧ bs.head?.any isLetter = true))

/-- Induction over expressions, with the hypothesis for all parts of a list at once. -/
@[induction_eliminator]
theorem Expr.induct {P : Expr → Prop}
    (assign : ∀ name value span, P value → P (.assign name value span))
    (selfCall : ∀ method args span, (∀ a ∈ args, P a) → P (.selfCall method args span))
    (call : ∀ receiver method args span, P receiver → (∀ a ∈ args, P a) →
      P (.call receiver method args span))
    (staticCall : ∀ receiver type method args span, P receiver → (∀ a ∈ args, P a) →
      P (.staticCall receiver type method args span))
    (cond : ∀ test yes no span, P test → P yes → P no → P (.cond test yes no span))
    (loop : ∀ test body span, P test → P body → P (.loop test body span))
    (block : ∀ body span, (∀ e ∈ body, P e) → P (.block body span))
    (letIn : ∀ bindings body span, (∀ b ∈ bindings, ∀ e ∈ b.init, P e) → P body →
      P (.letIn bindings body span))
    (case : ∀ scrutinee arms span, P scrutinee → (∀ a ∈ arms, P a.body) →
      P (.case scrutinee arms span))
    (new : ∀ type span, P (.new type span))
    (binary : ∀ op left right span, P left → P right → P (.binary op left right span))
    (unary : ∀ op operand span, P operand → P (.unary op operand span))
    (name : ∀ name, P (.name name))
    (group : ∀ inner span, P inner → P (.group inner span))
    (int : ∀ value span, P (.int value span))
    (string : ∀ value span, P (.string value span))
    (bool : ∀ value span, P (.bool value span)) (e : Expr) : P e :=
  Expr.rec (motive_1 := P)
    (motive_2 := fun es => ∀ e ∈ es, P e)
    (motive_3 := fun bindings => ∀ b ∈ bindings, ∀ e ∈ b.init, P e)
    (motive_4 := fun arms => ∀ a ∈ arms, P a.body)
    (motive_5 := fun b => ∀ e ∈ b.init, P e)
    (motive_6 := fun a => P a.body)
    (motive_7 := fun init => ∀ e ∈ init, P e)
    assign selfCall call staticCall cond loop block letIn case new binary unary name group int
    string bool
    (fun _ h => nomatch h) (fun _ _ hd tl => List.forall_mem_cons.mpr ⟨hd, tl⟩)
    (fun _ h => nomatch h) (fun _ _ hd tl => List.forall_mem_cons.mpr ⟨hd, tl⟩)
    (fun _ h => nomatch h) (fun _ _ hd tl => List.forall_mem_cons.mpr ⟨hd, tl⟩)
    (fun _ _ _ _ h => h) (fun _ _ _ _ h => h)
    (fun _ h => nomatch h) (fun _ he _ h => Option.some.inj h ▸ he) e

mutual

def Expr.subterms : Expr → List Expr
  | .assign name value span => .assign name value span :: value.subterms
  | .selfCall method args span => .selfCall method args span :: subtermsAll args
  | .call receiver method args span =>
    .call receiver method args span :: receiver.subterms ++ subtermsAll args
  | .staticCall receiver type method args span =>
    .staticCall receiver type method args span :: receiver.subterms ++ subtermsAll args
  | .cond test yes no span =>
    .cond test yes no span :: test.subterms ++ yes.subterms ++ no.subterms
  | .loop test body span => .loop test body span :: test.subterms ++ body.subterms
  | .block body span => .block body span :: subtermsAll body
  | .letIn bindings body span =>
    .letIn bindings body span :: subtermsOfBindings bindings ++ body.subterms
  | .case scrutinee arms span =>
    .case scrutinee arms span :: scrutinee.subterms ++ subtermsOfArms arms
  | .binary op left right span => .binary op left right span :: left.subterms ++ right.subterms
  | .unary op operand span => .unary op operand span :: operand.subterms
  | .group inner span => .group inner span :: inner.subterms
  | .new type span => [.new type span]
  | .name name => [.name name]
  | .int value span => [.int value span]
  | .string value span => [.string value span]
  | .bool value span => [.bool value span]

def subtermsAll : List Expr → List Expr
  | [] => []
  | e :: es => e.subterms ++ subtermsAll es

def subtermsOfBindings : List (Binding Expr) → List Expr
  | [] => []
  | ⟨_, _, some e, _⟩ :: rest => e.subterms ++ subtermsOfBindings rest
  | ⟨_, _, none, _⟩ :: rest => subtermsOfBindings rest

def subtermsOfArms : List (CaseArm Expr) → List Expr
  | [] => []
  | ⟨_, _, e, _⟩ :: rest => e.subterms ++ subtermsOfArms rest

end

/-- The expressions that an expression is made of, without the parts of those. -/
def Expr.parts : Expr → List Expr
  | .assign _ value _ => [value]
  | .selfCall _ args _ => args
  | .call receiver _ args _ => receiver :: args
  | .staticCall receiver _ _ args _ => receiver :: args
  | .cond test yes no _ => [test, yes, no]
  | .loop test body _ => [test, body]
  | .block body _ => body
  | .letIn bindings body _ => bindings.filterMap (·.init) ++ [body]
  | .case scrutinee arms _ => scrutinee :: arms.map (·.body)
  | .binary _ left right _ => [left, right]
  | .unary _ operand _ => [operand]
  | .group inner _ => [inner]
  | .new .. | .name _ | .int .. | .string .. | .bool .. => []

/-- The expressions of a class, those in methods before those in attributes. -/
def ClassDecl.subterms (c : ClassDecl) : List Expr :=
  c.methods.flatMap (·.body.subterms) ++ c.attributes.flatMap fun a => a.init.elim [] Expr.subterms

theorem Expr.mem_subterms_self (e : Expr) : e ∈ e.subterms := by
  cases e <;> unfold Expr.subterms <;> simp

@[simp] theorem mem_subtermsAll {x : Expr} {es : List Expr} :
    x ∈ subtermsAll es ↔ ∃ e ∈ es, x ∈ e.subterms := by
  induction es with
  | nil => simp [subtermsAll]
  | cons e es ih => simp [subtermsAll, ih]

@[simp] theorem mem_subtermsOfBindings {x : Expr} {bindings : List (Binding Expr)} :
    x ∈ subtermsOfBindings bindings ↔ ∃ b ∈ bindings, ∃ e ∈ b.init, x ∈ e.subterms := by
  induction bindings with
  | nil => simp [subtermsOfBindings]
  | cons b bindings ih =>
    obtain ⟨_, _, init, _⟩ := b
    cases init <;> simp [subtermsOfBindings, ih]

@[simp] theorem mem_subtermsOfArms {x : Expr} {arms : List (CaseArm Expr)} :
    x ∈ subtermsOfArms arms ↔ ∃ a ∈ arms, x ∈ a.body.subterms := by
  induction arms with
  | nil => simp [subtermsOfArms]
  | cons a arms ih => simp [subtermsOfArms, ih]

/-- An expression at any depth is the whole, or lies in a part. -/
theorem Expr.mem_subterms {x e : Expr} :
    x ∈ e.subterms ↔ x = e ∨ ∃ p ∈ e.parts, x ∈ p.subterms := by
  cases e with
  | letIn =>
    simp only [subterms, parts, List.mem_cons, List.mem_append, List.mem_filterMap,
      mem_subtermsOfBindings, Option.mem_def]
    grind
  | case =>
    simp only [subterms, parts, List.mem_cons, List.mem_append, List.mem_map, mem_subtermsOfArms]
    grind
  | _ => simp [subterms, parts]

/-- The expressions that a feature has: the body of a method, or the first value of an attribute. -/
def Feature.exprs : Feature → List Expr
  | .method m => [m.body]
  | .attribute a => a.init.toList

inductive Expr.WellFormed : Expr → Prop where
  | assign {name value span} : IsWord name.text → value.WellFormed →
      (Expr.assign name value span).WellFormed
  | selfCall {method args span} : (∀ a ∈ args, a.WellFormed) →
      (Expr.selfCall method args span).WellFormed
  | call {receiver method args span} : receiver.WellFormed → (∀ a ∈ args, a.WellFormed) →
      (Expr.call receiver method args span).WellFormed
  | staticCall {receiver type method args span} : receiver.WellFormed →
      (∀ a ∈ args, a.WellFormed) → (Expr.staticCall receiver type method args span).WellFormed
  | cond {test yes no span} : test.WellFormed → yes.WellFormed → no.WellFormed →
      (Expr.cond test yes no span).WellFormed
  | loop {test body span} : test.WellFormed → body.WellFormed →
      (Expr.loop test body span).WellFormed
  | block {body span} : body ≠ [] → (∀ e ∈ body, e.WellFormed) → (Expr.block body span).WellFormed
  | letIn {bindings body span} : (∀ b ∈ bindings, IsWord b.name.text) →
      (∀ b ∈ bindings, ∀ e ∈ b.init, e.WellFormed) → body.WellFormed →
      (Expr.letIn bindings body span).WellFormed
  | case {scrutinee arms span} : scrutinee.WellFormed → (∀ a ∈ arms, IsWord a.name.text) →
      (∀ a ∈ arms, a.body.WellFormed) → (Expr.case scrutinee arms span).WellFormed
  | new {type span} : (Expr.new type span).WellFormed
  | binary {op left right span} : left.WellFormed → right.WellFormed →
      (Expr.binary op left right span).WellFormed
  | unary {op operand span} : operand.WellFormed → (Expr.unary op operand span).WellFormed
  | name {name} : IsWord name.text → (Expr.name name).WellFormed
  | group {inner span} : inner.WellFormed → (Expr.group inner span).WellFormed
  | int {value span} : (Expr.int value span).WellFormed
  | string {value span} : (Expr.string value span).WellFormed
  | bool {value span} : (Expr.bool value span).WellFormed

def Binding.WellFormed (b : Binding Expr) : Prop :=
  IsWord b.name.text ∧ ∀ e ∈ b.init, e.WellFormed

def Method.WellFormed (m : Method) : Prop :=
  (∀ p ∈ m.params, IsWord p.name.text) ∧ m.body.WellFormed

def Feature.WellFormed : Feature → Prop
  | .method m => m.WellFormed
  | .attribute a => Binding.WellFormed a

def ClassDecl.WellFormed (c : ClassDecl) : Prop := ∀ f ∈ c.features, f.WellFormed

def Feature.Named (f : Feature) : Prop := ∀ m, f = .method m → IsIdentifier m.name.text

def ClassDecl.Named (c : ClassDecl) : Prop := IsIdentifier c.name.text ∧ ∀ f ∈ c.features, f.Named

theorem ClassDecl.mem_methods {c : ClassDecl} {m : Method} :
    m ∈ c.methods ↔ .method m ∈ c.features := by
  simp only [methods, List.mem_filterMap]
  constructor
  · rintro ⟨f, hf, h⟩
    cases f with
    | method n => cases h; exact hf
    | «attribute» a => cases h
  · exact fun h => ⟨.method m, h, rfl⟩

theorem ClassDecl.mem_attributes {c : ClassDecl} {a : Attribute} :
    a ∈ c.attributes ↔ .attribute a ∈ c.features := by
  simp only [attributes, List.mem_filterMap]
  constructor
  · rintro ⟨f, hf, h⟩
    cases f with
    | method n => cases h
    | «attribute» b => cases h; exact hf
  · exact fun h => ⟨.attribute a, h, rfl⟩

theorem ClassDecl.mem_subterms {c : ClassDecl} {x : Expr} :
    x ∈ c.subterms ↔ ∃ f ∈ c.features, ∃ e ∈ f.exprs, x ∈ e.subterms := by
  simp only [subterms, List.mem_append, List.mem_flatMap, mem_methods, mem_attributes]
  constructor
  · rintro (⟨m, hm, hx⟩ | ⟨a, ha, hx⟩)
    · exact ⟨_, hm, m.body, List.mem_singleton_self _, hx⟩
    · cases init : a.init with
      | none => rw [init] at hx; cases hx
      | some e =>
        rw [init] at hx
        exact ⟨_, ha, e, Option.mem_toList.mpr init, hx⟩
  · rintro ⟨f, hf, e, he, hx⟩
    cases f with
    | method m =>
      cases List.mem_singleton.mp he
      exact .inl ⟨m, hf, hx⟩
    | «attribute» a => exact .inr ⟨a, hf, by rwa [Option.mem_toList.mp he]⟩

theorem ClassDecl.WellFormed.method {c : ClassDecl} {m : Method} (h : c.WellFormed)
    (hm : m ∈ c.methods) : m.WellFormed :=
  h _ (mem_methods.mp hm)

theorem ClassDecl.WellFormed.attribute {c : ClassDecl} {a : Attribute} (h : c.WellFormed)
    (ha : a ∈ c.attributes) : Binding.WellFormed a :=
  h _ (mem_attributes.mp ha)

theorem ClassDecl.Named.method {c : ClassDecl} {m : Method} (h : c.Named) (hm : m ∈ c.methods) :
    IsIdentifier m.name.text :=
  h.2 _ (mem_methods.mp hm) m rfl

end Cool
