import Cool.Proofs.Lowering.Faults
import Cool.Proofs.Lowering.Writes

/-!
Expressions over integers, booleans and local variables of these types. All parts of such an
expression are of the same kind, and it gets code.
-/
namespace Cool

open Relation (ReflTransGen)
open FunctionState (Keeps)

def ClassName.isScalar (c : ClassName) : Bool := c = .int || c = .bool

def Scopes.isScalar (L : Scopes ClassName) (name : Bytes) : Bool :=
  (L.find? name).any ClassName.isScalar

mutual

/-- Whether an expression is made of literals and local variables for integers and booleans, and no
right operand assigns a variable from outside of it. -/
def Expr.isLocal (L : Scopes ClassName) : Expr → Bool
  | .assign name value _ => L.isScalar name.text && value.isLocal L
  | .cond test yes no _ => test.isLocal L && yes.isLocal L && no.isLocal L
  | .loop test body _ => test.isLocal L && body.isLocal L
  | .block body _ => allLocal L.push body
  | .letIn bindings body _ =>
    bindingsLocal L.push bindings && body.isLocal (L.push.bindAll bindings)
  | .binary _ left right _ => left.isLocal L && right.isLocal L && right.assigned.isEmpty
  | .unary .isVoid _ _ => false
  | .unary _ operand _ => operand.isLocal L
  | .name name => !name.isSelf && L.isScalar name.text
  | .group inner _ => inner.isLocal L
  | .int _ _ | .bool _ _ => true
  | .selfCall _ _ _ | .call _ _ _ _ | .staticCall _ _ _ _ _ | .case _ _ _ | .new _ _
  | .string _ _ => false

def allLocal (L : Scopes ClassName) : List Expr → Bool
  | [] => true
  | e :: es => e.isLocal L && allLocal L es

def bindingsLocal (L : Scopes ClassName) : List (Binding Expr) → Bool
  | [] => true
  | ⟨name, type, some init, _⟩ :: rest =>
    type.className.isScalar && init.isLocal L &&
      bindingsLocal (L.bind name.text type.className) rest
  | ⟨name, type, none, _⟩ :: rest =>
    type.className.isScalar && bindingsLocal (L.bind name.text type.className) rest

end

theorem allLocal_iff {L : Scopes ClassName} {es : List Expr} :
    allLocal L es = true ↔ ∀ e ∈ es, e.isLocal L = true := by
  induction es with
  | nil => simp [allLocal]
  | cons e es ih => simp [allLocal, ih]

theorem bindingsLocal_init {L : Scopes ClassName} {before after : List (Binding Expr)} {name : Name}
    {type : TypeName} {e : Expr} {span : Span}
    (h : bindingsLocal L (before ++ ⟨name, type, some e, span⟩ :: after) = true) :
    e.isLocal (L.bindAll before) = true := by
  induction before generalizing L with
  | nil =>
    simp only [List.nil_append, bindingsLocal, Bool.and_eq_true] at h
    exact h.1.2
  | cons b before ih =>
    obtain ⟨name, type, init, span⟩ := b
    cases init <;> simp only [List.cons_append, bindingsLocal, Bool.and_eq_true] at h
    · exact ih h.2
    · exact ih h.2

theorem isLocal_child {env : LowerEnv} {a b : Site} (h : a.expr.isLocal a.locals = true)
    (hc : Child env a b) : b.expr.isLocal b.locals = true := by
  cases hc with
  | selfArgument | receiver | argument | staticReceiver | staticArgument => cases h
  | item =>
    unfold Expr.isLocal at h
    exact allLocal_iff.mp h _ (by simp)
  | init =>
    simp only [Expr.isLocal, Bool.and_eq_true] at h
    exact bindingsLocal_init h.1
  | @operand _ _ op _ _ notIsVoid =>
    cases op with
    | isVoid => exact absurd rfl notIsVoid
    | not | complement => exact h
  | inner =>
    unfold Expr.isLocal at h
    exact h
  | value | test | yes | no | loopTest | loopBody | body | left | right =>
    simp only [Expr.isLocal, Bool.and_eq_true] at h
    simp [h]

section Variables

variable {env : LowerEnv} {L : Scopes ClassName} {s : FunctionState} {n : Bytes}

theorem resolve_of_isScalar {c self : ClassName} (h : c.isScalar = true) : c.resolve self = c := by
  cases c with
  | selfType => cases h
  | builtin _ | named _ => rfl

/-- A variable for integers or booleans has a register of that type. -/
theorem Agree.find?_of_isScalar (agree : Agree env.self [] L s) (h : L.isScalar n = true) :
    ∃ y, s.find? n = some y ∧ y.type.isScalar = true := by
  have types := agree.types n
  rw [if_neg List.not_mem_nil] at types
  obtain ⟨c, hc, scalar⟩ := (Option.any_eq_true _ _).mp h
  rw [hc, Option.map_some, resolve_of_isScalar scalar] at types
  obtain ⟨y, hy, rfl⟩ := Option.map_eq_some_iff.mp types
  exact ⟨y, hy, scalar⟩

theorem isLocal_not_failsAt {site : Site} {err : LoweringError} (fits : Fits env [] site)
    (h : site.expr.isLocal site.locals = true) : ¬ FailsAt env site err := by
  intro fails
  cases fails with
  | assign hv absent _ =>
    cases fits.wellFormed with | assign _ hw =>
    simp only [Expr.isLocal, Bool.and_eq_true] at h
    obtain ⟨y, hy, _⟩ := (fits.agree.keeps (hv.keeps hw)).find?_of_isScalar h.1
    cases hy.symm.trans absent
  | name _ absent _ =>
    simp only [Expr.isLocal, Bool.and_eq_true] at h
    obtain ⟨y, hy, _⟩ := fits.agree.find?_of_isScalar h.2
    cases hy.symm.trans absent
  | selfCall | call | staticCall | case | newString | newUnknown | isVoid | string => cases h

theorem isLocal_lowers {site : Site} (fits : Fits env [] site)
    (h : site.expr.isLocal site.locals = true) : ∃ x t, Lowers env site.state site.expr x t := by
  cases made : (site.expr.lower env).run site.state with
  | ok x t => exact ⟨x, t, .of_run _ made⟩
  | error err u =>
    obtain ⟨part, hd, fails⟩ := exists_failsAt (L := site.locals) made
    have local' : part.expr.isLocal part.locals = true := by
      clear fails
      induction hd with
      | refl => exact h
      | tail _ hc ih => exact isLocal_child ih hc
    exact absurd fails (isLocal_not_failsAt (fits.descendant hd) local')

end Variables

end Cool
