import Cool.Proofs.Class.Slots
import Cool.Proofs.Typing.Checked

/-!
Expressions whose value is the object at hand. The checker reads `SELF_TYPE` as the class at hand,
so a method with a result of this type may return any object of its own class, while a call of it
has the type of the receiver, which may be a descendant.
-/
namespace Cool

/-- Whether the value of an expression in class `c` is the object at hand, where methods with a
result of type `SELF_TYPE` return their receiver. -/
inductive YieldsSelf (t : ClassTable) (c : ClassName) : Expr → Prop where
  | self {name} : name.isSelf = true → YieldsSelf t c (.name name)
  | selfCall {method args span owner m} : t.findMethod? c method.text = some (owner, m) →
      m.result = .selfType → YieldsSelf t c (.selfCall method args span)
  | call {receiver method args span owner m} : YieldsSelf t c receiver →
      t.findMethod? c method.text = some (owner, m) → m.result = .selfType →
      YieldsSelf t c (.call receiver method args span)
  | staticCall {receiver type method args span owner m} : YieldsSelf t c receiver →
      t.findMethod? (type.className.resolve c) method.text = some (owner, m) →
      m.result = .selfType → YieldsSelf t c (.staticCall receiver type method args span)
  | cond {test yes no span} : YieldsSelf t c yes → YieldsSelf t c no →
      YieldsSelf t c (.cond test yes no span)
  | block {before last span} : YieldsSelf t c last → YieldsSelf t c (.block (before ++ [last]) span)
  | letIn {bindings body span} : YieldsSelf t c body → YieldsSelf t c (.letIn bindings body span)
  | group {inner span} : YieldsSelf t c inner → YieldsSelf t c (.group inner span)

theorem ClassName.resolve_self (c : ClassName) : c.resolve c = c := by
  cases c <;> rfl

theorem YieldsSelf.isSelf {t : ClassTable} {c : ClassName} {name : Name}
    (h : YieldsSelf t c (.name name)) : name.isSelf = true := by
  cases h with | self isSelf => exact isSelf

theorem YieldsSelf.type {t : ClassTable} {c : ClassName} {e : Expr} (h : YieldsSelf t c e)
    {L : Scopes ClassName} {T : ClassName} (typed : Typed ⟨t, c, L⟩ e T) : T.resolve c = c := by
  induction h generalizing L T with
  | self isSelf =>
    rcases typed.name with ⟨_, rfl⟩ | ⟨notSelf, _⟩
    · exact ClassName.resolve_self _
    · rw [isSelf] at notSelf
      cases notSelf
  | selfCall found result =>
    obtain ⟨_, _, found', _, rfl⟩ := typed.selfCall
    cases found.symm.trans found'
    rw [result]
    rfl
  | call _ found result ih =>
    obtain ⟨U, hU, _, _, found', _, rfl⟩ := typed.call
    rw [show (Env.mk t c L).resolve U = c from ih hU] at found'
    cases found.symm.trans found'
    rw [result]
    exact ih hU
  | staticCall _ found result ih =>
    obtain ⟨U, hU, _, _, _, found', _, rfl⟩ := typed.staticCall
    cases found.symm.trans found'
    rw [result]
    exact ih hU
  | cond _ _ ihy ihn =>
    obtain ⟨_, Y, N, hY, hN, rfl⟩ := typed.cond
    change (t.join Y N c).resolve c = c
    unfold ClassTable.join
    rw [ihy hY, ihn hN]
    rw [if_pos rfl, ClassName.resolve_self]
  | @block _ last _ _ ih =>
    obtain ⟨Ts, all, rfl⟩ := typed.block
    have typedLast := forall₂_getLast? all (by simp) last .object
    rw [List.getLast?_concat] at typedLast
    exact ih typedLast
  | letIn _ ih =>
    obtain ⟨_, checked, hT⟩ := typed.letIn
    cases checkBindings_ok checked
    exact ih hT
  | group _ ih => exact ih typed.group

/-- Whether values of type `SELF_TYPE` are of the classes that they are taken to be of: attributes
of this type and methods that may return other objects are in classes that are not extended. -/
structure SelfTypesKept (t : ClassTable) (classes : List ClassDecl) : Prop where
  attributes : t.SelfAttributesKept classes
  results : ∀ c ∈ classes, ∀ m ∈ c.methods, m.result.className = .selfType →
    YieldsSelf t c.className m.body ∨ t.Unextended c.className

end Cool
