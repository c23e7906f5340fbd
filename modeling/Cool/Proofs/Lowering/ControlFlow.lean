import Cool.Proofs.Bril.Flow
import Cool.Proofs.Lowering.Functions
import Cool.Proofs.Lowering.Labels

/-!
Control flow in generated functions. Control stays in a function until its only return, and on every
path a register is written before it is read, but for one that a `let` binds and gives no value.
-/
namespace Cool

open LowerEnv
open Bril (Instr FlowsTo Function labels)
open FunctionState (tempName labelName)
open Relation (ReflTransGen)

section Unset

/-- Whether a `let` at a site binds a name to a register without writing it: the name has no first
value, and its type no default. -/
inductive BindsUnset (env : LowerEnv) : Site → String → Prop where
  | mk {L s t before name type span after body span' code c} :
      LowersBindings env s.push before code t → type.className.resolve env.self = c →
      c ≠ .int → c ≠ .bool →
      BindsUnset env ⟨L, s, .letIn (before ++ ⟨name, type, none, span⟩ :: after) body span'⟩
        (t.bind name.text c).1

def UnsetWithin (env : LowerEnv) (site : Site) (reg : String) : Prop :=
  ∃ inner, ReflTransGen (Child env) site inner ∧ BindsUnset env inner reg

def UnsetWithinAll (env : LowerEnv) (L : Scopes ClassName) (s : FunctionState) (es : List Expr)
    (reg : String) : Prop :=
  ∃ before e after xs t, es = before ++ e :: after ∧ LowersAll env s before xs t ∧
    UnsetWithin env ⟨L, t, e⟩ reg

def UnsetWithinBindings (env : LowerEnv) (L : Scopes ClassName) (s : FunctionState)
    (bs : List (Binding Expr)) (reg : String) : Prop :=
  ∃ before name type init span after code t, bs = before ++ ⟨name, type, init, span⟩ :: after ∧
    LowersBindings env s before code t ∧
    ((∃ e, init = some e ∧ UnsetWithin env ⟨L.bindAll before, t, e⟩ reg) ∨
      init = none ∧ ∃ c, type.className.resolve env.self = c ∧ c ≠ .int ∧ c ≠ .bool ∧
        reg = (t.bind name.text c).1)

variable {env : LowerEnv} {a b : Site} {L : Scopes ClassName} {s t : FunctionState} {reg : String}

theorem UnsetWithin.of_child (hc : Child env a b) (h : UnsetWithin env b reg) :
    UnsetWithin env a reg :=
  h.imp fun _ h => ⟨.head hc h.1, h.2⟩

theorem UnsetWithinAll.head {e : Expr} {es : List Expr} (h : UnsetWithin env ⟨L, s, e⟩ reg) :
    UnsetWithinAll env L s (e :: es) reg :=
  ⟨[], e, es, [], s, rfl, .nil, h⟩

theorem UnsetWithinAll.tail {e : Expr} {es : List Expr} {x : Lowered} (hx : Lowers env s e x t)
    (h : UnsetWithinAll env L t es reg) : UnsetWithinAll env L s (e :: es) reg := by
  obtain ⟨before, d, after, xs, u, rfl, hb, h⟩ := h
  exact ⟨e :: before, d, after, x :: xs, u, rfl, .cons hx hb, h⟩

namespace UnsetWithinBindings

variable {name : Name} {type : TypeName} {e : Expr} {span : Span} {bs : List (Binding Expr)}

theorem init (h : UnsetWithin env ⟨L, s, e⟩ reg) :
    UnsetWithinBindings env L s (⟨name, type, some e, span⟩ :: bs) reg :=
  ⟨[], name, type, some e, span, bs, [], s, rfl, .empty, .inl ⟨e, rfl, h⟩⟩

theorem default {c : ClassName} (hc : type.className.resolve env.self = c) (notInt : c ≠ .int)
    (notBool : c ≠ .bool) : UnsetWithinBindings env L s (⟨name, type, none, span⟩ :: bs)
      (s.bind name.text c).1 :=
  ⟨[], name, type, none, span, bs, [], s, rfl, .empty, .inr ⟨rfl, c, hc, notInt, notBool, rfl⟩⟩

theorem tail_init {v : Lowered} (hv : Lowers env s e v t)
    (h : UnsetWithinBindings env (L.bind name.text type.className)
      (t.bind name.text (type.className.resolve env.self)).2 bs reg) :
    UnsetWithinBindings env L s (⟨name, type, some e, span⟩ :: bs) reg := by
  obtain ⟨before, name', type', init', span', after, code, u, rfl, hb, h⟩ := h
  exact ⟨_ :: before, name', type', init', span', after, _, u, rfl, .init hv hb, h⟩

theorem tail_default
    (h : UnsetWithinBindings env (L.bind name.text type.className)
      (s.bind name.text (type.className.resolve env.self)).2 bs reg) :
    UnsetWithinBindings env L s (⟨name, type, none, span⟩ :: bs) reg := by
  obtain ⟨before, name', type', init', span', after, code, u, rfl, hb, h⟩ := h
  exact ⟨_ :: before, name', type', init', span', after, _, u, rfl, .default hb, h⟩

end UnsetWithinBindings

theorem UnsetWithin.of_block {body : List Expr} {span : Span}
    (h : UnsetWithinAll env L.push s.push body reg) :
    UnsetWithin env ⟨L, s, .block body span⟩ reg := by
  obtain ⟨before, e, after, xs, t, rfl, hb, h⟩ := h
  exact h.of_child (.item hb)

theorem UnsetWithin.of_bindings {bs : List (Binding Expr)} {body : Expr} {span : Span}
    (h : UnsetWithinBindings env L.push s.push bs reg) :
    UnsetWithin env ⟨L, s, .letIn bs body span⟩ reg := by
  obtain ⟨before, name, type, init, span', after, code, t, rfl, hb, h⟩ := h
  rcases h with ⟨e, rfl, h⟩ | ⟨rfl, c, hc, notInt, notBool, rfl⟩
  · exact h.of_child (.init hb)
  · exact ⟨_, .refl, .mk hb hc notInt notBool⟩

end Unset

section Known

structure Known (A : Set String) (s : FunctionState) : Prop where
  self : selfReg ∈ A
  locals : ∀ x ∈ s.locals, x.2.reg ∈ A
  pending : ∀ r ∈ s.pending, r ∈ A

namespace Known

variable {A B : Set String} {s t : FunctionState}

theorem mono (h : Known A s) (hs : A ⊆ B) : Known B s :=
  ⟨hs h.self, fun x hx => hs (h.locals x hx), fun r hr => hs (h.pending r hr)⟩

theorem skip (h : Known A s) (n : Nat) : Known A (s.skip n) := ⟨h.self, h.locals, h.pending⟩

theorem push (h : Known A s) : Known A s.push := ⟨h.self, h.locals, h.pending⟩

theorem branch (h : Known A s) (n : Nat) : Known A { s with branches := n } :=
  ⟨h.self, h.locals, h.pending⟩

theorem pop (h : Known A s) : Known A s.pop :=
  ⟨h.self, fun x hx => h.locals x ((Scopes.flatten_pop_sublist s.scopes).subset hx), h.pending⟩

theorem of_restores (h : Known A s) (hr : s.Restores t) (hp : t.pending = s.pending) : Known A t :=
  ⟨h.self, hr.locals ▸ h.locals, hp ▸ h.pending⟩

theorem find? (h : Known A s) {name : Bytes} {x : Local} (found : s.find? name = some x) :
    x.reg ∈ A :=
  h.locals _ (FunctionState.mem_locals found)

theorem bind (h : Known A s) {name : Bytes} {type : ClassName} (hr : (s.bind name type).1 ∈ A) :
    Known A (s.bind name type).2 := by
  obtain ⟨reg, n, heq, _⟩ := s.bind_eq name type
  rw [heq] at hr ⊢
  refine ⟨h.self, fun x hx => ?_, h.pending⟩
  have hx : x ∈ (s.scopes.bind name ⟨reg, type⟩).frames.flatten := hx
  rw [Scopes.flatten_bind, List.mem_cons] at hx
  rcases hx with rfl | hx
  · exact hr
  · exact h.locals x hx

theorem recordAlloc (h : Known A s) {reg : String} (hr : reg ∈ A) :
    Known A (s.recordAlloc reg) := by
  unfold FunctionState.recordAlloc
  split
  · exact ⟨h.self, h.locals, List.forall_mem_append.mpr
      ⟨h.pending, List.forall_mem_singleton.mpr hr⟩⟩
  · exact h

theorem initial (h : selfReg ∈ A) : Known A FunctionState.initial :=
  ⟨h, nofun, nofun⟩

end Known

end Known

section Expressions

structure Ends (regs : List String) (t : FunctionState) (B : Set String) : Prop where
  values : ∀ r ∈ regs, r ∈ B
  known : Known B t

variable {env : LowerEnv} {A : Set String} {s t u : FunctionState} {Q : Set String → Prop}

theorem Ends.value {reg : String} {B : Set String} (h : Ends [reg] t B) : reg ∈ B :=
  h.values reg List.mem_cons_self

theorem Ends.mono {regs : List String} {B : Set String} (h : Ends regs t A) (hs : A ⊆ B) :
    Ends regs t B :=
  ⟨fun r hr => hs (h.values r hr), h.known.mono hs⟩

theorem Known.ends {reg : String} (h : Known A t) (hr : reg ∈ A) : Ends [reg] t A :=
  ⟨List.forall_mem_singleton.mpr hr, h⟩

theorem flows_literal {reg : String} {v : Bril.Literal} (h : ∀ B, A ⊆ B → reg ∈ B → Q B) :
    FlowsTo A [.literal reg v] Q :=
  .one rfl rfl (fun _ hr => nomatch hr) (h _ Set.subset_union_left (.inr rfl))

theorem flows_value {op : Bril.ValueOp} {reg : String} {ty : Bril.Ty} {args funcs : List String}
    (hargs : ∀ r ∈ args, r ∈ A) (h : ∀ B, A ⊆ B → reg ∈ B → Q B) :
    FlowsTo A [.value op reg ty args funcs] Q :=
  .one rfl rfl hargs (h _ Set.subset_union_left (.inr rfl))

theorem flows_perform {op : Bril.EffectOp} {args : List String}
    (hp : (Instr.perform op args).passes = true) (hargs : ∀ r ∈ args, r ∈ A)
    (h : ∀ B, A ⊆ B → Q B) : FlowsTo A [.perform op args] Q :=
  .one hp rfl hargs (h _ Set.subset_union_left)

theorem flows_addressCode (hs : selfReg ∈ A) {id slot : Nat}
    (h : ∀ B, A ⊆ B → tempName (id + 1) ∈ B → Q B) : FlowsTo A (addressCode id slot) Q := by
  refine (flows_literal fun B _ (known : tempName id ∈ B) => known).append fun B hB offset => ?_
  refine flows_value ?_ fun C hC addr => h C (hB.trans hC) addr
  exact List.forall_mem_cons.mpr ⟨hB hs, List.forall_mem_singleton.mpr offset⟩

theorem flows_cons {x : Lowered} {xs : List Lowered} (hx : FlowsTo A x.code (Ends [x.dest] t))
    (hxs : ∀ B, A ⊆ B → Known B t → FlowsTo B (xs.flatMap (·.code)) (Ends (xs.map (·.dest)) u)) :
    FlowsTo A ((x :: xs).flatMap (·.code)) (Ends ((x :: xs).map (·.dest)) u) := by
  rw [List.flatMap_cons, List.map_cons]
  refine hx.append fun B hB first => (hxs B hB first.known).imp fun C hC rest => ?_
  exact ⟨List.forall_mem_cons.mpr ⟨hC first.value, rest.values⟩, rest.known⟩

theorem flows_called {owner : ClassName} {method : Bytes} {result : ClassName} {xs : List Lowered}
    (h : FlowsTo A (xs.flatMap (·.code)) (Ends (xs.map (·.dest)) t)) :
    FlowsTo A (called t.next owner method result xs).code (Ends [tempName t.next] (t.skip 1)) :=
  h.append fun _ _ operands => flows_value operands.values fun _ hC written =>
    ((operands.known.mono hC).skip 1).ends written

theorem lastOf_dest_mem {xs : List Lowered} (hs : selfReg ∈ A) (h : ∀ r ∈ xs.map (·.dest), r ∈ A) :
    (env.lastOf xs).dest ∈ A := by
  unfold lastOf
  cases last : xs.getLast? with
  | none => exact hs
  | some x => exact h _ (List.mem_map_of_mem (List.mem_of_getLast? last))

theorem default?_eq_none {c : ClassName} (h : c.default? = none) : c ≠ .int ∧ c ≠ .bool := by
  constructor <;> (rintro rfl; cases h)

/-- The code of an expression flows, from a state that is known, where the registers that a `let`
within it leaves unset are taken to be written. -/
theorem Lowers.flows {e : Expr} {x : Lowered} (h : Lowers env s e x t) (L : Scopes ClassName)
    (known : Known A s) (unset : ∀ r, UnsetWithin env ⟨L, s, e⟩ r → r ∈ A) :
    FlowsTo A x.code (Ends [x.dest] t) := by
  induction h using Lowers.rec
    (motive_2 := fun s es xs t _ => ∀ L A, Known A s → (∀ r, UnsetWithinAll env L s es r → r ∈ A) →
      FlowsTo A (xs.flatMap (·.code)) (Ends (xs.map (·.dest)) t))
    (motive_3 := fun s bs code t _ => ∀ L A, Known A s →
      (∀ r, UnsetWithinBindings env L s bs r → r ∈ A) → FlowsTo A code (Ends [] t))
    generalizing L A with
  | assignLocal _ found ih =>
    refine (ih L known fun r hr => unset r (hr.of_child .value)).append fun B _ value => ?_
    exact flows_value value.values fun C hC written => (value.known.mono hC).ends written
  | assignAttribute _ _ _ ih =>
    have value := ih L known fun r hr => unset r (hr.of_child .value)
    refine (value.append fun B _ value => flows_addressCode value.known.self fun C hC addr =>
      And.intro addr (value.mono hC)).append fun C _ ⟨addr, value⟩ => ?_
    refine flows_perform rfl ?_ fun D hD => ((value.known.mono hD).skip 2).ends (hD value.value)
    exact List.forall_mem_cons.mpr ⟨addr, value.values⟩
  | selfCall _ _ _ ih =>
    refine flows_called (flows_cons (.nil (known.ends known.self)) fun B hB known => ?_)
    refine ih L B known fun r hr => hB (unset r ?_)
    obtain ⟨before, e, after, xs, t, rfl, hb, h⟩ := hr
    exact h.of_child (.selfArgument hb)
  | call hr _ _ _ ihr iha =>
    have receiver := ihr L known fun r hr => unset r (hr.of_child .receiver)
    refine flows_called (flows_cons receiver fun B hB known => ?_)
    refine iha L B known fun r hm => hB (unset r ?_)
    obtain ⟨before, e, after, xs, t, rfl, hb, h⟩ := hm
    exact h.of_child (.argument hr hb)
  | staticCall hr _ _ _ ihr iha =>
    have receiver := ihr L known fun r hr => unset r (hr.of_child .staticReceiver)
    refine flows_called (flows_cons receiver fun B hB known => ?_)
    refine iha L B known fun r hm => hB (unset r ?_)
    obtain ⟨before, e, after, xs, t, rfl, hb, h⟩ := hm
    exact h.of_child (.staticArgument hr hb)
  | @cond s t u w _ _ _ _ x y z ht hy hn iht ihy ihn =>
    obtain ⟨B, test, tested⟩ := iht L known fun r hr => unset r (hr.of_child .test)
    obtain ⟨C, yes, taken⟩ : FlowsTo B
        (y.code ++ [.compute .id (tempName (w.next + 1)) y.type.ty [y.dest]])
        (tempName (w.next + 1) ∈ ·) :=
      (ihy L (tested.known.branch _) fun r hr =>
        test.subset (unset r (hr.of_child (.yes ht)))).append fun C _ value =>
          flows_value value.values fun D _ written => written
    -- The other arm is entered with what was known behind the test.
    have other : Known B u.leaveBranch :=
      tested.known.of_restores hy.restores.branch hy.restores.pending_branch
    obtain ⟨D, no, left⟩ : FlowsTo B
        (z.code ++ [.compute .id (tempName (w.next + 1)) z.type.ty [z.dest]])
        (tempName (w.next + 1) ∈ ·) :=
      (ihn L (other.branch _) fun r hr =>
        test.subset (unset r (hr.of_child (.no ht hy)))).append fun C _ value =>
          flows_value value.values fun D _ written => written
    rw [condCode_eq]
    -- One arm is left out, so behind them only what both write is known.
    refine ⟨C ∩ D, test.branch tested.value yes no, ?_⟩
    have behind := other.of_restores hn.restores.branch hn.restores.pending_branch
    exact ((behind.mono (Set.subset_inter yes.subset no.subset)).skip 2).ends ⟨taken, left⟩
  | loop ht hb iht ihb =>
    obtain ⟨B, test, tested⟩ := iht L ((known.skip 1).branch _) fun r hr =>
      unset r (hr.of_child .loopTest)
    obtain ⟨C, body, _⟩ := ihb L ((tested.known.branch _).branch _) fun r hr =>
      test.subset (unset r (hr.of_child (.loopBody ht)))
    -- The body may never run; the result is that of the test, which always does.
    refine ⟨B, test.loop tested.value body, Known.ends ?_ tested.value⟩
    exact (tested.known.branch _).of_restores hb.restores.branch hb.restores.pending_branch
  | block _ ih =>
    refine (ih L.push A known.push fun r hr => unset r (.of_block hr)).imp fun B _ values => ?_
    exact values.known.pop.ends (lastOf_dest_mem values.known.self values.values)
  | letIn hb _ ihb ih =>
    refine (ihb L.push A known.push fun r hr => unset r (.of_bindings hr)).append
      fun B hB bound => ?_
    refine (ih _ bound.known fun r hr => hB (unset r (hr.of_child (.body hb)))).imp
      fun C _ body => body.known.pop.ends body.value
  | newInt | newBool | int | bool =>
    exact flows_literal fun B hB written => ((known.mono hB).skip 1).ends written
  | @newObject s _ _ c =>
    have allocated : FlowsTo A [.literal (tempName s.next) (.int (env.table.objectSize c)),
        .compute .alloc (tempName (s.next + 1)) .object [tempName s.next]]
        (Ends [tempName (s.next + 1)] ((s.skip 2).recordAlloc (tempName (s.next + 1)))) := by
      refine FlowsTo.append (flows_literal fun B hB size => And.intro hB size) ?_
      rintro B - ⟨hB, size⟩
      refine flows_value (List.forall_mem_singleton.mpr size) fun C hC object => ?_
      exact (((known.mono (hB.trans hC)).skip 2).recordAlloc object).ends object
    refine allocated.append fun B _ object => ?_
    split
    · exact .nil object
    · exact flows_value object.values fun C hC _ => object.mono hC
  | binary hl _ ihl ihr =>
    have left := ihl L known fun r hr => unset r (hr.of_child .left)
    refine (left.append fun B hB left => (ihr L left.known fun r hr =>
      hB (unset r (hr.of_child (.right hl)))).imp fun C hC right =>
        And.intro (hC left.value) right).append fun C _ ⟨left, right⟩ => ?_
    exact flows_value (List.forall_mem_cons.mpr ⟨left, right.values⟩) fun D hD written =>
      ((right.known.mono hD).skip 1).ends written
  | not _ ih =>
    refine (ih L known fun r hr => unset r (hr.of_child (.operand (by decide)))).append
      fun B _ operand => ?_
    exact flows_value operand.values fun C hC written =>
      ((operand.known.mono hC).skip 1).ends written
  | complement _ ih =>
    refine (ih L known fun r hr => unset r (hr.of_child (.operand (by decide)))).append
      fun B _ operand => ?_
    refine FlowsTo.append (flows_literal fun C hC zero => And.intro zero (operand.mono hC)) ?_
    rintro C - ⟨zero, operand⟩
    exact flows_value (List.forall_mem_cons.mpr ⟨zero, operand.values⟩) fun D hD written =>
      ((operand.known.mono hD).skip 2).ends written
  | self => exact .nil (known.ends known.self)
  | «local» _ found => exact .nil (known.ends (known.find? found))
  | «attribute» =>
    refine FlowsTo.append (flows_addressCode known.self fun B hB addr => And.intro hB addr) ?_
    rintro B - ⟨hB, addr⟩
    exact flows_value (List.forall_mem_singleton.mpr addr) fun C hC written =>
      ((known.mono (hB.trans hC)).skip 3).ends written
  | group _ ih => exact ih L known fun r hr => unset r (hr.of_child .inner)
  | nil L A known _ => exact .nil ⟨nofun, known⟩
  | cons hx _ ih ihs L A known unset =>
    refine flows_cons (ih L known fun r hr => unset r (.head hr)) fun B hB known => ?_
    exact ihs L B known fun r hr => hB (unset r (.tail hx hr))
  | empty L A known _ => exact .nil ⟨nofun, known⟩
  | init hv _ ihv ih L A known unset =>
    refine ((ihv L known fun r hr => unset r (.init hr)).append fun B hB value =>
      flows_value value.values fun C hC written =>
        And.intro (hB.trans hC) ((value.known.mono hC).bind written)).append ?_
    rintro C - ⟨hC, known⟩
    exact ih _ C known fun r hr => hC (unset r (.tail_init hv hr))
  | @default s _ name type _ _ _ _ ih L A known unset =>
    refine FlowsTo.append (P := (Known · (s.bind name.text (type.className.resolve env.self)).2)) ?_
      fun B hB known => ih _ B known fun r hr => hB (unset r (.tail_default hr))
    unfold defaultCode
    cases first : (type.className.resolve env.self).default? with
    | none =>
      obtain ⟨notInt, notBool⟩ := default?_eq_none first
      exact .nil (known.bind (unset _ (.default rfl notInt notBool)))
    | some v => exact flows_literal fun B hB written => (known.mono hB).bind written

end Expressions

section Attributes

variable {env : LowerEnv} {A : Set String} {s t : FunctionState} {a : Attribute}
  {as : List Attribute} {code : List Instr}

theorem Sets.flows (h : Sets env s a code t) (known : Known A s)
    (unset : ∀ e ∈ a.init, ∀ r, UnsetWithin env ⟨.empty, s, e⟩ r → r ∈ A) :
    FlowsTo A code (Ends [] t) := by
  cases h with
  | init present lowers _ =>
    refine ((lowers.flows .empty known (unset _ present)).append fun B _ value =>
      flows_addressCode value.known.self fun C hC addr =>
        And.intro addr (value.mono hC)).append fun C _ ⟨addr, value⟩ => ?_
    refine flows_perform rfl ?_ fun D hD => ⟨nofun, (value.known.mono hD).skip 2⟩
    exact List.forall_mem_cons.mpr ⟨addr, value.values⟩
  | default _ _ _ =>
    refine ((flows_literal fun B hB value => And.intro hB value).append fun B _ value =>
      flows_addressCode (value.1 known.self) fun C hC addr =>
        And.intro addr (And.intro (value.1.trans hC) (hC value.2))).append ?_
    rintro C - ⟨addr, hC, value⟩
    refine flows_perform rfl ?_ fun D hD => ⟨nofun, (known.mono (hC.trans hD)).skip 3⟩
    exact List.forall_mem_cons.mpr ⟨addr, List.forall_mem_singleton.mpr value⟩
  | none => exact .nil ⟨nofun, known.skip 1⟩

theorem setAttributes_flows (h : (env.setAttributes as).run s = .ok code t) (known : Known A s)
    (unset : ∀ a u, SetFrom env s as a u →
      ∀ e ∈ a.init, ∀ r, UnsetWithin env ⟨.empty, u, e⟩ r → r ∈ A) :
    FlowsTo A code (Ends [] t) := by
  induction as generalizing s code A with
  | nil =>
    cases h
    exact .nil ⟨nofun, known⟩
  | cons a as ih =>
    obtain ⟨_, _, _, set, sets, rfl⟩ := run_setAttributes_cons_eq_ok.mp h
    refine ((Sets.of_run set).flows known (unset a s .head)).append fun B hB ends => ?_
    exact ih sets ends.known fun b v later e he r hr => hB (unset b v (later.tail set) e he r hr)

theorem Sets.numbered (h : Sets env s a code t) :
    Numbered s.next t.next (labels code) ∧ s.next ≤ t.next := by
  cases h with
  | init _ lowers _ =>
    have later := lowers.restores.next
    exact ⟨by simpa [addressCode] using lowers.numbered.skip 2,
      Nat.le_trans later (Nat.le_add_right _ 2)⟩
  | default _ _ _ => exact ⟨by simpa [addressCode] using Numbered.nil, Nat.le_add_right _ 3⟩
  | none => exact ⟨.nil, Nat.le_add_right _ 1⟩

theorem setAttributes_numbered (h : (env.setAttributes as).run s = .ok code t) :
    Numbered s.next t.next (labels code) ∧ s.next ≤ t.next := by
  induction as generalizing s code with
  | nil =>
    cases h
    exact ⟨.nil, Nat.le_refl _⟩
  | cons a as ih =>
    obtain ⟨_, _, _, set, sets, rfl⟩ := run_setAttributes_cons_eq_ok.mp h
    obtain ⟨own, later⟩ := (Sets.of_run set).numbered
    obtain ⟨others, last⟩ := ih sets
    rw [Bril.labels_append]
    exact ⟨own.append others later last, Nat.le_trans later last⟩

end Attributes

namespace Member

variable {t : ClassTable} {e : Entry} {b : Member} {f : Function} {A : Set String}

inductive Begins (t : ClassTable) (e : Entry) : Member → Site → Prop where
  | method {c m params s} : (c.lowerEnv t).isEntry e m = false →
      ((c.lowerEnv t).bindParams m.params).run .initial = .ok params s →
      Begins t e (.method c m) ⟨m.locals, s, m.body⟩
  | entry {c m} : (c.lowerEnv t).isEntry e m = true →
      Begins t e (.method c m) ⟨m.locals, FunctionState.initial.skip 1, m.body⟩
  | attribute {c p call s before a after init code u} : t.get? c.className = some p →
      (parentCall p).run .initial = .ok call s → c.attributes = before ++ a :: after →
      ((c.lowerEnv t).setAttributes before).run s = .ok code u → a.init = some init →
      Begins t e (.constructor c) ⟨.empty, u, init⟩

/-- Whether a `let` in a member binds a name to a register and leaves it unset. -/
def Unset (t : ClassTable) (e : Entry) (b : Member) (reg : String) : Prop :=
  ∃ site, b.Begins t e site ∧ UnsetWithin (b.owner.lowerEnv t) site reg

theorem known_bindParams {env : LowerEnv} {ps : List Formal} {params : List Bril.Param}
    {s u : FunctionState} (h : (env.bindParams ps).run s = .ok params u) (known : Known A s)
    (hp : ∀ r ∈ params.map (·.name), r ∈ A) : Known A u := by
  induction ps generalizing s params with
  | nil =>
    cases h
    exact known
  | cons p ps ih =>
    obtain ⟨_, hps, rfl⟩ := run_bindParams_cons_eq_ok.mp h
    rw [List.map_cons, List.forall_mem_cons] at hp
    exact ih hps (known.bind hp.1) hp.2

theorem flows_frees {regs : List String} {Q : Set String → Prop} (hr : ∀ r ∈ regs, r ∈ A)
    (h : ∀ B, A ⊆ B → Q B) : FlowsTo A (regs.map fun reg => .perform .free [reg]) Q := by
  induction regs generalizing A with
  | nil => exact .nil (h A (fun _ h => h))
  | cons reg regs ih =>
    rw [List.forall_mem_cons] at hr
    refine FlowsTo.append (flows_perform rfl (List.forall_mem_singleton.mpr hr.1) fun B hB => hB) ?_
    intro B _ hB
    exact ih (fun r hm => hB (hr.2 r hm)) fun C hC => h C (hB.trans hC)

theorem parentCall_flows {entry : ClassEntry} {code : List Instr} {s u : FunctionState}
    (h : (parentCall entry).run s = .ok code u) (known : Known A s) :
    FlowsTo A code (Ends [] u) := by
  obtain ⟨rfl, rfl⟩ | ⟨_, _, _, rfl, rfl⟩ := parentCall_ok h
  · exact .nil ⟨nofun, known⟩
  · exact flows_value (List.forall_mem_singleton.mpr known.self) fun B hB _ =>
      ⟨nofun, (known.mono hB).skip 1⟩

theorem flows_start (env : LowerEnv) : FlowsTo A
    [.literal (tempName 0) (.int (env.table.objectSize env.self)),
      .compute .alloc selfReg .object [tempName 0],
      .call selfReg .object env.self.constructorName [selfReg]]
    fun B => selfReg ∈ B := by
  refine FlowsTo.append (flows_literal fun B _ (size : tempName 0 ∈ B) => size) fun B _ size => ?_
  refine FlowsTo.append (flows_value (List.forall_mem_singleton.mpr size) fun C _ self => self)
    fun C _ self => ?_
  exact flows_value (List.forall_mem_singleton.mpr self) fun D _ self => self

/-- The code of a function flows from its parameters and the registers left unset. -/
theorem function_flows (h : b.function t e = .ok f) (params : ∀ r ∈ f.params.map (·.name), r ∈ A)
    (unset : ∀ r, b.Unset t e r → r ∈ A) : f.FlowsFrom A := by
  cases makes_of_function h with
  | constructor found called set =>
    have self : selfReg ∈ A := params _ List.mem_cons_self
    refine ⟨_, _, rfl, ((parentCall_flows called (.initial self)).append fun B hB ends =>
      setAttributes_flows set ends.known ?_).imp fun C _ ends r hr =>
        Option.some.inj hr ▸ ends.known.self⟩
    rintro a w ⟨before, after, done, split, more⟩ e he r hr
    exact hB (unset r ⟨_, .attribute found called split more he, hr⟩)
  | @entry c m _ _ isEntry body =>
    have main := (flows_start (A := A) (c.lowerEnv t)).append fun B hB self =>
      body.flows m.locals ((Known.initial self).skip 1)
        fun r hr => hB (unset r ⟨_, .entry isEntry, hr⟩)
    refine ⟨_, _, rfl, (main.append fun B _ value => ?_).append fun C _ pending =>
      flows_frees pending fun _ _ => nofun⟩
    exact flows_perform rfl (List.forall_mem_singleton.mpr value.known.self)
      fun C hC r hr => hC (value.known.pending r hr)
  | @method c m _ _ _ _ notEntry bound body =>
    rw [List.map_cons, List.forall_mem_cons] at params
    have known := known_bindParams bound (.initial params.1) params.2
    refine ⟨_, _, rfl, (body.flows m.locals known fun r hr => ?_).imp
      fun B _ value r hr => Option.some.inj hr ▸ value.value⟩
    exact unset r ⟨_, .method notEntry bound, hr⟩

theorem labels_frees (regs : List String) :
    labels (regs.map fun reg => .perform .free [reg]) = [] := by
  induction regs with
  | nil => rfl
  | cons reg regs ih => rw [List.map_cons, Bril.labels_cons_perform, ih]

theorem parentCall_labels {entry : ClassEntry} {code : List Instr} {s u : FunctionState}
    (h : (parentCall entry).run s = .ok code u) : labels code = [] := by
  obtain ⟨rfl, _⟩ | ⟨_, _, _, _, rfl⟩ := parentCall_ok h
  · rfl
  · rfl

theorem function_labels (h : b.function t e = .ok f) : (labels f.instrs).Nodup := by
  cases makes_of_function h with
  | constructor _ called set =>
    simpa [parentCall_labels called] using (setAttributes_numbered set).1.nodup
  | entry _ body => simpa [labels_frees] using body.numbered.nodup
  | method _ _ body => simpa using body.numbered.nodup

end Member

section Program

variable {t : ClassTable} {e : Entry} {classes : List ClassDecl} {p : Bril.Program}

theorem builtin_flows {f : Function} (hf : f ∈ builtinFunctions) :
    f.FlowsFrom {r | r ∈ f.params.map (·.name)} ∧ (labels f.instrs).Nodup := by
  cases List.mem_singleton.mp hf
  constructor
  · refine ⟨[_], _, rfl, flows_perform rfl (by simp) fun B hB r hr => hB ?_⟩
    simp [Option.some.inj hr]
  · exact List.nodup_nil

/-- Control stays in each function of a generated program until it returns. -/
theorem generate_routed (h : generate t e classes = .ok p) : ∀ f ∈ p.functions, f.Routed := by
  intro f hf
  rcases builtin_or_member h hf with builtin | ⟨b, _, made⟩
  · exact (builtin_flows builtin).1.routed (builtin_flows builtin).2
  · have flows : f.FlowsFrom Set.univ :=
      Member.function_flows made (fun _ _ => trivial) fun _ _ => trivial
    exact flows.routed (Member.function_labels made)

/-- Each register that a function of a generated program reads is a parameter or was written before,
on every path; but for one that a `let` of the member binds to a name without a value. -/
theorem generate_definesFirst (h : generate t e classes = .ok p) : ∀ f ∈ p.functions,
    f.DefinesFirst fun r => ∃ b ∈ membersOf t classes, b.function t e = .ok f ∧ b.Unset t e r := by
  intro f hf
  rcases builtin_or_member h hf with builtin | ⟨b, hb, made⟩
  · exact (builtin_flows builtin).1.definesFirst (builtin_flows builtin).2 fun _ => .inl
  · have flows : f.FlowsFrom {r | r ∈ f.params.map (·.name) ∨ b.Unset t e r} :=
      Member.function_flows made (fun _ => .inl) fun _ => .inr
    refine flows.definesFirst (Member.function_labels made) fun r hr => ?_
    exact hr.imp_right fun unset => ⟨b, hb, made, unset⟩

end Program

/-- A program with a loop, a conditional, objects to free and a name without a value. -/
def branching : SourceFiles := .ofLines [
  "class A \x7b n : Int <- if true then 1 else 2 fi; \x7d;",
  "class Main inherits IO \x7b",
  "  count(n : Int) : Object \x7b",
  "    let i : Int, a : A in \x7b",
  "      while i < n loop if i = 2 then a <- new A else i <- i + 1 fi pool;",
  "      a;",
  "    \x7d",
  "  \x7d;",
  "  main() : Object \x7b let a : A <- new A in \x7b out_int(3); count(4); a; \x7d \x7d;",
  "\x7d;"]

theorem branching_compiled :
    Accepted branching (SourceFiles.classes branching) (SourceFiles.tableInOrder branching) ∧
    generate (SourceFiles.tableInOrder branching) .default (SourceFiles.classes branching) =
      .ok (SourceFiles.codeInOrder branching .default) :=
  SourceFiles.compiled_inOrder (by decide +kernel)

theorem generate_routed_branching :
    generate (SourceFiles.tableInOrder branching) .default (SourceFiles.classes branching) =
      .ok (SourceFiles.codeInOrder branching .default) ∧
    ∀ f ∈ (SourceFiles.codeInOrder branching .default).functions, f.Routed :=
  ⟨branching_compiled.2, generate_routed branching_compiled.2⟩

theorem generate_definesFirst_branching :
    generate (SourceFiles.tableInOrder branching) .default (SourceFiles.classes branching) =
      .ok (SourceFiles.codeInOrder branching .default) ∧
    ∀ f ∈ (SourceFiles.codeInOrder branching .default).functions, f.DefinesFirst fun r =>
      ∃ b ∈ membersOf (SourceFiles.tableInOrder branching) (SourceFiles.classes branching),
        b.function (SourceFiles.tableInOrder branching) .default = .ok f ∧
          b.Unset (SourceFiles.tableInOrder branching) .default r :=
  ⟨branching_compiled.2, generate_definesFirst branching_compiled.2⟩

end Cool
