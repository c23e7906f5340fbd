import Cool.Proofs.Class.Layout
import Cool.Proofs.Lowering.Faults
import Cool.Proofs.Lowering.Steady
import Cool.Proofs.Typing.Stack

/-!
What names stand for. The checker and code generation go through an expression side by side, each
with a stack of its own. Wherever both come, they see the same names with the same types, so what
was checked as a local name is a register, and what was checked as an attribute is the slot of that
attribute.
-/
namespace Cool

open Bril (Instr)
open FunctionState (tempName)
open LowerEnv

/-- The environment of the checker, which keeps its local names on a stack. -/
def LowerEnv.checking (env : LowerEnv) : Env := env.typing .empty

section Visits

/-- The parts of an expression that both passes come to, each with the stack of the checker and the
state of code generation behind the parts before it. -/
inductive Visits (env : LowerEnv) : Site → Site → Prop where
  | value {L s name value span} : Visits env ⟨L, s, .assign name value span⟩ ⟨L, s, value⟩
  | selfArgument {L M s t method before e after span ps r} :
      (checkArgumentsOn env.checking before ps).run L = .ok () M →
      (lowerArguments env before).run s = .ok r t →
      Visits env ⟨L, s, .selfCall method (before ++ e :: after) span⟩ ⟨M, t, e⟩
  | receiver {L s receiver method args span} :
      Visits env ⟨L, s, .call receiver method args span⟩ ⟨L, s, receiver⟩
  | argument {L M N s t u receiver method before e after span T ps x r} :
      (receiver.checkOn env.checking).run L = .ok T M →
      (checkArgumentsOn env.checking before ps).run M = .ok () N →
      (receiver.lower env).run s = .ok x t → (lowerArguments env before).run t = .ok r u →
      Visits env ⟨L, s, .call receiver method (before ++ e :: after) span⟩ ⟨N, u, e⟩
  | staticReceiver {L s receiver type method args span} :
      Visits env ⟨L, s, .staticCall receiver type method args span⟩ ⟨L, s, receiver⟩
  | staticArgument {L M N s t u receiver type method before e after span T ps x r} :
      (receiver.checkOn env.checking).run L = .ok T M →
      (checkArgumentsOn env.checking before ps).run M = .ok () N →
      (receiver.lower env).run s = .ok x t → (lowerArguments env before).run t = .ok r u →
      Visits env ⟨L, s, .staticCall receiver type method (before ++ e :: after) span⟩ ⟨N, u, e⟩
  | test {L s test yes no span} : Visits env ⟨L, s, .cond test yes no span⟩ ⟨L, s, test⟩
  | yes {L M s t test yes no span T x} : (test.checkOn env.checking).run L = .ok T M →
      (test.lower env).run s = .ok x t →
      Visits env ⟨L, s, .cond test yes no span⟩ ⟨M, t.enterBranch, yes⟩
  | no {L M N s t u test yes no span T U x y} : (test.checkOn env.checking).run L = .ok T M →
      (yes.checkOn env.checking).run M = .ok U N → (test.lower env).run s = .ok x t →
      (Lower.inBranch (yes.lower env)).run t = .ok y u →
      Visits env ⟨L, s, .cond test yes no span⟩ ⟨N, u.enterBranch, no⟩
  | loopTest {L s t test body span id} : Lower.fresh.run s = .ok id t →
      Visits env ⟨L, s, .loop test body span⟩ ⟨L, t.enterBranch, test⟩
  | loopBody {L M s t u test body span id T x} : (test.checkOn env.checking).run L = .ok T M →
      Lower.fresh.run s = .ok id t → (Lower.inBranch (test.lower env)).run t = .ok x u →
      Visits env ⟨L, s, .loop test body span⟩ ⟨M, u.enterBranch, body⟩
  | item {L M s t before e after span T x} :
      (checkBlockOn env.checking .object before).run L.push = .ok T M →
      (lowerBlock env [] selfReg env.self before).run s.push = .ok x t →
      Visits env ⟨L, s, .block (before ++ e :: after) span⟩ ⟨M, t, e⟩
  | init {L M s t before name type e span after body span' code} :
      (checkBindingsOn env.checking before).run L.push = .ok () M →
      (lowerBindings env before).run s.push = .ok code t →
      Visits env ⟨L, s, .letIn (before ++ ⟨name, type, some e, span⟩ :: after) body span'⟩ ⟨M, t, e⟩
  | body {L M s t bindings body span code} :
      (checkBindingsOn env.checking bindings).run L.push = .ok () M →
      (lowerBindings env bindings).run s.push = .ok code t →
      Visits env ⟨L, s, .letIn bindings body span⟩ ⟨M, t, body⟩
  | left {L s op left right span} : Visits env ⟨L, s, .binary op left right span⟩ ⟨L, s, left⟩
  | right {L M s t op left right span T x} : (left.checkOn env.checking).run L = .ok T M →
      (left.lower env).run s = .ok x t →
      Visits env ⟨L, s, .binary op left right span⟩ ⟨M, t, right⟩
  | operand {L s op operand span} : op ≠ .isVoid →
      Visits env ⟨L, s, .unary op operand span⟩ ⟨L, s, operand⟩
  | inner {L s inner span} : Visits env ⟨L, s, .group inner span⟩ ⟨L, s, inner⟩

inductive Visited (t : ClassTable) (e : Entry) (c : ClassDecl) : Site → Prop where
  | method {before m after L M params s} : c.features = before ++ .method m :: after →
      (c.lowerEnv t).isEntry e m = false →
      (before.forM (Feature.checkOn (c.lowerEnv t).checking)).run .empty = .ok () L →
      (checkParamsOn (c.lowerEnv t).checking [] m.params).run L.push = .ok () M →
      ((c.lowerEnv t).bindParams m.params).run .initial = .ok params s →
      Visited t e c ⟨M, s, m.body⟩
  | attribute {features a more init L p call s before after code u} :
      c.features = features ++ .attribute a :: more → a.init = some init →
      (features.forM (Feature.checkOn (c.lowerEnv t).checking)).run .empty = .ok () L →
      t.get? c.className = some p → (parentCall p).run .initial = .ok call s →
      c.attributes = before ++ a :: after →
      ((c.lowerEnv t).setAttributes before).run s = .ok code u →
      Visited t e c ⟨L, u, init⟩
  | part {a b} : Visited t e c a → Visits (c.lowerEnv t) a b → Visited t e c b

variable {env : LowerEnv} {a b : Site}

theorem lowersAll_of_arguments {s t : FunctionState} {es : List Expr} {r : List Instr × List String}
    (ran : (lowerArguments env es).run s = .ok r t) : ∃ xs, LowersAll env s es xs t :=
  (Lowers.of_arguments (fun e _ => .of_run e) ran).imp fun _ => And.left

theorem Visits.child (h : Visits env a b) : Child env a b := by
  cases h with
  | value => exact .value
  | selfArgument checked ran =>
    cases checkArgumentsOn_restores checked
    obtain ⟨_, before⟩ := lowersAll_of_arguments ran
    exact .selfArgument before
  | receiver => exact .receiver
  | argument first checked ran args =>
    cases Expr.checkOn_restores first
    cases checkArgumentsOn_restores checked
    obtain ⟨_, before⟩ := lowersAll_of_arguments args
    exact .argument (.of_run _ ran) before
  | staticReceiver => exact .staticReceiver
  | staticArgument first checked ran args =>
    cases Expr.checkOn_restores first
    cases checkArgumentsOn_restores checked
    obtain ⟨_, before⟩ := lowersAll_of_arguments args
    exact .staticArgument (.of_run _ ran) before
  | test => exact .test
  | yes checked ran =>
    cases Expr.checkOn_restores checked
    exact .yes (.of_run _ ran)
  | no checked checked' ran ran' =>
    cases Expr.checkOn_restores checked
    cases Expr.checkOn_restores checked'
    obtain ⟨_, made, rfl⟩ := run_inBranch_eq_ok.mp ran'
    exact .no (.of_run _ ran) (.of_run _ made)
  | loopTest fresh =>
    cases fresh
    exact .loopTest
  | loopBody checked fresh ran =>
    cases fresh
    cases Expr.checkOn_restores checked
    obtain ⟨_, made, rfl⟩ := run_inBranch_eq_ok.mp ran
    exact .loopBody (.of_run _ made)
  | item checked ran =>
    cases checkBlockOn_restores checked
    obtain ⟨_, made, _⟩ := Lowers.of_block (fun e _ => .of_run e) (y := ⟨[], selfReg, env.self⟩) ran
    exact .item made
  | init checked ran =>
    cases checkBindingsOn_ok checked
    exact .init (Lowers.of_bindings (fun _ _ e _ => .of_run e) ran)
  | body checked ran =>
    cases checkBindingsOn_ok checked
    exact .body (Lowers.of_bindings (fun _ _ e _ => .of_run e) ran)
  | left => exact .left
  | right checked ran =>
    cases Expr.checkOn_restores checked
    exact .right (.of_run _ ran)
  | operand notVoid => exact .operand notVoid
  | inner => exact .inner

theorem Visited.occurs {t : ClassTable} {e : Entry} {c : ClassDecl} (h : Visited t e c a) :
    Occurs t e c none a := by
  induction h with
  | @method before m after L M params s features notEntry checked bound ran =>
    cases features_restore checked
    cases checkParamsOn_ok bound
    have mem : m ∈ c.methods := ClassDecl.mem_methods.mpr (features ▸ by simp)
    exact ⟨_, .method mem notEntry ran, .refl⟩
  | «attribute» _ init checked entry call attributes ran =>
    cases features_restore checked
    exact ⟨_, .attribute entry call attributes ran init, .refl⟩
  | part _ visits ih =>
    obtain ⟨root, isRoot, path⟩ := ih
    exact ⟨root, isRoot, path.tail visits.child⟩

end Visits

section Referents

variable {files : SourceFiles} {classes : List ClassDecl} {t : ClassTable} {e : Entry}
  {c : ClassDecl} {site : Site}

inductive Referent where
  | register (x : Local)
  | slot (index : Nat) (type : ClassName)

/-- What a name stands for in a class: the register of its type if the checker has it as a local
name, and otherwise the slot of the attribute that the checker finds. -/
inductive RefersTo (t : ClassTable) (classes : List ClassDecl) (c : ClassName)
    (L : Scopes ClassName) (s : FunctionState) (name : Bytes) : Referent → Prop where
  | register {T reg} : L.find? name = some T → s.find? name = some ⟨reg, T.resolve c⟩ →
      RefersTo t classes c L s name (.register ⟨reg, T.resolve c⟩)
  | slot {owner T k} : L.find? name = none → s.find? name = none →
      t.findAttribute? c name = some (owner, T) →
      (declaredAttributes classes owner)[k]? = some (name, T) →
      t.slot? c name = some ((t.inheritedAttributes owner).length + k, T) →
      RefersTo t classes c L s name (.slot ((t.inheritedAttributes owner).length + k) (T.resolve c))

def Referent.read (s : FunctionState) : Referent → Lowered
  | .register x => ⟨[], x.reg, x.type⟩
  | .slot i type => ⟨addressCode s.next i ++
      [.compute .load (tempName (s.next + 2)) type.ty [tempName (s.next + 1)]],
      tempName (s.next + 2), type⟩

def Referent.write (s : FunctionState) (v : Lowered) : Referent → Lowered
  | .register x => ⟨v.code ++ [.compute .id x.reg x.type.ty [v.dest]], x.reg, v.type⟩
  | .slot i _ => ⟨v.code ++ addressCode s.next i ++
      [.perform .store [tempName (s.next + 1), v.dest]], v.dest, v.type⟩

/-- How both passes see the names at a site of a class. -/
structure Site.Resolves (site : Site) (t : ClassTable) (classes : List ClassDecl) (c : ClassDecl) :
    Prop where
  names : ∀ n, (site.state.find? n).map Local.type =
    (site.locals.find? n).map (·.resolve c.className)
  /-- Checking, fault or not, leaves the bindings as they were. -/
  checked : Mirrors site.locals (site.expr.checkOn (c.lowerEnv t).checking)
    (site.expr.check ((c.lowerEnv t).typing site.locals))
  /-- Generating code, fault or not, leaves the scopes as they were. -/
  lowered : ((site.expr.lower (c.lowerEnv t)).after site.state).scopes = site.state.scopes
  read : ∀ name, site.expr = .name name → name.isSelf = false →
    ∃ r, RefersTo t classes c.className site.locals site.state name.text r ∧
      ∃ u, (site.expr.lower (c.lowerEnv t)).run site.state = .ok (r.read site.state) u
  assigned : ∀ name value span v u, site.expr = .assign name value span →
    (value.lower (c.lowerEnv t)).run site.state = .ok v u →
    ∃ r, RefersTo t classes c.className site.locals site.state name.text r ∧
      ∃ w, (site.expr.lower (c.lowerEnv t)).run site.state = .ok (r.write u v) w

theorem Fits.refersTo (fits : Fits (c.lowerEnv t) [] site) (typed : typecheck classes = .ok t)
    {name : Bytes} {T : ClassName}
    (known : ((c.lowerEnv t).typing site.locals).typeOf? name = some T) :
    ∃ r, RefersTo t classes c.className site.locals site.state name r := by
  have same := fits.agree.types name
  rw [if_neg List.not_mem_nil] at same
  unfold Env.typeOf? at known
  cases found : site.locals.find? name with
  | some U =>
    rw [found] at same
    obtain ⟨⟨reg, _⟩, bound, resolved⟩ := Option.map_eq_some_iff.mp same
    cases resolved
    exact ⟨_, .register found bound⟩
  | none =>
    have unbound : ((c.lowerEnv t).typing site.locals).locals.find? name = none := found
    rw [unbound] at known
    obtain ⟨⟨owner, U⟩, inherited, _⟩ := Option.map_eq_some_iff.mp known
    obtain ⟨k, declared, place⟩ := slot?_of_findAttribute? typed inherited
    rw [found] at same
    exact ⟨_, .slot found (Option.map_eq_none_iff.mp same) inherited declared place⟩

theorem RefersTo.reads {name : Name} {r : Referent} {s : FunctionState} {L : Scopes ClassName}
    (h : RefersTo t classes c.className L s name.text r) (notSelf : name.isSelf = false) :
    ∃ u, ((Expr.name name).lower (c.lowerEnv t)).run s = .ok (r.read s) u := by
  cases h with
  | register _ bound => exact ⟨_, (Lowers.local notSelf bound).run⟩
  | slot _ unbound _ _ place =>
    have lowers : Lowers (c.lowerEnv t) s (.name name) _ _ := .attribute notSelf unbound place
    exact ⟨_, lowers.run⟩

theorem RefersTo.writes {name : Name} {r : Referent} {s u : FunctionState} {L : Scopes ClassName}
    {value : Expr} {v : Lowered} (h : RefersTo t classes c.className L s name.text r)
    (made : (value.lower (c.lowerEnv t)).run s = .ok v u) (span : Span) :
    ∃ w, ((Expr.assign name value span).lower (c.lowerEnv t)).run s = .ok (r.write u v) w := by
  have lowers := Lowers.of_run value made
  -- The name is looked up behind the value, where the scopes are those before it.
  have scopes : u.scopes = s.scopes := Lower.after_of_run made ▸ value.lower_steady _ s
  have same : u.find? name.text = s.find? name.text := congrArg (·.find? name.text) scopes
  cases h with
  | register _ bound => exact ⟨_, (Lowers.assignLocal lowers (same.trans bound)).run⟩
  | slot _ unbound _ _ place =>
    exact ⟨_, (Lowers.assignAttribute lowers (same.trans unbound) place).run⟩

/-- Wherever both passes come in an accepted program, they see the same names with the same types,
leave them as they were, and take a name for the same local or attribute. -/
theorem Accepted.resolves (h : Accepted files classes t) (hc : c ∈ classes)
    (visited : Visited t e c site) : site.Resolves t classes c := by
  have fits : Fits (c.lowerEnv t) [] site := h.fits hc visited.occurs
  refine ⟨fun n => ?_, site.expr.mirrors _ _, site.expr.lower_steady _ _, ?_, ?_⟩
  · have same := fits.agree.types n
    rwa [if_neg List.not_mem_nil] at same
  · intro name here notSelf
    obtain ⟨T, typed⟩ := fits.typed
    rw [here] at typed ⊢
    obtain ⟨r, refers⟩ := fits.refersTo h.typed (typed.typeOf? notSelf)
    exact ⟨r, refers, refers.reads notSelf⟩
  · intro name value span v u here made
    obtain ⟨T, typed⟩ := fits.typed
    rw [here] at typed ⊢
    obtain ⟨r, refers⟩ := fits.refersTo h.typed typed.assign.1
    exact ⟨r, refers, refers.writes made span⟩

/-- Both passes come to the body of every method but the one that the program starts with. -/
theorem Accepted.visited_body (h : Accepted files classes t) (hc : c ∈ classes) {m : Method}
    (hm : m ∈ c.methods) (notEntry : (c.lowerEnv t).isEntry e m = false) :
    ∃ s, Visited t e c ⟨m.locals, s, m.body⟩ := by
  obtain ⟨before, after, features⟩ := List.append_of_mem (ClassDecl.mem_methods.mp hm)
  have checked := forM_eq_ok.mp (h.admits hc).checked
  have earlier : before.forM (Feature.check ((c.lowerEnv t).checking.seeing .empty)) = .ok () :=
    forM_eq_ok.mpr fun f hf => checked f (features ▸ List.mem_append_left _ hf)
  have ran := features_mirror before (c.lowerEnv t).checking .empty
  unfold Mirrors at ran
  rw [earlier] at ran
  obtain ⟨inner, params, _⟩ := bind_eq_ok.mp (checked (.method m) (features ▸ by simp))
  have bound : Binds Scopes.empty.push (checkParamsOn (c.lowerEnv t).checking [] m.params)
      (checkParams (Env.push ⟨t, c.className, .empty⟩) [] m.params) := checkParams_binds [] _ _
  rw [params] at bound
  cases checkParams_ok params
  cases made : ((c.lowerEnv t).bindParams m.params).run .initial with
  | ok params s => exact ⟨s, .method features notEntry ran bound.1 made⟩
  | error err s => exact (bindParams_no_error made).elim

def concealing : SourceFiles := .ofLines [
  "class Main \x7b n : Int; main() : Int \x7b n \x7d; f(n : Bool) : Bool \x7b n \x7d; \x7d;"]

theorem concealing_accepted :
    Accepted concealing (SourceFiles.classes concealing) (SourceFiles.tableInOrder concealing) :=
  SourceFiles.accepted_inOrder (by decide +kernel)

theorem resolves_concealing : ∃ c ∈ SourceFiles.classes concealing, ∃ m ∈ c.methods, ∃ s,
    m.params ≠ [] ∧
    Visited (SourceFiles.tableInOrder concealing) .default c ⟨m.locals, s, m.body⟩ ∧
    Site.Resolves ⟨m.locals, s, m.body⟩ (SourceFiles.tableInOrder concealing)
      (SourceFiles.classes concealing) c := by
  have inside : ∃ c ∈ SourceFiles.classes concealing, ∃ m ∈ c.methods, m.params ≠ [] ∧
      (c.lowerEnv (SourceFiles.tableInOrder concealing)).isEntry .default m = false := by
    decide +kernel
  obtain ⟨c, hc, m, hm, hides, notEntry⟩ := inside
  obtain ⟨s, visited⟩ := concealing_accepted.visited_body hc hm notEntry
  exact ⟨c, hc, m, hm, s, hides, visited, concealing_accepted.resolves hc visited⟩

end Referents

end Cool
