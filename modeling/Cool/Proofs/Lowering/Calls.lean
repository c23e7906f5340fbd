import Cool.Proofs.Bril.Flow
import Cool.Proofs.Lowering.Functions
import Cool.Proofs.Lowering.Gaps

/-!
The calls in a generated program. Code calls the functions of methods that expressions dispatch to,
and those of the constructors of new objects and of parents, which are there. What is called may
still be missing: the function of the method that the program starts with has a name of its own.
-/
namespace Cool

open LowerEnv
open Bril (Instr Ty Literal ValueOp EffectOp Function)
open FunctionState (tempName)
open Relation (ReflTransGen)

section Instructions

def callsIn (code : List Instr) : List (String × Nat) := code.flatMap Instr.calls

@[simp] theorem callsIn_nil : callsIn [] = [] := rfl

@[simp] theorem callsIn_append (a b : List Instr) : callsIn (a ++ b) = callsIn a ++ callsIn b :=
  List.flatMap_append

@[simp] theorem callsIn_cons_literal (dest : String) (v : Literal) (code : List Instr) :
    callsIn (.literal dest v :: code) = callsIn code := rfl

@[simp] theorem callsIn_cons_compute (op : ValueOp) (dest : String) (ty : Ty) (args : List String)
    (code : List Instr) : callsIn (.compute op dest ty args :: code) = callsIn code := by
  cases op <;> rfl

@[simp] theorem callsIn_cons_call (dest : String) (ty : Ty) (func : String) (args : List String)
    (code : List Instr) :
    callsIn (.call dest ty func args :: code) = (func, args.length) :: callsIn code := rfl

@[simp] theorem callsIn_cons_perform (op : EffectOp) (args : List String) (code : List Instr) :
    callsIn (.perform op args :: code) = callsIn code := by
  cases op <;> rfl

@[simp] theorem callsIn_cons_label (name : String) (code : List Instr) :
    callsIn (.label name :: code) = callsIn code := rfl

@[simp] theorem callsIn_cons_jmp (label : String) (code : List Instr) :
    callsIn (.jmp label :: code) = callsIn code := rfl

@[simp] theorem callsIn_cons_br (cond yes no : String) (code : List Instr) :
    callsIn (.br cond yes no :: code) = callsIn code := rfl

@[simp] theorem callsIn_cons_ret (reg : Option String) (code : List Instr) :
    callsIn (.ret reg :: code) = callsIn code := rfl

theorem callsIn_mono {a b : List Instr} (h : a ⊆ b) : callsIn a ⊆ callsIn b :=
  fun _ hc => (List.mem_flatMap.mp hc).elim fun i hi => List.mem_flatMap.mpr ⟨i, h hi.1, hi.2⟩

theorem callsIn_frees (regs : List String) :
    callsIn (regs.map fun reg => .perform .free [reg]) = [] := by
  induction regs with
  | nil => rfl
  | cons reg regs ih => rw [List.map_cons, callsIn_cons_perform, ih]

theorem callsIn_defaultCode (dest : String) (type : ClassName) :
    callsIn (defaultCode dest type) = [] := by
  unfold defaultCode
  cases type.default? <;> rfl

end Instructions

section Expressions

inductive Dispatches (env : LowerEnv) : Site → ClassName → Name → Nat → Prop where
  | selfCall {L s method args span owner m} :
      env.table.findMethod? env.self method.text = some (owner, m) →
      Dispatches env ⟨L, s, .selfCall method args span⟩ owner method args.length
  | call {L s receiver method args span r t owner m} : Lowers env s receiver r t →
      env.table.findMethod? r.type method.text = some (owner, m) →
      Dispatches env ⟨L, s, .call receiver method args span⟩ owner method args.length
  | staticCall {L s receiver type method args span owner m} :
      env.table.findMethod? (type.className.resolve env.self) method.text = some (owner, m) →
      Dispatches env ⟨L, s, .staticCall receiver type method args span⟩ owner method args.length

inductive Creates (env : LowerEnv) : Site → ClassName → Prop where
  | new {L s type span c} : type.className.resolve env.self = c → c.isBuiltin = false →
      env.table.contains c = true → Creates env ⟨L, s, .new type span⟩ c

def CallsAt (env : LowerEnv) (site : Site) (call : String × Nat) : Prop :=
  (∃ owner method n, Dispatches env site owner method n ∧
    call = (owner.memberName method.text, n + 1)) ∨
  ∃ c, Creates env site c ∧ call = (c.constructorName, 1)

def CallsWithin (env : LowerEnv) (site : Site) (call : String × Nat) : Prop :=
  ∃ inner, ReflTransGen (Child env) site inner ∧ CallsAt env inner call

def CallsWithinAll (env : LowerEnv) (s : FunctionState) (es : List Expr) (code : List Instr) :
    Prop :=
  ∀ (L : Scopes ClassName), ∀ call ∈ callsIn code, ∃ before e after xs t,
    es = before ++ e :: after ∧ LowersAll env s before xs t ∧ CallsWithin env ⟨L, t, e⟩ call

def CallsWithinBindings (env : LowerEnv) (s : FunctionState) (bs : List (Binding Expr))
    (code : List Instr) : Prop :=
  ∀ (L : Scopes ClassName), ∀ call ∈ callsIn code, ∃ before name type e span after code t,
    bs = before ++ ⟨name, type, some e, span⟩ :: after ∧ LowersBindings env s before code t ∧
      CallsWithin env ⟨L.bindAll before, t, e⟩ call

variable {env : LowerEnv} {a b : Site} {s t : FunctionState} {call : String × Nat}

theorem CallsWithin.of_child (hc : Child env a b) (h : CallsWithin env b call) :
    CallsWithin env a call :=
  h.imp fun _ h => ⟨.head hc h.1, h.2⟩

theorem CallsWithin.dispatch {owner : ClassName} {method : Name} {n : Nat}
    (h : Dispatches env a owner method n) :
    CallsWithin env a (owner.memberName method.text, n + 1) :=
  ⟨a, .refl, .inl ⟨owner, method, n, h, rfl⟩⟩

theorem callsIn_called {id : Nat} {owner : ClassName} {method : Bytes} {result : ClassName}
    {r : Lowered} {xs : List Lowered}
    (h : call ∈ callsIn (called id owner method result (r :: xs)).code) :
    call ∈ callsIn r.code ∨ call ∈ callsIn (xs.flatMap (·.code)) ∨
      call = (owner.memberName method, xs.length + 1) := by
  simpa [called, or_assoc] using h

/-- The calls in the code of an expression are those of the sites within it. -/
theorem Lowers.calls_within {e : Expr} {x : Lowered} (h : Lowers env s e x t)
    (L : Scopes ClassName) : ∀ call ∈ callsIn x.code, CallsWithin env ⟨L, s, e⟩ call := by
  induction h using Lowers.rec
    (motive_2 := fun s es xs _ _ => CallsWithinAll env s es (xs.flatMap (·.code)))
    (motive_3 := fun s bs code _ _ => CallsWithinBindings env s bs code)
    generalizing L with
  | assignLocal _ _ ih =>
    intro call h
    exact (ih L call (by simpa using h)).of_child .value
  | assignAttribute _ _ _ ih =>
    intro call h
    exact (ih L call (by simpa [addressCode] using h)).of_child .value
  | selfCall hm _ ha ih =>
    intro call h
    rcases callsIn_called h with h | h | rfl
    · cases h
    · obtain ⟨before, e, after, ys, u, rfl, hb, h⟩ := ih L call h
      exact h.of_child (.selfArgument hb)
    · rw [← ha.length_eq]
      exact .dispatch (.selfCall hm)
  | call hr hm _ ha ihr iha =>
    intro call h
    rcases callsIn_called h with h | h | rfl
    · exact (ihr L call h).of_child .receiver
    · obtain ⟨before, e, after, ys, u, rfl, hb, h⟩ := iha L call h
      exact h.of_child (.argument hr hb)
    · rw [← ha.length_eq]
      exact .dispatch (.call hr hm)
  | staticCall hr hm _ ha ihr iha =>
    intro call h
    rcases callsIn_called h with h | h | rfl
    · exact (ihr L call h).of_child .staticReceiver
    · obtain ⟨before, e, after, ys, u, rfl, hb, h⟩ := iha L call h
      exact h.of_child (.staticArgument hr hb)
    · rw [← ha.length_eq]
      exact .dispatch (.staticCall hm)
  | cond ht hy _ iht ihy ihn =>
    intro call h
    simp only [condCode, callsIn_append, callsIn_cons_br, callsIn_cons_label, callsIn_cons_compute,
      callsIn_cons_jmp, callsIn_nil, List.append_nil, List.mem_append] at h
    rcases h with (h | h) | h
    · exact (iht L call h).of_child .test
    · exact (ihy L call h).of_child (.yes ht)
    · exact (ihn L call h).of_child (.no ht hy)
  | loop ht _ iht ihb =>
    intro call h
    simp only [loopCode, callsIn_append, callsIn_cons_br, callsIn_cons_label, callsIn_cons_jmp,
      callsIn_nil, List.append_nil, List.nil_append, List.mem_append] at h
    rcases h with h | h
    · exact (iht L call h).of_child .loopTest
    · exact (ihb L call h).of_child (.loopBody ht)
  | block _ ih =>
    intro call h
    obtain ⟨before, e, after, ys, u, rfl, hb, h⟩ := ih L.push call h
    exact h.of_child (.item hb)
  | letIn hb _ ihb ih =>
    intro call h
    rw [callsIn_append, List.mem_append] at h
    rcases h with h | h
    · obtain ⟨before, name, type, e, span, after, code, u, rfl, hb, h⟩ := ihb L.push call h
      exact h.of_child (.init hb)
    · exact (ih _ call h).of_child (.body hb)
  | newInt | newBool | self | «local» | int | bool =>
    intro call h
    cases h
  | @newObject _ _ _ c hc _ _ _ known =>
    intro call h
    unfold objectCode at h
    split at h
    · simp at h
    · rename_i declared
      have same : call = (c.constructorName, 1) := by simpa using h
      exact ⟨_, .refl, .inr ⟨c, .new hc (Bool.eq_false_iff.mpr declared) known, same⟩⟩
  | binary hl _ ihl ihr =>
    intro call h
    simp only [callsIn_append, callsIn_cons_compute, callsIn_nil, List.append_nil,
      List.mem_append] at h
    rcases h with h | h
    · exact (ihl L call h).of_child .left
    · exact (ihr L call h).of_child (.right hl)
  | not _ ih | complement _ ih =>
    intro call h
    exact (ih L call (by simpa using h)).of_child (.operand (by decide))
  | «attribute» =>
    intro call h
    simp [addressCode] at h
  | group _ ih =>
    intro call h
    exact (ih L call h).of_child .inner
  | nil =>
    intro L call h
    cases h
  | cons hx _ ih ihs =>
    intro L call h
    rw [List.flatMap_cons, callsIn_append, List.mem_append] at h
    rcases h with h | h
    · exact ⟨[], _, _, [], _, rfl, .nil, ih L call h⟩
    · obtain ⟨before, e, after, ys, u, rfl, hb, h⟩ := ihs L call h
      exact ⟨_ :: before, e, after, _ :: ys, u, rfl, .cons hx hb, h⟩
  | empty =>
    intro L call h
    cases h
  | init hv _ ihv ih =>
    intro L call h
    simp only [callsIn_append, callsIn_cons_compute, callsIn_nil, List.append_nil,
      List.mem_append] at h
    rcases h with h | h
    · exact ⟨[], _, _, _, _, _, _, _, rfl, .empty, ihv L call h⟩
    · obtain ⟨before, name, type, e, span, after, code, u, rfl, hb, h⟩ := ih (L.bind _ _) call h
      exact ⟨_ :: before, name, type, e, span, after, _, u, rfl, .init hv hb, h⟩
  | default _ ih =>
    intro L call h
    rw [callsIn_append, callsIn_defaultCode, List.nil_append] at h
    obtain ⟨before, name, type, e, span, after, code, u, rfl, hb, h⟩ := ih (L.bind _ _) call h
    exact ⟨_ :: before, name, type, e, span, after, _, u, rfl, .default hb, h⟩

theorem Lowers.mem_calls {x : Lowered} {owner : ClassName} {method : Name} {n : Nat}
    (h : Lowers env a.state a.expr x t) (dispatches : Dispatches env a owner method n) :
    (owner.memberName method.text, n + 1) ∈ callsIn x.code := by
  cases dispatches with
  | selfCall found =>
    cases h with | selfCall found' _ ha =>
    cases found.symm.trans found'
    simp [called, ha.length_eq]
  | call hr found =>
    cases h with | call hr' found' _ ha =>
    obtain ⟨rfl, rfl⟩ := hr.unique hr'
    cases found.symm.trans found'
    simp [called, ha.length_eq]
  | staticCall found =>
    cases h with | staticCall _ found' _ ha =>
    cases found.symm.trans found'
    simp [called, ha.length_eq]

end Expressions

section Functions

variable {files : SourceFiles} {classes : List ClassDecl} {t : ClassTable} {e : Entry}
  {p : Bril.Program}

theorem parentCall_calls {entry : ClassEntry} {code : List Instr} {s u : FunctionState}
    (h : (parentCall entry).run s = .ok code u) : ∀ call ∈ callsIn code, ∃ c,
      entry.parent = some c ∧ c.isBuiltin = false ∧ call = (c.constructorName, 1) := by
  obtain ⟨rfl, _⟩ | ⟨c, parent, notBuiltin, _, rfl⟩ := parentCall_ok h
  · nofun
  · exact fun call h => ⟨c, parent, notBuiltin, by simpa using h⟩

theorem setAttributes_calls {env : LowerEnv} {as : List Attribute} {code : List Instr}
    {s u : FunctionState} (h : (env.setAttributes as).run s = .ok code u) :
    ∀ call ∈ callsIn code, ∃ a v, SetFrom env s as a v ∧ ∃ init ∈ a.init,
      CallsWithin env ⟨.empty, v, init⟩ call := by
  induction as generalizing s code with
  | nil =>
    cases h
    nofun
  | cons a as ih =>
    obtain ⟨now, v, rest, set, sets, rfl⟩ := run_setAttributes_cons_eq_ok.mp h
    intro call hc
    rw [callsIn_append, List.mem_append] at hc
    rcases hc with hc | hc
    · cases Sets.of_run set with
      | init present lowered _ =>
        refine ⟨a, s, .head, _, present, ?_⟩
        exact lowered.calls_within .empty call (by simpa [addressCode] using hc)
      | default => simp [addressCode] at hc
      | none => cases hc
    · obtain ⟨b, w, later, within⟩ := ih sets call hc
      exact ⟨b, w, later.tail set, within⟩

theorem Accepted.mem_of_contains (h : Accepted files classes t) {c : ClassName}
    (declared : c.isBuiltin = false) (known : t.contains c = true) :
    ∃ d ∈ classes, d.className = c :=
  (h.outlines.contains_iff_mem declared).mp known

/-- What is called in the code of an expression: the method of a dispatch, or a constructor that is
there. -/
theorem Accepted.calls_within (h : Accepted files classes t) {c : ClassDecl} {entry : Option Method}
    {root : Site} (hr : Root t e c entry root) {call : String × Nat}
    (within : CallsWithin (c.lowerEnv t) root call) :
    (∃ entry site owner method n, Occurs t e c entry site ∧
      Dispatches (c.lowerEnv t) site owner method n ∧
      call = (owner.memberName method.text, n + 1)) ∨
    ∃ d ∈ classes, call = (d.className.constructorName, 1) := by
  obtain ⟨site, hd, ⟨owner, method, n, dispatches, same⟩ | ⟨_, creates, same⟩⟩ := within
  · exact .inl ⟨entry, site, owner, method, n, ⟨root, hr, hd⟩, dispatches, same⟩
  · cases creates with | new _ declared known =>
    obtain ⟨d, hd, rfl⟩ := h.mem_of_contains declared known
    exact .inr ⟨d, hd, same⟩

theorem Accepted.function_calls (h : Accepted files classes t) {b : Member}
    (hb : b.owner ∈ classes) (declared : b.Declared) {f : Function}
    (made : b.function t e = .ok f) : ∀ call ∈ callsIn f.instrs,
    (∃ entry site owner method n, Occurs t e b.owner entry site ∧
      Dispatches (b.owner.lowerEnv t) site owner method n ∧
      call = (owner.memberName method.text, n + 1)) ∨
    ∃ d ∈ classes, call = (d.className.constructorName, 1) := by
  intro call hc
  cases Member.makes_of_function made with
  | @constructor c entry _ _ _ _ found called set =>
    simp only [callsIn_append, callsIn_cons_ret, callsIn_nil, List.append_nil,
      List.mem_append] at hc
    rcases hc with hc | hc
    · obtain ⟨d, parent, notBuiltin, rfl⟩ := parentCall_calls called call hc
      have parentName : entry.parent = some c.parentName := h.outlines.parent_of_get? hb found
      cases parent.symm.trans parentName
      obtain ⟨d, hd, same⟩ := h.mem_of_contains notBuiltin (h.outlines.parents c hb)
      exact .inr ⟨d, hd, by rw [same]⟩
    · obtain ⟨a, u, ⟨before, after, code, attributes, done⟩, init, present, within⟩ :=
        setAttributes_calls set call hc
      exact h.calls_within (.attribute found called attributes done present) within
  | @entry c m _ _ isEntry body =>
    simp only [callsIn_append, callsIn_cons_literal, callsIn_cons_compute, callsIn_cons_call,
      callsIn_cons_perform, callsIn_cons_ret, callsIn_nil, callsIn_frees, List.append_nil,
      List.cons_append, List.nil_append, List.mem_cons] at hc
    rcases hc with rfl | hc
    · exact .inr ⟨c, hb, rfl⟩
    · exact h.calls_within (.entry declared isEntry) (body.calls_within m.locals call hc)
  | @method c m _ _ _ _ notEntry bound body =>
    simp only [callsIn_append, callsIn_cons_ret, callsIn_nil, List.append_nil] at hc
    exact h.calls_within (.method declared notEntry bound) (body.calls_within m.locals call hc)

end Functions

section Program

variable {files : SourceFiles} {classes : List ClassDecl} {t : ClassTable} {e : Entry}
  {p : Bril.Program}

/-- Whether every call is one of a function of the program, with as many arguments as it takes. -/
def Bril.Program.Closed (p : Bril.Program) : Prop :=
  ∀ f ∈ p.functions, ∀ call ∈ callsIn f.instrs,
    ∃ g ∈ p.functions, g.name = call.1 ∧ g.params.length = call.2

/-- Whether a program has a function of a name that takes a number of arguments: the built-in one or
that of a member. -/
def Provided (e : Entry) (classes : List ClassDecl) (call : String × Nat) : Prop :=
  call = (ClassName.io.memberName (ascii "out_int"), 2) ∨
    ∃ b : Member, b.owner ∈ classes ∧ b.Declared ∧ call = (b.functionName e, b.arity e)

/-- Whether every dispatch that gets code calls a function that is provided. -/
def DispatchesProvided (t : ClassTable) (e : Entry) (classes : List ClassDecl) : Prop :=
  ∀ c ∈ classes, ∀ entry site owner method n, Occurs t e c entry site →
    Dispatches (c.lowerEnv t) site owner method n →
    Provided e classes (owner.memberName method.text, n + 1)

def EntryCalled (t : ClassTable) (e : Entry) (classes : List ClassDecl) : Prop :=
  ∃ c ∈ classes, ∃ entry site method n, ∃ d ∈ classes, ∃ m ∈ d.methods,
    Occurs t e c entry site ∧ Dispatches (c.lowerEnv t) site d.className method n ∧
    m.name.text = method.text ∧ (Member.method d m).IsEntry e

theorem provided_iff (made : generate t e classes = .ok p) {call : String × Nat} :
    (∃ g ∈ p.functions, g.name = call.1 ∧ g.params.length = call.2) ↔ Provided e classes call := by
  constructor
  · rintro ⟨g, hg, name, length⟩
    rcases builtin_or_member made hg with builtin | ⟨b, hb, function⟩
    · cases List.mem_singleton.mp builtin
      exact .inl (Prod.ext name.symm length.symm)
    · obtain ⟨owner, declared⟩ := mem_membersOf.mp hb
      obtain ⟨name', length'⟩ := Member.function_profile function
      exact .inr ⟨b, owner, declared, Prod.ext (name.symm.trans name') (length.symm.trans length')⟩
  · rintro (rfl | ⟨b, owner, declared, rfl⟩)
    · obtain ⟨fs, _, functions⟩ := generate_functions made
      exact ⟨_, functions ▸ List.mem_append_left fs List.mem_cons_self, rfl, rfl⟩
    · obtain ⟨g, hg, function⟩ := exists_function made (mem_membersOf.mpr ⟨owner, declared⟩)
      exact ⟨g, hg, Member.function_profile function⟩

theorem provided_constructor {c : ClassDecl} (hc : c ∈ classes) :
    Provided e classes (c.className.constructorName, 1) :=
  .inr ⟨.constructor c, hc, trivial, rfl⟩

theorem Accepted.closed_iff (h : Accepted files classes t) (made : generate t e classes = .ok p) :
    p.Closed ↔ DispatchesProvided t e classes := by
  constructor
  · rintro closed c hc entry site owner method n ⟨root, hr, hd⟩ dispatches
    obtain ⟨fs, functions, sub⟩ := class_functions made hc
    obtain ⟨_, _, lowers, f, hf, code⟩ := hr.lowers functions
    obtain ⟨_, _, lowers, code'⟩ := lowers.descendant hd
    exact (provided_iff made).mp
      (closed f (sub hf) _
        (callsIn_mono (List.Subset.trans code' code) (lowers.mem_calls dispatches)))
  · intro provided f hf call hcall
    rw [provided_iff made]
    rcases builtin_or_member made hf with builtin | ⟨b, hb, function⟩
    · cases List.mem_singleton.mp builtin
      cases hcall
    · obtain ⟨known, declared⟩ := mem_membersOf.mp hb
      rcases h.function_calls known declared function call hcall with
        ⟨entry, site, owner, method, n, occurs, dispatches, rfl⟩ | ⟨d, hd, rfl⟩
      · exact provided _ known entry site owner method n occurs dispatches
      · exact provided_constructor hd

/-- Where the checker finds the method of a dispatch with the same owner, it takes as many arguments
as are passed. -/
theorem Fits.dispatch {env : LowerEnv} {hidden : List Bytes} {site : Site} {owner : ClassName}
    {method : Name} {n : Nat} (fits : Fits env hidden site) (agree : ¬ Misdirected env site)
    (dispatches : Dispatches env site owner method n) : ∃ d m,
      env.table.findMethod? d method.text = some (owner, m) ∧ m.params.length = n := by
  obtain ⟨T, typed⟩ := fits.typed
  cases dispatches with
  | selfCall found =>
    obtain ⟨_, _, found', fitting⟩ := typed.calls .selfCall
    cases found.symm.trans found'
    exact ⟨_, _, found', fitting.length_eq.symm⟩
  | call hr found =>
    obtain ⟨U, hU, _⟩ := typed.call
    obtain ⟨owner', m, found', fitting⟩ := typed.calls (.call hU)
    rw [findMethod?_of_not_misdirected agree hU hr] at found
    cases found.symm.trans found'
    exact ⟨_, _, found', fitting.length_eq.symm⟩
  | staticCall found =>
    obtain ⟨_, _, found', fitting⟩ := typed.calls .staticCall
    cases found.symm.trans found'
    exact ⟨_, _, found', fitting.length_eq.symm⟩

theorem Dispatches.hasCode {env : LowerEnv} {site : Site} {owner : ClassName} {method : Name}
    {n : Nat} {x : Lowered} {s : FunctionState} (h : Dispatches env site owner method n)
    (lowers : Lowers env site.state site.expr x s) : HasCode owner method.text := by
  cases h with
  | selfCall found =>
    cases lowers with | selfCall found' code _ =>
    cases found.symm.trans found'
    exact code
  | call hr found =>
    cases lowers with | call hr' found' code _ =>
    obtain ⟨rfl, rfl⟩ := hr.unique hr'
    cases found.symm.trans found'
    exact code
  | staticCall found =>
    cases lowers with | staticCall _ found' code _ =>
    cases found.symm.trans found'
    exact code

/-- Dispatches to methods that the checker found are provided, unless to the entry. -/
theorem Accepted.dispatches_provided (h : Accepted files classes t)
    (made : generate t e classes = .ok p) (agree : CallsAgree t e classes)
    (notCalled : ¬ EntryCalled t e classes) : DispatchesProvided t e classes := by
  rintro c hc entry site owner method n occurs dispatches
  obtain ⟨d, m, found, length⟩ :=
    (h.fits hc occurs).dispatch (agree c hc entry site occurs) dispatches
  obtain ⟨root, hr, hd⟩ := occurs
  obtain ⟨_, functions, _⟩ := class_functions made hc
  obtain ⟨_, _, lowers, _⟩ := hr.lowers functions
  obtain ⟨_, _, lowers, _⟩ := lowers.descendant hd
  have code := dispatches.hasCode lowers
  rcases (h.outlines.findMethod?_eq_some found).2 with
    ⟨o, outline, method'⟩ | ⟨c', hc', rfl, k, hk, name, type⟩
  · have builtin := ClassTable.isBuiltin_of_outline? outline
    have isOutInt : owner = .io ∧ method.text = ascii "out_int" := by
      simpa [HasCode, builtin, hasFunction] using code
    obtain ⟨rfl, name⟩ := isOutInt
    rw [name] at method'
    cases outline
    cases method'
    exact .inl (by rw [name, ← length]; rfl)
  · have notEntry : ¬ (Member.method c' k).IsEntry e := fun isEntry =>
      notCalled ⟨c, hc, entry, site, method, n, c', hc', k, hk, ⟨root, hr, hd⟩, dispatches, name,
        isEntry⟩
    refine .inr ⟨.method c' k, hc', hk, ?_⟩
    unfold Member.functionName Member.arity
    rw [if_neg notEntry, if_neg notEntry]
    subst type
    rw [← length]
    simp [Member.owner, Member.label, name, Method.type]

/-- A generated program is closed if and only if it provides what it dispatches to; and it does
where no call gets looked up elsewhere and the method that the program starts with is not called. -/
theorem closed_iff_provided (h : Accepted files classes t) (made : generate t e classes = .ok p) :
    (p.Closed ↔ DispatchesProvided t e classes) ∧
      (CallsAgree t e classes → ¬ EntryCalled t e classes → p.Closed) :=
  ⟨h.closed_iff made, fun agree notCalled =>
    (h.closed_iff made).mpr (h.dispatches_provided made agree notCalled)⟩

end Program

/-- A program that calls the method that it starts with. -/
def restarted : SourceFiles := .ofLines [
  "class Main \x7b",
  "  f() : Int { main() };",
  "  main() : Int { 0 };",
  "\x7d;"]

theorem restarted_accepted :
    Accepted restarted (SourceFiles.classes restarted) (SourceFiles.table restarted) :=
  SourceFiles.accepted (by decide +kernel)

theorem restarted_generated :
    generate (SourceFiles.table restarted) .default (SourceFiles.classes restarted) =
      .ok (SourceFiles.code restarted .default) :=
  SourceFiles.generated (by decide +kernel)

theorem closed_iff_provided_restarted :
    Accepted restarted (SourceFiles.classes restarted) (SourceFiles.table restarted) ∧
    ((SourceFiles.code restarted .default).Closed ↔
      DispatchesProvided (SourceFiles.table restarted) .default (SourceFiles.classes restarted)) :=
  ⟨restarted_accepted, (closed_iff_provided restarted_accepted restarted_generated).1⟩

theorem restarted_refutes :
    Accepted restarted (SourceFiles.classes restarted) (SourceFiles.table restarted) ∧
    generate (SourceFiles.table restarted) .default (SourceFiles.classes restarted) =
      .ok (SourceFiles.code restarted .default) ∧ ¬ (SourceFiles.code restarted .default).Closed := by
  refine ⟨restarted_accepted, restarted_generated, fun closed => ?_⟩
  have missing : ∃ f ∈ (SourceFiles.code restarted .default).functions,
      ∃ call ∈ callsIn f.instrs, ∀ g ∈ (SourceFiles.code restarted .default).functions,
        g.name ≠ call.1 := by
    decide +kernel
  obtain ⟨f, hf, call, hc, missing⟩ := missing
  obtain ⟨g, hg, name, _⟩ := closed f hf call hc
  exact missing g hg name

end Cool
