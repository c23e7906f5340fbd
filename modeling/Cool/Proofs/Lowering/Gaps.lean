import Cool.Proofs.Class.Hierarchy
import Cool.Proofs.Lowering.Faults

/-!
Which accepted programs get no code. Code generation has known gaps: forms of expressions without a
counterpart, calls of built-in methods without a function, and the parameters of the method that a
program starts with. A call that it looks up from another class than the checker is the one other
reason for a fault.
-/
namespace Cool

open LowerEnv Lower
open Relation (ReflTransGen)

/-- Whether a fault is one of the known gaps: a form of expression without a counterpart, a call of
a method that is built in and has no function, or a parameter of the method that the program starts
with. -/
inductive Documented (env : LowerEnv) (entry : Option Method) : Site → LoweringError → Prop where
  | string {L s value span} :
      Documented env entry ⟨L, s, .string value span⟩ (.unsupported .stringLiteral span)
  | newString {L s type span} : type.className = .string →
      Documented env entry ⟨L, s, .new type span⟩ (.unsupported .stringObject span)
  | case {L s scrutinee arms span} :
      Documented env entry ⟨L, s, .case scrutinee arms span⟩ (.unsupported .case span)
  | isVoid {L s operand span} :
      Documented env entry ⟨L, s, .unary .isVoid operand span⟩ (.unsupported .isVoid span)
  | builtin {L s e method d owner m} : LooksUp env L e method d →
      env.table.findMethod? d method.text = some (owner, m) → owner.isBuiltin = true →
      ¬ (owner = .io ∧ method.text = ascii "out_int") →
      Documented env entry ⟨L, s, e⟩
        (.unsupported (.builtinMethod owner method.text) method.span)
  | assigned {L s m name value span} : entry = some m → name.text ∈ m.params.map (·.name.text) →
      Documented env entry ⟨L, s, .assign name value span⟩ (.unknownName name)
  | read {L s m name} : entry = some m → name.text ∈ m.params.map (·.name.text) →
      Documented env entry ⟨L, s, .name name⟩ (.unknownName name)

/-- Whether a call gets looked up from a class that has the method of another owner than the class
that the checker looks it up from, or none. -/
def Misdirected (env : LowerEnv) (site : Site) : Prop :=
  ∃ receiver method args span T r t, site.expr = .call receiver method args span ∧
    Typed (env.typing site.locals) receiver T ∧ Lowers env site.state receiver r t ∧
    (env.table.findMethod? r.type method.text).map Prod.fst ≠
      (env.table.findMethod? (T.resolve env.self) method.text).map Prod.fst

/-- Any other call is of the method that the checker found. -/
theorem findMethod?_of_not_misdirected {env : LowerEnv} {L : Scopes ClassName}
    {s t : FunctionState} {receiver : Expr} {method : Name} {args : List Expr} {span : Span}
    {T : ClassName} {r : Lowered}
    (directed : ¬ Misdirected env ⟨L, s, .call receiver method args span⟩)
    (typed : Typed (env.typing L) receiver T) (lowers : Lowers env s receiver r t) :
    env.table.findMethod? r.type method.text =
      env.table.findMethod? (T.resolve env.self) method.text := by
  have owners : (env.table.findMethod? r.type method.text).map Prod.fst =
      (env.table.findMethod? (T.resolve env.self) method.text).map Prod.fst := by
    by_contra apart
    exact directed ⟨_, _, _, _, _, _, _, rfl, typed, lowers, apart⟩
  cases here : env.table.findMethod? r.type method.text with
  | none =>
    rw [here] at owners
    exact (Option.map_eq_none_iff.mp owners.symm).symm
  | some found =>
    rw [here] at owners
    obtain ⟨⟨owner, m⟩, there, rfl⟩ := Option.map_eq_some_iff.mp owners.symm
    obtain ⟨_, m'⟩ := found
    cases (ClassTable.method?_of_findMethod? here).symm.trans
      (ClassTable.method?_of_findMethod? there)
    exact there.symm

theorem LowerEnv.hasFunction_eq_false {owner : ClassName} {method : Bytes} :
    hasFunction owner method = false ↔ ¬ (owner = .io ∧ method = ascii "out_int") := by
  simp [hasFunction]

/-- A name that is typed where it has neither a register nor a slot is a parameter of the method
that the program starts with. -/
theorem Agree.entry_param {env : LowerEnv} {entry : Option Method} {L : Scopes ClassName}
    {s : FunctionState} {n : Bytes} {T : ClassName} (regular : env.table.Regular)
    (agree : Agree env.self (hiddenIn entry) L s) (typed : (env.typing L).typeOf? n = some T)
    (absent : s.find? n = none) (noSlot : env.table.slot? env.self n = none) :
    ∃ m, entry = some m ∧ n ∈ m.params.map (·.name.text) := by
  have hn : n ∈ hiddenIn entry := by
    by_contra shown
    have types := agree.types n
    have slots := ClassTable.slot?_type regular env.self n
    rw [absent, if_neg shown] at types
    rw [noSlot] at slots
    have free : L.find? n = none := Option.map_eq_none_iff.mp types.symm
    have unknown : env.table.findAttribute? env.self n = none :=
      Option.map_eq_none_iff.mp slots.symm
    unfold Env.typeOf? LowerEnv.typing at typed
    rw [free, unknown] at typed
    cases typed
  cases entry with
  | none => cases hn
  | some m => exact ⟨m, rfl, hn⟩

/-- A call of a method that is not there where the checker finds it is a call of a built-in one. -/
theorem NoTarget.documented {env : LowerEnv} {entry : Option Method} {L : Scopes ClassName}
    {s : FunctionState} {e : Expr} {method : Name} {d owner : ClassName} {m : MethodType}
    {err : LoweringError} (none : NoTarget env.table d method err)
    (looks : LooksUp env L e method d)
    (found : env.table.findMethod? d method.text = some (owner, m)) :
    Documented env entry ⟨L, s, e⟩ err := by
  cases none with
  | unknown absent =>
    rw [absent] at found
    cases found
  | builtin there builtin noFunction =>
    exact .builtin looks there builtin (hasFunction_eq_false.mp noFunction)

theorem documented_call_iff {env : LowerEnv} {entry : Option Method} {L : Scopes ClassName}
    {s t : FunctionState} {receiver : Expr} {method : Name} {args : List Expr} {span : Span}
    {T owner : ClassName} {m : MethodType} {r : Lowered} {err : LoweringError}
    (typed : Typed (env.typing L) receiver T) (lowers : Lowers env s receiver r t)
    (none : NoTarget env.table r.type method err)
    (found : env.table.findMethod? (T.resolve env.self) method.text = some (owner, m)) :
    Documented env entry ⟨L, s, .call receiver method args span⟩ err ↔
      ¬ Misdirected env ⟨L, s, .call receiver method args span⟩ := by
  constructor
  · rintro documented ⟨_, _, _, _, _, _, _, isCall, typed', lowers', apart⟩
    cases isCall
    cases typed'.symm.trans typed
    obtain ⟨rfl, rfl⟩ := lowers'.unique lowers
    cases documented with | builtin looks here builtin noFunction =>
    cases looks with | call hT =>
    cases hT.symm.trans typed
    cases none with | builtin there _ _ =>
    exact apart (by rw [there, here]; rfl)
  · intro same
    have owners : (env.table.findMethod? r.type method.text).map Prod.fst = some owner := by
      by_contra apart
      exact same ⟨_, _, _, _, _, _, _, rfl, typed, lowers, by rwa [found]⟩
    cases none with
    | unknown absent =>
      rw [absent] at owners
      cases owners
    | builtin there builtin noFunction =>
      rw [there] at owners
      cases owners
      exact .builtin (.call typed) found builtin (hasFunction_eq_false.mp noFunction)

/-- An expression of an accepted program fails by a known gap exactly if it is not a call that gets
looked up elsewhere. -/
theorem documented_iff {env : LowerEnv} {entry : Option Method} {site : Site} {err : LoweringError}
    (regular : env.table.Regular) (notBuiltin : env.self.isBuiltin = false)
    (fits : Fits env (hiddenIn entry) site) (fails : FailsAt env site err) :
    Documented env entry site err ↔ ¬ Misdirected env site := by
  have direct {site : Site} {err : LoweringError} (documented : Documented env entry site err)
      (noCall : ∀ receiver method args span, site.expr ≠ .call receiver method args span) :
      Documented env entry site err ↔ ¬ Misdirected env site :=
    iff_of_true documented fun ⟨_, _, _, _, _, _, _, isCall, _⟩ => noCall _ _ _ _ isCall
  obtain ⟨T, typed⟩ := fits.typed
  cases fails with
  | assign hv absent noSlot =>
    obtain ⟨found, _⟩ := typed.assign
    cases fits.wellFormed with | assign _ hw =>
    obtain ⟨m, rfl, hm⟩ := (fits.agree.keeps (hv.keeps hw)).entry_param regular found absent noSlot
    exact direct (.assigned rfl hm) nofun
  | selfCall none =>
    obtain ⟨_, _, found, _⟩ := typed.selfCall
    exact direct (none.documented .selfCall found) nofun
  | call hr none =>
    obtain ⟨U, hU, owner, m, found, _⟩ := typed.call
    exact documented_call_iff hU hr none found
  | staticCall _ none =>
    obtain ⟨_, _, _, _, _, found, _⟩ := typed.staticCall
    exact direct (none.documented .staticCall found) nofun
  | case => exact direct .case nofun
  | @newString _ _ type _ isString =>
    refine direct (.newString ?_) nofun
    cases name : type.className with
    | selfType =>
      rw [name] at isString
      rw [show env.self = .string from isString] at notBuiltin
      cases notBuiltin
    | builtin _ | named _ =>
      rw [name] at isString
      exact isString
  | newUnknown isObject _ _ unknown =>
    cases isObject
    cases typed.new.1.symm.trans unknown
  | isVoid => exact direct .isVoid nofun
  | name notSelf absent noSlot =>
    rcases typed.name with ⟨isSelf, _⟩ | ⟨_, found⟩
    · rw [notSelf] at isSelf
      cases isSelf
    · obtain ⟨m, rfl, hm⟩ := fits.agree.entry_param regular found absent noSlot
      exact direct (.read rfl hm) nofun
  | string => exact direct .string nofun

section Program

variable (t : ClassTable) (e : Entry) (classes : List ClassDecl)

def FailsAsDocumented : Prop :=
  ∀ err, generate t e classes = .error err → ∃ c ∈ classes, ∃ entry site,
    Occurs t e c entry site ∧ Documented (c.lowerEnv t) entry site err

/-- Whether every call gets looked up from a class with the method that the checker found. -/
def CallsAgree : Prop :=
  ∀ c ∈ classes, ∀ entry site, Occurs t e c entry site → ¬ Misdirected (c.lowerEnv t) site

/-- Whether every assigned value has exactly the type of its variable, and the parameters of the
method that the program starts with are not called like attributes. -/
structure Undisturbed : Prop where
  exact : ∀ c ∈ classes, ∀ entry site, Occurs t e c entry site →
    ExactAssignment (c.lowerEnv t) site
  shown : ∀ c ∈ classes, ∀ m ∈ c.methods, (c.lowerEnv t).isEntry e m = true →
    ∀ n ∈ m.params.map (·.name.text), t.slot? c.className n = none

end Program

theorem Occurs.entry {t : ClassTable} {e : Entry} {c : ClassDecl} {m : Method} {site : Site}
    (h : Occurs t e c (some m) site) : m ∈ c.methods ∧ (c.lowerEnv t).isEntry e m = true := by
  obtain ⟨_, hr, _⟩ := h
  cases hr with | entry hm isEntry =>
  exact ⟨hm, isEntry⟩

theorem Undisturbed.callsAgree {files : SourceFiles} {classes : List ClassDecl} {t : ClassTable}
    {e : Entry} (h : Accepted files classes t) (calm : Undisturbed t e classes) :
    CallsAgree t e classes := by
  rintro c hc entry ⟨L, s, _⟩ occurs ⟨receiver, _, _, _, T, r, u, rfl, typed, lowers, apart⟩
  obtain ⟨root, hr, hd⟩ := occurs
  have fits := (h.fits hc ⟨root, hr, hd⟩).child .receiver
  have shown : ∀ n ∈ hiddenIn entry, (c.lowerEnv t).table.slot? (c.lowerEnv t).self n = none := by
    cases entry with
    | none => exact List.forall_mem_nil _
    | some m =>
      obtain ⟨hm, isEntry⟩ := Occurs.entry ⟨root, hr, hd⟩
      exact calm.shown c hc m hm isEntry
  have same := sameType_of_exact h.regular (h.admits hc).notSelfType shown lowers fits
    (fun site hs => calm.exact c hc entry site ⟨root, hr, (hd.tail .receiver).trans hs⟩) typed
  exact apart (by rw [same])

/-- An accepted program gets code if no expression of it fails; where one fails, it does so by a
known gap exactly if it is not a call that gets looked up elsewhere, and that does not happen where
assignments are exact and no parameter of the first method is called like an attribute. -/
theorem generate_outcome {files : SourceFiles} {classes : List ClassDecl} {t : ClassTable}
    (h : Accepted files classes t) (e : Entry) :
    ((∃ p, generate t e classes = .ok p) ↔ ∀ c ∈ classes, ∀ entry site err,
      Occurs t e c entry site → ¬ FailsAt (c.lowerEnv t) site err) ∧
    (∀ err, generate t e classes = .error err → ∃ c ∈ classes, ∃ entry site,
      Occurs t e c entry site ∧ FailsAt (c.lowerEnv t) site err ∧
      (Documented (c.lowerEnv t) entry site err ↔ ¬ Misdirected (c.lowerEnv t) site)) ∧
    (CallsAgree t e classes → FailsAsDocumented t e classes) ∧
    (Undisturbed t e classes → CallsAgree t e classes) := by
  have located : ∀ err, generate t e classes = .error err → ∃ c ∈ classes, ∃ entry site,
      Occurs t e c entry site ∧ FailsAt (c.lowerEnv t) site err ∧
      (Documented (c.lowerEnv t) entry site err ↔ ¬ Misdirected (c.lowerEnv t) site) := by
    intro err made
    obtain ⟨c, hc, entry, site, occurs, fails⟩ := h.generate_error made
    exact ⟨c, hc, entry, site, occurs, fails,
      documented_iff h.regular (h.admits hc).notBuiltin (h.fits hc occurs) fails⟩
  refine ⟨h.generate_ok_iff e, located, fun agree err made => ?_, Undisturbed.callsAgree h⟩
  obtain ⟨c, hc, entry, site, occurs, _, documented⟩ := located err made
  exact ⟨c, hc, entry, site, occurs, documented.mpr (agree c hc entry site occurs)⟩

/-- A program that calls a method of the value of a conditional with an assignment in one arm. -/
def rejoined : SourceFiles := .ofLines [
  "class Main inherits IO \x7b",
  "  f(c : Bool, x : IO) : Object \x7b",
  "    (if c then new IO else x <- new Main fi).out_int(1)",
  "  \x7d;",
  "  main() : Object { f(true, new IO) };",
  "\x7d;"]

theorem rejoined_accepted :
    Accepted rejoined (SourceFiles.classes rejoined) (SourceFiles.table rejoined) :=
  SourceFiles.accepted (by decide +kernel)

theorem generate_outcome_rejoined :
    Accepted rejoined (SourceFiles.classes rejoined) (SourceFiles.table rejoined) ∧
    ∀ err, generate (SourceFiles.table rejoined) .default (SourceFiles.classes rejoined)
      = .error err → ∃ c ∈ SourceFiles.classes rejoined, ∃ entry site,
        Occurs (SourceFiles.table rejoined) .default c entry site ∧
        FailsAt (c.lowerEnv (SourceFiles.table rejoined)) site err ∧
        (Documented (c.lowerEnv (SourceFiles.table rejoined)) entry site err ↔
          ¬ Misdirected (c.lowerEnv (SourceFiles.table rejoined)) site) :=
  ⟨rejoined_accepted, (generate_outcome rejoined_accepted .default).2.1⟩

/-- The class without the method that was looked up from it. -/
def LoweringError.lookedUpFrom? : LoweringError → Option ClassName
  | .unknownMethod owner _ => some owner
  | _ => none

theorem rejoined_refutes :
    Accepted rejoined (SourceFiles.classes rejoined) (SourceFiles.table rejoined) ∧
    (∃ method, generate (SourceFiles.table rejoined) .default (SourceFiles.classes rejoined)
      = .error (.unknownMethod .object method)) ∧
    ¬ FailsAsDocumented (SourceFiles.table rejoined) .default (SourceFiles.classes rejoined) := by
  have fault : (match generate (SourceFiles.table rejoined) .default
      (SourceFiles.classes rejoined) with
      | .ok _ => none
      | .error err => err.lookedUpFrom?) = some .object := by
    decide +kernel
  split at fault
  · cases fault
  · rename_i err made
    cases err with
    | unknownMethod owner method =>
      cases fault
      refine ⟨rejoined_accepted, ⟨method, made⟩, fun documented => ?_⟩
      obtain ⟨_, _, _, _, _, gap⟩ := documented _ made
      cases gap
    | unsupported | unknownClass | unknownName => cases fault

end Cool
