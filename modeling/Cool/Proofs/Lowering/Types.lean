import Cool.Proofs.Lowering.Occurrence

/-!
The types that code generation gives to expressions are those of the checker as long as every
assigned value has exactly the type of its variable: the checker takes an assignment to be of the
type of the variable, and code generation of that of the value.
-/
namespace Cool

open LowerEnv
open Relation (ReflTransGen)

section Resolve

theorem Env.resolve_resultOf (t r self : ClassName) :
    (Env.resultOf t r).resolve self = Env.resultOf (t.resolve self) r := by
  cases r <;> rfl

theorem ClassTable.join_resolve (t : ClassTable) (a b self : ClassName) :
    t.join (a.resolve self) (b.resolve self) self = t.join a b self := by
  unfold ClassTable.join
  rw [ClassName.resolve_resolve, ClassName.resolve_resolve]

end Resolve

def SameType (env : LowerEnv) (site : Site) : Prop :=
  ∀ {x t}, Lowers env site.state site.expr x t →
    ∃ T, Typed (env.typing site.locals) site.expr T ∧ x.type = T.resolve env.self

/-- Whether the expression at a site is no assignment that gets code, or one of a value of exactly
the type of the variable. -/
def ExactAssignment (env : LowerEnv) (site : Site) : Prop :=
  ∀ {name value span x t T U}, site.expr = .assign name value span →
    Lowers env site.state site.expr x t → Typed (env.typing site.locals) site.expr T →
    Typed (env.typing site.locals) value U → U.resolve env.self = T.resolve env.self

section Lookup

variable {env : LowerEnv} {hidden : List Bytes} {L : Scopes ClassName} {s : FunctionState}
  {n : Bytes} {T : ClassName}

theorem type_of_local (agree : Agree env.self hidden L s) (h : (env.typing L).typeOf? n = some T)
    {x : Local} (found : s.find? n = some x) : x.type = T.resolve env.self := by
  have types := agree.types n
  have shown : n ∉ hidden := by
    intro hn
    rw [found, if_pos hn] at types
    cases types
  rw [found, if_neg shown] at types
  unfold Env.typeOf? at h
  split at h
  · rename_i U hU
    cases h
    rw [show L.find? n = some U from hU] at types
    exact (Option.some.inj types).trans (ClassName.resolve_resolve U env.self).symm
  · rename_i absent
    rw [show L.find? n = none from absent] at types
    cases types

/-- An attribute that no hidden name hides has the type that the checker knows. -/
theorem type_of_slot (regular : env.table.Regular) (agree : Agree env.self hidden L s)
    (shown : ∀ n ∈ hidden, env.table.slot? env.self n = none)
    (h : (env.typing L).typeOf? n = some T) (absent : s.find? n = none) {slot : Nat}
    {type : ClassName} (hs : env.table.slot? env.self n = some (slot, type)) :
    type.resolve env.self = T.resolve env.self := by
  have types := agree.types n
  have shown : n ∉ hidden := by
    intro hn
    rw [shown n hn] at hs
    cases hs
  rw [absent, if_neg shown] at types
  unfold Env.typeOf? at h
  split at h
  · rename_i U hU
    rw [show L.find? n = some U from hU] at types
    cases types
  · have same := ClassTable.slot?_type regular env.self n
    rw [hs] at same
    obtain ⟨⟨owner, U⟩, found, rfl⟩ := Option.map_eq_some_iff.mp h
    rw [show env.table.findAttribute? env.self n = some (owner, U) from found] at same
    cases same
    exact (ClassName.resolve_resolve _ env.self).symm

end Lookup

/-- Where every assignment on the way down is exact, and no hidden name is that of an attribute,
the types are the same. -/
theorem sameType_of_exact {env : LowerEnv} (regular : env.table.Regular)
    (notSelf : env.self ≠ .selfType) {hidden : List Bytes}
    (shown : ∀ n ∈ hidden, env.table.slot? env.self n = none) {s t : FunctionState} {e : Expr}
    {x : Lowered} (h : Lowers env s e x t) {L : Scopes ClassName} (fits : Fits env hidden ⟨L, s, e⟩)
    (exact_ : ∀ site, ReflTransGen (Child env) ⟨L, s, e⟩ site → ExactAssignment env site)
    {T : ClassName} (typed : Typed (env.typing L) e T) : x.type = T.resolve env.self := by
  have below {L L' : Scopes ClassName} {s s' : FunctionState} {e e' : Expr}
      (exact_ : ∀ site, ReflTransGen (Child env) ⟨L, s, e⟩ site → ExactAssignment env site)
      (hc : Child env ⟨L, s, e⟩ ⟨L', s', e'⟩) :
      ∀ site, ReflTransGen (Child env) ⟨L', s', e'⟩ site → ExactAssignment env site :=
    fun site hs => exact_ site (.head hc hs)
  induction h using Lowers.rec
    (motive_2 := fun s es xs _ _ => ∀ L Ts, List.Forall₂ (Typed (env.typing L)) es Ts →
      (∀ before e after ys u, es = before ++ e :: after → LowersAll env s before ys u →
        Fits env hidden ⟨L, u, e⟩ ∧
        ∀ site, ReflTransGen (Child env) ⟨L, u, e⟩ site → ExactAssignment env site) →
      List.Forall₂ (fun x T => x.type = T.resolve env.self) xs Ts)
    (motive_3 := fun _ _ _ _ _ => True) generalizing L T with
  | assignLocal hv found ih =>
    obtain ⟨_, _, U, hU, _⟩ := typed.assign
    have value := ih (fits.child .value) (below exact_ .value) hU
    exact value.trans (exact_ _ .refl rfl (.assignLocal hv found) typed hU)
  | assignAttribute hv absent hs ih =>
    obtain ⟨_, _, U, hU, _⟩ := typed.assign
    have value := ih (fits.child .value) (below exact_ .value) hU
    exact value.trans (exact_ _ .refl rfl (.assignAttribute hv absent hs) typed hU)
  | selfCall hm _ _ _ =>
    obtain ⟨_, _, hm', _, rfl⟩ := typed.selfCall
    cases hm.symm.trans hm'
    rw [Env.resolve_resultOf]
    rfl
  | call _ hm _ _ ih _ =>
    obtain ⟨U, hU, _, _, hm', _, rfl⟩ := typed.call
    have receiver := ih (fits.child .receiver) (below exact_ .receiver) hU
    rw [receiver] at hm
    cases hm.symm.trans hm'
    rw [Env.resolve_resultOf, ← receiver]
    rfl
  | staticCall _ hm _ _ ih _ =>
    obtain ⟨U, hU, _, _, _, hm', _, rfl⟩ := typed.staticCall
    have receiver := ih (fits.child .staticReceiver) (below exact_ .staticReceiver) hU
    cases hm.symm.trans hm'
    rw [Env.resolve_resultOf, ← receiver]
    rfl
  | cond ht hy _ _ ihy ihn =>
    obtain ⟨_, Y, N, hY, hN, rfl⟩ := typed.cond
    have yes := ihy (fits.child (.yes ht)) (below exact_ (.yes ht)) hY
    have no := ihn (fits.child (.no ht hy)) (below exact_ (.no ht hy)) hN
    change env.table.join _ _ env.self = ClassName.resolve (env.table.join Y N env.self) env.self
    rw [yes, no, ClassTable.join_resolve,
      ClassName.resolve_eq_self (ClassTable.join_ne_selfType regular notSelf Y N)]
  | loop _ _ _ _ =>
    obtain ⟨_, _, rfl⟩ := typed.loop
    rfl
  | block ha ih =>
    cases fits.wellFormed with | block ne hw =>
    obtain ⟨Ts, all, rfl⟩ := typed.block
    have items := ih L.push Ts all fun before e after ys u heq hb => by
      subst heq
      exact ⟨fits.child (.item hb), below exact_ (.item hb)⟩
    refine forall₂_getLast? items ?_ _ _
    rintro rfl
    cases ha
    exact ne rfl
  | letIn hb _ _ ih =>
    obtain ⟨inner, checked, hT⟩ := typed.letIn
    cases checkBindings_ok checked
    exact ih (fits.child (.body hb)) (below exact_ (.body hb)) hT
  | newInt hc | newBool hc | newObject hc =>
    obtain ⟨_, rfl⟩ := typed.new
    exact hc.symm
  | @binary _ _ _ op =>
    obtain ⟨_, _, rfl⟩ := typed.binary
    cases op <;> rfl
  | not | complement =>
    obtain ⟨_, rfl⟩ := typed.unary
    rfl
  | self isSelf =>
    rcases typed.name with ⟨_, rfl⟩ | ⟨notSelf, _⟩
    · exact (ClassName.resolve_eq_self notSelf).symm
    · rw [isSelf] at notSelf
      cases notSelf
  | «local» notSelf found =>
    rcases typed.name with ⟨isSelf, _⟩ | ⟨_, hT⟩
    · rw [notSelf] at isSelf
      cases isSelf
    · exact type_of_local fits.agree hT found
  | «attribute» notSelf absent hs =>
    rcases typed.name with ⟨isSelf, _⟩ | ⟨_, hT⟩
    · rw [notSelf] at isSelf
      cases isSelf
    · exact type_of_slot regular fits.agree shown hT absent hs
  | group _ ih => exact ih (fits.child .inner) (below exact_ .inner) typed.group
  | int =>
    cases typed.int
    rfl
  | bool =>
    cases typed.bool
    rfl
  | nil L Ts all _ =>
    cases all
    exact .nil
  | cons hx _ ih ihs L Ts all parts =>
    cases all with | cons hT all =>
    obtain ⟨fits, exact_⟩ := parts [] _ _ [] _ rfl .nil
    refine .cons (ih fits exact_ hT) (ihs L _ all fun before e after ys u heq hb => ?_)
    subst heq
    exact parts (_ :: before) e after (_ :: ys) u rfl (.cons hx hb)
  | empty | init | default => trivial

inductive LooksUp (env : LowerEnv) (L : Scopes ClassName) : Expr → Name → ClassName → Prop where
  | selfCall {method args span} : LooksUp env L (.selfCall method args span) method env.self
  | call {receiver method args span T} : Typed (env.typing L) receiver T →
      LooksUp env L (.call receiver method args span) method (T.resolve env.self)
  | staticCall {receiver type method args span} :
      LooksUp env L (.staticCall receiver type method args span) method
        (type.className.resolve env.self)

def SameMethod (env : LowerEnv) (site : Site) : Prop :=
  ∀ {method d x t}, LooksUp env site.locals site.expr method d →
    Lowers env site.state site.expr x t → ∃ owner m code dest ty regs,
      env.table.findMethod? d method.text = some (owner, m) ∧
      x.code = code ++ [.call dest ty (owner.memberName method.text) regs]

theorem sameMethod_of_sameType {env : LowerEnv} {site : Site}
    (h : ∀ child, Child env site child → SameType env child) : SameMethod env site := by
  obtain ⟨L, s, e⟩ := site
  intro method d x t looks lowers
  cases looks with
  | selfCall =>
    cases lowers with | selfCall hm _ _ =>
    exact ⟨_, _, _, _, _, _, hm, rfl⟩
  | call hT =>
    cases lowers with | call hr hm _ _ =>
    obtain ⟨U, hU, same⟩ := h _ .receiver hr
    cases hU.symm.trans hT
    exact ⟨_, _, _, _, _, _, same ▸ hm, rfl⟩
  | staticCall =>
    cases lowers with | staticCall _ hm _ _ =>
    exact ⟨_, _, _, _, _, _, hm, rfl⟩

section Program

variable (t : ClassTable) (e : Entry) (classes : List ClassDecl)

/-- Outside of the method that a program starts with, code generation gives every expression the
type that the checker does. -/
def TypesAgree : Prop :=
  ∀ c ∈ classes, ∀ site, Occurs t e c none site → SameType (c.lowerEnv t) site

/-- Outside of the method that a program starts with, every call is one of the method that the
checker found. -/
def MethodsAgree : Prop :=
  ∀ c ∈ classes, ∀ site, Occurs t e c none site → SameMethod (c.lowerEnv t) site

/-- Outside of the method that a program starts with, every assigned value has exactly the type of
its variable. -/
def AssignmentsExact : Prop :=
  ∀ c ∈ classes, ∀ site, Occurs t e c none site → ExactAssignment (c.lowerEnv t) site

end Program

theorem TypesAgree.methods {t : ClassTable} {e : Entry} {classes : List ClassDecl}
    (agree : TypesAgree t e classes) : MethodsAgree t e classes := by
  rintro c hc site ⟨root, hr, hd⟩
  exact sameMethod_of_sameType fun child hchild => agree c hc child ⟨root, hr, hd.tail hchild⟩

/-- The types of an accepted program agree if and only if all its assignments are exact, and then
its calls are those of the methods that the checker found. -/
theorem types_agree_iff {files : SourceFiles} {classes : List ClassDecl} {t : ClassTable}
    (h : Accepted files classes t) (e : Entry) :
    (TypesAgree t e classes ↔ AssignmentsExact t e classes) ∧
      (TypesAgree t e classes → MethodsAgree t e classes) := by
  refine ⟨⟨?_, ?_⟩, TypesAgree.methods⟩
  · rintro agree c hc ⟨L, s, _⟩ occurs name value span x u T U rfl lowers hT hU
    obtain ⟨root, hr, hd⟩ := occurs
    obtain ⟨T', hT', same⟩ := agree c hc _ ⟨root, hr, hd⟩ lowers
    cases hT'.symm.trans hT
    have atValue : SameType (c.lowerEnv t) ⟨L, s, value⟩ :=
      agree c hc _ ⟨root, hr, hd.tail .value⟩
    cases lowers with
    | assignLocal hv _ | assignAttribute hv _ _ =>
      obtain ⟨U', hU', sameValue⟩ := atValue hv
      cases hU'.symm.trans hU
      exact sameValue.symm.trans same
  · rintro exact_ c hc ⟨L, s, e⟩ ⟨root, hr, hd⟩ x u lowers
    have fits := h.fits hc ⟨root, hr, hd⟩
    obtain ⟨T, hT⟩ := fits.typed
    refine ⟨T, hT, sameType_of_exact h.regular (h.admits hc).notSelfType (List.forall_mem_nil _)
      lowers fits ?_ hT⟩
    exact fun site hs => exact_ c hc site ⟨root, hr, hd.trans hs⟩

/-- A program that calls a method of the value of an assignment. -/
def redirected : SourceFiles := .ofLines [
  "class Main inherits IO \x7b",
  "  out_int(i : Int) : SELF_TYPE { self };",
  "  f(x : IO) : Object { (x <- new Main).out_int(1) };",
  "  main() : Object { f(new IO) };",
  "\x7d;"]

theorem redirected_accepted :
    Accepted redirected (SourceFiles.classes redirected) (SourceFiles.table redirected) :=
  SourceFiles.accepted (by decide +kernel)

theorem types_agree_iff_redirected :
    Accepted redirected (SourceFiles.classes redirected) (SourceFiles.table redirected) ∧
    (TypesAgree (SourceFiles.table redirected) .default (SourceFiles.classes redirected) ↔
      AssignmentsExact (SourceFiles.table redirected) .default (SourceFiles.classes redirected)) :=
  ⟨redirected_accepted, (types_agree_iff redirected_accepted .default).1⟩

/-- The function that the code of a method ends in a call of, and the one that the checker found
there. -/
def Method.callees (t : ClassTable) (c : ClassDecl) (m : Method) : Option (String × String) :=
  let env := c.lowerEnv t
  match m.body, (env.bindParams m.params).run .initial with
  | .call receiver method _ _, .ok _ s =>
    match (m.body.lower env).run s, receiver.check (env.typing m.locals) with
    | .ok x _, .ok T =>
      match x.code.getLast?, t.findMethod? (T.resolve c.className) method.text with
      | some (.value _ _ _ _ [func]), some (owner, _) => some (func, owner.memberName method.text)
      | _, _ => none
    | _, _ => none
  | _, _ => none

theorem Method.not_sameMethod {t : ClassTable} {e : Entry} {c : ClassDecl} {m : Method}
    (hm : m ∈ c.methods) (notEntry : (c.lowerEnv t).isEntry e m = false) {made found : String}
    (h : m.callees t c = some (made, found)) (ne : made ≠ found) :
    ∃ site, Root t e c none site ∧ ¬ SameMethod (c.lowerEnv t) site := by
  unfold Method.callees at h
  dsimp only at h
  split at h
  · rename_i receiver method args span _ s isCall bound
    split at h
    · rename_i x _ T hx hT
      split at h
      · rename_i op dest ty regs func owner m' last hm'
        cases h
        refine ⟨_, .method hm notEntry bound, fun same => ?_⟩
        have looks : LooksUp (c.lowerEnv t) m.locals m.body method (T.resolve c.className) :=
          isCall ▸ .call hT
        obtain ⟨owner', m', code, _, _, _, found, hcode⟩ := same looks (.of_run _ hx)
        cases hm'.symm.trans found
        rw [hcode, List.getLast?_concat] at last
        cases last
        exact ne rfl
      · cases h
    · cases h
  · cases h

theorem redirected_refutes :
    Accepted redirected (SourceFiles.classes redirected) (SourceFiles.table redirected) ∧
    ¬ TypesAgree (SourceFiles.table redirected) .default (SourceFiles.classes redirected) ∧
    ¬ MethodsAgree (SourceFiles.table redirected) .default (SourceFiles.classes redirected) := by
  have calls : ∃ c ∈ SourceFiles.classes redirected, ∃ m ∈ c.methods,
      (c.lowerEnv (SourceFiles.table redirected)).isEntry .default m = false ∧
        m.callees (SourceFiles.table redirected) c = some ("Main__out_int", "IO__out_int") := by
    decide +kernel
  obtain ⟨c, hc, m, hm, notEntry, h⟩ := calls
  obtain ⟨site, root, differs⟩ := Method.not_sameMethod hm notEntry h (by decide)
  have methods : ¬ MethodsAgree (SourceFiles.table redirected) .default
      (SourceFiles.classes redirected) :=
    fun agree => differs (agree c hc site ⟨site, root, .refl⟩)
  exact ⟨redirected_accepted, fun agree => methods agree.methods, methods⟩

end Cool
