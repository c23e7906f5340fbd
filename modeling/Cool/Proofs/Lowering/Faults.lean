import Cool.Proofs.Lowering.Types

/-!
Why an accepted program gets no code. Code generation fails at an expression that has no
counterpart, at a parameter of the method that the program starts with, or at a call that it looks
up from another class than the checker did.
-/
namespace Cool

open LowerEnv Lower
open Relation (ReflTransGen)

section Steps

variable {α : Type} {env : LowerEnv} {name : Name} {s u : FunctionState} {err : LoweringError}

theorem run_inScope_error {x : Lower α} (h : (inScope x).run s = .error err u) :
    ∃ t, x.run s.push = .error err t :=
  (run_within_eq_error.mp h).imp fun _ => And.left

theorem run_inBranch_error {x : Lower α} (h : (inBranch x).run s = .error err u) :
    ∃ t, x.run s.enterBranch = .error err t :=
  (run_within_eq_error.mp h).imp fun _ => And.left

theorem run_attributeAddress_error (h : (env.attributeAddress name).run s = .error err u) :
    env.table.slot? env.self name.text = none ∧ err = .unknownName name := by
  unfold attributeAddress at h
  split at h
  · rename_i absent
    cases h
    exact ⟨absent, rfl⟩
  · cases h

theorem run_assign_error {v : Lowered} (h : (env.assign name v).run s = .error err u) :
    s.find? name.text = none ∧ env.table.slot? env.self name.text = none ∧
      err = .unknownName name := by
  unfold LowerEnv.assign at h
  obtain h | ⟨_, _, read, h⟩ := run_bind_eq_error.mp h
  · cases h
  cases read
  split at h
  · cases h
  · rename_i absent
    obtain h | ⟨_, _, _, h⟩ := run_bind_eq_error.mp h
    · exact ⟨absent, run_attributeAddress_error h⟩
    · cases h

theorem run_readName_error (h : (env.readName name).run s = .error err u) :
    name.isSelf = false ∧ s.find? name.text = none ∧
      env.table.slot? env.self name.text = none ∧ err = .unknownName name := by
  unfold LowerEnv.readName at h
  split at h
  · cases h
  rename_i notSelf
  obtain h | ⟨_, _, read, h⟩ := run_bind_eq_error.mp h
  · cases h
  cases read
  split at h
  · cases h
  · rename_i absent
    obtain h | ⟨_, _, _, h⟩ := run_bind_eq_error.mp h
    · exact ⟨Bool.eq_false_iff.mpr notSelf, absent, run_attributeAddress_error h⟩
    · cases h

end Steps

inductive NoTarget (t : ClassTable) (c : ClassName) (method : Name) : LoweringError → Prop where
  | unknown : t.findMethod? c method.text = none → NoTarget t c method (.unknownMethod c method)
  | builtin {owner m} : t.findMethod? c method.text = some (owner, m) → owner.isBuiltin = true →
      hasFunction owner method.text = false →
      NoTarget t c method (.unsupported (.builtinMethod owner method.text) method.span)

theorem run_target_error {env : LowerEnv} {c receiver : ClassName} {method : Name}
    {s u : FunctionState} {err : LoweringError}
    (h : (env.target c receiver method).run s = .error err u) :
    NoTarget env.table c method err := by
  unfold target at h
  split at h
  · rename_i absent
    cases h
    exact .unknown absent
  · rename_i found
    split at h
    · rename_i builtin
      cases h
      rw [Bool.and_eq_true, Bool.not_eq_true'] at builtin
      exact .builtin found builtin.1 builtin.2
    · cases h

/-- Whether an expression gets no code although all that is made before gets some. -/
inductive FailsAt (env : LowerEnv) : Site → LoweringError → Prop where
  | assign {L s t name value span v} : Lowers env s value v t → t.find? name.text = none →
      env.table.slot? env.self name.text = none →
      FailsAt env ⟨L, s, .assign name value span⟩ (.unknownName name)
  | selfCall {L s method args span err} : NoTarget env.table env.self method err →
      FailsAt env ⟨L, s, .selfCall method args span⟩ err
  | call {L s t receiver method args span r err} : Lowers env s receiver r t →
      NoTarget env.table r.type method err →
      FailsAt env ⟨L, s, .call receiver method args span⟩ err
  | staticCall {L s t receiver type method args span r err} : Lowers env s receiver r t →
      NoTarget env.table (type.className.resolve env.self) method err →
      FailsAt env ⟨L, s, .staticCall receiver type method args span⟩ err
  | case {L s scrutinee arms span} :
      FailsAt env ⟨L, s, .case scrutinee arms span⟩ (.unsupported .case span)
  | newString {L s type span} : type.className.resolve env.self = .string →
      FailsAt env ⟨L, s, .new type span⟩ (.unsupported .stringObject span)
  | newUnknown {L s type span c} : type.className.resolve env.self = c → c ≠ .int → c ≠ .bool →
      env.table.contains c = false → FailsAt env ⟨L, s, .new type span⟩ (.unknownClass c type.span)
  | isVoid {L s operand span} :
      FailsAt env ⟨L, s, .unary .isVoid operand span⟩ (.unsupported .isVoid span)
  | name {L s name} : name.isSelf = false → s.find? name.text = none →
      env.table.slot? env.self name.text = none →
      FailsAt env ⟨L, s, .name name⟩ (.unknownName name)
  | string {L s value span} :
      FailsAt env ⟨L, s, .string value span⟩ (.unsupported .stringLiteral span)

section Parts

variable {env : LowerEnv} {s u : FunctionState} {err : LoweringError}

theorem lowerArguments_error {es : List Expr} (h : (lowerArguments env es).run s = .error err u) :
    ∃ before e after xs t v, es = before ++ e :: after ∧ LowersAll env s before xs t ∧
      (e.lower env).run t = .error err v := by
  induction es generalizing s with
  | nil => cases h
  | cons e es ih =>
    unfold lowerArguments at h
    simp only [run_bind_eq_error] at h
    obtain h | ⟨x, t, hx, h | ⟨_, _, _, h⟩⟩ := h
    · exact ⟨[], e, es, [], s, u, rfl, .nil, h⟩
    · obtain ⟨before, e', after, xs, v, w, rfl, hxs, hv⟩ := ih h
      exact ⟨e :: before, e', after, x :: xs, v, w, rfl, .cons (.of_run e hx) hxs, hv⟩
    · cases h

theorem lowerBlock_error {es : List Expr} {code : List Bril.Instr} {dest : String}
    {type : ClassName} (h : (lowerBlock env code dest type es).run s = .error err u) :
    ∃ before e after xs t v, es = before ++ e :: after ∧ LowersAll env s before xs t ∧
      (e.lower env).run t = .error err v := by
  induction es generalizing s code dest type with
  | nil => cases h
  | cons e es ih =>
    unfold lowerBlock at h
    obtain h | ⟨x, t, hx, h⟩ := run_bind_eq_error.mp h
    · exact ⟨[], e, es, [], s, u, rfl, .nil, h⟩
    · obtain ⟨before, e', after, xs, v, w, rfl, hxs, hv⟩ := ih h
      exact ⟨e :: before, e', after, x :: xs, v, w, rfl, .cons (.of_run e hx) hxs, hv⟩

theorem lowerBindings_error {bs : List (Binding Expr)}
    (h : (lowerBindings env bs).run s = .error err u) :
    ∃ before name type e span after code t v, bs = before ++ ⟨name, type, some e, span⟩ :: after ∧
      LowersBindings env s before code t ∧ (e.lower env).run t = .error err v := by
  induction bs generalizing s with
  | nil => cases h
  | cons b bs ih =>
    obtain ⟨name, type, init, span⟩ := b
    unfold lowerBindings at h
    cases init with
    | none =>
      simp only [run_bind_eq_error] at h
      obtain h | ⟨_, t, hb, h | ⟨_, _, _, h⟩⟩ := h
      · cases h
      · cases hb
        obtain ⟨before, n, c, e, sp, after, code, v, w, rfl, hcode, hv⟩ := ih h
        exact ⟨⟨name, type, none, span⟩ :: before, n, c, e, sp, after, _, v, w, rfl,
          .default hcode, hv⟩
      · cases h
    | some init =>
      simp only [run_bind_eq_error] at h
      obtain h | ⟨_, t, hx, h | ⟨_, _, hb, h | ⟨_, _, _, h⟩⟩⟩ := h
      · exact ⟨[], name, type, init, span, bs, [], s, u, rfl, .empty, h⟩
      · cases h
      · cases hb
        obtain ⟨before, n, c, e, sp, after, code, v, w, rfl, hcode, hv⟩ := ih h
        exact ⟨⟨name, type, some init, span⟩ :: before, n, c, e, sp, after, _, v, w, rfl,
          .init (.of_run init hx) hcode, hv⟩
      · cases h

end Parts

theorem failsAt_of_newObject {env : LowerEnv} {L : Scopes ClassName} {type : TypeName} {span : Span}
    {s u : FunctionState} {err : LoweringError}
    (h : (env.newObject type span).run s = .error err u) :
    FailsAt env ⟨L, s, .new type span⟩ err := by
  unfold LowerEnv.newObject at h
  split at h
  · cases h
  · cases h
  · rename_i isString
    cases h
    exact .newString isString
  · rename_i notInt notBool _
    split at h
    · rename_i unknown
      cases h
      exact .newUnknown rfl notInt notBool (by simpa using unknown)
    · cases h

/-- Code generation that fails does so at an expression that fails itself. -/
theorem exists_failsAt {env : LowerEnv} {e : Expr} {L : Scopes ClassName} {s u : FunctionState}
    {err : LoweringError} (h : (e.lower env).run s = .error err u) :
    ∃ site, ReflTransGen (Child env) ⟨L, s, e⟩ site ∧ FailsAt env site err := by
  have below {a b : Site} (hc : Child env a b)
      (hb : ∃ site, ReflTransGen (Child env) b site ∧ FailsAt env site err) :
      ∃ site, ReflTransGen (Child env) a site ∧ FailsAt env site err :=
    hb.imp fun _ h => ⟨.head hc h.1, h.2⟩
  have here {site : Site} (fails : FailsAt env site err) :
      ∃ site', ReflTransGen (Child env) site site' ∧ FailsAt env site' err :=
    ⟨site, .refl, fails⟩
  -- An expression fails in one of its parts, after those before it got code, or in its own last step.
  induction e generalizing L s u with
  | assign name value span ih =>
    unfold Expr.lower at h
    obtain h | ⟨v, t, hv, h⟩ := run_bind_eq_error.mp h
    · exact below .value (ih h)
    · obtain ⟨absent, none, rfl⟩ := run_assign_error h
      exact here (.assign (.of_run value hv) absent none)
  | selfCall method args span ih =>
    unfold Expr.lower at h
    simp only [run_bind_eq_error] at h
    obtain h | ⟨_, _, ht, h | ⟨_, _, _, h⟩⟩ := h
    · exact here (.selfCall (run_target_error h))
    · obtain ⟨_, _, _, _, _, rfl⟩ := run_target_eq_ok.mp ht
      obtain ⟨before, e, after, xs, v, w, rfl, hxs, hv⟩ := lowerArguments_error h
      exact below (.selfArgument hxs) (ih e (by simp) hv)
    · cases h
  | call receiver method args span ihr ih =>
    unfold Expr.lower at h
    simp only [run_bind_eq_error] at h
    obtain h | ⟨r, t, hr, h | ⟨_, _, ht, h | ⟨_, _, _, h⟩⟩⟩ := h
    · exact below .receiver (ihr h)
    · exact here (.call (.of_run receiver hr) (run_target_error h))
    · obtain ⟨_, _, _, _, _, rfl⟩ := run_target_eq_ok.mp ht
      obtain ⟨before, e, after, xs, v, w, rfl, hxs, hv⟩ := lowerArguments_error h
      exact below (.argument (.of_run receiver hr) hxs) (ih e (by simp) hv)
    · cases h
  | staticCall receiver type method args span ihr ih =>
    unfold Expr.lower at h
    simp only [run_bind_eq_error] at h
    obtain h | ⟨r, t, hr, h | ⟨_, _, ht, h | ⟨_, _, _, h⟩⟩⟩ := h
    · exact below .staticReceiver (ihr h)
    · exact here (.staticCall (.of_run receiver hr) (run_target_error h))
    · obtain ⟨_, _, _, _, _, rfl⟩ := run_target_eq_ok.mp ht
      obtain ⟨before, e, after, xs, v, w, rfl, hxs, hv⟩ := lowerArguments_error h
      exact below (.staticArgument (.of_run receiver hr) hxs) (ih e (by simp) hv)
    · cases h
  | cond test yes no span iht ihy ihn =>
    unfold Expr.lower at h
    simp only [run_bind_eq_error] at h
    obtain h | ⟨x, t, hx, h | ⟨y, v, hy, h | ⟨_, _, _, h⟩⟩⟩ := h
    · exact below .test (iht h)
    · obtain ⟨_, h⟩ := run_inBranch_error h
      exact below (.yes (.of_run test hx)) (ihy h)
    · obtain ⟨_, yesMade, rfl⟩ := run_inBranch_eq_ok.mp hy
      obtain ⟨_, h⟩ := run_inBranch_error h
      exact below (.no (.of_run test hx) (.of_run yes yesMade)) (ihn h)
    · cases h
  | loop test body span iht ihb =>
    unfold Expr.lower at h
    simp only [run_bind_eq_error] at h
    obtain h | ⟨_, _, hf, h | ⟨x, t, hx, h | ⟨_, _, _, h⟩⟩⟩ := h
    · cases h
    · cases hf
      obtain ⟨_, h⟩ := run_inBranch_error h
      exact below .loopTest (iht h)
    · cases hf
      obtain ⟨_, testMade, rfl⟩ := run_inBranch_eq_ok.mp hx
      obtain ⟨_, h⟩ := run_inBranch_error h
      exact below (.loopBody (.of_run test testMade)) (ihb h)
    · cases h
  | block body span ih =>
    unfold Expr.lower at h
    obtain ⟨_, h⟩ := run_inScope_error h
    obtain ⟨before, e, after, xs, v, w, rfl, hxs, hv⟩ := lowerBlock_error h
    exact below (.item hxs) (ih e (by simp) hv)
  | letIn bindings body span ihb ih =>
    unfold Expr.lower at h
    obtain ⟨_, h⟩ := run_inScope_error h
    simp only [run_bind_eq_error] at h
    obtain h | ⟨code, t, hc, h | ⟨_, _, _, h⟩⟩ := h
    · obtain ⟨before, name, type, e, sp, after, code, v, w, rfl, hcode, hv⟩ := lowerBindings_error h
      exact below (.init hcode) (ihb _ (List.mem_append_right _ List.mem_cons_self) e rfl hv)
    · exact below (.body (Lowers.of_bindings (fun _ _ e _ => .of_run e) hc)) (ih h)
    · cases h
  | case scrutinee arms span =>
    cases h
    exact here .case
  | new type span =>
    exact here (failsAt_of_newObject h)
  | binary op left right span ihl ihr =>
    unfold Expr.lower at h
    obtain h | ⟨x, t, hx, h⟩ := run_bind_eq_error.mp h
    · exact below .left (ihl h)
    obtain h | ⟨_, _, _, h⟩ := run_bind_eq_error.mp h
    · exact below (.right (.of_run left hx)) (ihr h)
    · cases h
  | unary op operand span ih =>
    unfold Expr.lower at h
    cases op with
    | isVoid =>
      cases h
      exact here .isVoid
    | not =>
      obtain h | ⟨_, _, _, h⟩ := run_bind_eq_error.mp h
      · exact below (.operand (by decide)) (ih h)
      · cases h
    | complement =>
      obtain h | ⟨_, _, _, h⟩ := run_bind_eq_error.mp h
      · exact below (.operand (by decide)) (ih h)
      · cases h
  | name name =>
    obtain ⟨notSelf, absent, none, rfl⟩ := run_readName_error h
    exact here (.name notSelf absent none)
  | group inner span ih =>
    unfold Expr.lower at h
    exact below .inner (ih h)
  | int | bool => cases h
  | string =>
    cases h
    exact here .string

section Generate

variable {env : LowerEnv} {s u : FunctionState} {err : LoweringError}

theorem bindParams_no_error {ps : List Formal} (h : (env.bindParams ps).run s = .error err u) :
    False := by
  induction ps generalizing s with
  | nil => cases h
  | cons p ps ih =>
    unfold LowerEnv.bindParams at h
    simp only [run_bind_eq_error] at h
    obtain h | ⟨_, _, _, h | ⟨_, _, _, h⟩⟩ := h
    · cases h
    · exact ih h
    · cases h

theorem parentCall_no_error {p : ClassEntry} (h : (parentCall p).run s = .error err u) : False := by
  unfold parentCall at h
  split at h
  · cases h
  split at h <;> cases h

/-- Attributes that are in the table fail by their first values alone. -/
theorem setAttributes_error {as : List Attribute}
    (known : ∀ a ∈ as, env.table.slot? env.self a.name.text ≠ none)
    (h : (env.setAttributes as).run s = .error err u) :
    ∃ before a after code t init v, as = before ++ a :: after ∧
      (env.setAttributes before).run s = .ok code t ∧ a.init = some init ∧
      (init.lower env).run t = .error err v := by
  induction as generalizing s with
  | nil => cases h
  | cons a as ih =>
    rw [List.forall_mem_cons] at known
    unfold LowerEnv.setAttributes at h
    simp only [run_bind_eq_error] at h
    obtain h | ⟨code, t, ha, h | ⟨_, _, _, h⟩⟩ := h
    · unfold LowerEnv.setAttribute at h
      obtain h | ⟨_, _, _, h⟩ := run_bind_eq_error.mp h
      · unfold LowerEnv.initialValue at h
        split at h
        · rename_i init present
          obtain h | ⟨_, _, _, h⟩ := run_bind_eq_error.mp h
          · exact ⟨[], a, as, [], s, init, u, rfl, rfl, present, h⟩
          · cases h
        · obtain h | ⟨_, _, _, h⟩ := run_bind_eq_error.mp h <;> cases h
      · split at h
        · cases h
        · obtain h | ⟨_, _, _, h⟩ := run_bind_eq_error.mp h
          · exact absurd (run_attributeAddress_error h).1 known.1
          · cases h
    · obtain ⟨before, b, after, more, v, init, w, rfl, hmore, present, hv⟩ := ih known.2 h
      refine ⟨a :: before, b, after, code ++ more, v, init, w, rfl, ?_, present, hv⟩
      exact run_setAttributes_cons_eq_ok.mpr ⟨code, t, more, ha, hmore, rfl⟩
    · cases h

end Generate

section Program

variable {files : SourceFiles} {classes : List ClassDecl} {t : ClassTable} {e : Entry}
  {err : LoweringError}

theorem Accepted.slot?_isSome (h : Accepted files classes t) {c : ClassDecl} (hc : c ∈ classes)
    {a : Attribute} (ha : a ∈ c.attributes) : t.slot? c.className a.name.text ≠ none := by
  have types := ClassTable.slot?_type h.regular c.className a.name.text
  intro absent
  rw [absent] at types
  have found := (h.admits hc).attributes a ha
  rw [← Option.isSome_map (f := Prod.snd), ← types] at found
  cases found

def FailsInRoot (t : ClassTable) (e : Entry) (c : ClassDecl) (err : LoweringError) : Prop :=
  ∃ entry root, Root t e c entry root ∧
    ∃ u, (root.expr.lower (c.lowerEnv t)).run root.state = .error err u

theorem Accepted.constructor_error (h : Accepted files classes t) {c : ClassDecl} (hc : c ∈ classes)
    {u : FunctionState} (made : ((c.lowerEnv t).constructor c).run .initial = .error err u) :
    FailsInRoot t e c err := by
  unfold LowerEnv.constructor at made
  split at made
  · rename_i absent
    have known : (t.get? c.className).isSome = true := (h.admits hc).known
    rw [show t.get? c.className = none from absent] at known
    cases known
  · rename_i p hp
    obtain made | ⟨call, v, called, made⟩ := run_bind_eq_error.mp made
    · exact (parentCall_no_error made).elim
    obtain made | ⟨_, _, _, made⟩ := run_bind_eq_error.mp made
    · have inTable : ∀ a ∈ c.attributes,
          (c.lowerEnv t).table.slot? (c.lowerEnv t).self a.name.text ≠ none :=
        fun a ha => h.slot?_isSome hc ha
      obtain ⟨before, a, after, code, w, init, u, has, hcode, present, hu⟩ :=
        setAttributes_error inTable made
      exact ⟨none, _, .attribute hp called has hcode present, u, hu⟩
    · cases made

theorem entry_error {c : ClassDecl} {m : Method} (hm : m ∈ c.methods)
    (isEntry : (c.lowerEnv t).isEntry e m = true) {u : FunctionState}
    (made : ((c.lowerEnv t).entry m).run .initial = .error err u) : FailsInRoot t e c err := by
  unfold LowerEnv.entry at made
  obtain made | ⟨_, _, started, made⟩ := run_bind_eq_error.mp made
  · cases made
  cases started
  obtain made | ⟨_, _, _, made⟩ := run_bind_eq_error.mp made
  · exact ⟨some m, _, .entry hm isEntry, u, made⟩
  · obtain made | ⟨_, _, _, made⟩ := run_bind_eq_error.mp made <;> cases made

theorem method_error {c : ClassDecl} {m : Method} (hm : m ∈ c.methods)
    (notEntry : (c.lowerEnv t).isEntry e m = false) {u : FunctionState}
    (made : ((c.lowerEnv t).method m).run .initial = .error err u) : FailsInRoot t e c err := by
  unfold LowerEnv.method at made
  obtain made | ⟨_, _, bound, made⟩ := run_bind_eq_error.mp made
  · exact (bindParams_no_error made).elim
  obtain made | ⟨_, _, _, made⟩ := run_bind_eq_error.mp made
  · exact ⟨none, _, .method hm notEntry bound, u, made⟩
  · cases made

theorem Accepted.functions_error (h : Accepted files classes t) {c : ClassDecl} (hc : c ∈ classes)
    (made : c.functions t e = .error err) : FailsInRoot t e c err := by
  rw [ClassDecl.functions_eq] at made
  obtain ⟨b, hb, made⟩ := exists_of_mapM_error made
  rcases List.mem_cons.mp hb with rfl | hb
  · obtain ⟨u, made⟩ := Lower.result_eq_error.mp made
    exact h.constructor_error hc made
  · obtain ⟨m, hm, rfl⟩ := List.mem_map.mp hb
    dsimp only [Member.function] at made
    split at made
    · rename_i isEntry
      obtain ⟨u, made⟩ := Lower.result_eq_error.mp made
      exact entry_error hm isEntry made
    · rename_i notEntry
      obtain ⟨u, made⟩ := Lower.result_eq_error.mp made
      exact method_error hm (Bool.eq_false_iff.mpr notEntry) made

/-- An accepted program without code has an expression that gets none. -/
theorem Accepted.generate_error (h : Accepted files classes t)
    (made : generate t e classes = .error err) :
    ∃ c ∈ classes, ∃ entry site, Occurs t e c entry site ∧ FailsAt (c.lowerEnv t) site err := by
  obtain ⟨c, hc, made⟩ := exists_of_mapM_error (generate_eq_error.mp made)
  have hc : c ∈ classes := List.mem_mergeSort.mp hc
  obtain ⟨entry, root, hr, u, made⟩ := h.functions_error hc made
  obtain ⟨site, hd, fails⟩ := exists_failsAt made
  exact ⟨c, hc, entry, site, ⟨root, hr, hd⟩, fails⟩

end Program

section Converse

variable {env : LowerEnv} {s t u : FunctionState}

theorem LowersAll.at {before after : List Expr} {e : Expr} {xs ys : List Lowered}
    (h : LowersAll env s (before ++ e :: after) xs t) (hb : LowersAll env s before ys u) :
    ∃ x v, Lowers env u e x v ∧ x ∈ xs := by
  induction before generalizing s xs ys with
  | nil =>
    cases hb
    cases h with | cons hx _ =>
    exact ⟨_, _, hx, List.mem_cons_self⟩
  | cons b before ih =>
    cases hb with | cons hy hys =>
    cases h with | cons hx hxs =>
    obtain ⟨rfl, rfl⟩ := hx.unique hy
    obtain ⟨x, v, hx, mem⟩ := ih hxs hys
    exact ⟨x, v, hx, List.mem_cons_of_mem _ mem⟩

theorem LowersBindings.at {before after : List (Binding Expr)} {name : Name} {type : TypeName}
    {e : Expr} {span : Span} {code code' : List Bril.Instr}
    (h : LowersBindings env s (before ++ ⟨name, type, some e, span⟩ :: after) code t)
    (hb : LowersBindings env s before code' u) :
    ∃ x v, Lowers env u e x v ∧ x.code ⊆ code := by
  induction before generalizing s code code' with
  | nil =>
    cases hb
    cases h with | init hx _ =>
    exact ⟨_, _, hx, fun i hi => by simp [hi]⟩
  | cons b before ih =>
    cases hb with
    | init hy hys =>
      cases h with | init hx hxs =>
      obtain ⟨rfl, rfl⟩ := hx.unique hy
      obtain ⟨x, v, hx, sub⟩ := ih hxs hys
      exact ⟨x, v, hx, fun i hi => List.mem_append_right _ (sub hi)⟩
    | default hys =>
      cases h with | default hxs =>
      obtain ⟨x, v, hx, sub⟩ := ih hxs hys
      exact ⟨x, v, hx, fun i hi => List.mem_append_right _ (sub hi)⟩

theorem LowersBindings.unique {bs : List (Binding Expr)} {code code' : List Bril.Instr}
    (h : LowersBindings env s bs code t) (h' : LowersBindings env s bs code' u) : t = u := by
  induction bs generalizing s code code' with
  | nil =>
    cases h
    cases h'
    rfl
  | cons b bs ih =>
    cases h with
    | init hx hxs =>
      cases h' with | init hy hys =>
      obtain ⟨rfl, rfl⟩ := hx.unique hy
      exact ih hxs hys
    | default hxs =>
      cases h' with | default hys =>
      exact ih hxs hys

theorem code_subset_called {id : Nat} {owner : ClassName} {method : Bytes} {result : ClassName}
    {operands : List Lowered} {y : Lowered} (hy : y ∈ operands) :
    y.code ⊆ (called id owner method result operands).code := fun _ hi =>
  List.mem_append_left _ (List.mem_flatMap.mpr ⟨y, hy, hi⟩)

theorem Lowers.child {a b : Site} {x : Lowered} (h : Lowers env a.state a.expr x t)
    (hc : Child env a b) : ∃ y u, Lowers env b.state b.expr y u ∧ y.code ⊆ x.code := by
  cases hc with
  | value =>
    cases h with
    | assignLocal hv | assignAttribute hv => exact ⟨_, _, hv, fun i hi => by simp [hi]⟩
  | selfArgument hb =>
    cases h with | selfCall _ _ ha =>
    obtain ⟨y, u, hy, mem⟩ := ha.at hb
    exact ⟨y, u, hy, code_subset_called (List.mem_cons_of_mem _ mem)⟩
  | receiver =>
    cases h with | call hr =>
    exact ⟨_, _, hr, code_subset_called List.mem_cons_self⟩
  | argument hr' hb =>
    cases h with | call hr _ _ ha =>
    obtain ⟨rfl, rfl⟩ := hr.unique hr'
    obtain ⟨y, u, hy, mem⟩ := ha.at hb
    exact ⟨y, u, hy, code_subset_called (List.mem_cons_of_mem _ mem)⟩
  | staticReceiver =>
    cases h with | staticCall hr =>
    exact ⟨_, _, hr, code_subset_called List.mem_cons_self⟩
  | staticArgument hr' hb =>
    cases h with | staticCall hr _ _ ha =>
    obtain ⟨rfl, rfl⟩ := hr.unique hr'
    obtain ⟨y, u, hy, mem⟩ := ha.at hb
    exact ⟨y, u, hy, code_subset_called (List.mem_cons_of_mem _ mem)⟩
  | test =>
    cases h with | cond ht =>
    exact ⟨_, _, ht, fun i hi => by simp [condCode, hi]⟩
  | yes ht' =>
    cases h with | cond ht hy =>
    obtain ⟨rfl, rfl⟩ := ht.unique ht'
    exact ⟨_, _, hy, fun i hi => by simp [condCode, hi]⟩
  | no ht' hy' =>
    cases h with | cond ht hy hn =>
    obtain ⟨rfl, rfl⟩ := ht.unique ht'
    obtain ⟨rfl, rfl⟩ := hy.unique hy'
    exact ⟨_, _, hn, fun i hi => by simp [condCode, hi]⟩
  | loopTest =>
    cases h with | loop ht =>
    exact ⟨_, _, ht, fun i hi => by simp [loopCode, hi]⟩
  | loopBody ht' =>
    cases h with | loop ht hb =>
    obtain ⟨rfl, rfl⟩ := ht.unique ht'
    exact ⟨_, _, hb, fun i hi => by simp [loopCode, hi]⟩
  | item hb =>
    cases h with | block ha =>
    obtain ⟨y, u, hy, mem⟩ := ha.at hb
    exact ⟨y, u, hy, fun i hi => List.mem_flatMap.mpr ⟨y, mem, hi⟩⟩
  | init hb =>
    cases h with | letIn hbs =>
    obtain ⟨y, u, hy, sub⟩ := hbs.at hb
    exact ⟨y, u, hy, fun i hi => List.mem_append_left _ (sub hi)⟩
  | body hb =>
    cases h with | letIn hbs hx =>
    cases hbs.unique hb
    exact ⟨_, _, hx, List.subset_append_right _ _⟩
  | left =>
    cases h with | binary hl =>
    exact ⟨_, _, hl, fun i hi => by simp [hi]⟩
  | right hl' =>
    cases h with | binary hl hr =>
    obtain ⟨rfl, rfl⟩ := hl.unique hl'
    exact ⟨_, _, hr, fun i hi => by simp [hi]⟩
  | operand =>
    cases h with
    | not hx | complement hx => exact ⟨_, _, hx, fun i hi => by simp [hi]⟩
  | inner =>
    cases h with | group hx =>
    exact ⟨_, _, hx, List.Subset.refl _⟩

theorem NoTarget.not_hasCode {t : ClassTable} {c owner : ClassName} {method : Name} {m : MethodType}
    {err : LoweringError} (none : NoTarget t c method err)
    (found : t.findMethod? c method.text = some (owner, m)) : ¬ HasCode owner method.text := by
  cases none with
  | unknown absent =>
    rw [absent] at found
    cases found
  | builtin there builtin noFunction =>
    cases there.symm.trans found
    simp [HasCode, builtin, noFunction]

theorem Lowers.not_failsAt {site : Site} {x : Lowered} {err : LoweringError}
    (h : Lowers env site.state site.expr x t) : ¬ FailsAt env site err := by
  intro fails
  cases fails with
  | assign hv absent noSlot =>
    cases h with
    | assignLocal hv' found =>
      obtain ⟨rfl, rfl⟩ := hv.unique hv'
      cases found.symm.trans absent
    | assignAttribute _ _ slot => cases slot.symm.trans noSlot
  | selfCall none =>
    cases h with | selfCall found code _ =>
    exact none.not_hasCode found code
  | call hr none =>
    cases h with | call hr' found code _ =>
    obtain ⟨rfl, rfl⟩ := hr.unique hr'
    exact none.not_hasCode found code
  | staticCall _ none =>
    cases h with | staticCall _ found code _ =>
    exact none.not_hasCode found code
  | newString isString =>
    cases h with
    | newInt isInt => cases isInt.symm.trans isString
    | newBool isBool => cases isBool.symm.trans isString
    | newObject isObject _ _ notString => exact notString (isObject.symm.trans isString)
  | newUnknown isObject notInt notBool unknown =>
    cases h with
    | newInt isInt => exact notInt (isObject.symm.trans isInt)
    | newBool isBool => exact notBool (isObject.symm.trans isBool)
    | newObject isObject' _ _ _ known =>
      cases isObject.symm.trans isObject'
      cases known.symm.trans unknown
  | name notSelf absent noSlot =>
    cases h with
    | self isSelf =>
      rw [isSelf] at notSelf
      cases notSelf
    | «local» _ found => cases found.symm.trans absent
    | «attribute» _ _ slot => cases slot.symm.trans noSlot
  | case | isVoid | string => cases h

theorem Lowers.descendant {a b : Site} {x : Lowered} (h : Lowers env a.state a.expr x t)
    (hd : ReflTransGen (Child env) a b) :
    ∃ y u, Lowers env b.state b.expr y u ∧ y.code ⊆ x.code := by
  induction hd with
  | refl => exact ⟨x, t, h, List.Subset.refl _⟩
  | tail _ hc ih =>
    obtain ⟨_, _, hb, sub⟩ := ih
    obtain ⟨z, w, hz, sub'⟩ := hb.child hc
    exact ⟨z, w, hz, List.Subset.trans sub' sub⟩

theorem setAttributes_at {before after : List Attribute} {a : Attribute}
    {code code' : List Bril.Instr} {init : Expr}
    (h : (env.setAttributes (before ++ a :: after)).run s = .ok code t)
    (hb : (env.setAttributes before).run s = .ok code' u) (present : a.init = some init) :
    ∃ x v, Lowers env u init x v ∧ x.code ⊆ code := by
  induction before generalizing s t code code' with
  | nil =>
    cases hb
    obtain ⟨_, _, _, set, _, rfl⟩ := run_setAttributes_cons_eq_ok.mp h
    cases Sets.of_run set with
    | init present' lowers =>
      cases present'.symm.trans present
      exact ⟨_, _, lowers, fun i hi => by simp [hi]⟩
    | default absent => cases absent.symm.trans present
    | none absent => cases absent.symm.trans present
  | cons b before ih =>
    obtain ⟨_, _, _, set, rest, rfl⟩ := run_setAttributes_cons_eq_ok.mp h
    obtain ⟨_, _, _, set', rest', _⟩ := run_setAttributes_cons_eq_ok.mp hb
    cases set.symm.trans set'
    obtain ⟨x, v, hx, sub⟩ := ih rest rest'
    exact ⟨x, v, hx, fun i hi => List.mem_append_right _ (sub hi)⟩

/-- The functions of a class have the code of all its bodies and first values in them. -/
theorem Root.lowers {table : ClassTable} {e : Entry} {c : ClassDecl}
    {fs : List Bril.Function} (h : c.functions table e = .ok fs) {entry : Option Method}
    {root : Site} (hr : Root table e c entry root) :
    ∃ x v, Lowers (c.lowerEnv table) root.state root.expr x v ∧ ∃ f ∈ fs, x.code ⊆ f.instrs := by
  cases hr with
  | @method m params s hm notEntry bound =>
    obtain ⟨f, hf, makes⟩ := Member.exists_makes (.method c m) hm h
    cases makes with
    | entry isEntry => cases isEntry.symm.trans notEntry
    | method _ bound' body =>
      cases bound'.symm.trans bound
      exact ⟨_, _, body, _, hf, List.subset_append_left _ _⟩
  | @entry m hm isEntry =>
    obtain ⟨f, hf, makes⟩ := Member.exists_makes (.method c m) hm h
    cases makes with
    | entry _ body => exact ⟨_, _, body, _, hf, fun i hi => by simp [hi]⟩
    | method notEntry => cases isEntry.symm.trans notEntry
  | «attribute» found called has code present =>
    obtain ⟨f, hf, makes⟩ := Member.exists_makes (.constructor c) trivial h
    cases makes with | constructor found' called' set =>
    cases found'.symm.trans found
    cases called'.symm.trans called
    rw [has] at set
    obtain ⟨x, v, hx, sub⟩ := setAttributes_at set code present
    exact ⟨x, v, hx, _, hf, fun i hi => by simp [sub hi]⟩

end Converse

/-- An accepted program gets code if and only if none of its expressions fails. -/
theorem Accepted.generate_ok_iff {files : SourceFiles} {classes : List ClassDecl} {t : ClassTable}
    (h : Accepted files classes t) (e : Entry) :
    (∃ p, generate t e classes = .ok p) ↔
      ∀ c ∈ classes, ∀ entry site err, Occurs t e c entry site →
        ¬ FailsAt (c.lowerEnv t) site err := by
  constructor
  · rintro ⟨p, made⟩ c hc entry site err ⟨root, hr, hd⟩
    obtain ⟨_, made, _⟩ := generate_eq_ok.mp made
    obtain ⟨_, _, made⟩ := exists_of_mapM_ok made c (List.mem_mergeSort.mpr hc)
    obtain ⟨_, _, lowers, _⟩ := hr.lowers made
    obtain ⟨_, _, lowers, _⟩ := lowers.descendant hd
    exact lowers.not_failsAt
  · intro sound
    cases made : generate t e classes with
    | ok p => exact ⟨p, rfl⟩
    | error err =>
      obtain ⟨c, hc, entry, site, occurs, fails⟩ := h.generate_error made
      exact absurd fails (sound c hc entry site err occurs)

end Cool
