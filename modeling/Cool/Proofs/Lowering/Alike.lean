import Cool.Proofs.Lowering.Functions
import Cool.Proofs.Typing.Alike

/-!
The order in which a program declares its classes. It does not show in whether the program is
accepted, nor in the entries of its table, nor in its functions, but for their own order.
-/
namespace Cool

def LowerEnv.over (env : LowerEnv) (u : ClassTable) : LowerEnv := { env with table := u }

namespace LowerEnv

variable {env : LowerEnv} {u : ClassTable}

theorem attributeAddress_over (h : env.table.Alike u) :
    (env.over u).attributeAddress = env.attributeAddress := by
  funext name
  unfold attributeAddress
  rw [show (env.over u).table.slot? = env.table.slot? from h.slot?]
  rfl

theorem readName_over (h : env.table.Alike u) : (env.over u).readName = env.readName := by
  funext name
  unfold readName
  rw [attributeAddress_over h]
  rfl

theorem assign_over (h : env.table.Alike u) : (env.over u).assign = env.assign := by
  funext name v
  unfold assign
  rw [attributeAddress_over h]

theorem target_over (h : env.table.Alike u) : (env.over u).target = env.target := by
  funext c receiver method
  unfold target
  rw [show (env.over u).table.findMethod? = env.table.findMethod? from h.findMethod?]

theorem newObject_over (h : env.table.Alike u) : (env.over u).newObject = env.newObject := by
  funext type span
  unfold newObject
  rw [show (env.over u).table.contains = env.table.contains from h.contains,
    show (env.over u).table.objectSize = env.table.objectSize from h.objectSize]
  rfl

theorem finishCond_over (h : env.table.Alike u) : (env.over u).finishCond = env.finishCond := by
  funext test yes no
  unfold finishCond
  rw [show (env.over u).table.join = env.table.join from h.join]
  rfl

end LowerEnv

section Expressions

variable {env : LowerEnv} {u : ClassTable}

theorem lowerArguments_over {es : List Expr} (ih : ∀ e ∈ es, e.lower (env.over u) = e.lower env) :
    lowerArguments (env.over u) es = lowerArguments env es := by
  induction es with
  | nil => rfl
  | cons e es rest =>
    rw [List.forall_mem_cons] at ih
    simp only [lowerArguments, ih.1, rest ih.2]

theorem lowerBlock_over {es : List Expr} (ih : ∀ e ∈ es, e.lower (env.over u) = e.lower env)
    (code : List Bril.Instr) (dest : String) (type : ClassName) :
    lowerBlock (env.over u) code dest type es = lowerBlock env code dest type es := by
  induction es generalizing code dest type with
  | nil => rfl
  | cons e es rest =>
    rw [List.forall_mem_cons] at ih
    simp only [lowerBlock, ih.1, rest ih.2]

theorem lowerBindings_over {bindings : List (Binding Expr)}
    (ih : ∀ b ∈ bindings, ∀ e ∈ b.init, e.lower (env.over u) = e.lower env) :
    lowerBindings (env.over u) bindings = lowerBindings env bindings := by
  induction bindings with
  | nil => rfl
  | cons b bindings rest =>
    rw [List.forall_mem_cons] at ih
    obtain ⟨name, type, init, span⟩ := b
    cases init with
    | none =>
      simp only [lowerBindings, rest ih.2]
      rfl
    | some e =>
      simp only [lowerBindings, rest ih.2, ih.1 e rfl]
      rfl

/-- An expression gets the same code with all tables alike. -/
theorem Expr.lower_over (h : env.table.Alike u) (e : Expr) :
    e.lower (env.over u) = e.lower env := by
  induction e with
  | assign name value span ih => simp only [lower, ih, LowerEnv.assign_over h]
  | selfCall method args span ih =>
    simp only [lower, LowerEnv.target_over h, lowerArguments_over ih]
    rfl
  | call receiver method args span ihr ih =>
    simp only [lower, ihr, LowerEnv.target_over h, lowerArguments_over ih]
  | staticCall receiver type method args span ihr ih =>
    simp only [lower, ihr, LowerEnv.target_over h, lowerArguments_over ih]
    rfl
  | cond test yes no span iht ihy ihn =>
    simp only [lower, iht, ihy, ihn, LowerEnv.finishCond_over h]
  | loop test body span iht ihb => simp only [lower, iht, ihb]
  | block body span ih =>
    simp only [lower, lowerBlock_over ih]
    rfl
  | letIn bindings body span ihb ih => simp only [lower, lowerBindings_over ihb, ih]
  | case scrutinee arms span => simp only [lower]
  | new type span => simp only [lower, LowerEnv.newObject_over h]
  | binary op left right span ihl ihr => simp only [lower, ihl, ihr]
  | unary op operand span ih => cases op <;> simp only [lower, ih]
  | name name => simp only [lower, LowerEnv.readName_over h]
  | group inner span ih => simp only [lower, ih]
  | int value span | string value span | bool value span => simp only [lower]

end Expressions

section Functions

variable {env : LowerEnv} {u : ClassTable}

namespace LowerEnv

theorem setAttributes_over (h : env.table.Alike u) (as : List Attribute) :
    (env.over u).setAttributes as = env.setAttributes as := by
  have initial : (env.over u).initialValue = env.initialValue := by
    funext a
    unfold initialValue
    cases a.init with
    | none => rfl
    | some e => simp only [e.lower_over h]
  induction as with
  | nil => rfl
  | cons a as ih =>
    simp only [setAttributes, ih]
    unfold setAttribute
    rw [initial, attributeAddress_over h]

theorem constructor_over (h : env.table.Alike u) (c : ClassDecl) :
    (env.over u).constructor c = env.constructor c := by
  unfold constructor
  rw [show (env.over u).table.get? = env.table.get? from h.get?]
  simp only [setAttributes_over h]
  rfl

theorem bindParams_over (ps : List Formal) : (env.over u).bindParams ps = env.bindParams ps := by
  induction ps with
  | nil => rfl
  | cons p ps ih =>
    simp only [bindParams, ih]
    rfl

theorem method_over (h : env.table.Alike u) (m : Method) :
    (env.over u).method m = env.method m := by
  unfold method
  simp only [bindParams_over, m.body.lower_over h]
  rfl

theorem entry_over (h : env.table.Alike u) (m : Method) : (env.over u).entry m = env.entry m := by
  unfold entry
  rw [show (env.over u).table.objectSize = env.table.objectSize from h.objectSize,
    m.body.lower_over h]
  rfl

end LowerEnv

theorem ClassDecl.functions_alike {t u : ClassTable} (h : t.Alike u) (e : Entry) (c : ClassDecl) :
    c.functions u e = c.functions t e := by
  have other : (⟨u, c.className⟩ : LowerEnv) = (LowerEnv.mk t c.className).over u := rfl
  have alike : (LowerEnv.mk t c.className).table.Alike u := h
  unfold ClassDecl.functions
  simp only [other, LowerEnv.constructor_over alike, LowerEnv.method_over alike,
    LowerEnv.entry_over alike]
  rfl

end Functions

section Order

open ClassTable

variable {classes classes' : List ClassDecl} {t t' : ClassTable} {e : Entry}

theorem mapM_perm {ε α β : Type} {f : α → Except ε β} {xs ys : List α} {as : List β}
    (h : xs.Perm ys) (ran : xs.mapM f = .ok as) : ∃ bs, ys.mapM f = .ok bs ∧ as.Perm bs := by
  obtain ⟨bs, rest, perm⟩ := List.perm_comp_forall₂ h.symm (mapM_eq_ok.mp ran)
  exact ⟨bs, mapM_eq_ok.mpr rest, perm.symm⟩

theorem generate_perm (h : t.Alike t') (perm : classes.Perm classes') {p : Bril.Program}
    (made : generate t e classes = .ok p) :
    ∃ p', generate t' e classes' = .ok p' ∧ p.functions.Perm p'.functions := by
  obtain ⟨fs, ran, rfl⟩ := generate_eq_ok.mp made
  have order : (t.hierarchyOrder classes).Perm (t'.hierarchyOrder classes') :=
    (List.mergeSort_perm _ _).trans (perm.trans (List.mergeSort_perm _ _).symm)
  obtain ⟨fs', ran', permuted⟩ := mapM_perm order ran
  rw [show ClassDecl.functions t e = ClassDecl.functions t' e from
    funext fun c => (c.functions_alike h e).symm] at ran'
  exact ⟨_, generate_eq_ok.mpr ⟨fs', ran', rfl⟩, permuted.flatten.append_left _⟩

theorem typecheck_alike (perm : classes.Perm classes') (h : typecheck classes = .ok t) :
    ∃ t', typecheck classes' = .ok t' ∧ t.classes.Perm t'.classes ∧ t.Alike t' := by
  obtain ⟨hierarchical, enterable, checked, rfl⟩ := typecheck_eq_ok_tableOf.mp h
  have alike := tableOf_alike perm hierarchical.toDeclarable
  refine ⟨tableOf classes', ?_, tableOf_perm perm, alike⟩
  refine typecheck_eq_ok_tableOf.mpr ⟨hierarchical.perm perm, enterable.perm perm, ?_, rfl⟩
  exact fun c hc => (c.check_alike alike).trans (checked c (perm.mem_iff.mpr hc))

/-- Programs that declare the same classes are accepted alike. Their tables hold the same entries,
and they get the same functions. -/
theorem typecheck_perm (perm : classes.Perm classes') :
    ((∃ t, typecheck classes = .ok t) ↔ ∃ t', typecheck classes' = .ok t') ∧
    ∀ t t', typecheck classes = .ok t → typecheck classes' = .ok t' →
      t.classes.Perm t'.classes ∧ (∀ c, t'.get? c = t.get? c) ∧
      ∀ e, ((∃ p, generate t e classes = .ok p) ↔ ∃ p', generate t' e classes' = .ok p') ∧
        ∀ p p', generate t e classes = .ok p → generate t' e classes' = .ok p' →
          p.functions.Perm p'.functions := by
  refine ⟨⟨fun ⟨_, h⟩ => ?_, fun ⟨_, h⟩ => ?_⟩, fun t t' h h' => ?_⟩
  · exact (typecheck_alike perm h).imp fun _ h' => h'.1
  · exact (typecheck_alike perm.symm h).imp fun _ h' => h'.1
  obtain ⟨_, same, entries, alike⟩ := typecheck_alike perm h
  cases h'.symm.trans same
  obtain ⟨_, same, _, alike'⟩ := typecheck_alike perm.symm h'
  cases h.symm.trans same
  refine ⟨entries, congrFun alike.get?, fun e => ⟨⟨fun ⟨_, made⟩ => ?_, fun ⟨_, made⟩ => ?_⟩, ?_⟩⟩
  · exact (generate_perm alike perm made).imp fun _ made' => made'.1
  · exact (generate_perm alike' perm.symm made).imp fun _ made' => made'.1
  · intro p p' made made'
    obtain ⟨_, same, functions⟩ := generate_perm alike perm made
    cases made'.symm.trans same
    exact functions

theorem extending_compiled :
    Accepted extending (SourceFiles.classes extending) (SourceFiles.tableInOrder extending) ∧
    generate (SourceFiles.tableInOrder extending) .default (SourceFiles.classes extending) =
      .ok (SourceFiles.codeInOrder extending .default) :=
  SourceFiles.compiled_inOrder (by decide +kernel)

/-- With the children in front of their parents. -/
theorem typecheck_perm_extending : ∃ t p,
    typecheck (SourceFiles.classes extending).reverse = .ok t ∧
    (SourceFiles.tableInOrder extending).classes.Perm t.classes ∧
    generate t .default (SourceFiles.classes extending).reverse = .ok p ∧
    (SourceFiles.codeInOrder extending .default).functions.Perm p.functions := by
  obtain ⟨accepted, made⟩ := extending_compiled
  obtain ⟨iff, same⟩ := typecheck_perm (SourceFiles.classes extending).reverse_perm.symm
  obtain ⟨t, ht⟩ := iff.mp ⟨_, accepted.typed⟩
  obtain ⟨entries, _, code⟩ := same _ t accepted.typed ht
  obtain ⟨p, hp⟩ := (code .default).1.mp ⟨_, made⟩
  exact ⟨t, p, ht, entries, hp, (code .default).2 _ p made hp⟩

end Order

end Cool
