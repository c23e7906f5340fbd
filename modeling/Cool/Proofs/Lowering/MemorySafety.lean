import Cool.Proofs.Lowering.FunctionTypes

/-!
Which programs stay within their memory. The checker takes care of that where code generation takes
the program as the checker does. A program whose text has a simple form is taken alike by both.
-/
namespace Cool

open LowerEnv
open Relation (ReflTransGen)

section Plain

def Expr.isSteady (e : Expr) : Bool :=
  e.subterms.all fun
    | .assign _ _ _ => false
    | _ => true

def Expr.hasSteadyReceiver : Expr → Bool
  | .call receiver _ _ _ => receiver.isSteady
  | _ => true

/-- Whether a method has the object at hand as its value: it is `self`, or a block that ends with
it. -/
def Method.returnsSelf (m : Method) : Bool :=
  match m.body with
  | .name n => n.isSelf
  | .block body _ => match body.getLast? with
    | some (.name n) => n.isSelf
    | _ => false
  | _ => false

/-- A simple form of methods: `SELF_TYPE` is the type of no parameter, and as that of the result it
stands for `self`. The name does not look like that of a function, and where the program starts with
the method, there is nothing to pass. -/
structure Method.Plain (e : Entry) (c : ClassDecl) (m : Method) : Prop where
  params : .selfType ∉ m.type.params
  result : m.result.className = .selfType → m.returnsSelf = true
  label : m.name.text ≠ ascii "constructor" ∧ ¬ separator <:+: m.name.text
  entry : (Member.method c m).IsEntry e → m.params = []

/-- A simple form of classes: no receiver assigns, and no attribute has the type `SELF_TYPE`. -/
structure ClassDecl.Plain (t : ClassTable) (e : Entry) (c : ClassDecl) : Prop where
  receivers : ∀ x ∈ c.subterms, x.hasSteadyReceiver = true
  attributes : .selfType ∉ (t.allAttributes c.className).map Prod.snd
  methods : ∀ m ∈ c.methods, m.Plain e c

instance (e : Entry) (c : ClassDecl) (m : Method) : Decidable (m.Plain e c) :=
  decidable_of_iff (.selfType ∉ m.type.params ∧
      (m.result.className = .selfType → m.returnsSelf = true) ∧
      (m.name.text ≠ ascii "constructor" ∧ ¬ separator <:+: m.name.text) ∧
      ((Member.method c m).IsEntry e → m.params = []))
    ⟨fun ⟨a, b, c, d⟩ => ⟨a, b, c, d⟩, fun ⟨a, b, c, d⟩ => ⟨a, b, c, d⟩⟩

instance (t : ClassTable) (e : Entry) (c : ClassDecl) : Decidable (c.Plain t e) :=
  decidable_of_iff ((∀ x ∈ c.subterms, x.hasSteadyReceiver = true) ∧
      .selfType ∉ (t.allAttributes c.className).map Prod.snd ∧ ∀ m ∈ c.methods, m.Plain e c)
    ⟨fun ⟨a, b, c⟩ => ⟨a, b, c⟩, fun ⟨a, b, c⟩ => ⟨a, b, c⟩⟩

def Plain (t : ClassTable) (e : Entry) (classes : List ClassDecl) : Prop :=
  ∀ c ∈ classes, c.Plain t e

instance (t : ClassTable) (e : Entry) (classes : List ClassDecl) : Decidable (Plain t e classes) :=
  inferInstanceAs (Decidable (∀ c ∈ classes, c.Plain t e))

variable {files : SourceFiles} {classes : List ClassDecl} {t : ClassTable} {e : Entry}

theorem Method.yieldsSelf_of_returnsSelf {c : ClassName} {m : Method} (h : m.returnsSelf = true) :
    YieldsSelf t c m.body := by
  unfold Method.returnsSelf at h
  cases body : m.body with
  | name n =>
    rw [body] at h
    exact .self h
  | block es span =>
    rw [body] at h
    dsimp only at h
    split at h
    · rename_i n last
      obtain ⟨before, rfl⟩ := List.getLast?_eq_some_iff.mp last
      exact .block (.self h)
    · cases h
  | _ =>
    rw [body] at h
    cases h

theorem Plain.entryShown (plain : Plain t e classes) : EntryShown t e classes := by
  intro c hc m hm isEntry n hn
  rw [((plain c hc).methods m hm).entry (Member.isEntry_iff.mp isEntry)] at hn
  cases hn

/-- Where receivers do not assign, a method is looked up from the class that the checker found. -/
theorem Plain.callsAgree (h : Accepted files classes t) (plain : Plain t e classes) :
    CallsAgree t e classes := by
  rintro c hc entry ⟨L, s, _⟩ occurs ⟨receiver, _, _, _, T, r, u, rfl, typed, lowers, apart⟩
  have steady := (plain c hc).receivers _ (occurs.stands.subterms (Expr.mem_subterms_self _))
  unfold Expr.hasSteadyReceiver Expr.isSteady at steady
  rw [List.all_eq_true] at steady
  obtain ⟨root, hr, hd⟩ := occurs
  have fits := (h.fits hc ⟨root, hr, hd⟩).child .receiver
  have same := sameType_of_exact h.regular (h.admits hc).notSelfType
    (plain.entryShown.hidden hc hr) lowers fits ?_ typed
  · exact apart (by rw [same])
  -- No site within the receiver is an assignment.
  intro site hs _ _ _ _ _ _ _ assigns _ _ _
  have part := steady _ (subterms_of_descendant hs (Expr.mem_subterms_self _))
  rw [assigns] at part
  cases part

theorem Plain.not_selfType (h : Accepted files classes t) (plain : Plain t e classes)
    {d owner : ClassName} {name : Bytes} {m : MethodType}
    (found : t.findMethod? d name = some (owner, m)) : .selfType ∉ m.params := by
  have builtin : ∀ p ∈ ClassTable.builtin.outlines, ∀ q ∈ p.2.2, .selfType ∉ q.2.params := by decide
  rcases (h.outlines.findMethod?_eq_some found).2 with
    ⟨o, outline, there⟩ | ⟨c, hc, _, k, hk, _, rfl⟩
  · rw [ClassTable.outline?_eq_lookup] at outline
    obtain ⟨before, after, heq, _⟩ := List.lookup_eq_some_iff.mp outline
    obtain ⟨before', after', heq', _⟩ := List.lookup_eq_some_iff.mp there
    exact builtin (owner, o) (heq ▸ List.mem_append_right before List.mem_cons_self) (name, m)
      (heq' ▸ List.mem_append_right before' List.mem_cons_self)
  · exact ((plain c hc).methods k hk).params

/-- A program of the simple form is taken alike by the checker and by code generation. -/
theorem Plain.coherent (h : Accepted files classes t) (plain : Plain t e classes) :
    Coherent t e classes where
  calls := plain.callsAgree h
  params := StrangersFit.paramsAgree h fun _ _ _ _ _ _ _ call _ _ ha => by
    obtain ⟨_, _, _, found⟩ := call
    exact absurd (List.of_mem_zip ha).2 (plain.not_selfType h found)
  selfTypes :=
    { attributes := fun c hc mem => absurd mem (plain c hc).attributes
      results := fun c hc m hm isSelf =>
        .inl (Method.yieldsSelf_of_returnsSelf (((plain c hc).methods m hm).result isSelf)) }
  names := by
    rintro (⟨hc, hm, _, same⟩ | ⟨hc, hm, _, _, _, _, _, nested⟩)
    · exact ((plain _ hc).methods _ hm).label.1 same
    · exact ((plain _ hc).methods _ hm).label.2 ⟨_, _, nested.symm⟩
  shown := plain.entryShown

end Plain

section Program

variable {files : SourceFiles} {classes : List ClassDecl} {t : ClassTable} {e : Entry}
  {p : Bril.Program}

/-- A generated program never reads or writes memory where no object is, where the checker and code
generation take it alike; and they do where it has a simple form. -/
theorem memory_safe (h : Accepted files classes t) (made : generate t e classes = .ok p) :
    (Coherent t e classes → p.Safe) ∧ (Plain t e classes → Coherent t e classes) :=
  ⟨fun coherent => (coherent.program h made).safe, fun plain => plain.coherent h⟩

end Program

def counters : SourceFiles := .ofLines [
  "class Counter \x7b",
  "  count : Int;",
  "  bump() : SELF_TYPE \x7b \x7b count <- count + 1; self; \x7d \x7d;",
  "\x7d;",
  "class Main \x7b",
  "  last : Counter;",
  "  main() : Object \x7b \x7b last <- new Stepper; last.bump().bump(); \x7d \x7d;",
  "\x7d;",
  "class Stepper inherits Counter \x7b",
  "  step : Int <- 2;",
  "  bump() : SELF_TYPE \x7b \x7b count <- count + step; self; \x7d \x7d;",
  "\x7d;"]

theorem counters_computed : SourceFiles.CompiledInOrder counters .default ∧
    Plain (SourceFiles.tableInOrder counters) .default (SourceFiles.classes counters) := by
  decide +kernel

theorem memory_safe_counters :
    generate (SourceFiles.tableInOrder counters) .default (SourceFiles.classes counters) =
      .ok (SourceFiles.codeInOrder counters .default) ∧
    Plain (SourceFiles.tableInOrder counters) .default (SourceFiles.classes counters) ∧
    (SourceFiles.codeInOrder counters .default).Safe :=
  have compiled := SourceFiles.compiled_inOrder counters_computed.1
  have safe := memory_safe compiled.1 compiled.2
  ⟨compiled.2, counters_computed.2, safe.1 (safe.2 counters_computed.2)⟩

/-- A program whose call is looked up from the class of an assigned value, where the method takes
objects with more attributes than those that are passed. -/
def overreaching : SourceFiles := .ofLines [
  "class A \x7b",
  "  f(x : A) : Int \x7b 0 \x7d;",
  "\x7d;",
  "class Main \x7b",
  "  g(a : A) : Int \x7b (a <- new B).f(new A) \x7d;",
  "  main() : Int \x7b g(new A) \x7d;",
  "\x7d;",
  "class B inherits A \x7b",
  "  y : Int;",
  "  z : Int;",
  "  f(x : B) : Int \x7b x.get() \x7d;",
  "  get() : Int \x7b z \x7d;",
  "\x7d;"]

theorem overreaching_compiled :
    Accepted overreaching (SourceFiles.classes overreaching)
      (SourceFiles.tableInOrder overreaching) ∧
    generate (SourceFiles.tableInOrder overreaching) .default (SourceFiles.classes overreaching) =
      .ok (SourceFiles.codeInOrder overreaching .default) :=
  SourceFiles.compiled_inOrder (by decide +kernel)

theorem overreaching_refutes :
    Accepted overreaching (SourceFiles.classes overreaching)
      (SourceFiles.tableInOrder overreaching) ∧
    generate (SourceFiles.tableInOrder overreaching) .default (SourceFiles.classes overreaching) =
      .ok (SourceFiles.codeInOrder overreaching .default) ∧
    ¬ (SourceFiles.codeInOrder overreaching .default).Safe :=
  ⟨overreaching_compiled.1, overreaching_compiled.2,
    Bril.Program.not_safe_of_leaves (A := .exact) (n := 40) (by decide +kernel)⟩

end Cool
