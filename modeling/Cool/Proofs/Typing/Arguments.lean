import Cool.Proofs.Class.Hierarchy
import Cool.Proofs.Typing.Places

/-!
Whether arguments have the types that the called bodies take them to have. The checker reads
`SELF_TYPE` among the parameters of a method as the class of the call, and in the body of the method
as the class that the method is in.
-/
namespace Cool

open ClassTable (Outlines)

/-- A class conforms to another one, both with `SELF_TYPE` read already, if it descends from it. -/
theorem ClassTable.conforms_resolve_iff {t : ClassTable} {sub sup caller owner : ClassName}
    (hc : caller ≠ .selfType) : t.conforms (sub.resolve caller) (sup.resolve owner) owner = true ↔
      sup.resolve owner ∈ t.lineage (sub.resolve caller) := by
  rw [conforms_iff, ClassName.resolve_resolve,
    ClassName.resolve_eq_self (ClassName.resolve_ne_selfType hc sub)]

def CallAt (t : ClassTable) (c : ClassDecl) (place : Place) (owner : ClassName) (m : MethodType)
    (args : List Expr) : Prop :=
  ∃ method d, (c.env t place).Calls place.expr method d args ∧
    t.findMethod? d method.text = some (owner, m)

section Program

variable (t : ClassTable) (classes : List ClassDecl)

/-- The types of all arguments conform to those under which the bodies of the methods know them. -/
def ParamsAgree : Prop :=
  ∀ c ∈ classes, ∀ place, Stands c place → ∀ owner m args, CallAt t c place owner m args →
    List.Forall₂ (fun a P => ∀ T, Typed (c.env t place) a T →
      t.conforms (T.resolve c.className) (P.resolve owner) owner = true) args m.params

/-- Where a class calls a method that it does not inherit itself, the arguments for parameters of
type `SELF_TYPE` conform to the class that the method is in. -/
def StrangersFit : Prop :=
  ∀ c ∈ classes, ∀ place, Stands c place → ∀ owner m args, CallAt t c place owner m args →
    owner ∉ t.lineage c.className → ∀ a, (a, ClassName.selfType) ∈ args.zip m.params →
      ∀ T, Typed (c.env t place) a T →
        t.conforms (T.resolve c.className) (ClassName.selfType.resolve owner) owner = true

def FormalsBound : Prop :=
  ∀ c ∈ classes, ∀ m ∈ c.methods, ∀ p ∈ m.params,
    (Env.mk t c.className m.locals).typeOf? p.name.text =
      some (p.type.className.resolve c.className)

end Program

section Formals

theorem find?_foldl_bind {ps : List Formal} {L : Scopes ClassName} {n : Bytes}
    (h : n ∉ ps.map (·.name.text)) :
    (ps.foldl (fun L p => L.bind p.name.text p.type.className) L).find? n = L.find? n := by
  induction ps generalizing L with
  | nil => rfl
  | cons p ps ih =>
    rw [List.map_cons, List.mem_cons, not_or] at h
    rw [List.foldl_cons, ih h.2, Scopes.find?_bind_of_ne _ _ h.1]

theorem Method.locals_find? {m : Method} (distinct : (m.params.map (·.name.text)).Nodup)
    {p : Formal} (hp : p ∈ m.params) : m.locals.find? p.name.text = some p.type.className := by
  unfold Method.locals
  obtain ⟨before, after, heq⟩ := List.append_of_mem hp
  rw [heq, List.map_append, List.map_cons, List.nodup_append] at distinct
  rw [heq, List.foldl_append, List.foldl_cons,
    find?_foldl_bind (List.nodup_cons.mp distinct.2.1).1, Scopes.find?_bind_self]

theorem Accepted.formals_bound {files : SourceFiles} {classes : List ClassDecl} {t : ClassTable}
    (h : Accepted files classes t) : FormalsBound t classes := by
  intro c hc m hm p hp
  unfold Env.typeOf?
  rw [Method.locals_find? ((h.admits hc).method hm).distinct hp]
  rfl

end Formals

/-- Where the class of the method is one of the calling class, what is checked of the arguments is
enough. -/
theorem StrangersFit.paramsAgree {files : SourceFiles} {classes : List ClassDecl} {t : ClassTable}
    (h : Accepted files classes t) (fit : StrangersFit t classes) : ParamsAgree t classes := by
  intro c hc place stands owner m args call
  obtain ⟨method, d, calls, found⟩ := call
  obtain ⟨U, hU⟩ := h.typed_at hc stands
  obtain ⟨owner', m', found', fitting⟩ := hU.calls calls
  obtain ⟨rfl, rfl⟩ := Prod.mk.inj (Option.some.inj (found'.symm.trans found))
  refine List.forall₂_iff_zip.mpr ⟨fitting.length_eq, fun {a P} ha T hT => ?_⟩
  obtain ⟨T', hT', conforms⟩ := List.forall₂_zip fitting ha
  cases hT'.symm.trans hT
  have conforms : P.resolve c.className ∈ t.lineage (T.resolve c.className) :=
    ClassTable.conforms_iff.mp conforms
  rw [ClassTable.conforms_resolve_iff (h.admits hc).notSelfType]
  cases P with
  | builtin _ | named _ => exact conforms
  | selfType =>
    by_cases inherits : owner' ∈ t.lineage c.className
    · exact h.outlines.lineage_trans conforms inherits
    · have fits := fit c hc place stands _ _ args ⟨method, d, calls, found⟩ inherits a ha T hT
      exact (ClassTable.conforms_resolve_iff (h.admits hc).notSelfType).mp fits

/-- The types of arguments and parameters agree if and only if those of `SELF_TYPE` do in calls of
methods that the calling class does not inherit. -/
theorem params_agree_iff {files : SourceFiles} {classes : List ClassDecl} {t : ClassTable}
    (h : Accepted files classes t) :
    (ParamsAgree t classes ↔ StrangersFit t classes) ∧ FormalsBound t classes := by
  refine ⟨⟨?_, StrangersFit.paramsAgree h⟩, h.formals_bound⟩
  intro agree c hc place stands owner m args call _ a ha T hT
  exact List.forall₂_zip (agree c hc place stands owner m args call) ha T hT

/-- A program that hands itself over where the class of the method is expected. -/
def misread : SourceFiles := .ofLines [
  "class A \x7b",
  "  x : Int;",
  "  f(o : SELF_TYPE) : Int { o.get() };",
  "  get() : Int { x };",
  "\x7d;",
  "class Main \x7b",
  "  main() : Int { (new A).f(self) };",
  "\x7d;"]

theorem misread_accepted :
    Accepted misread (SourceFiles.classes misread) (SourceFiles.tableInOrder misread) :=
  SourceFiles.accepted_inOrder (by decide +kernel)

theorem params_agree_iff_misread :
    Accepted misread (SourceFiles.classes misread) (SourceFiles.tableInOrder misread) ∧
    (ParamsAgree (SourceFiles.tableInOrder misread) (SourceFiles.classes misread) ↔
      StrangersFit (SourceFiles.tableInOrder misread) (SourceFiles.classes misread)) :=
  ⟨misread_accepted, (params_agree_iff misread_accepted).1⟩

/-- The type of the one argument of the call that is the body of a method, with the type of the
parameter and the class of the method called. -/
def Method.handed (t : ClassTable) (c : ClassDecl) (m : Method) :
    Option (ClassName × ClassName × ClassName) :=
  let env := c.env t ⟨m.locals, m.body⟩
  match m.body with
  | .call receiver method [arg] _ =>
    match receiver.check env, arg.check env with
    | .ok R, .ok T => match t.findMethod? (R.resolve c.className) method.text with
      | some (owner, ⟨[P], _⟩) => some (T, P, owner)
      | _ => none
    | _, _ => none
  | _ => none

theorem Method.not_paramsAgree {t : ClassTable} {classes : List ClassDecl} {c : ClassDecl}
    {m : Method} (hc : c ∈ classes) (hm : m ∈ c.methods) {T P owner : ClassName}
    (h : m.handed t c = some (T, P, owner))
    (apart : t.conforms (T.resolve c.className) (P.resolve owner) owner = false) :
    ¬ ParamsAgree t classes := by
  intro agree
  have stands : Stands c ⟨m.locals, m.body⟩ := .method hm
  unfold Method.handed at h
  dsimp only at h
  split at h
  · rename_i receiver method arg span isCall
    split at h
    · rename_i R U hR hU
      split at h
      · rename_i _ Q result found
        cases h
        have call : CallAt t c ⟨m.locals, m.body⟩ owner ⟨[P], result⟩ [arg] :=
          ⟨method, R.resolve c.className, isCall ▸ .call hR, found⟩
        cases agree c hc _ stands owner _ _ call with | cons fits _ =>
        exact Bool.false_ne_true (apart.symm.trans (fits T hU))
      · cases h
    · cases h
  · cases h

theorem misread_refutes :
    Accepted misread (SourceFiles.classes misread) (SourceFiles.tableInOrder misread) ∧
    ¬ ParamsAgree (SourceFiles.tableInOrder misread) (SourceFiles.classes misread) := by
  have handed : ∃ c ∈ SourceFiles.classes misread, ∃ m ∈ c.methods,
      m.handed (SourceFiles.tableInOrder misread) c =
        some (.named (ascii "Main"), .selfType, .named (ascii "A")) ∧
      (SourceFiles.tableInOrder misread).conforms
        (ClassName.resolve (.named (ascii "Main")) c.className)
        (ClassName.resolve .selfType (.named (ascii "A"))) (.named (ascii "A")) = false := by
    decide +kernel
  obtain ⟨c, hc, m, hm, h, apart⟩ := handed
  exact ⟨misread_accepted, Method.not_paramsAgree hc hm h apart⟩

end Cool
