import Cool.Proofs.Class.Entries
import Cool.Proofs.Class.Join
import Cool.Proofs.Typing.Places

/-!
The order of the arms of a case. A case has the class that its arms have in common when they are
joined from the first to the last, so its type is that of every other order but for arms that funnel
into a built-in class.
-/
namespace Cool

def Env.joinOf (env : Env) : List ClassName → ClassName
  | [] => .object
  | t :: ts => ts.foldl env.join t

structure CaseArm.Typed (env : Env) (a : CaseArm Expr) (T : ClassName) : Prop where
  known : env.table.contains (env.resolve a.type.className) = true
  body : Cool.Typed (env.push.bind a.name.text a.type.className) a.body T

theorem CaseArm.Typed.unique {env : Env} {a : CaseArm Expr} {T U : ClassName} (h : a.Typed env T)
    (h' : a.Typed env U) : T = U :=
  Except.ok.inj (h.body.symm.trans h'.body)

section Arms

variable {env : Env} {arms : List (CaseArm Expr)} {Ts : List ClassName}

theorem checkArms_eq_ok :
    checkArms env arms = .ok Ts ↔ List.Forall₂ (CaseArm.Typed env) arms Ts := by
  induction arms generalizing Ts with
  | nil =>
    constructor
    · intro h
      cases h
      exact .nil
    · intro h
      cases h
      rfl
  | cons a arms ih =>
    obtain ⟨name, type, body, span⟩ := a
    unfold checkArms
    simp only [bind_eq_ok, ih]
    constructor
    · rintro ⟨_, known, T, hT, Ts, hTs, h⟩
      cases h
      exact .cons ⟨Env.checkExists_ok known, hT⟩ hTs
    · intro h
      cases h with | cons hT hTs =>
      refine ⟨(), ?_, _, hT.body, _, hTs, rfl⟩
      exact if_pos hT.known

theorem map_resolve_types {ds : List ClassName} (types : List.Forall₂ (CaseArm.Typed env) arms Ts)
    (classes : List.Forall₂ (fun d a => ∃ T, CaseArm.Typed env a T ∧ env.resolve T = d) ds arms) :
    Ts.map env.resolve = ds := by
  induction types generalizing ds with
  | nil =>
    cases classes
    rfl
  | cons hT _ ih =>
    cases classes with | cons here rest =>
    obtain ⟨_, hU, rfl⟩ := here
    rw [hT.unique hU, List.map_cons, ih rest]

theorem typed_case_iff {scrutinee : Expr} {span : Span} {T : ClassName} :
    Typed env (.case scrutinee arms span) T ↔ arms ≠ [] ∧ (∃ S, Typed env scrutinee S) ∧
      ∃ Ts, checkArms env arms = .ok Ts ∧ T = env.joinOf Ts := by
  unfold Typed
  rw [Expr.check]
  cases arms with
  | nil => simp
  | cons a arms =>
    simp only [List.isEmpty_cons, Bool.false_eq_true, if_false, bind_eq_ok]
    constructor
    · rintro ⟨S, hS, Ts, hTs, h⟩
      cases h
      exact ⟨List.cons_ne_nil _ _, ⟨S, hS⟩, Ts, hTs, by cases Ts <;> rfl⟩
    · rintro ⟨_, ⟨S, hS⟩, Ts, hTs, rfl⟩
      exact ⟨S, hS, Ts, hTs, by cases Ts <;> rfl⟩

end Arms

section Fold

variable {env : Env}

theorem resolve_joinOf (regular : env.table.Regular) (Ts : List ClassName) :
    env.resolve (env.joinOf Ts) = env.table.commonOf (Ts.map env.resolve) := by
  cases Ts with
  | nil => rfl
  | cons T Ts =>
    change env.resolve (Ts.foldl env.join T) =
      (Ts.map env.resolve).foldl env.table.common (env.resolve T)
    induction Ts generalizing T with
    | nil => rfl
    | cons U Ts ih =>
      rw [List.foldl_cons, List.map_cons, List.foldl_cons, ih]
      congr 1
      exact ClassTable.resolve_join regular T U env.self

theorem joinOf_resolved (regular : env.table.Regular) {Ts : List ClassName}
    (several : 2 ≤ Ts.length) : env.resolve (env.joinOf Ts) = env.joinOf Ts := by
  obtain _ | ⟨T, Us⟩ := Ts
  · cases several
  obtain rfl | ⟨Us, U, rfl⟩ := List.eq_nil_or_concat Us
  · exact absurd several (Nat.not_succ_le_self 1)
  · change env.resolve ((Us.concat U).foldl env.join T) = (Us.concat U).foldl env.join T
    rw [List.concat_eq_append, List.foldl_append]
    exact ClassTable.resolve_join regular _ U env.self

theorem joinOf_perm (regular : env.table.Regular) {Ts Us : List ClassName} (perm : Us.Perm Ts)
    (same : env.table.commonOf (Us.map env.resolve) = env.table.commonOf (Ts.map env.resolve)) :
    env.joinOf Us = env.joinOf Ts := by
  by_cases several : 2 ≤ Ts.length
  · rw [← joinOf_resolved regular several, ← joinOf_resolved regular (perm.length_eq ▸ several),
      resolve_joinOf regular, resolve_joinOf regular, same]
  · obtain _ | ⟨T, _ | ⟨_, _⟩⟩ := Ts
    · rw [perm.eq_nil]
    · rw [List.perm_singleton.mp perm]
    · exact absurd (Nat.le_add_left 2 _) several

/-- A case has the same type for every order of its arms, unless their types make a funnel of three
or more. -/
theorem typed_case_perm_iff {classes : List ClassDecl} (outlines : env.table.Outlines classes)
    (regular : env.table.Regular) {scrutinee : Expr} {arms : List (CaseArm Expr)} {span : Span}
    {T : ClassName} {Ts : List ClassName} (typed : Typed env (.case scrutinee arms span) T)
    (types : checkArms env arms = .ok Ts) :
    (∀ arms', arms'.Perm arms → Typed env (.case scrutinee arms' span) T) ↔
      ¬ env.table.OrderMatters (Ts.map env.resolve) := by
  obtain ⟨some_, checked, Us, same, rfl⟩ := typed_case_iff.mp typed
  cases types.symm.trans same
  have each := checkArms_eq_ok.mp types
  rw [← outlines.commonOf_perm_iff]
  constructor
  · intro all ds perm
    have each' : List.Forall₂ (fun d a => ∃ U, CaseArm.Typed env a U ∧ env.resolve U = d)
        (Ts.map env.resolve) arms := by
      rw [List.forall₂_map_left_iff]
      exact (each.imp fun a U h => ⟨U, h, rfl⟩).flip
    obtain ⟨arms', rest, order⟩ := List.perm_comp_forall₂ perm each'
    obtain ⟨_, _, Us, types', eq⟩ := typed_case_iff.mp (all arms' order)
    have resolved := map_resolve_types (checkArms_eq_ok.mp types') rest
    rw [← resolved, ← resolve_joinOf regular, ← eq, resolve_joinOf regular]
  · intro safe arms' order
    obtain ⟨Us, rest, perm⟩ := List.perm_comp_forall₂ order each
    refine typed_case_iff.mpr ⟨fun none => some_ (none ▸ order).nil_eq.symm, checked, Us,
      checkArms_eq_ok.mpr rest, ?_⟩
    exact (joinOf_perm regular perm (safe _ (perm.map _))).symm

end Fold

/-- Joining is associative but for classes that stray, and a case has the same type for every order
of its arms but for a funnel of three or more. -/
theorem join_order_iff {classes : List ClassDecl} {t : ClassTable}
    (h : ClassTable.build classes = .ok t ∨ typecheck classes = .ok t) :
    (∀ a b c self, t.join (t.join a b self) c self = t.join a (t.join b c self) self ↔
      ¬ (t.Strays (a.resolve self) (b.resolve self) (c.resolve self) ∨
        t.Strays (c.resolve self) (b.resolve self) (a.resolve self))) ∧
    ∀ env, env.table = t → ∀ scrutinee arms span T, Typed env (.case scrutinee arms span) T →
      ∃ Ts, checkArms env arms = .ok Ts ∧
        ((∀ arms', arms'.Perm arms → Typed env (.case scrutinee arms' span) T) ↔
          ¬ t.OrderMatters (Ts.map env.resolve)) := by
  have outlines : t.Outlines classes :=
    h.elim ClassTable.outlines_of_build ClassTable.outlines_of_typecheck
  have regular : t.Regular :=
    h.elim (fun h => (ClassTable.build_ok h).1) fun h => (typecheck_ok h).1
  constructor
  · intro a b c self
    have first : t.join (t.join a b self) c self =
        t.common (t.common (a.resolve self) (b.resolve self)) (c.resolve self) := by
      rw [ClassTable.join_eq_common, ClassTable.resolve_join regular, ClassTable.join_eq_common]
    have last : t.join a (t.join b c self) self =
        t.common (a.resolve self) (t.common (b.resolve self) (c.resolve self)) := by
      rw [ClassTable.join_eq_common, ClassTable.resolve_join regular, ClassTable.join_eq_common]
    rw [first, last, outlines.common_assoc_iff]
  · rintro env rfl scrutinee arms span T typed
    obtain ⟨_, _, Ts, types, _⟩ := typed_case_iff.mp typed
    exact ⟨Ts, types, typed_case_perm_iff outlines regular typed types⟩

/-- Two classes of one family, a class that has `IO` alone in common with them, and a method that
takes its result from any of them. -/
def relatives (arms : List String) : SourceFiles := .ofLines ([
  "class Main \x7b",
  "  pick(o : Object) : IO \x7b",
  "    case o of"] ++ arms ++ ["    esac",
  "  \x7d;",
  "\x7d;",
  "class Root inherits IO \x7b \x7d;",
  "class Other inherits IO \x7b \x7d;",
  "class Left inherits Root \x7b \x7d;",
  "class Right inherits Root \x7b \x7d;"])

/-- The family comes first. -/
def gathered : SourceFiles :=
  relatives ["l : Left => l;", "r : Right => r;", "x : Other => x;"]

/-- The same arms, but the family is parted. -/
def parted : SourceFiles :=
  relatives ["r : Right => r;", "x : Other => x;", "l : Left => l;"]

theorem gathered_accepted : ∃ t, typecheck (SourceFiles.classes gathered) = .ok t :=
  ⟨_, (SourceFiles.accepted_inOrder (by decide +kernel)).typed⟩

def Expr.isCase : Expr → Bool
  | .case .. => true
  | _ => false

theorem Expr.eq_case_of_isCase {e : Expr} (h : e.isCase = true) :
    ∃ scrutinee arms span, e = .case scrutinee arms span := by
  unfold isCase at h
  split at h
  · exact ⟨_, _, _, rfl⟩
  · cases h

theorem join_order_iff_gathered : ∃ t, typecheck (SourceFiles.classes gathered) = .ok t ∧
    (∀ a b c self, t.join (t.join a b self) c self = t.join a (t.join b c self) self ↔
      ¬ (t.Strays (a.resolve self) (b.resolve self) (c.resolve self) ∨
        t.Strays (c.resolve self) (b.resolve self) (a.resolve self))) ∧
    ∃ c ∈ SourceFiles.classes gathered, ∃ m ∈ c.methods, ∃ scrutinee arms span T Ts,
      m.body = .case scrutinee arms span ∧ Typed ⟨t, c.className, m.locals⟩ m.body T ∧
      checkArms ⟨t, c.className, m.locals⟩ arms = .ok Ts ∧
      ((∀ arms', arms'.Perm arms →
          Typed ⟨t, c.className, m.locals⟩ (.case scrutinee arms' span) T) ↔
        ¬ t.OrderMatters (Ts.map (·.resolve c.className))) := by
  obtain ⟨t, typed⟩ := gathered_accepted
  have pick : ∃ c ∈ SourceFiles.classes gathered, ∃ m ∈ c.methods, m.body.isCase = true := by
    decide +kernel
  obtain ⟨c, hc, m, hm, isCase⟩ := pick
  obtain ⟨scrutinee, arms, span, body⟩ := Expr.eq_case_of_isCase isCase
  obtain ⟨T, hT, -⟩ := (((typecheck_ok typed).2 c hc).method hm).body
  obtain ⟨assoc, order⟩ := join_order_iff (.inr typed)
  obtain ⟨Ts, types, perm⟩ := order _ rfl scrutinee arms span T (body ▸ hT)
  exact ⟨t, typed, assoc, c, hc, m, hm, scrutinee, arms, span, T, Ts, body, hT, types, perm⟩

/-- The joins of the family and the other class, the family first and last. -/
def joinsOf (t : ClassTable) : ClassName × ClassName :=
  let left := .named (ascii "Left")
  let right := .named (ascii "Right")
  let other := .named (ascii "Other")
  let self := .named (ascii "Main")
  (t.join (t.join left right self) other self, t.join left (t.join right other self) self)

/-- Joining is not associative, and the type of a case depends on the order of its arms. -/
theorem parted_refutes :
    (∃ t, ClassTable.build (SourceFiles.classes gathered) = .ok t ∧
      (∀ c ∈ ["Left", "Right", "Other", "Main"], t.contains (.named (ascii c)) = true) ∧
      joinsOf t = (.io, .object)) ∧
    (∃ t, typecheck (SourceFiles.classes gathered) = .ok t) ∧
    parseFiles parted = .ok (SourceFiles.classes parted) ∧
    ¬ ∃ t, typecheck (SourceFiles.classes parted) = .ok t := by
  refine ⟨?_, gathered_accepted, ?_, ?_⟩
  · have made : ((ClassTable.build (SourceFiles.classes gathered)).toOption.any fun t =>
        (["Left", "Right", "Other", "Main"].all fun c => t.contains (.named (ascii c))) &&
          decide (joinsOf t = (.io, .object))) = true := by
      decide +kernel
    cases built : ClassTable.build (SourceFiles.classes gathered) with
    | error e =>
      rw [built] at made
      cases made
    | ok t =>
      rw [built] at made
      obtain ⟨known, joins⟩ := Bool.and_eq_true_iff.mp made
      exact ⟨t, rfl, List.all_eq_true.mp known, of_decide_eq_true joins⟩
  · have read : (parseFiles parted).toOption.isSome = true := by decide +kernel
    unfold SourceFiles.classes
    cases parsed : parseFiles parted with
    | error e =>
      rw [parsed] at read
      cases read
    | ok classes => rfl
  · rintro ⟨t, typed⟩
    obtain ⟨_, _, checked, rfl⟩ := ClassTable.typecheck_eq_ok_tableOf.mp typed
    have refused : ((SourceFiles.classes parted).forM
        (ClassDecl.check (ClassTable.tableOf (SourceFiles.classes parted)))).toOption = none := by
      decide +kernel
    rw [forM_eq_ok.mpr checked] at refused
    cases refused

end Cool
