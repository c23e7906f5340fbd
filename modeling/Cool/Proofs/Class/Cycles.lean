import Cool.Proofs.Class.Ancestors

/-!
Cycles among classes. Classes that pass all other checks are refused exactly if one of them is its
own ancestor. The error then names the first of those, and tells the way from it up to itself. A
search that enters a cycle from outside finds nothing, so no class below a cycle is named.
-/
namespace Cool

open Relation (TransGen)

/-- Whether some classes are the way from one of them up to itself, each met once. -/
structure Circle (classes : List ClassDecl) (c : ClassName) (way : List ClassName) : Prop where
  head : way.head? = some c
  distinct : way.Nodup
  steps : way.IsChain (Inherits classes)
  closed : ∃ d, way.getLast? = some d ∧ Inherits classes d c

def FirstOnCycle (classes : List ClassDecl) (c : ClassDecl) : Prop :=
  ∃ before after, classes = before ++ c :: after ∧
    (∀ d ∈ before, ¬ TransGen (Inherits classes) d.className d.className) ∧
    TransGen (Inherits classes) c.className c.className

namespace ClassTable

variable {t : ClassTable} {classes : List ClassDecl} {c : ClassDecl} {a b p : ClassName}
  {way : List ClassName}

/-! ## The way up, class by class -/

theorem walk_isChain (n : Nat) (a : ClassName) :
    (t.walk n a).IsChain fun b p => t.parent? b = some p := by
  induction n generalizing a with
  | zero => exact .nil
  | succ n ih =>
    unfold walk
    cases hp : t.parent? a with
    | none => exact .singleton a
    | some p =>
      refine List.isChain_cons.mpr ⟨fun q hq => ?_, ih p⟩
      cases n with
      | zero => cases hq
      | succ n =>
        cases hq
        exact hp

theorem eq_walk_of_isChain (head : way.head? = some a)
    (steps : way.IsChain fun b p => t.parent? b = some p) :
    way = t.walk way.length a ∧ t.up^[way.length] (some a) = t.up way.getLast? := by
  induction way generalizing a with
  | nil => cases head
  | cons b way ih =>
    obtain rfl : b = a := Option.some.inj head
    obtain ⟨first, steps⟩ := List.isChain_cons.mp steps
    cases way with
    | nil =>
      refine ⟨?_, rfl⟩
      rw [List.length_singleton, walk]
      cases t.parent? b <;> rfl
    | cons p way =>
      have hp : t.parent? b = some p := first p rfl
      obtain ⟨whole, last⟩ := ih rfl steps
      constructor
      · rw [List.length_cons, walk, hp]
        exact congrArg (b :: ·) whole
      · rw [List.length_cons, Function.iterate_succ_apply, up_some, hp, last,
          List.getLast?_cons_cons]

/-! ## Searches in the table of classes that can be declared -/

theorem parent?_of_inherits (h : Declarable classes) (step : Inherits classes a p) :
    (builtin.declared classes).parent? a = some p := by
  obtain ⟨d, hd, rfl, rfl⟩ := step
  have names : ((builtin.declared classes).classes.map Prod.fst).Nodup := by
    rw [declared, List.map_append, List.map_map]
    exact declared_nodup.mpr ⟨h.distinct, fun c hc => (h.reserved c hc).1⟩
  have entry : (builtin.declared classes).get? d.className =
      some ⟨some d.parentName, d.signatures, []⟩ :=
    Outlines.lookup_of_nodup names (List.mem_append_right _ (List.mem_map_of_mem hd))
  rw [parent?, entry]
  rfl

/-- On the way from a declared class back to itself all classes are declared. -/
theorem inherits_of_up (h : Declarable classes) (hc : c ∈ classes) {n : Nat} (pos : 0 < n)
    (back : (builtin.declared classes).up^[n] (some a) = some c.className) :
    TransGen (Inherits classes) a c.className := by
  obtain ⟨k, rfl⟩ := Nat.exists_eq_add_of_le' pos
  have path : TransGen (HasParent classes) a c.className :=
    TransGen.mono (fun _ _ => hasParent_of_declared) _ _ (transGen_of_up back)
  refine transGen_inherits (fun d hd => (h.reserved d hd).1) path fun same => ?_
  exact Bool.false_ne_true ((h.reserved c hc).1.symm.trans (congrArg ClassName.isBuiltin same))

theorem cycleThrough?_eq_some_iff_circle (h : Declarable classes) (hc : c ∈ classes) :
    (builtin.declared classes).cycleThrough? c.className = some way ↔
      Circle classes c.className way := by
  rw [cycleThrough?_eq_some]
  constructor
  · rintro ⟨n, pos, back, distinct, rfl⟩
    -- Only the ends of the way are known to be declared; what leads back to `c` is so as well.
    have above {b p : ClassName} (mem : b ∈ (builtin.declared classes).walk n c.className)
        (step : (builtin.declared classes).parent? b = some p) : Inherits classes b p := by
      obtain ⟨i, hi, there⟩ := mem_walk.mp mem
      have later : (builtin.declared classes).up^[n - i] (some b) = some c.className := by
        rw [← there, ← Function.iterate_add_apply, Nat.sub_add_cancel (Nat.le_of_lt hi), back]
      obtain ⟨q, first, _⟩ := TransGen.head'_iff.mp (inherits_of_up h hc (by omega) later)
      cases step.symm.trans (parent?_of_inherits h first)
      exact first
    refine ⟨?_, distinct, (walk_isChain _ _).imp_of_mem_imp fun b p hb _ => above hb, ?_⟩
    · obtain ⟨k, rfl⟩ := Nat.exists_eq_add_of_le' pos
      rfl
    · obtain ⟨k, rfl⟩ := Nat.exists_eq_add_of_le' pos
      obtain ⟨d, hd⟩ := up_of_le back (Nat.le_succ k)
      have step := back
      rw [Function.iterate_succ_apply', hd, up_some] at step
      refine ⟨d, by rw [walk_succ_of_up hd, List.getLast?_concat], above ?_ step⟩
      exact mem_walk.mpr ⟨k, Nat.lt_succ_self k, hd⟩
  · rintro ⟨head, distinct, steps, d, last, step⟩
    have steps := steps.imp fun b p => parent?_of_inherits h
    obtain ⟨whole, back⟩ := eq_walk_of_isChain head steps
    rw [last, up_some, parent?_of_inherits h step] at back
    refine ⟨way.length, ?_, back, whole ▸ distinct, whole⟩
    exact List.length_pos_of_mem (List.mem_of_head? head)

theorem cycleThrough?_eq_none_iff (h : Declarable classes) (hc : c ∈ classes) :
    (builtin.declared classes).cycleThrough? c.className = none ↔
      ¬ TransGen (Inherits classes) c.className c.className := by
  constructor
  · intro none cycle
    have path := TransGen.mono (fun _ _ => parent?_of_inherits h) _ _ cycle
    obtain ⟨b, first, rest⟩ := TransGen.head'_iff.mp path
    obtain ⟨n, hn⟩ := up_of_reflTransGen rest
    -- The way `cycle` may meet classes twice; the search ends where it first comes back.
    have periodic :
        (builtin.declared classes).up^[n + 1] (some c.className) = some c.className := by
      rw [Function.iterate_succ_apply, up_some, first, hn]
    obtain ⟨way, found⟩ := cycleThrough?_isSome (Nat.succ_pos n) periodic
    cases none.symm.trans found
  · intro acyclic
    exact cycleThrough?_eq_none fun i hi back => acyclic (inherits_of_up h hc hi back)

/-! ## Errors -/

theorem checkAcyclic_eq_error {e : TypeError} : t.checkAcyclic c = .error e ↔
    ∃ way, t.cycleThrough? c.className = some way ∧ e = .inheritanceCycle c.name way := by
  unfold checkAcyclic
  cases t.cycleThrough? c.className with
  | none => simp
  | some way => simp [eq_comm]

theorem declare_ne_cycle {name : TypeName} :
    t.declare c ≠ .error (.inheritanceCycle name way) := by
  intro h
  rcases bind_eq_error.mp h with h | ⟨e, _, h⟩
  · obtain ⟨m, _, e, h⟩ := exists_of_foldlM_error h
    split at h <;> cases h
  · split at h
    · cases h
    · split at h <;> cases h

theorem checkParent_ne_cycle {name : TypeName} :
    t.checkParent c ≠ .error (.inheritanceCycle name way) := by
  intro h
  unfold checkParent at h
  split at h
  · cases h
  · split at h <;> cases h

theorem build_of_declarable (h : Declarable classes) : build classes =
    (classes.forM (builtin.declared classes).checkAcyclic >>= fun _ =>
      pure (builtin.declared classes)) := by
  obtain ⟨declared, parents⟩ := declarable_iff.mp h
  unfold build
  rw [declared]
  change (classes.forM (builtin.declared classes).checkParent >>= _) = _
  rw [parents]
  rfl

theorem declarable_of_cycle {name : TypeName}
    (h : build classes = .error (.inheritanceCycle name way)) : Declarable classes := by
  rcases bind_eq_error.mp h with h | ⟨u, declared, h⟩
  · obtain ⟨c, _, u, h⟩ := exists_of_foldlM_error h
    exact absurd h declare_ne_cycle
  obtain rfl := ((declareAll_eq_ok (by decide)).mp declared).2.2
  rcases bind_eq_error.mp h with h | ⟨⟨⟩, parents, _⟩
  · obtain ⟨_, c, _, _, _, h⟩ := forM_eq_error.mp h
    exact absurd h checkParent_ne_cycle
  · exact declarable_iff.mpr ⟨declared, parents⟩

/-- The search from the first class that is its own ancestor is the first to find a cycle. -/
theorem build_eq_cycle {name : TypeName} (h : Declarable classes) :
    build classes = .error (.inheritanceCycle name way) ↔
      ∃ c, FirstOnCycle classes c ∧ c.name = name ∧ Circle classes c.className way := by
  have mem {before after : List ClassDecl} {c : ClassDecl} (eq : classes = before ++ c :: after) :
      (∀ d ∈ before, d ∈ classes) ∧ c ∈ classes :=
    ⟨fun d hd => eq ▸ List.mem_append_left _ hd,
      eq ▸ List.mem_append_right _ List.mem_cons_self⟩
  rw [build_of_declarable h, bind_eq_error, forM_eq_error]
  constructor
  · rintro (⟨before, c, after, eq, passed, failed⟩ | ⟨_, _, failed⟩)
    · obtain ⟨inside, here⟩ := mem eq
      obtain ⟨way', found, same⟩ := checkAcyclic_eq_error.mp failed
      cases same
      refine ⟨c, ⟨before, after, eq, fun d hd => ?_, ?_⟩, rfl,
        (cycleThrough?_eq_some_iff_circle h here).mp found⟩
      · exact (cycleThrough?_eq_none_iff h (inside d hd)).mp (checkAcyclic_eq_ok.mp (passed d hd))
      · by_contra acyclic
        cases ((cycleThrough?_eq_none_iff h here).mpr acyclic).symm.trans found
    · cases failed
  · rintro ⟨c, ⟨before, after, eq, first, _⟩, rfl, circle⟩
    obtain ⟨inside, here⟩ := mem eq
    refine .inl ⟨before, c, after, eq, fun d hd => ?_, ?_⟩
    · exact checkAcyclic_eq_ok.mpr ((cycleThrough?_eq_none_iff h (inside d hd)).mpr (first d hd))
    · exact checkAcyclic_eq_error.mpr
        ⟨way, (cycleThrough?_eq_some_iff_circle h here).mpr circle, rfl⟩

/-- Classes that can be declared make a table, unless a cycle is found. -/
theorem declarable_iff_ok_or_cycle : Declarable classes ↔ (∃ t, build classes = .ok t) ∨
    ∃ name way, build classes = .error (.inheritanceCycle name way) := by
  constructor
  · intro h
    rw [build_of_declarable h]
    cases checked : classes.forM (builtin.declared classes).checkAcyclic with
    | ok => exact .inl ⟨_, rfl⟩
    | error e =>
      obtain ⟨_, c, _, _, _, failed⟩ := forM_eq_error.mp checked
      obtain ⟨way, _, rfl⟩ := checkAcyclic_eq_error.mp failed
      exact .inr ⟨c.name, way, rfl⟩
  · rintro (⟨t, made⟩ | ⟨name, way, failed⟩)
    · exact (build_eq_ok.mp made).1
    · exact declarable_of_cycle failed

/-- Classes that pass all other checks are refused for a cycle exactly if one of them is its own
ancestor. What is told is the first of those, with the way from it up to itself. -/
theorem build_cycle_iff (classes : List ClassDecl) :
    (Declarable classes ↔ (∃ t, build classes = .ok t) ∨
      ∃ name way, build classes = .error (.inheritanceCycle name way)) ∧
    ((∃ name way, build classes = .error (.inheritanceCycle name way)) ↔
      Declarable classes ∧ ∃ c, TransGen (Inherits classes) c c) ∧
    ∀ name way, build classes = .error (.inheritanceCycle name way) ↔ Declarable classes ∧
      ∃ c, FirstOnCycle classes c ∧ c.name = name ∧ Circle classes c.className way := by
  refine ⟨declarable_iff_ok_or_cycle, ⟨?_, ?_⟩, fun name way => ⟨fun failed => ?_, ?_⟩⟩
  · rintro ⟨name, way, failed⟩
    have declarable := declarable_of_cycle failed
    obtain ⟨c, ⟨_, _, _, _, cycle⟩, _⟩ := (build_eq_cycle declarable).mp failed
    exact ⟨declarable, _, cycle⟩
  · rintro ⟨declarable, c, cycle⟩
    rcases declarable_iff_ok_or_cycle.mp declarable with ⟨t, made⟩ | failed
    · exact absurd cycle ((build_eq_ok_hierarchical.mp made).1.acyclic c)
    · exact failed
  · exact ⟨declarable_of_cycle failed, (build_eq_cycle (declarable_of_cycle failed)).mp failed⟩
  · exact fun ⟨declarable, found⟩ => (build_eq_cycle declarable).mpr found

/-- A program with a class below a cycle in front of it. -/
def entering : SourceFiles := .ofLines [
  "class Below inherits Odd \x7b \x7d;",
  "class Even inherits Odd \x7b \x7d;",
  "class Odd inherits Even \x7b \x7d;"]

example : (match build (SourceFiles.classes entering) with
    | .error (.inheritanceCycle name way) => some (name.text, way)
    | _ => none) = some (ascii "Even", [.named (ascii "Even"), .named (ascii "Odd")]) := by
  decide +kernel

end ClassTable

end Cool
