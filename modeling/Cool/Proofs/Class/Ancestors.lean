import Cool.Proofs.Class.Hierarchy
import Mathlib.Logic.Relation

/-!
The ancestors of a class. Classes make a table exactly if they can stand below the built-in ones,
and then the lineage of each is its whole way up to `Object`.
-/
namespace Cool

open Relation (TransGen ReflTransGen)

def Inherits (classes : List ClassDecl) (c p : ClassName) : Prop :=
  ∃ d ∈ classes, d.className = c ∧ d.parentName = p

structure Hierarchical (classes : List ClassDecl) : Prop extends Declarable classes where
  acyclic : ∀ c, ¬ TransGen (Inherits classes) c c

def HasParent (classes : List ClassDecl) (c p : ClassName) : Prop :=
  Inherits classes c p ∨ c.isBuiltin = true ∧ c ≠ .object ∧ p = .object

namespace ClassTable

/-- Whether the lineage of a class is its whole way up to `Object`. -/
structure Climbs (t : ClassTable) (classes : List ClassDecl) (c : ClassName) : Prop where
  head : (t.lineage c).head? = some c
  steps : (t.lineage c).IsChain (HasParent classes)
  ancestors : ∀ d, d ∈ t.lineage c ↔ ReflTransGen (HasParent classes) c d
  distinct : (t.lineage c).Nodup
  last : (t.lineage c).getLast? = some .object
  /-- No bound above that of the lineage would list more. -/
  whole : ∀ n, max t.size 1 ≤ n → t.walk n c = t.lineage c

variable {t : ClassTable} {classes : List ClassDecl} {c d p : ClassName}

section Up

theorem transGen_of_up {n : Nat} (h : t.up^[n + 1] (some c) = some d) :
    TransGen (fun a b => t.parent? a = some b) c d := by
  induction n generalizing d with
  | zero => exact .single h
  | succ n ih =>
    rw [Function.iterate_succ_apply'] at h
    obtain ⟨b, hb, h⟩ := Option.bind_eq_some_iff.mp h
    exact .tail (ih hb) h

theorem up_of_reflTransGen (h : ReflTransGen (fun a b => t.parent? a = some b) c d) :
    ∃ n, t.up^[n] (some c) = some d := by
  induction h with
  | refl => exact ⟨0, rfl⟩
  | tail _ step ih =>
    obtain ⟨n, hn⟩ := ih
    exact ⟨n + 1, by rw [Function.iterate_succ_apply', hn, up_some, step]⟩

end Up

namespace Outlines

theorem mem_lineage_iff (h : t.Outlines classes) :
    d ∈ t.lineage c ↔ ReflTransGen (fun a b => t.parent? a = some b) c d := by
  unfold lineage
  rw [mem_walk]
  constructor
  · rintro ⟨i, _, hi⟩
    cases i with
    | zero =>
      cases hi
      exact .refl
    | succ i => exact (transGen_of_up hi).to_reflTransGen
  · intro above
    obtain ⟨n, hn⟩ := up_of_reflTransGen above
    refine ⟨n, Nat.lt_of_not_le fun late => ?_, hn⟩
    rw [up_iterate_of_le (h.up_ends c) late] at hn
    cases hn

theorem not_above_self (h : t.Outlines classes) :
    ¬ TransGen (fun a b => t.parent? a = some b) c c := by
  intro cycle
  obtain ⟨p, step, back⟩ := TransGen.head'_iff.mp cycle
  have shorter := (h.lineage_suffix (h.mem_lineage_iff.mpr back)).length_le
  rw [h.lineage_eq c, step] at shorter
  exact Nat.not_succ_le_self _ shorter

theorem hasParent_iff (h : t.Outlines classes) :
    t.parent? c = some p ↔ HasParent classes c p := by
  constructor
  · intro step
    rcases h.builtin_or_declared (contains_of_parent? step) with ⟨b, rfl⟩ | ⟨d, hd, rfl⟩
    · rw [h.parent?_builtin] at step
      split at step
      · cases step
      · rename_i notObject
        cases step
        exact .inr ⟨rfl, fun same => notObject (ClassName.builtin.inj same), rfl⟩
    · rw [h.parent?_of_mem hd] at step
      exact .inl ⟨d, hd, rfl, Option.some.inj step⟩
  · rintro (⟨d, hd, rfl, rfl⟩ | ⟨isBuiltin, notObject, rfl⟩)
    · exact h.parent?_of_mem hd
    · cases c with
      | builtin b =>
        rw [h.parent?_builtin, if_neg fun same => notObject (congrArg ClassName.builtin same)]
      | named _ | selfType => cases isBuiltin

theorem parent?_isSome (h : t.Outlines classes) (known : t.contains c = true)
    (notObject : c ≠ .object) : ∃ p, t.parent? c = some p := by
  rcases h.builtin_or_declared known with ⟨b, rfl⟩ | ⟨d, hd, rfl⟩
  · exact ⟨_, h.hasParent_iff.mpr (.inr ⟨rfl, notObject, rfl⟩)⟩
  · exact ⟨_, h.parent?_of_mem hd⟩

theorem climbs (h : t.Outlines classes) (known : t.contains c = true) : t.Climbs classes c := by
  have steps : HasParent classes = fun a b => t.parent? a = some b := by
    funext a b
    exact propext h.hasParent_iff.symm
  have ancestors (c : ClassName) : ∀ d, d ∈ t.lineage c ↔ ReflTransGen (HasParent classes) c d := by
    rw [steps]
    exact fun d => h.mem_lineage_iff
  have whole (c : ClassName) : ∀ n, max t.size 1 ≤ n → t.walk n c = t.lineage c := fun n =>
    walk_of_le (h.up_ends c)
  induction hn : (t.lineage c).length using Nat.strong_induction_on generalizing c with
  | _ n ih =>
    by_cases isObject : c = .object
    · subst isObject
      have alone : t.lineage .object = [.object] := by
        rw [h.lineage_eq, show t.parent? .object = none from h.parent?_builtin .object]
        rfl
      refine ⟨?_, ?_, ancestors _, ?_, ?_, whole _⟩ <;> simp [alone]
    · obtain ⟨p, hp⟩ := h.parent?_isSome known isObject
      have above : t.lineage c = c :: t.lineage p := by
        rw [h.lineage_eq c, hp]
        rfl
      have shorter : (t.lineage p).length < n := by
        rw [← hn, above]
        exact Nat.lt_succ_self _
      have up := ih _ shorter (h.contains_parent hp) rfl
      refine ⟨by rw [above]; rfl, ?_, ancestors c, ?_, ?_, whole c⟩
      · rw [above, List.isChain_cons]
        refine ⟨fun q hq => ?_, up.steps⟩
        cases up.head.symm.trans hq
        exact h.hasParent_iff.mp hp
      · rw [above, List.nodup_cons]
        refine ⟨fun mem => h.not_above_self (c := c) ?_, up.distinct⟩
        exact .head' hp (h.mem_lineage_iff.mp mem)
      · rw [above, List.getLast?_cons, up.last]
        rfl

end Outlines

section Cycles

theorem cycleThrough?_eq_none (h : ∀ i > 0, t.up^[i] (some c) ≠ some c) :
    t.cycleThrough? c = none := by
  cases found : t.cycleThrough? c with
  | none => rfl
  | some cycle =>
    obtain ⟨i, hi, back, _⟩ := cycleThrough?_eq_some.mp found
    exact absurd back (h i hi)

theorem hasParent_of_declared (h : (builtin.declared classes).parent? c = some p) :
    HasParent classes c p := by
  obtain ⟨e, he, parent⟩ := Option.bind_eq_some_iff.mp h
  have fixed : ∀ q ∈ builtin.classes, ∀ p ∈ q.2.parent,
      q.1.isBuiltin = true ∧ q.1 ≠ .object ∧ p = .object := by
    decide
  rcases List.mem_append.mp (mem_of_get? he) with mem | mem
  · exact .inr (fixed _ mem p parent)
  · obtain ⟨d, hd, same⟩ := List.mem_map.mp mem
    cases same
    exact .inl ⟨d, hd, rfl, Option.some.inj parent⟩

/-- The way up to another class than `Object` stays among declared classes. -/
theorem transGen_inherits (reserved : ∀ c ∈ classes, c.className.isBuiltin = false)
    (h : TransGen (HasParent classes) c d) (notObject : d ≠ .object) :
    TransGen (Inherits classes) c d := by
  induction h with
  | single step =>
    rcases step with step | ⟨_, _, isObject⟩
    · exact .single step
    · exact absurd isObject notObject
  | tail _ step ih =>
    rcases step with ⟨e, he, rfl, rfl⟩ | ⟨_, _, isObject⟩
    · refine .tail (ih fun same => ?_) ⟨e, he, rfl, rfl⟩
      exact Bool.false_ne_true ((reserved e he).symm.trans (congrArg ClassName.isBuiltin same))
    · exact absurd isObject notObject

theorem build_eq_ok_hierarchical :
    build classes = .ok t ↔ Hierarchical classes ∧ t = builtin.declared classes := by
  constructor
  · intro made
    have outlines := outlines_of_build made
    obtain ⟨declarable, _, rfl⟩ := build_eq_ok.mp made
    refine ⟨⟨declarable, fun c cycle => outlines.not_above_self (c := c) ?_⟩, rfl⟩
    exact TransGen.mono (fun _ _ step => outlines.hasParent_iff.mpr (.inl step)) _ _ cycle
  · rintro ⟨⟨declarable, acyclic⟩, rfl⟩
    have notBuiltin : ∀ c ∈ classes, c.className.isBuiltin = false :=
      fun c hc => (declarable.reserved c hc).1
    refine build_eq_ok.mpr ⟨declarable, fun c hc => cycleThrough?_eq_none fun i hi back => ?_, rfl⟩
    -- A way that comes back to a declared class does not pass `Object`, so all on it is declared.
    obtain ⟨k, rfl⟩ := Nat.exists_eq_add_of_le' hi
    have cycle : TransGen (HasParent classes) c.className c.className :=
      TransGen.mono (fun _ _ => hasParent_of_declared) _ _ (transGen_of_up back)
    refine acyclic c.className (transGen_inherits notBuiltin cycle fun same => ?_)
    exact Bool.false_ne_true ((notBuiltin c hc).symm.trans (congrArg ClassName.isBuiltin same))

/-- The classes that make a table are those that can stand below the built-in ones, and then the
table lists the whole way up from each class. -/
theorem build_iff_hierarchical (classes : List ClassDecl) :
    ((∃ t, build classes = .ok t) ↔ Hierarchical classes) ∧
    ∀ t, build classes = .ok t → (∀ c, t.contains c = true ↔ IsClass classes c) ∧
      ∀ c, t.contains c = true → t.Climbs classes c := by
  refine ⟨⟨fun ⟨_, made⟩ => (build_eq_ok_hierarchical.mp made).1,
    fun h => ⟨_, build_eq_ok_hierarchical.mpr ⟨h, rfl⟩⟩⟩, fun t made => ⟨fun c => ?_, fun c => ?_⟩⟩
  · rw [(build_eq_ok_hierarchical.mp made).2]
    exact contains_declared
  · exact (outlines_of_build made).climbs

/-- A program in which a class stands before its parent. -/
def descending : SourceFiles := .ofLines [
  "class B inherits A \x7b b() : Int \x7b 1 \x7d; \x7d;",
  "class A inherits IO \x7b a() : Int \x7b 2 \x7d; \x7d;"]

theorem build_iff_hierarchical_descending :
    Hierarchical (SourceFiles.classes descending) ∧
    ∃ t, build (SourceFiles.classes descending) = .ok t ∧
      t.Climbs (SourceFiles.classes descending) (.named (ascii "B")) := by
  have made : ((build (SourceFiles.classes descending)).toOption.any
      (·.contains (.named (ascii "B")))) = true := by
    decide +kernel
  obtain ⟨iff, up⟩ := build_iff_hierarchical (SourceFiles.classes descending)
  cases built : build (SourceFiles.classes descending) with
  | error e =>
    rw [built] at made
    cases made
  | ok t =>
    rw [built] at made
    exact ⟨iff.mp ⟨t, built⟩, t, rfl, (up t built).2 _ made⟩

end Cycles

end ClassTable

end Cool
