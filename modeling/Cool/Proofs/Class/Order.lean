import Cool.Proofs.Class.Ancestors
import Cool.Proofs.Class.Layout
import Mathlib.Data.Set.Card

/-!
The order in which the classes of a program are gone through. Classes are sorted by their depth,
which is the number of their ancestors, so each comes behind its parent; and sorting leaves classes
of one depth as they were declared.
-/
namespace Cool

open Relation (TransGen ReflTransGen)

/-- The number of classes that a class descends from. -/
noncomputable def ancestorCount (classes : List ClassDecl) (c : ClassName) : Nat :=
  {d | TransGen (HasParent classes) c d}.ncard

/-- Whether an order of the classes of a program has each of them once and behind its parent, and
classes with equally many ancestors in the order of their declaration. -/
structure ParentsFirst (classes order : List ClassDecl) : Prop where
  perm : order.Perm classes
  once : (order.map ClassDecl.className).Nodup
  parents : ∀ c ∈ classes, ∀ p ∈ classes, c.parentName = p.className → [p, c].Sublist order
  stable : ∀ a b, [a, b].Sublist classes →
    ancestorCount classes a.className = ancestorCount classes b.className → [a, b].Sublist order

namespace ClassTable

variable {t u : ClassTable} {classes : List ClassDecl} {c p : ClassName}

theorem pair_sublist_or {α : Type} {xs : List α} {a b : α} (ha : a ∈ xs) (hb : b ∈ xs)
    (ne : a ≠ b) : [a, b].Sublist xs ∨ [b, a].Sublist xs := by
  obtain ⟨before, after, rfl⟩ := List.append_of_mem ha
  rcases List.mem_append.mp hb with hb | hb
  · refine .inr (List.Sublist.append (List.singleton_sublist.mpr hb) ?_)
    exact List.singleton_sublist.mpr List.mem_cons_self
  · have hb := (List.mem_cons.mp hb).resolve_left ne.symm
    exact .inl (((List.singleton_sublist.mpr hb).cons_cons a).trans (List.sublist_append_right ..))

namespace Outlines

theorem depth_parent (h : t.Outlines classes) (step : t.parent? c = some p) :
    t.depth c = t.depth p + 1 := by
  have positive := List.length_pos_of_mem (mem_lineage_self t p)
  unfold depth
  rw [h.lineage_eq c, step]
  change (c :: t.lineage p).length - 1 = _
  rw [List.length_cons]
  omega

theorem depth_eq_ancestorCount (h : t.Outlines classes) (known : t.contains c = true) :
    t.depth c = ancestorCount classes c := by
  have climbs := h.climbs known
  obtain ⟨above, whole⟩ : ∃ above, t.lineage c = c :: above := ⟨_, h.lineage_eq c⟩
  have distinct := climbs.distinct
  rw [whole, List.nodup_cons] at distinct
  have same : {d | TransGen (HasParent classes) c d} = (above.toFinset : Set ClassName) := by
    ext d
    rw [Set.mem_ofPred_eq, Finset.mem_coe, List.mem_toFinset]
    constructor
    · intro path
      have mem := (climbs.ancestors d).mpr path.to_reflTransGen
      rw [whole, List.mem_cons] at mem
      refine mem.resolve_left ?_
      rintro rfl
      exact h.not_above_self (TransGen.mono (fun _ _ => h.hasParent_iff.mpr) _ _ path)
    · intro mem
      have path := (climbs.ancestors d).mp (whole ▸ List.mem_cons_of_mem c mem)
      refine (Relation.reflTransGen_iff_eq_or_transGen.mp path).resolve_left ?_
      rintro rfl
      exact distinct.1 mem
  rw [ancestorCount, same, Set.ncard_coe_finset, List.toFinset_card_of_nodup distinct.2, depth,
    whole, List.length_cons, Nat.add_sub_cancel]

theorem hierarchyOrder_parentsFirst (h : t.Outlines classes) :
    ParentsFirst classes (t.hierarchyOrder classes) where
  perm := List.mergeSort_perm _ _
  once := (((List.mergeSort_perm _ _).map _).nodup_iff).mpr h.className_nodup
  parents c hc p hp parent := by
    have deeper := h.depth_parent (parent ▸ h.parent?_of_mem hc)
    have apart : p ≠ c := by
      rintro rfl
      omega
    have either : [p, c].Sublist (t.hierarchyOrder classes) ∨
        [c, p].Sublist (t.hierarchyOrder classes) :=
      pair_sublist_or (List.mem_mergeSort.mpr hp) (List.mem_mergeSort.mpr hc) apart
    refine either.resolve_right fun before => ?_
    have shallow := List.pairwise_iff_forall_sublist.mp (hierarchyOrder_ordered t classes) before
    omega
  stable a b before same := by
    have known : ∀ d ∈ [a, b], t.contains d.className = true := fun d hd =>
      contains_of_parent? (h.parent?_of_mem (before.subset hd))
    -- `a` may stand in front of `b` by depth, and sorting does not turn such a pair round.
    refine List.pair_sublist_mergeSort (le_key_trans fun d : ClassDecl => t.depth d.className)
      (le_key_total _) (decide_eq_true (Nat.le_of_eq ?_)) before
    rw [h.depth_eq_ancestorCount (known a (by simp)), h.depth_eq_ancestorCount (known b (by simp)),
      same]

end Outlines

theorem Grows.hierarchyOrder (h : t.Grows u) (classes : List ClassDecl) :
    u.hierarchyOrder classes = t.hierarchyOrder classes := by
  unfold ClassTable.hierarchyOrder
  simp only [h.depth]

/-- The classes of a table are gone through with parents first, and otherwise as they were declared,
both when their attributes are entered and when code is generated for them. -/
theorem hierarchyOrder_of_build (h : build classes = .ok t) :
    ParentsFirst classes (t.hierarchyOrder classes) ∧
      ∀ u, typecheck classes = .ok u → u.hierarchyOrder classes = t.hierarchyOrder classes := by
  refine ⟨(outlines_of_build h).hierarchyOrder_parentsFirst, fun u accepted => ?_⟩
  obtain ⟨v, built, entered, _⟩ := typecheck_eq_ok.mp accepted
  cases h.symm.trans built
  exact (enterAttributes_ok entered).1.hierarchyOrder classes

/-- A program whose classes mostly stand before their parents, with two families. -/
def families : SourceFiles := .ofLines [
  "class Leaf inherits Twig \x7b \x7d;",
  "class Pebble inherits Stone \x7b \x7d;",
  "class Twig inherits Tree \x7b \x7d;",
  "class Stone \x7b \x7d;",
  "class Tree inherits IO \x7b \x7d;",
  "class Sand inherits Stone \x7b \x7d;"]

theorem hierarchyOrder_of_build_families : ∃ t, build (SourceFiles.classes families) = .ok t ∧
    ParentsFirst (SourceFiles.classes families)
      (t.hierarchyOrder (SourceFiles.classes families)) ∧
    ∀ u, typecheck (SourceFiles.classes families) = .ok u →
      u.hierarchyOrder (SourceFiles.classes families) =
        t.hierarchyOrder (SourceFiles.classes families) := by
  have made : (build (SourceFiles.classes families)).toOption.isSome = true := by decide +kernel
  cases built : build (SourceFiles.classes families) with
  | error e =>
    rw [built] at made
    cases made
  | ok t => exact ⟨t, rfl, hierarchyOrder_of_build built⟩

end ClassTable

end Cool
