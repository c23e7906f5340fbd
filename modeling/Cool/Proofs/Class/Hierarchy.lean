import Cool.Lowering.Layout
import Cool.Proofs.Class.Outline
import Mathlib.Data.Finset.Card
import Mathlib.Dynamics.PeriodicPts.Defs

/-!
The hierarchy of classes. The way up from a class ends, for a class that came back to itself would
have been refused, and there are only so many classes. So the ancestors of an ancestor are
ancestors, and objects of a class begin with the slots of each of its ancestors.
-/
namespace Cool.ClassTable

open Function (minimalPeriod IsPeriodicPt)

variable {t : ClassTable} {classes : List ClassDecl}

def up (t : ClassTable) (c : Option ClassName) : Option ClassName := c.bind t.parent?

@[simp] theorem up_some (t : ClassTable) (c : ClassName) : t.up (some c) = t.parent? c := rfl

@[simp] theorem up_iterate_none (t : ClassTable) (n : Nat) : t.up^[n] none = none := by
  induction n with
  | zero => rfl
  | succ n ih => exact ih

theorem up_iterate_of_le {m n : Nat} {c : Option ClassName} (h : t.up^[m] c = none) (hle : m ≤ n) :
    t.up^[n] c = none := by
  obtain ⟨k, rfl⟩ := Nat.exists_eq_add_of_le' hle
  rw [Function.iterate_add_apply, h, up_iterate_none]

theorem contains_of_parent? {c p : ClassName} (h : t.parent? c = some p) : t.contains c = true := by
  obtain ⟨e, he, _⟩ := Option.bind_eq_some_iff.mp h
  unfold contains
  rw [he]
  rfl

section Cycles

variable {c d : ClassName}

/-- The way up does not go on where it has ended. -/
theorem up_of_le {k n : Nat} (h : t.up^[n] (some c) = some d) (hk : k ≤ n) :
    ∃ e, t.up^[k] (some c) = some e := by
  cases hg : t.up^[k] (some c) with
  | none => exact absurd ((up_iterate_of_le hg hk).symm.trans h) nofun
  | some e => exact ⟨e, rfl⟩

theorem mem_walk {n : Nat} : d ∈ t.walk n c ↔ ∃ i < n, t.up^[i] (some c) = some d := by
  induction n generalizing c with
  | zero => simp [walk]
  | succ n ih =>
    rw [walk, List.mem_cons]
    constructor
    · rintro (rfl | mem)
      · exact ⟨0, Nat.succ_pos n, rfl⟩
      · cases hp : t.parent? c with
        | none =>
          rw [hp] at mem
          cases mem
        | some p =>
          rw [hp] at mem
          obtain ⟨i, hi, same⟩ := ih.mp mem
          exact ⟨i + 1, Nat.succ_lt_succ hi, by rwa [Function.iterate_succ_apply, up_some, hp]⟩
    · rintro ⟨i, hi, same⟩
      cases i with
      | zero => exact .inl (Option.some.inj same).symm
      | succ i =>
        rw [Function.iterate_succ_apply, up_some] at same
        cases hp : t.parent? c with
        | none =>
          rw [hp, up_iterate_none] at same
          cases same
        | some p =>
          rw [hp] at same
          exact .inr (ih.mpr ⟨i, Nat.lt_of_succ_lt_succ hi, same⟩)

theorem walk_begins {m n : Nat} (hk : m ≤ n) (c : ClassName) : t.walk m c <+: t.walk n c := by
  induction m generalizing n c with
  | zero => exact List.nil_prefix
  | succ m ih =>
    obtain ⟨n, rfl⟩ := Nat.exists_eq_add_of_le' hk
    unfold walk
    cases t.parent? c with
    | none => exact List.prefix_refl _
    | some p => exact List.cons_prefix_cons.mpr ⟨rfl, ih (Nat.le_add_left m n) p⟩

theorem walk_succ_of_up {n : Nat} (h : t.up^[n] (some c) = some d) :
    t.walk (n + 1) c = t.walk n c ++ [d] := by
  induction n generalizing c with
  | zero =>
    cases h
    unfold walk
    cases t.parent? d <;> rfl
  | succ n ih =>
    rw [Function.iterate_succ_apply, up_some] at h
    cases hp : t.parent? c with
    | none =>
      rw [hp, up_iterate_none] at h
      cases h
    | some p =>
      rw [hp] at h
      rw [walk, walk, hp]
      exact congrArg (c :: ·) (ih h)

theorem length_walk {n : Nat} (h : t.up^[n] (some c) = some d) : (t.walk n c).length = n := by
  induction n generalizing d with
  | zero => rfl
  | succ n ih =>
    obtain ⟨e, he⟩ := up_of_le h (Nat.le_succ n)
    rw [walk_succ_of_up he, List.length_append, ih he, List.length_singleton]

/-- Up to where it comes back to its start, the way up meets no class twice. -/
theorem nodup_walk {n : Nat} (hn : n ≤ minimalPeriod t.up (some c)) : (t.walk n c).Nodup := by
  induction n with
  | zero => exact List.nodup_nil
  | succ n ih =>
    have before := Nat.le_of_succ_le hn
    obtain ⟨d, hd⟩ := up_of_le (Function.iterate_minimalPeriod (f := t.up) (x := some c)) before
    rw [walk_succ_of_up hd]
    refine nodup_concat (ih before) fun mem => ?_
    obtain ⟨i, hi, same⟩ := mem_walk.mp mem
    have apart := Function.iterate_injOn_Iio_minimalPeriod (Nat.lt_of_lt_of_le hi before) hn
      (same.trans hd.symm)
    exact Nat.ne_of_lt hi apart

/-- A way back to its start on which no class is met twice has only so many classes. -/
theorem le_size_of_nodup {n : Nat} (back : t.up^[n] (some c) = some c)
    (distinct : (t.walk n c).Nodup) : n ≤ t.size := by
  have known : t.walk n c ⊆ t.classes.map Prod.fst := by
    intro d mem
    obtain ⟨i, hi, hd⟩ := mem_walk.mp mem
    obtain ⟨p, hp⟩ := up_of_le back hi
    rw [Function.iterate_succ_apply', hd, up_some] at hp
    obtain ⟨q, hq, rfl⟩ := contains_iff.mp (contains_of_parent? hp)
    exact List.mem_map_of_mem hq
  have few := (List.subperm_of_subset distinct known).length_le
  rwa [length_walk back, List.length_map] at few

/-- From a class that comes back to itself, the search tells the classes on the way. -/
theorem cycleFrom_walk {n : Nat} (back : t.up^[n] (some c) = some c)
    (distinct : (t.walk n c).Nodup) (pos : 0 < n) {k fuel : Nat} (hk : k ≤ n)
    (enough : n < fuel + k) (hd : t.up^[k] (some c) = some d) :
    t.cycleFrom c fuel (t.walk k c).reverse d = some (t.walk n c) := by
  -- The search has met the first `k` classes on the way up from `c`, and stands at `d`.
  induction fuel generalizing k d with
  | zero => omega
  | succ fuel ih =>
    unfold cycleFrom
    rcases Nat.lt_or_eq_of_le hk with before | rfl
    · have next := walk_succ_of_up hd
      have new : d ∉ t.walk k c := fun mem => by
        have start := (walk_begins before c).sublist.nodup distinct
        rw [next, List.nodup_append] at start
        exact start.2.2 d mem d (List.mem_singleton_self d) rfl
      obtain ⟨p, hp⟩ := up_of_le back before
      have above := hp
      rw [Function.iterate_succ_apply', hd, up_some] at above
      rw [if_neg (by simpa using new), above]
      have met : d :: (t.walk k c).reverse = (t.walk (k + 1) c).reverse := by
        rw [next, List.reverse_append]
        rfl
      simp only [met]
      exact ih before (by omega) hp
    · cases back.symm.trans hd
      have met : c ∈ t.walk k c := mem_walk.mpr ⟨0, pos, rfl⟩
      rw [if_pos (by simpa using met), if_pos rfl, List.reverse_reverse]

/-- A cycle that is found is the way up from its start, and leads back to it. -/
theorem up_of_cycleFrom {k fuel : Nat} {cycle : List ClassName}
    (hd : t.up^[k] (some c) = some d) (distinct : (t.walk k c).Nodup)
    (h : t.cycleFrom c fuel (t.walk k c).reverse d = some cycle) :
    ∃ n > 0, t.up^[n] (some c) = some c ∧ (t.walk n c).Nodup ∧ cycle = t.walk n c := by
  induction fuel generalizing k d with
  | zero => cases h
  | succ fuel ih =>
    unfold cycleFrom at h
    split at h
    · rename_i met
      split at h
      · rename_i start
        cases start
        cases h
        obtain ⟨i, hi, _⟩ := mem_walk.mp (show c ∈ t.walk k c by simpa using met)
        exact ⟨k, by omega, hd, distinct, List.reverse_reverse _⟩
      · cases h
    · rename_i new
      split at h
      · rename_i p above
        have next := walk_succ_of_up hd
        refine ih (k := k + 1) (by rw [Function.iterate_succ_apply', hd, up_some, above]) ?_ ?_
        · rw [next]
          exact nodup_concat distinct (by simpa using new)
        · rwa [next, List.reverse_append]
      · cases h

theorem cycleThrough?_eq_some {cycle : List ClassName} : t.cycleThrough? c = some cycle ↔
    ∃ n > 0, t.up^[n] (some c) = some c ∧ (t.walk n c).Nodup ∧ cycle = t.walk n c := by
  constructor
  · exact up_of_cycleFrom (k := 0) rfl List.nodup_nil
  · rintro ⟨n, pos, back, distinct, rfl⟩
    have small := le_size_of_nodup back distinct
    exact cycleFrom_walk back distinct pos (Nat.zero_le n) (by omega) rfl

theorem cycleThrough?_isSome {n : Nat} (pos : 0 < n) (periodic : IsPeriodicPt t.up n (some c)) :
    ∃ cycle, t.cycleThrough? c = some cycle :=
  ⟨_, cycleThrough?_eq_some.mpr ⟨_, periodic.minimalPeriod_pos pos, Function.iterate_minimalPeriod,
    nodup_walk (Nat.le_refl _), rfl⟩⟩

theorem exists_repeated {g : Nat → Option ClassName} {n : Nat} (hn : t.size < n)
    (known : ∀ i < n, ∃ d, g i = some d ∧ t.contains d = true) :
    ∃ i j, i < j ∧ j < n ∧ g i = g j := by
  have maps : ∀ i ∈ Finset.range n, g i ∈ (t.classes.map fun p => some p.1).toFinset := by
    intro i hi
    obtain ⟨d, hd, there⟩ := known i (Finset.mem_range.mp hi)
    obtain ⟨p, hp, rfl⟩ := contains_iff.mp there
    rw [hd, List.mem_toFinset]
    exact List.mem_map.mpr ⟨p, hp, rfl⟩
  have few : (t.classes.map fun p => some p.1).toFinset.card < (Finset.range n).card := by
    rw [Finset.card_range]
    refine Nat.lt_of_le_of_lt (List.toFinset_card_le _) ?_
    rwa [List.length_map]
  obtain ⟨i, hi, j, hj, apart, same⟩ :=
    Finset.exists_ne_map_eq_of_card_lt_of_maps_to few maps
  rw [Finset.mem_range] at hi hj
  rcases Nat.lt_or_gt_of_ne apart with h | h
  · exact ⟨i, j, h, hj, same⟩
  · exact ⟨j, i, h, hi, same.symm⟩

end Cycles

namespace Outlines

theorem parent?_builtin (h : t.Outlines classes) (b : Builtin) :
    t.parent? (.builtin b) = if b = .object then none else some .object := by
  rw [parent?_eq_outline?, h.outline?, outlinesOf, List.lookup_append]
  cases b <;> rfl

theorem parent?_of_mem (h : t.Outlines classes) {c : ClassDecl} (hc : c ∈ classes) :
    t.parent? c.className = some c.parentName := by
  rw [parent?_eq_outline?, h.of_mem hc]
  rfl

theorem contains_builtin (h : t.Outlines classes) (b : Builtin) :
    t.contains (.builtin b) = true := by
  rw [contains_eq_outline?, h.outline?, outlinesOf, List.lookup_append]
  cases b <;> rfl

theorem builtin_or_declared (h : t.Outlines classes) {c : ClassName} (known : t.contains c = true) :
    (∃ b, c = .builtin b) ∨ ∃ d ∈ classes, d.className = c := by
  cases hb : c.isBuiltin with
  | false => exact .inr ((h.contains_iff_mem hb).mp known)
  | true =>
    cases c with
    | builtin b => exact .inl ⟨b, rfl⟩
    | named _ | selfType => cases hb

theorem contains_parent (h : t.Outlines classes) {c p : ClassName} (hp : t.parent? c = some p) :
    t.contains p = true := by
  rcases h.builtin_or_declared (contains_of_parent? hp) with ⟨b, rfl⟩ | ⟨d, hd, rfl⟩
  · rw [h.parent?_builtin] at hp
    split at hp <;> cases hp
    exact h.contains_builtin .object
  · rw [h.parent?_of_mem hd] at hp
    cases hp
    exact h.parents d hd

theorem not_periodic (h : t.Outlines classes) {c : ClassName} {n : Nat} (hn : 0 < n)
    (known : t.contains c = true) : ¬ IsPeriodicPt t.up n (some c) := by
  intro periodic
  rcases h.builtin_or_declared known with ⟨b, rfl⟩ | ⟨d, hd, rfl⟩
  · have ended : t.up^[2] (some (.builtin b)) = none := by
      change (t.parent? (.builtin b)).bind t.parent? = none
      rw [h.parent?_builtin]
      split
      · rfl
      · exact h.parent?_builtin .object
    have again : t.up^[2 * n] (some (.builtin b)) = some (.builtin b) := periodic.const_mul 2
    exact absurd (again.symm.trans (up_iterate_of_le ended (by omega))) (by nofun)
  · obtain ⟨cycle, found⟩ := cycleThrough?_isSome hn periodic
    cases (h.acyclic d hd).symm.trans found

theorem up_ends (h : t.Outlines classes) (c : ClassName) :
    t.up^[max t.size 1] (some c) = none := by
  by_contra goes
  have alive : ∀ i ≤ max t.size 1, ∃ d, t.up^[i] (some c) = some d := by
    intro i hi
    cases hg : t.up^[i] (some c) with
    | none => exact absurd (up_iterate_of_le hg hi) goes
    | some d => exact ⟨d, rfl⟩
  have known : ∀ i < max t.size 1 + 1, ∃ d, t.up^[i] (some c) = some d ∧ t.contains d = true := by
    intro i hi
    obtain ⟨d, hd⟩ := alive i (by omega)
    refine ⟨d, hd, ?_⟩
    cases i with
    | zero =>
      cases hd
      obtain ⟨p, hp⟩ := alive 1 (by omega)
      exact contains_of_parent? hp
    | succ i =>
      obtain ⟨b, hb⟩ := alive i (by omega)
      rw [Function.iterate_succ_apply', hb, up_some] at hd
      exact h.contains_parent hd
  -- There are more steps than classes, so the way comes back to one.
  obtain ⟨i, j, hij, hj, same⟩ := exists_repeated (by omega) known
  obtain ⟨d, hd, there⟩ := known i (by omega)
  have periodic : IsPeriodicPt t.up (j - i) (some d) := by
    change t.up^[j - i] (some d) = some d
    rw [← hd, ← Function.iterate_add_apply, Nat.sub_add_cancel (Nat.le_of_lt hij), same]
  exact h.not_periodic (by omega) there periodic

end Outlines

section Lineage

theorem walk_of_le {m n : Nat} {c : ClassName} (ends : t.up^[n] (some c) = none) (hle : n ≤ m) :
    t.walk m c = t.walk n c := by
  induction n generalizing m c with
  | zero => cases ends
  | succ n ih =>
    obtain ⟨m, rfl⟩ := Nat.exists_eq_add_of_le' hle
    unfold walk
    rw [Function.iterate_succ_apply, up_some] at ends
    cases hp : t.parent? c with
    | none => rfl
    | some p => exact congrArg (c :: ·) (ih (hp ▸ ends) (Nat.le_add_left n m))

theorem Outlines.lineage_eq (h : t.Outlines classes) (c : ClassName) :
    t.lineage c = c :: (t.parent? c).elim [] t.lineage := by
  have more : t.walk (max t.size 1 + 1) c = t.lineage c := walk_of_le (h.up_ends c) (by omega)
  rw [← more, walk]
  cases t.parent? c <;> rfl

theorem Outlines.lineage_suffix (h : t.Outlines classes) {c d : ClassName} (hd : d ∈ t.lineage c) :
    t.lineage d <:+ t.lineage c := by
  have walk_suffix (n : Nat) (c : ClassName) (hd : d ∈ t.walk n c) :
      t.lineage d <:+ t.lineage c := by
    induction n generalizing c with
    | zero => cases hd
    | succ n ih =>
      unfold walk at hd
      rcases List.mem_cons.mp hd with rfl | hd
      · exact List.suffix_refl _
      cases hp : t.parent? c with
      | none =>
        rw [hp] at hd
        cases hd
      | some p =>
        rw [hp] at hd
        rw [h.lineage_eq c, hp]
        exact (ih p hd).trans (List.suffix_cons c _)
  exact walk_suffix _ c hd

theorem Outlines.lineage_trans (h : t.Outlines classes) {b c d : ClassName}
    (hd : d ∈ t.lineage c) (hb : b ∈ t.lineage d) : b ∈ t.lineage c :=
  (h.lineage_suffix hd).subset hb

theorem Outlines.mem_parent_lineage (h : t.Outlines classes) {c d : ClassName}
    (hd : d ∈ t.lineage c) (ne : d ≠ c) :
    ∃ p, t.parent? c = some p ∧ d ∈ t.lineage p := by
  rw [h.lineage_eq] at hd
  have above := (List.mem_cons.mp hd).resolve_left ne
  cases hp : t.parent? c with
  | none =>
    rw [hp] at above
    cases above
  | some p =>
    rw [hp] at above
    exact ⟨p, rfl, above⟩

theorem Outlines.length_lineage_lt (h : t.Outlines classes) {c d : ClassName}
    (hd : d ∈ t.lineage c) (ne : d ≠ c) :
    (t.lineage d).length < (t.lineage c).length := by
  obtain ⟨p, hp, above⟩ := h.mem_parent_lineage hd ne
  rw [h.lineage_eq c, hp]
  exact Nat.lt_succ_of_le (h.lineage_suffix above).length_le

theorem Outlines.depth_lt (h : t.Outlines classes) {c d : ClassName} (hd : d ∈ t.lineage c)
    (ne : d ≠ c) :
    t.depth d < t.depth c := by
  have shorter := h.length_lineage_lt hd ne
  have positive := List.length_pos_of_mem (mem_lineage_self t d)
  unfold ClassTable.depth
  omega

theorem conforms_iff {sub sup self : ClassName} :
    t.conforms sub sup self = true ↔ sup.resolve self ∈ t.lineage (sub.resolve self) := by
  unfold conforms
  simp

theorem Outlines.allAttributes_prefix (h : t.Outlines classes) {c d : ClassName}
    (hd : d ∈ t.lineage c) : t.allAttributes d <+: t.allAttributes c := by
  obtain ⟨before, eq⟩ := h.lineage_suffix hd
  unfold allAttributes
  rw [← eq, List.reverse_append, List.flatMap_append]
  exact List.prefix_append _ _

theorem method?_of_findMethod? {c owner : ClassName} {name : Bytes} {m : MethodType}
    (h : t.findMethod? c name = some (owner, m)) :
    (t.get? owner).bind (·.method? name) = some m := by
  obtain ⟨d, _, found⟩ := List.exists_of_findSome?_eq_some h
  simp only [Option.bind_eq_bind, Option.bind_eq_some_iff] at found
  obtain ⟨e, he, k, hk, same⟩ := found
  cases same
  rw [he]
  exact hk

theorem slot?_eq_some {c type : ClassName} {name : Bytes} {i : Nat}
    (h : t.slot? c name = some (i, type)) : (t.allAttributes c)[i]? = some (name, type) := by
  obtain ⟨⟨j, a⟩, found, same⟩ := Option.map_eq_some_iff.mp h
  cases same
  have mem := List.mem_reverse.mp (List.mem_of_find?_eq_some found)
  have named := List.find?_some found
  obtain ⟨k, hk, eq⟩ := List.mem_mapIdx.mp mem
  cases eq
  rw [List.getElem?_eq_getElem hk]
  simp only [decide_eq_true_eq] at named
  rw [← named]

end Lineage

end Cool.ClassTable
