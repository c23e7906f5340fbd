import Cool.Proofs.Class.Hierarchy

/-!
Looking up members. The search goes up from a class and is cut after as many classes as the table
has. Nothing is lost by the cut, wherever the parents lead: a way up that is longer than that meets
a class twice, and without the round between the two it ends at the same class.
-/
namespace Cool.ClassTable

variable {t : ClassTable} {c d : ClassName} {n : Nat} {α : Type} {own : ClassName → Option α}

def ownMethod? (t : ClassTable) (c : ClassName) (name : Bytes) : Option MethodType :=
  (t.get? c).bind (·.method? name)

/-- What a search for a member results in: the class that has it and is the fewest steps up, from a
class to its parent, or nothing when no class on the way up has it. -/
structure FindsNearest (t : ClassTable) (own : ClassName → Option α) (c : ClassName)
    (result : Option (ClassName × α)) : Prop where
  found : ∀ d a, result = some (d, a) ↔ own d = some a ∧ ∃ n, t.up^[n] (some c) = some d ∧
    ∀ m e, t.up^[m] (some c) = some e → (own e).isSome → n ≤ m
  missed : result = none ↔ ∀ n d, t.up^[n] (some c) = some d → own d = none

theorem contains_of_up {m : Nat} (reached : t.up^[n] (some c) = some d)
    (known : t.contains d = true) (before : m ≤ n) :
    ∃ e, t.up^[m] (some c) = some e ∧ t.contains e = true := by
  obtain ⟨e, he⟩ := up_of_le reached before
  refine ⟨e, he, ?_⟩
  rcases Nat.lt_or_eq_of_le before with earlier | rfl
  · obtain ⟨p, hp⟩ := up_of_le reached (Nat.succ_le_of_lt earlier)
    rw [Function.iterate_succ_apply', he] at hp
    exact contains_of_parent? hp
  · cases he.symm.trans reached
    exact known

theorem up_without_round {i j : Nat} (before : i ≤ j) (within : j ≤ n)
    (again : t.up^[i] (some c) = t.up^[j] (some c)) :
    t.up^[n - (j - i)] (some c) = t.up^[n] (some c) := by
  have short : n - (j - i) = n - j + i := by omega
  have long : n - j + j = n := Nat.sub_add_cancel within
  rw [short, Function.iterate_add_apply, again, ← Function.iterate_add_apply, long]

/-- A known class that is reached at all is reached in fewer steps than there are classes. -/
theorem up_within_size (reached : t.up^[n] (some c) = some d) (known : t.contains d = true) :
    ∃ m ≤ n, m < t.size ∧ t.up^[m] (some c) = some d := by
  -- A way with no fewer steps goes in a round, and leaving the round out makes it shorter.
  induction n using Nat.strongRecOn with
  | ind n ih =>
    rcases Nat.lt_or_ge n t.size with short | long
    · exact ⟨n, Nat.le_refl n, short, reached⟩
    obtain ⟨i, j, before, within, again⟩ := exists_repeated (Nat.lt_succ_of_le long)
      fun m hm => contains_of_up reached known (Nat.le_of_lt_succ hm)
    have shortened := up_without_round (Nat.le_of_lt before) (Nat.le_of_lt_succ within) again
    obtain ⟨m, hm, few, same⟩ := ih (n - (j - i)) (by omega) (shortened.trans reached)
    exact ⟨m, by omega, few, same⟩

theorem getElem?_walk (t : ClassTable) (n i : Nat) (c : ClassName) :
    (t.walk n c)[i]? = if i < n then t.up^[i] (some c) else none := by
  induction n generalizing c i with
  | zero => rfl
  | succ n ih =>
    rw [walk]
    cases i with
    | zero => rfl
    | succ i =>
      rw [List.getElem?_cons_succ, Function.iterate_succ_apply, up_some]
      cases t.parent? c with
      | none => simp
      | some p => simp [ih]

theorem of_findSome?_walk {β : Type} {f : ClassName → Option β} {x : β} {k : Nat}
    (h : (t.walk k c).findSome? f = some x) : ∃ n d, t.up^[n] (some c) = some d ∧ f d = some x ∧
      ∀ m < n, ∀ e, t.up^[m] (some c) = some e → f e = none := by
  obtain ⟨before, d, after, split, answer, first⟩ := List.findSome?_eq_some_iff.mp h
  have here : (t.walk k c)[before.length]? = some d := by
    rw [split, List.getElem?_append_right (Nat.le_refl _), Nat.sub_self]
    rfl
  rw [getElem?_walk, Option.ite_none_right_eq_some] at here
  refine ⟨before.length, d, here.2, answer, fun m hm e he => first e ?_⟩
  have there : (t.walk k c)[m]? = some e := by
    rwa [getElem?_walk, if_pos (Nat.lt_trans hm here.1)]
  rw [split, List.getElem?_append_left hm] at there
  exact List.mem_of_getElem? there

/-- Where the search is missed, no class on the way up has what it looks for, whether the search
got there or not. -/
theorem findSome?_lineage_eq_none (known : ∀ d, (own d).isSome → t.contains d = true) :
    ((t.lineage c).findSome? fun d => (own d).map fun a => (d, a)) = none ↔
      ∀ n d, t.up^[n] (some c) = some d → own d = none := by
  rw [List.findSome?_eq_none_iff]
  constructor
  · -- A class that the search did not get to would be met in fewer steps.
    intro nothing n d reached
    by_contra has
    obtain ⟨m, -, few, same⟩ := up_within_size reached (known d (Option.isSome_iff_ne_none.mpr has))
    have met : d ∈ t.lineage c := mem_walk.mpr ⟨m, by omega, same⟩
    exact has (Option.map_eq_none_iff.mp (nothing d met))
  · intro nothing d met
    obtain ⟨n, -, reached⟩ := mem_walk.mp met
    exact Option.map_eq_none_iff.mpr (nothing n d reached)

theorem findsNearest (known : ∀ d, (own d).isSome → t.contains d = true) (c : ClassName) :
    t.FindsNearest own c ((t.lineage c).findSome? fun d => (own d).map fun a => (d, a)) := by
  have missed := findSome?_lineage_eq_none (c := c) known
  cases result : (t.lineage c).findSome? fun d => (own d).map fun a => (d, a) with
  | none =>
    rw [result] at missed
    refine ⟨fun d a => ⟨nofun, ?_⟩, missed⟩
    rintro ⟨has, n, reached, -⟩
    cases has.symm.trans (missed.mp rfl n d reached)
  | some x =>
    obtain ⟨n, d, reached, answer, first⟩ := of_findSome?_walk result
    obtain ⟨a, has, rfl⟩ := Option.map_eq_some_iff.mp answer
    have fewest (m : Nat) (e : ClassName) (he : t.up^[m] (some c) = some e)
        (some : (own e).isSome) : n ≤ m := by
      by_contra earlier
      have nothing := Option.map_eq_none_iff.mp (first m (Nat.lt_of_not_le earlier) e he)
      rw [nothing] at some
      cases some
    rw [result] at missed
    refine ⟨fun e b => ⟨?_, ?_⟩, missed⟩
    · rintro ⟨rfl⟩
      exact ⟨has, n, reached, fewest⟩
    · rintro ⟨has', m, reached', fewest'⟩
      have same : n = m := Nat.le_antisymm (fewest m e reached' (by rw [has']; rfl))
        (fewest' n d reached (by rw [has]; rfl))
      subst same
      cases reached.symm.trans reached'
      cases has.symm.trans has'
      rfl

theorem contains_of_get?_bind {β : Type} {f : ClassEntry → Option β}
    (h : ((t.get? d).bind f).isSome) : t.contains d = true := by
  unfold contains
  cases entry : t.get? d with
  | none =>
    rw [entry] at h
    cases h
  | some e => rfl

/-- One search for methods and attributes alike: `f` is what a class has itself. -/
theorem search_findsNearest (t : ClassTable) (c : ClassName) (f : ClassEntry → Option α) :
    t.FindsNearest (fun d => (t.get? d).bind f) c ((t.lineage c).findSome? fun d => do
      let e ← t.get? d
      let a ← f e
      pure (d, a)) := by
  have search : (fun d => do
      let e ← t.get? d
      let a ← f e
      pure (d, a)) = fun d => ((t.get? d).bind f).map fun a => (d, a) := by
    funext d
    cases t.get? d with
    | none => rfl
    | some e => exact (Option.map_eq_bind ..).symm
  rw [search]
  exact findsNearest (fun d => contains_of_get?_bind) c

/-- In every table, with parents that are unknown or lead in circles as well, the method and the
attribute of a name are those of the nearest class that has one. -/
theorem find_nearest (t : ClassTable) (c : ClassName) (name : Bytes) :
    t.FindsNearest (t.ownMethod? · name) c (t.findMethod? c name) ∧
      t.FindsNearest (t.ownAttribute? · name) c (t.findAttribute? c name) :=
  ⟨t.search_findsNearest c (·.method? name), t.search_findsNearest c (·.attribute? name)⟩

/-- Of two classes that descend from each other, the second has the method. -/
example : (⟨[(.named [1], .ofParent (some (.named [2]))),
      (.named [2], ⟨some (.named [1]), [([3], ⟨[], .int⟩)], []⟩)]⟩ : ClassTable).findMethod?
    (.named [1]) [3] = some (.named [2], ⟨[], .int⟩) := by decide

end Cool.ClassTable
