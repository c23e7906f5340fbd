import Cool.Proofs.Class.Alike
import Cool.Proofs.Class.Subtyping

/-!
Tables with more classes. What a table says of its classes does not change when a class is added to
it: no class changes its parent, so all lineages stay, and a longer walk up finds nothing more.
-/
namespace Cool

namespace ClassTable

/-- Whether `u` says of the classes of `t` what `t` says. -/
structure ExtendedBy (t u : ClassTable) : Prop where
  get? : ∀ c, t.contains c = true → u.get? c = t.get? c
  lineage : ∀ c, t.contains c = true → u.lineage c = t.lineage c
  findMethod? : ∀ c, t.contains c = true → ∀ name, u.findMethod? c name = t.findMethod? c name
  findAttribute? : ∀ c, t.contains c = true →
    ∀ name, u.findAttribute? c name = t.findAttribute? c name
  allAttributes : ∀ c, t.contains c = true → u.allAttributes c = t.allAttributes c
  slot? : ∀ c, t.contains c = true → ∀ name, u.slot? c name = t.slot? c name
  objectSize : ∀ c, t.contains c = true → u.objectSize c = t.objectSize c
  depth : ∀ c, t.contains c = true → u.depth c = t.depth c
  conforms : ∀ a b self, t.contains (a.resolve self) = true →
    u.conforms a b self = t.conforms a b self
  join : ∀ a b self, t.contains (a.resolve self) = true → t.contains (b.resolve self) = true →
    u.join a b self = t.join a b self

variable {t u : ClassTable} {classes : List ClassDecl}

theorem findSome?_congr {α β : Type} {f g : α → Option β} {xs : List α} (h : ∀ x ∈ xs, f x = g x) :
    xs.findSome? f = xs.findSome? g := by
  induction xs with
  | nil => rfl
  | cons x xs ih =>
    rw [List.forall_mem_cons] at h
    rw [List.findSome?_cons, List.findSome?_cons, h.1, ih h.2]

namespace Outlines

theorem findSome?_lineage {α : Type} (h : t.Outlines classes)
    (same : ∀ c, t.contains c = true → u.get? c = t.get? c) {c : ClassName}
    (known : t.contains c = true) (f : ClassName → ClassEntry → Option α) :
    ((t.lineage c).findSome? fun d => (u.get? d).bind (f d)) =
      (t.lineage c).findSome? fun d => (t.get? d).bind (f d) :=
  findSome?_congr fun d hd => by rw [same d (h.contains_of_mem_lineage known hd)]

/-- A table that keeps the entries of another and is not smaller extends it. -/
theorem extendedBy (h : t.Outlines classes) (larger : t.size ≤ u.size)
    (same : ∀ c, t.contains c = true → u.get? c = t.get? c) : t.ExtendedBy u := by
  have walk (n : Nat) (c : ClassName) (known : t.contains c = true) :
      u.walk n c = t.walk n c := by
    induction n generalizing c with
    | zero => rfl
    | succ n ih =>
      unfold ClassTable.walk ClassTable.parent?
      rw [same c known]
      cases hp : (t.get? c).bind (·.parent) with
      | none => rfl
      | some p => exact congrArg (c :: ·) (ih p (h.contains_parent hp))
  have lineage (c : ClassName) (known : t.contains c = true) : u.lineage c = t.lineage c := by
    unfold ClassTable.lineage
    rw [walk _ c known]
    exact walk_of_le (h.up_ends c) (by omega)
  have attributes (c : ClassName) (known : t.contains c = true) :
      u.allAttributes c = t.allAttributes c := by
    unfold ClassTable.allAttributes
    rw [lineage c known]
    refine List.flatMap_congr fun d hd => ?_
    rw [same d (h.contains_of_mem_lineage known (List.mem_reverse.mp hd))]
  constructor
  case get? => exact same
  case lineage => exact lineage
  case allAttributes => exact attributes
  case findMethod? =>
    intro c known name
    unfold ClassTable.findMethod?
    rw [lineage c known]
    exact h.findSome?_lineage same known _
  case findAttribute? =>
    intro c known name
    unfold ClassTable.findAttribute?
    rw [lineage c known]
    exact h.findSome?_lineage same known _
  case slot? =>
    intro c known name
    unfold ClassTable.slot?
    rw [attributes c known]
  case objectSize =>
    intro c known
    unfold ClassTable.objectSize
    rw [attributes c known]
  case depth =>
    intro c known
    unfold ClassTable.depth
    rw [lineage c known]
  case conforms =>
    intro a b self known
    unfold ClassTable.conforms
    rw [lineage _ known]
  case join =>
    intro a b self ha hb
    rw [join_eq_common, join_eq_common]
    unfold common meeting?
    rw [lineage _ ha, lineage _ hb]

end Outlines

theorem tableOf_append (classes more : List ClassDecl) :
    (tableOf (classes ++ more)).classes = (tableOf classes).classes ++
      more.map fun c => (c.className, ⟨some c.parentName, c.signatures, c.fields⟩) := by
  unfold tableOf
  rw [List.map_append, List.append_assoc]

/-- The table of a program is extended by that of a program that goes on behind it. -/
theorem extendedBy_of_append {more : List ClassDecl} (h : typecheck classes = .ok t)
    (h' : typecheck (classes ++ more) = .ok u) : t.ExtendedBy u := by
  have outlines := outlines_of_typecheck h
  obtain ⟨_, _, _, rfl⟩ := typecheck_eq_ok_tableOf.mp h
  obtain ⟨_, _, _, rfl⟩ := typecheck_eq_ok_tableOf.mp h'
  refine outlines.extendedBy ?_ fun c known => ?_
  · unfold size
    rw [tableOf_append, List.length_append]
    exact Nat.le_add_right _ _
  · obtain ⟨e, he⟩ := Option.isSome_iff_exists.mp known
    unfold ClassTable.get? at he ⊢
    rw [tableOf_append, List.lookup_append, he]
    rfl

end ClassTable

end Cool
