import Cool.Lowering.Layout
import Cool.Proofs.Class.Entries

/-!
Tables that hold the same entries in different orders. Nothing that is looked up in a table tells
them apart.
-/
namespace Cool

open Relation (TransGen)

namespace ClassTable

structure Alike (t u : ClassTable) : Prop where
  size : u.size = t.size
  get? : u.get? = t.get?

namespace Alike

variable {t u : ClassTable}

theorem contains (h : t.Alike u) : u.contains = t.contains := by
  funext c
  unfold ClassTable.contains
  rw [h.get?]

theorem parent? (h : t.Alike u) : u.parent? = t.parent? := by
  funext c
  unfold ClassTable.parent?
  rw [h.get?]

theorem lineage (h : t.Alike u) : u.lineage = t.lineage := by
  have walk (n : Nat) (c : ClassName) : u.walk n c = t.walk n c := by
    induction n generalizing c with
    | zero => rfl
    | succ n ih =>
      unfold ClassTable.walk
      rw [h.parent?]
      cases t.parent? c with
      | none => rfl
      | some p => exact congrArg (c :: ·) (ih p)
  funext c
  unfold ClassTable.lineage
  rw [h.size, walk]

theorem findMethod? (h : t.Alike u) : u.findMethod? = t.findMethod? := by
  funext c name
  unfold ClassTable.findMethod?
  rw [h.lineage, h.get?]

theorem findAttribute? (h : t.Alike u) : u.findAttribute? = t.findAttribute? := by
  funext c name
  unfold ClassTable.findAttribute?
  rw [h.lineage, h.get?]

theorem allAttributes (h : t.Alike u) : u.allAttributes = t.allAttributes := by
  funext c
  unfold ClassTable.allAttributes
  rw [h.lineage, h.get?]

theorem conforms (h : t.Alike u) : u.conforms = t.conforms := by
  funext sub sup self
  unfold ClassTable.conforms
  rw [h.lineage]

theorem join (h : t.Alike u) : u.join = t.join := by
  funext a b self
  unfold ClassTable.join
  rw [h.lineage]

theorem slot? (h : t.Alike u) : u.slot? = t.slot? := by
  funext c name
  unfold ClassTable.slot?
  rw [h.allAttributes]

theorem objectSize (h : t.Alike u) : u.objectSize = t.objectSize := by
  funext c
  unfold ClassTable.objectSize
  rw [h.allAttributes]

end Alike

end ClassTable

section Permuted

open ClassTable

variable {classes classes' : List ClassDecl}

theorem lookup_perm {α β : Type} [BEq α] [LawfulBEq α] {xs ys : List (α × β)} (h : xs.Perm ys)
    (hn : (xs.map Prod.fst).Nodup) (a : α) : ys.lookup a = xs.lookup a := by
  have mem {xs : List (α × β)} (hn : (xs.map Prod.fst).Nodup) {b : β} :
      xs.lookup a = some b ↔ (a, b) ∈ xs := by
    refine ⟨fun found => ?_, Outlines.lookup_of_nodup hn⟩
    obtain ⟨before, after, rfl, _⟩ := List.lookup_eq_some_iff.mp found
    exact List.mem_append_right before List.mem_cons_self
  refine Option.ext fun b => ?_
  rw [mem ((h.map _).nodup_iff.mp hn), mem hn, h.mem_iff]

theorem tableOf_perm (h : classes.Perm classes') :
    (tableOf classes).classes.Perm (tableOf classes').classes :=
  (h.map _).append_left _

theorem tableOf_alike (h : classes.Perm classes') (declarable : Declarable classes) :
    (tableOf classes).Alike (tableOf classes') where
  size := (tableOf_perm h).length_eq.symm
  get? := funext (lookup_perm (tableOf_perm h) (tableOf_nodup declarable))

theorem IsClass.perm (h : classes.Perm classes') {c : ClassName} (hc : IsClass classes c) :
    IsClass classes' c :=
  hc.imp_right fun ⟨d, hd, same⟩ => ⟨d, h.mem_iff.mp hd, same⟩

theorem Inherits.perm (h : classes.Perm classes') {c p : ClassName} (hc : Inherits classes c p) :
    Inherits classes' c p :=
  hc.imp fun _ hd => ⟨h.mem_iff.mp hd.1, hd.2⟩

theorem Hierarchical.perm (h : classes.Perm classes') (hc : Hierarchical classes) :
    Hierarchical classes' where
  distinct := (h.map _).nodup_iff.mp hc.distinct
  reserved c mem := hc.reserved c (h.mem_iff.mpr mem)
  methods c mem := hc.methods c (h.mem_iff.mpr mem)
  parents c mem p hp := (hc.parents c (h.mem_iff.mpr mem) p hp).imp_right (IsClass.perm h)
  acyclic c cycle := hc.acyclic c (TransGen.mono (fun _ _ => Inherits.perm h.symm) _ _ cycle)

theorem Enterable.perm (h : classes.Perm classes') (hc : Enterable classes) :
    Enterable classes' where
  types c mem a ha := (hc.types c (h.mem_iff.mpr mem) a ha).imp_right (IsClass.perm h)
  distinct c mem := hc.distinct c (h.mem_iff.mpr mem)
  apart c mem d mem' path := hc.apart c (h.mem_iff.mpr mem) d (h.mem_iff.mpr mem')
    (TransGen.mono (fun _ _ => Inherits.perm h.symm) _ _ path)

end Permuted

end Cool
