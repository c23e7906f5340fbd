import Cool.Proofs.Bril.RegisterTypes
import Cool.Proofs.Class.Hierarchy
import Cool.Proofs.Typing.Checked

/-!
What the slots of objects hold, by the attributes of their classes. An object can be used for one of
an ancestor, whose slots come first. A slot for `SELF_TYPE` holds objects of another class in each
of the classes that have it, so nothing but the same slots will do for it.
-/
namespace Cool

open Bril (Layout Under)

/-- The class that an object must be of to be a value of a class. Built-in classes have no slots,
and their values need not be objects. -/
def ClassName.kind : ClassName → Option ClassName
  | .builtin _ => none
  | c => some c

theorem ClassName.kind_of_not_builtin {c : ClassName} (h : c.isBuiltin = false) :
    c.kind = some c := by
  cases c with
  | builtin _ => cases h
  | named _ | selfType => rfl

theorem ClassName.kind_of_builtin {c : ClassName} (h : c.isBuiltin = true) : c.kind = none := by
  cases c with
  | builtin _ => rfl
  | named _ | selfType => cases h

theorem ClassName.kind_of_default? {c : ClassName} {v : Bril.Literal} (h : c.default? = some v) :
    c.kind = none := by
  cases c with
  | builtin _ => rfl
  | named _ | selfType => cases h

namespace ClassTable

variable {t : ClassTable} {classes : List ClassDecl} {b c d : ClassName}

structure Stands (t : ClassTable) (c d : ClassName) : Prop where
  slots : t.allAttributes d <+: t.allAttributes c
  selfType : .selfType ∈ (t.allAttributes d).map Prod.snd → t.allAttributes c = t.allAttributes d
  builtin : c.isBuiltin = d.isBuiltin

namespace Stands

theorem refl (t : ClassTable) (c : ClassName) : t.Stands c c :=
  ⟨List.prefix_refl _, fun _ => rfl, rfl⟩

theorem trans (h : t.Stands b c) (h' : t.Stands c d) : t.Stands b d where
  slots := h'.slots.trans h.slots
  selfType hs := by
    have same := h'.selfType hs
    exact (h.selfType (same ▸ hs)).trans same
  builtin := h.builtin.trans h'.builtin

theorem of_eq (h : t.allAttributes c = t.allAttributes d) (hb : c.isBuiltin = d.isBuiltin) :
    t.Stands c d :=
  ⟨h ▸ List.prefix_refl _, fun _ => h, hb⟩

theorem under (h : t.Stands c d) : Under t.Stands c.kind d.kind := by
  cases hd : d.isBuiltin with
  | true =>
    rw [ClassName.kind_of_builtin hd]
    exact nofun
  | false =>
    rw [ClassName.kind_of_not_builtin hd, ClassName.kind_of_not_builtin (h.builtin.trans hd)]
    exact fun _ same => ⟨c, rfl, Option.some.inj same ▸ h⟩

end Stands

/-- The slots of the objects of each class. -/
def layout (t : ClassTable) : Layout ClassName where
  slots c := (t.allAttributes c).map fun a => (a.2.resolve c).kind
  Below := t.Stands
  refl := .refl t
  trans := .trans
  slot {c d i k} h hk := by
    rw [List.getElem?_map, Option.map_eq_some_iff] at hk
    obtain ⟨⟨name, type⟩, ha, rfl⟩ := hk
    refine ⟨(type.resolve c).kind, ?_, ?_⟩
    · rw [List.getElem?_map, Bril.getElem?_of_prefix h.slots ha]
      rfl
    · cases type with
      | builtin _ => exact ⟨nofun, nofun⟩
      | named name => exact ⟨(Stands.refl t _).under, (Stands.refl t _).under⟩
      | selfType =>
        have same := h.selfType (List.mem_map.mpr ⟨_, List.mem_of_getElem? ha, rfl⟩)
        exact ⟨h.under, (Stands.of_eq same.symm h.builtin.symm).under⟩

structure Unextended (t : ClassTable) (c : ClassName) : Prop where
  notBuiltin : c.isBuiltin = false
  descendant : ∀ d, c ∈ t.lineage d → t.allAttributes d = t.allAttributes c

/-- Whether classes with attributes of type `SELF_TYPE` are not extended. -/
def SelfAttributesKept (t : ClassTable) (classes : List ClassDecl) : Prop :=
  ∀ c ∈ classes, .selfType ∈ (t.allAttributes c.className).map Prod.snd → t.Unextended c.className

namespace Outlines

theorem notBuiltin_of_mem_lineage (h : t.Outlines classes) (hd : d.isBuiltin = false)
    (mem : d ∈ t.lineage c) : c.isBuiltin = false := by
  cases c with
  | named _ | selfType => rfl
  | builtin b =>
    have above (b : Builtin) : (t.parent? (.builtin b)).elim [] t.lineage ⊆ [.object] := by
      rw [h.parent?_builtin]
      split
      · exact List.nil_subset _
      · change t.lineage (.builtin .object) ⊆ _
        rw [h.lineage_eq, h.parent?_builtin]
        exact List.Subset.refl _
    rw [h.lineage_eq] at mem
    rcases List.mem_cons.mp mem with rfl | mem
    · exact hd
    · cases List.mem_singleton.mp (above b mem)
      cases hd

theorem contains_of_mem_lineage (h : t.Outlines classes) (hc : t.contains c = true)
    (hd : d ∈ t.lineage c) : t.contains d = true := by
  have walk (n : Nat) {c : ClassName} (hc : t.contains c = true) (hd : d ∈ t.walk n c) :
      t.contains d = true := by
    induction n generalizing c with
    | zero => cases hd
    | succ n ih =>
      unfold ClassTable.walk at hd
      rcases List.mem_cons.mp hd with rfl | hd
      · exact hc
      · cases hp : t.parent? c with
        | none =>
          rw [hp] at hd
          cases hd
        | some p =>
          rw [hp] at hd
          exact ih (h.contains_parent hp) hd
  exact walk _ hc hd

theorem slot?_own (h : t.Outlines classes) (regular : t.Regular) {name : Bytes} {i : Nat}
    {type type' : ClassName} (own : t.ownAttribute? c name = some type)
    (slot : t.slot? c name = some (i, type')) : type' = type := by
  have types := (slot?_type regular c name).trans (findAttribute?_type c name)
  rw [slot, h.lineage_eq, List.findSome?_cons, own] at types
  exact Option.some.inj types

/-- Objects can be used for those of an ancestor. -/
theorem under (h : t.Outlines classes) (kept : t.SelfAttributesKept classes)
    (hd : d ∈ t.lineage c) : Under t.Stands c.kind d.kind := by
  cases hb : d.isBuiltin with
  | true =>
    rw [ClassName.kind_of_builtin hb]
    exact nofun
  | false =>
    have user := h.notBuiltin_of_mem_lineage hb hd
    refine Stands.under ⟨h.allAttributes_prefix hd, fun hs => ?_, user.trans hb.symm⟩
    have above := hd
    rw [h.lineage_eq] at above
    rcases List.mem_cons.mp above with rfl | above
    · rfl
    · cases hp : t.parent? c with
      | none =>
        rw [hp] at above
        cases above
      | some p =>
        rw [hp] at above
        have known := h.contains_of_mem_lineage (h.contains_parent hp) above
        obtain ⟨e, he, rfl⟩ := (h.contains_iff_mem hb).mp known
        exact (kept e he hs).descendant c hd

theorem under_conforms (h : t.Outlines classes) (kept : t.SelfAttributesKept classes)
    {sub sup self : ClassName} (fits : t.conforms sub sup self = true) :
    Under t.Stands (sub.resolve self).kind (sup.resolve self).kind :=
  h.under kept (conforms_iff.mp fits)

theorem under_descendant (h : t.Outlines classes) (hc : t.Unextended c) (hd : c ∈ t.lineage d) :
    Under t.Stands c.kind d.kind := by
  have user := h.notBuiltin_of_mem_lineage hc.notBuiltin hd
  exact (Stands.of_eq (hc.descendant d hd).symm (hc.notBuiltin.trans user.symm)).under

theorem unextended_descendant (h : t.Outlines classes) (hc : t.Unextended c)
    (hd : c ∈ t.lineage d) : t.Unextended d where
  notBuiltin := h.notBuiltin_of_mem_lineage hc.notBuiltin hd
  descendant e he :=
    (hc.descendant e (h.lineage_trans he hd)).trans (hc.descendant d hd).symm

theorem under_join (h : t.Outlines classes) (kept : t.SelfAttributesKept classes)
    (a b self : ClassName) : Under t.Stands (a.resolve self).kind (t.join a b self).kind ∧
      Under t.Stands (b.resolve self).kind (t.join a b self).kind := by
  unfold join
  dsimp only
  split
  · rename_i same
    rw [← same]
    exact ⟨Under.refl (L := t.layout) _, Under.refl (L := t.layout) _⟩
  split
  · exact ⟨nofun, nofun⟩
  cases found : (t.lineage (a.resolve self)).find? fun c => (t.lineage (b.resolve self)).contains c
    with
  | none => exact ⟨nofun, nofun⟩
  | some d =>
    have common := List.find?_some found
    exact ⟨h.under kept (List.mem_of_find?_eq_some found),
      h.under kept (List.contains_iff_mem.mp common)⟩

end Outlines

end ClassTable

end Cool
