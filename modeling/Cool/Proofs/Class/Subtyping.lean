import Cool.Proofs.Class.Ancestors
import Cool.Proofs.Class.Slots

/-!
Subtypes. The classes of a table are a tree with `Object` at its root, and a class conforms to those
on its way up to it. The join of two declared classes is where their ways meet.
-/
namespace Cool.ClassTable

structure SubtypeTree (t : ClassTable) (self : ClassName) : Prop where
  refl : ∀ c, t.conforms c c self = true
  trans : ∀ a b c, t.conforms a b self = true → t.conforms b c self = true →
    t.conforms a c self = true
  antisymm : ∀ a b, t.conforms a b self = true → t.conforms b a self = true →
    a.resolve self = b.resolve self
  top : ∀ c, t.contains (c.resolve self) = true → t.conforms c .object self = true
  total : ∀ c a b, t.conforms c a self = true → t.conforms c b self = true →
    t.conforms a b self = true ∨ t.conforms b a self = true

structure LeastUpperBounds (t : ClassTable) (self : ClassName) : Prop where
  comm : ∀ a b, t.join a b self = t.join b a self
  upper : ∀ a b, t.contains (a.resolve self) = true → t.contains (b.resolve self) = true →
    t.conforms a (t.join a b self) self = true ∧ t.conforms b (t.join a b self) self = true
  least : ∀ a b d, (a.resolve self).isBuiltin = false → (b.resolve self).isBuiltin = false →
    t.conforms a d self = true → t.conforms b d self = true →
    t.conforms (t.join a b self) d self = true

variable {t : ClassTable} {classes : List ClassDecl} {a b c d self : ClassName}

theorem object_mem_lineage (h : t.Climbs classes c) : .object ∈ t.lineage c :=
  List.mem_of_getLast? h.last

/-- The first class that two lineages share, from the one to the other. -/
def meeting? (t : ClassTable) (a b : ClassName) : Option ClassName :=
  (t.lineage a).find? fun c => (t.lineage b).contains c

theorem mem_of_meeting? (h : t.meeting? a b = some c) : c ∈ t.lineage a ∧ c ∈ t.lineage b :=
  ⟨List.mem_of_find?_eq_some h, List.contains_iff_mem.mp (List.find?_some h)⟩

def common (t : ClassTable) (a b : ClassName) : ClassName :=
  if a = b then a
  else if a.isBuiltin || b.isBuiltin then .object
  else (t.meeting? a b).getD .object

theorem join_eq_common (t : ClassTable) (a b self : ClassName) :
    t.join a b self = t.common (a.resolve self) (b.resolve self) := rfl

namespace Outlines

theorem lineage_antisymm (h : t.Outlines classes) (ha : a ∈ t.lineage b) (hb : b ∈ t.lineage a) :
    a = b := by
  by_contra apart
  have shorter := h.length_lineage_lt ha apart
  exact absurd (h.lineage_suffix hb).length_le (Nat.not_le_of_lt shorter)

theorem lineage_total (h : t.Outlines classes) (ha : a ∈ t.lineage c) (hb : b ∈ t.lineage c) :
    a ∈ t.lineage b ∨ b ∈ t.lineage a := by
  rcases List.suffix_or_suffix_of_suffix (h.lineage_suffix ha) (h.lineage_suffix hb) with up | up
  · exact .inl (up.subset (t.mem_lineage_self a))
  · exact .inr (up.subset (t.mem_lineage_self b))

/-- The first class of a kind in a lineage is below all others of the kind in it. -/
theorem find?_lineage (h : t.Outlines classes) {p : ClassName → Bool} (hd : d ∈ t.lineage a)
    (hp : p d = true) : ∃ c, (t.lineage a).find? p = some c ∧ d ∈ t.lineage c := by
  induction hn : (t.lineage a).length using Nat.strong_induction_on generalizing a with
  | _ n ih =>
    cases first : p a with
    | true =>
      refine ⟨a, ?_, hd⟩
      rw [h.lineage_eq, List.find?_cons_of_pos first]
    | false =>
      have apart : d ≠ a := by
        rintro rfl
        exact Bool.false_ne_true (first.symm.trans hp)
      obtain ⟨q, hq, above⟩ := h.mem_parent_lineage hd apart
      have up : t.lineage a = a :: t.lineage q := by
        rw [h.lineage_eq a, hq]
        rfl
      have shorter : (t.lineage q).length < n := by
        rw [← hn, up]
        exact Nat.lt_succ_self _
      obtain ⟨c, found, below⟩ := ih _ shorter above rfl
      refine ⟨c, ?_, below⟩
      rwa [up, List.find?_cons_of_neg (by simp [first])]

theorem meeting?_of_mem (h : t.Outlines classes) (ha : d ∈ t.lineage a) (hb : d ∈ t.lineage b) :
    ∃ c, t.meeting? a b = some c ∧ d ∈ t.lineage c :=
  h.find?_lineage ha (List.contains_iff_mem.mpr hb)

theorem meeting?_comm (h : t.Outlines classes) (a b : ClassName) :
    t.meeting? a b = t.meeting? b a := by
  have side {a b c : ClassName} (hc : t.meeting? a b = some c) : t.meeting? b a = some c := by
    obtain ⟨inA, inB⟩ := mem_of_meeting? hc
    obtain ⟨d, hd, above⟩ := h.meeting?_of_mem inB inA
    obtain ⟨e, he, below⟩ := h.meeting?_of_mem (mem_of_meeting? hd).2 (mem_of_meeting? hd).1
    cases he.symm.trans hc
    rwa [h.lineage_antisymm above below]
  cases hab : t.meeting? a b with
  | some c => exact (side hab).symm
  | none =>
    cases hba : t.meeting? b a with
    | none => rfl
    | some d => exact absurd ((side hba).symm.trans hab) (Option.some_ne_none d)

theorem common_comm (h : t.Outlines classes) (a b : ClassName) : t.common a b = t.common b a := by
  unfold common
  rw [h.meeting?_comm, Bool.or_comm]
  by_cases same : a = b
  · rw [if_pos same, if_pos same.symm, same]
  · rw [if_neg same, if_neg (Ne.symm same)]

theorem common_mem_lineage (h : t.Outlines classes) (ha : t.contains a = true) :
    t.common a b ∈ t.lineage a := by
  have top := object_mem_lineage (h.climbs ha)
  unfold common
  split
  · exact t.mem_lineage_self a
  split
  · exact top
  cases hc : t.meeting? a b with
  | none => exact top
  | some c => exact (mem_of_meeting? hc).1

theorem contains_common (h : t.Outlines classes) (ha : t.contains a = true) :
    t.contains (t.common a b) = true :=
  h.contains_of_mem_lineage ha (h.common_mem_lineage ha)

theorem mem_lineage_common (h : t.Outlines classes) (ha : a.isBuiltin = false)
    (hb : b.isBuiltin = false) (inA : d ∈ t.lineage a) (inB : d ∈ t.lineage b) :
    d ∈ t.lineage (t.common a b) := by
  unfold common
  rw [ha, hb]
  split
  · exact inA
  · obtain ⟨c, hc, below⟩ := h.meeting?_of_mem inA inB
    rw [hc]
    exact below

end Outlines

theorem resolve_join (regular : t.Regular) (a b self : ClassName) :
    (t.join a b self).resolve self = t.join a b self := by
  by_cases hs : self = .selfType
  · subst hs
    cases t.join a b .selfType <;> rfl
  · exact ClassName.resolve_eq_self (join_ne_selfType regular hs a b)

/-- The classes of a table are a tree, and their joins its least upper bounds. -/
theorem subtypes_of_build (h : build classes = .ok t) (self : ClassName) :
    t.SubtypeTree self ∧ t.LeastUpperBounds self := by
  have outlines := outlines_of_build h
  constructor
  · constructor <;> simp only [conforms_iff]
    · exact fun c => t.mem_lineage_self _
    · exact fun a b c hab hbc => outlines.lineage_trans hab hbc
    · exact fun a b hab hba => outlines.lineage_antisymm hba hab
    · exact fun c hc => object_mem_lineage (outlines.climbs hc)
    · exact fun c a b ha hb => (outlines.lineage_total ha hb).symm
  · refine ⟨fun a b => outlines.common_comm _ _, ?_, ?_⟩ <;>
      simp only [conforms_iff, resolve_join (build_ok h).1]
    · intro a b ha hb
      refine ⟨outlines.common_mem_lineage ha, ?_⟩
      rw [join_eq_common, outlines.common_comm]
      exact outlines.common_mem_lineage hb
    · exact fun a b d ha hb inA inB => outlines.mem_lineage_common ha hb inA inB

/-- A program in which two classes have a parent that inherits from a built-in class. -/
def forked : SourceFiles := .ofLines [
  "class Left inherits Root \x7b \x7d;",
  "class Right inherits Root \x7b \x7d;",
  "class Root inherits IO \x7b \x7d;"]

theorem subtypes_of_build_forked : ∃ t, build (SourceFiles.classes forked) = .ok t ∧
    t.SubtypeTree (.named (ascii "Left")) ∧ t.LeastUpperBounds (.named (ascii "Left")) := by
  have made : (build (SourceFiles.classes forked)).toOption.isSome = true := by decide +kernel
  cases built : build (SourceFiles.classes forked) with
  | error e =>
    rw [built] at made
    cases made
  | ok t => exact ⟨t, rfl, subtypes_of_build built _⟩

end Cool.ClassTable
