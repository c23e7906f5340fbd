import Cool.Proofs.Class.Ancestors
import Cool.Proofs.Class.Layout

/-!
The entries of an accepted table. Each class has its parent, its methods and its attributes as they
are declared, and what is asked of attributes depends on the hierarchy alone: the order in which
they are entered shows neither in the table nor in whether it is accepted.
-/
namespace Cool

open Relation (TransGen ReflTransGen)

structure Enterable (classes : List ClassDecl) : Prop where
  types : ∀ c ∈ classes, ∀ a ∈ c.attributes,
    a.type.className = .selfType ∨ IsClass classes a.type.className
  distinct : ∀ c ∈ classes, (c.fields.map Prod.fst).Nodup
  apart : ∀ c ∈ classes, ∀ d ∈ classes, TransGen (Inherits classes) c.className d.className →
    ∀ n ∈ c.fields.map Prod.fst, n ∉ d.fields.map Prod.fst

namespace ClassTable

def tableOf (classes : List ClassDecl) : ClassTable :=
  ⟨builtin.classes ++
    classes.map fun c => (c.className, ⟨some c.parentName, c.signatures, c.fields⟩)⟩

variable {t u v : ClassTable} {classes : List ClassDecl} {c d : ClassName}

section Entries

theorem eq_of_lookup {α β : Type} [BEq α] [LawfulBEq α] {xs ys : List (α × β)}
    (names : xs.map Prod.fst = ys.map Prod.fst) (hn : (xs.map Prod.fst).Nodup)
    (same : ∀ a, xs.lookup a = ys.lookup a) : xs = ys := by
  induction xs generalizing ys with
  | nil => exact (List.map_eq_nil_iff.mp names.symm).symm
  | cons x xs ih =>
    obtain _ | ⟨y, ys⟩ := ys
    · cases names
    obtain ⟨a, b⟩ := x
    obtain ⟨a', b'⟩ := y
    simp only [List.map_cons, List.cons.injEq] at names
    obtain ⟨rfl, names⟩ := names
    rw [List.map_cons, List.nodup_cons] at hn
    have value := same a
    simp only [List.lookup_cons_self, Option.some.injEq] at value
    subst value
    rw [ih names hn.2 fun k => ?_]
    by_cases h : k = a
    · subst h
      rw [lookup_eq_none_iff_not_mem.mpr hn.1, lookup_eq_none_iff_not_mem.mpr (names ▸ hn.1)]
    · have rest := same k
      rwa [List.lookup_cons, List.lookup_cons, beq_false_of_ne h] at rest

/-- An entry is the outline of a class and its attributes. -/
theorem get?_eq (outline : t.outline? c = u.outline? c)
    (own : t.ownAttributes c = u.ownAttributes c) : t.get? c = u.get? c := by
  unfold outline? at outline
  unfold ownAttributes at own
  cases ht : t.get? c with
  | none =>
    rw [ht] at outline
    exact (Option.map_eq_none_iff.mp outline.symm).symm
  | some e =>
    cases hu : u.get? c with
    | none =>
      rw [ht, hu] at outline
      cases outline
    | some e' =>
      rw [ht, hu] at outline own
      obtain ⟨_, _, _⟩ := e
      obtain ⟨_, _, _⟩ := e'
      cases outline
      cases own
      rfl

theorem tableOf_names (classes : List ClassDecl) : (tableOf classes).classes.map Prod.fst =
    builtin.classes.map Prod.fst ++ classes.map ClassDecl.className := by
  rw [tableOf, List.map_append, List.map_map]
  rfl

theorem tableOf_nodup (declarable : Declarable classes) :
    ((tableOf classes).classes.map Prod.fst).Nodup := by
  rw [tableOf_names]
  exact declared_nodup.mpr ⟨declarable.distinct, fun c hc => (declarable.reserved c hc).1⟩

theorem outline?_tableOf (classes : List ClassDecl) (c : ClassName) :
    (tableOf classes).outline? c = (outlinesOf classes).lookup c := by
  rw [outline?_eq_lookup]
  congr 1
  rw [outlines, tableOf, List.map_append, List.map_map]
  rfl

theorem get?_tableOf (declarable : Declarable classes) {d : ClassDecl} (hd : d ∈ classes) :
    (tableOf classes).get? d.className = some ⟨some d.parentName, d.signatures, d.fields⟩ :=
  Outlines.lookup_of_nodup (tableOf_nodup declarable)
    (List.mem_append_right _ (List.mem_map.mpr ⟨d, hd, rfl⟩))

theorem ownAttributes_tableOf (declarable : Declarable classes) (c : ClassName) :
    (tableOf classes).ownAttributes c = declaredAttributes classes c := by
  by_cases declared : ∃ d ∈ classes, d.className = c
  · obtain ⟨d, hd, rfl⟩ := declared
    rw [declaredAttributes_of_mem declarable.distinct hd, ownAttributes, get?_tableOf declarable hd]
    rfl
  · rw [declaredAttributes_eq_nil fun d hd same => declared ⟨d, hd, same⟩]
    have fixed : ∀ p ∈ builtin.classes, p.2.attributes = [] := by decide
    unfold ownAttributes
    cases found : (tableOf classes).get? c with
    | none => rfl
    | some e =>
      rcases List.mem_append.mp (mem_of_get? found) with mem | mem
      · exact fixed _ mem
      · obtain ⟨d, hd, same⟩ := List.mem_map.mp mem
        exact absurd ⟨d, hd, congrArg Prod.fst same⟩ declared

theorem enterAttribute_names {a : Attribute} (h : (enterAttribute c a).run t = .ok () u) :
    u.classes.map Prod.fst = t.classes.map Prod.fst := by
  obtain ⟨_, _, rfl⟩ := enterAttribute_eq_ok.mp h
  cases added : t.addAttribute? c a.name.text a.type.className with
  | none => rfl
  | some v =>
    obtain ⟨e, _, _, rfl⟩ := addAttribute?_eq_some.mp added
    rw [Option.getD_some, replace, List.map_map]
    rfl

theorem enterAttributes_names (h : (enterAttributes classes).run t = .ok () u) :
    u.classes.map Prod.fst = t.classes.map Prod.fst :=
  (enterAttributes_run (R := fun t u => u.classes.map Prod.fst = t.classes.map Prod.fst)
    (P := fun _ _ _ => True) (fun _ => rfl) (fun h h' => h'.trans h) (fun _ _ => trivial)
    (fun h => ⟨enterAttribute_names h, trivial⟩) h).1

theorem eq_tableOf (built : build classes = .ok u)
    (entered : (enterAttributes classes).run u = .ok () t) : t = tableOf classes := by
  have outlines := (outlines_of_build built).of_enterAttributes entered
  have own := (ownAttributes_of_entered built entered).1
  obtain ⟨declarable, _, rfl⟩ := build_eq_ok.mp built
  have names : t.classes.map Prod.fst = (tableOf classes).classes.map Prod.fst := by
    rw [enterAttributes_names entered, tableOf_names, declared, List.map_append, List.map_map]
    rfl
  have distinct : (t.classes.map Prod.fst).Nodup := names ▸ tableOf_nodup declarable
  have same : t.classes = (tableOf classes).classes := by
    refine eq_of_lookup names distinct fun c => get?_eq ?_ ?_
    · rw [outlines.outline?, outline?_tableOf]
    · rw [own, ownAttributes_tableOf declarable]
  exact congrArg ClassTable.mk same

end Entries

section Entered

/-- What stands above a class, but for the built-in classes, it inherits from. -/
theorem Outlines.inherits_of_above (h : t.Outlines classes) (declarable : Declarable classes)
    {e : ClassDecl} (he : e ∈ classes) (above : e.className ∈ t.lineage c) (ne : e.className ≠ c) :
    TransGen (Inherits classes) c e.className := by
  have path : TransGen (HasParent classes) c e.className := by
    refine TransGen.mono (fun _ _ => h.hasParent_iff.mp) _ _ ?_
    exact (Relation.reflTransGen_iff_eq_or_transGen.mp (h.mem_lineage_iff.mp above)).resolve_left ne
  refine transGen_inherits (fun d hd => (declarable.reserved d hd).1) path fun same => ?_
  exact Bool.false_ne_true
    ((declarable.reserved e he).1.symm.trans (congrArg ClassName.isBuiltin same))

theorem Outlines.above_of_inherits (h : t.Outlines classes)
    (path : TransGen (Inherits classes) c d) : d ∈ t.lineage c ∧ d ≠ c := by
  have path := TransGen.mono (fun _ _ step => h.hasParent_iff.mpr (.inl step)) _ _ path
  refine ⟨h.mem_lineage_iff.mpr path.to_reflTransGen, ?_⟩
  rintro rfl
  exact h.not_above_self path

/-- Attributes of a class are entered if their types are known and their names are new. -/
theorem enterAll_complete {as : List Attribute}
    (types : ∀ a ∈ as, a.type.className = .selfType ∨ t.contains a.type.className = true)
    (known : t.contains c = true)
    (distinct : (t.ownNames c ++ as.map (·.name.text)).Nodup)
    (apart : ∀ d ∈ t.lineage c, d ≠ c → ∀ a ∈ as, a.name.text ∉ t.ownNames d) :
    ∃ u, (as.forM (enterAttribute c)).run t = .ok () u := by
  induction as generalizing t with
  | nil => exact ⟨t, rfl⟩
  | cons a as ih =>
    rw [List.forall_mem_cons] at types
    have new : ∀ d ∈ t.lineage c, a.name.text ∉ t.ownNames d := by
      intro d hd mem
      by_cases same : d = c
      · subst same
        exact (List.nodup_append.mp distinct).2.2 _ mem _ List.mem_cons_self rfl
      · exact apart d hd same a List.mem_cons_self mem
    have first := enterAttribute_eq_ok.mpr ⟨types.1, findAttribute?_eq_none.mpr new, rfl⟩
    have enters := enterAttribute_enters first known
    obtain ⟨v, rest⟩ := ih (fun b hb => (types.2 b hb).imp_right (enters.grows.contains _).trans)
      ((enters.grows.contains c).trans known)
      (by simpa [ownNames, enters.own, List.append_assoc] using distinct) fun d hd ne b hb => by
        rw [ownNames, enters.others d ne]
        exact apart d (enters.grows.lineage c ▸ hd) ne b (List.mem_cons_of_mem a hb)
    exact ⟨v, run_bind_eq_ok.mpr ⟨(), _, first, rest⟩⟩

theorem Outlines.contains_of_isClass (h : t.Outlines classes) (declarable : Declarable classes)
    (hd : IsClass classes d) : t.contains d = true := by
  rcases hd with isBuiltin | ⟨e, he, rfl⟩
  · cases d with
    | builtin b => exact h.contains_builtin b
    | named _ | selfType => cases isBuiltin
  · exact (h.contains_iff_mem (declarable.reserved e he).1).mpr ⟨e, he, rfl⟩

structure Entering (t : ClassTable) (classes todo : List ClassDecl) (u : ClassTable) : Prop where
  grows : t.Grows u
  new : ∀ c ∈ todo, u.ownAttributes c.className = []
  few : ∀ c, u.ownAttributes c ⊆ declaredAttributes classes c

namespace Entering

variable {todo : List ClassDecl} {c : ClassDecl}

theorem contains (h : t.Entering classes todo u) (outlines : t.Outlines classes)
    (declarable : Declarable classes) (hd : IsClass classes d) : u.contains d = true :=
  (h.grows.contains d).trans (outlines.contains_of_isClass declarable hd)

/-- The attributes of a class have other names than those that are entered above it. -/
theorem apart (h : t.Entering classes todo u) (outlines : t.Outlines classes)
    (declarable : Declarable classes) (enterable : Enterable classes) (hc : c ∈ classes) :
    ∀ d ∈ u.lineage c.className, d ≠ c.className → ∀ a ∈ c.attributes,
      a.name.text ∉ u.ownNames d := by
  intro d hd ne a ha mem
  obtain ⟨p, hp, named⟩ := List.mem_map.mp mem
  have hp := h.few d hp
  rw [h.grows.lineage] at hd
  by_cases isDeclared : ∃ e ∈ classes, e.className = d
  · obtain ⟨e, he, rfl⟩ := isDeclared
    have own : a.name.text ∈ c.fields.map Prod.fst :=
      List.mem_map.mpr ⟨_, List.mem_map_of_mem ha, rfl⟩
    rw [declaredAttributes_of_mem declarable.distinct he] at hp
    exact enterable.apart c hc e he (outlines.inherits_of_above declarable he hd ne) _ own
      (List.mem_map.mpr ⟨p, hp, named⟩)
  · rw [declaredAttributes_eq_nil fun e he same => isDeclared ⟨e, he, same⟩] at hp
    cases hp

theorem step (h : t.Entering classes (c :: todo) u) (outlines : t.Outlines classes)
    (declarable : Declarable classes) (enterable : Enterable classes) (hc : c ∈ classes)
    (once : c.className ∉ todo.map ClassDecl.className) :
    ∃ v, (c.attributes.forM (enterAttribute c.className)).run u = .ok () v ∧
      t.Entering classes todo v := by
  have known : u.contains c.className = true := h.contains outlines declarable (.inr ⟨c, hc, rfl⟩)
  have empty : u.ownAttributes c.className = [] := h.new c List.mem_cons_self
  have distinct : (u.ownNames c.className ++ c.attributes.map (·.name.text)).Nodup := by
    rw [ownNames, empty]
    simpa [ClassDecl.fields, Function.comp_def] using enterable.distinct c hc
  obtain ⟨v, ran⟩ := enterAll_complete
    (fun a ha => (enterable.types c hc a ha).imp_right (h.contains outlines declarable)) known
    distinct (h.apart outlines declarable enterable hc)
  have enters := enterAll_enters ran known
  refine ⟨v, ran, h.grows.trans enters.grows, fun d hd => ?_, fun d => ?_⟩
  · rw [enters.others _ fun same => once (List.mem_map.mpr ⟨d, hd, same⟩)]
    exact h.new d (List.mem_cons_of_mem c hd)
  · by_cases same : d = c.className
    · subst same
      rw [enters.own, empty, declaredAttributes_of_mem declarable.distinct hc]
      exact List.Subset.refl _
    · rw [enters.others d same]
      exact h.few d

/-- The attributes of the classes that are to do can be entered, in any order of the classes. -/
theorem complete (h : t.Entering classes todo u) (outlines : t.Outlines classes)
    (declarable : Declarable classes) (enterable : Enterable classes)
    (subset : ∀ c ∈ todo, c ∈ classes) (once : (todo.map ClassDecl.className).Nodup) :
    ∃ v, (todo.forM fun c => c.attributes.forM (enterAttribute c.className)).run u = .ok () v := by
  induction todo generalizing u with
  | nil => exact ⟨u, rfl⟩
  | cons c todo ih =>
    rw [List.forall_mem_cons] at subset
    rw [List.map_cons, List.nodup_cons] at once
    obtain ⟨v, first, entering⟩ := h.step outlines declarable enterable subset.1 once.1
    obtain ⟨w, rest⟩ := ih entering subset.2 once.2
    exact ⟨w, run_bind_eq_ok.mpr ⟨(), v, first, rest⟩⟩

end Entering

end Entered

section Accepted

theorem enterable_of_entered (built : build classes = .ok u)
    (entered : (enterAttributes classes).run u = .ok () t) : Enterable classes := by
  have outlines := (outlines_of_build built).of_enterAttributes entered
  have regular := (enterAttributes_ok entered).1.regular (build_ok built).1
  obtain ⟨own, apart⟩ := ownAttributes_of_entered built entered
  obtain ⟨declarable, _, rfl⟩ := build_eq_ok.mp built
  have names {c : ClassDecl} (hc : c ∈ classes) :
      t.ownNames c.className = c.fields.map Prod.fst := by
    rw [ownNames, own, declaredAttributes_of_mem declarable.distinct hc]
  refine ⟨fun c hc a ha => ?_, fun c hc => ?_, fun c hc d hd path => ?_⟩
  · obtain ⟨grows, types⟩ := enterAttributes_run (R := Grows)
      (P := fun _ a u => a.type.className = .selfType ∨ u.contains a.type.className = true)
      Grows.refl Grows.trans (fun g p => p.imp_right (g.contains _).trans)
      (fun ha => ⟨(enterAttribute_ok ha).1, (enterAttribute_eq_ok.mp ha).1.imp_right
        ((enterAttribute_ok ha).1.contains _).trans⟩) entered
    exact (types c hc a ha).imp_right fun known =>
      contains_declared.mp ((grows.contains _).symm.trans known)
  · exact names hc ▸ regular.ownNames_nodup c.className
  · obtain ⟨above, ne⟩ := outlines.above_of_inherits path
    rw [← names hc, ← names hd]
    exact apart _ _ above ne

/-- Classes are accepted if they can stand below the built-in ones, if their attributes can be
entered, and if each is right in the table of all. -/
theorem typecheck_eq_ok_tableOf : typecheck classes = .ok t ↔ Hierarchical classes ∧
    Enterable classes ∧ (∀ c ∈ classes, c.check t = .ok ()) ∧ t = tableOf classes := by
  rw [typecheck_eq_ok]
  constructor
  · rintro ⟨u, built, entered, checked⟩
    exact ⟨(build_eq_ok_hierarchical.mp built).1, enterable_of_entered built entered, checked,
      eq_tableOf built entered⟩
  · rintro ⟨hierarchical, enterable, checked, rfl⟩
    have declarable := hierarchical.toDeclarable
    have built := build_eq_ok_hierarchical.mpr ⟨hierarchical, rfl⟩
    have nothing := build_ownAttributes built
    have perm : ((builtin.declared classes).hierarchyOrder classes).Perm classes :=
      List.mergeSort_perm _ _
    have start : (builtin.declared classes).Entering classes
        ((builtin.declared classes).hierarchyOrder classes) (builtin.declared classes) :=
      ⟨.refl _, fun c _ => nothing _, fun c => by rw [nothing]; exact List.nil_subset _⟩
    obtain ⟨v, ran⟩ := start.complete (outlines_of_build built) declarable enterable
      (fun c hc => perm.mem_iff.mp hc) ((perm.map _).nodup_iff.mpr declarable.distinct)
    have entered : (enterAttributes classes).run (builtin.declared classes) = .ok () v :=
      run_bind_eq_ok.mpr ⟨_, _, rfl, ran⟩
    obtain rfl := eq_tableOf built entered
    exact ⟨_, built, entered, checked⟩

end Accepted

end ClassTable

end Cool
