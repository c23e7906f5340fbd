import Cool.Proofs.Class.Slots

/-!
The slots of objects. Attributes are entered parents first, each under a name that no ancestor has.
So an object begins with the slots of its parent, the attributes that its class declares come behind
them, and the name of an attribute stands for the same slot in all descendants.
-/
namespace Cool

def ClassDecl.fields (c : ClassDecl) : List (Bytes × ClassName) :=
  c.attributes.map fun a => (a.name.text, a.type.className)

def declaredAttributes (classes : List ClassDecl) (c : ClassName) : List (Bytes × ClassName) :=
  (classes.find? (·.className = c)).elim [] ClassDecl.fields

section Declared

variable {classes more : List ClassDecl} {c : ClassName}

theorem declaredAttributes_eq_nil (h : ∀ d ∈ classes, d.className ≠ c) :
    declaredAttributes classes c = [] := by
  have none : classes.find? (·.className = c) = none :=
    List.find?_eq_none.mpr fun d hd => by simp [h d hd]
  rw [declaredAttributes, none]
  rfl

theorem declaredAttributes_of_mem (hn : (classes.map ClassDecl.className).Nodup) {d : ClassDecl}
    (hd : d ∈ classes) : declaredAttributes classes d.className = d.fields := by
  unfold declaredAttributes
  cases found : classes.find? (·.className = d.className) with
  | none =>
    have absent := List.find?_eq_none.mp found d hd
    simp at absent
  | some b =>
    have same := List.find?_some found
    have mem := List.mem_of_find?_eq_some found
    rw [List.inj_on_of_nodup_map hn mem hd (of_decide_eq_true same)]
    rfl

theorem declaredAttributes_perm (hn : (classes.map ClassDecl.className).Nodup)
    (h : more.Perm classes) (c : ClassName) :
    declaredAttributes more c = declaredAttributes classes c := by
  by_cases declared : ∃ d ∈ classes, d.className = c
  · obtain ⟨d, hd, rfl⟩ := declared
    rw [declaredAttributes_of_mem hn hd,
      declaredAttributes_of_mem ((h.map _).nodup_iff.mpr hn) (h.mem_iff.mpr hd)]
  · have absent : ∀ d ∈ classes, d.className ≠ c := fun d hd same => declared ⟨d, hd, same⟩
    rw [declaredAttributes_eq_nil absent,
      declaredAttributes_eq_nil fun d hd => absent d (h.mem_iff.mp hd)]

end Declared

namespace ClassTable

def ownAttributes (t : ClassTable) (c : ClassName) : List (Bytes × ClassName) :=
  (t.get? c).elim [] (·.attributes)

def ownNames (t : ClassTable) (c : ClassName) : List Bytes := (t.ownAttributes c).map Prod.fst

def Apart (t : ClassTable) : Prop :=
  ∀ c, ∀ d ∈ t.lineage c, d ≠ c → ∀ n ∈ t.ownNames c, n ∉ t.ownNames d

variable {t u v : ClassTable} {c d : ClassName} {classes : List ClassDecl}

theorem ownAttribute?_eq_lookup (t : ClassTable) (c : ClassName) (name : Bytes) :
    t.ownAttribute? c name = (t.ownAttributes c).lookup name := by
  unfold ownAttribute? ownAttributes
  cases t.get? c <;> rfl

theorem findAttribute?_eq_none {name : Bytes} :
    t.findAttribute? c name = none ↔ ∀ d ∈ t.lineage c, name ∉ t.ownNames d := by
  rw [← Option.map_eq_none_iff (f := Prod.snd), findAttribute?_type, List.findSome?_eq_none_iff]
  refine forall₂_congr fun d _ => ?_
  rw [ownAttribute?_eq_lookup, lookup_eq_none_iff_not_mem]
  rfl

theorem Grows.lineage (h : t.Grows u) (c : ClassName) : u.lineage c = t.lineage c := by
  have walk (n : Nat) (c : ClassName) : u.walk n c = t.walk n c := by
    induction n generalizing c with
    | zero => rfl
    | succ n ih =>
      unfold ClassTable.walk
      rw [h.parent]
      cases t.parent? c with
      | none => rfl
      | some p => exact congrArg (c :: ·) (ih p)
  unfold ClassTable.lineage
  rw [h.size, walk]

theorem Grows.depth (h : t.Grows u) (c : ClassName) : u.depth c = t.depth c := by
  unfold ClassTable.depth
  rw [h.lineage]

section Enter

structure Enters (c : ClassName) (fields : List (Bytes × ClassName)) (t u : ClassTable) : Prop where
  grows : t.Grows u
  own : u.ownAttributes c = t.ownAttributes c ++ fields
  others : ∀ d ≠ c, u.ownAttributes d = t.ownAttributes d
  /-- The names stay apart where no descendant has attributes yet. -/
  apart : (∀ e, c ∈ t.lineage e → e ≠ c → t.ownAttributes e = []) → t.Apart → u.Apart

theorem Enters.refl (c : ClassName) (t : ClassTable) : Enters c [] t t :=
  ⟨.refl t, (List.append_nil _).symm, fun _ _ => rfl, fun _ => id⟩

theorem Enters.trans {xs ys : List (Bytes × ClassName)} (h : Enters c xs t u)
    (h' : Enters c ys u v) : Enters c (xs ++ ys) t v where
  grows := h.grows.trans h'.grows
  own := by rw [h'.own, h.own, List.append_assoc]
  others d hd := (h'.others d hd).trans (h.others d hd)
  apart below apart := by
    refine h'.apart (fun e he ne => ?_) (h.apart below apart)
    rw [h.others e ne]
    exact below e (h.grows.lineage e ▸ he) ne

theorem addAttribute?_own {name : Bytes} {type : ClassName}
    (h : t.addAttribute? c name type = some u) :
    u.ownAttributes c = t.ownAttributes c ++ [(name, type)] ∧
      ∀ d ≠ c, u.ownAttributes d = t.ownAttributes d := by
  obtain ⟨e, he, _, rfl⟩ := addAttribute?_eq_some.mp h
  unfold ownAttributes
  constructor
  · rw [get?_replace, he]
    simp
  · intro d hd
    rw [get?_replace]
    cases t.get? d with
    | none => rfl
    | some old => simp [hd]

/-- An attribute is entered behind those of its class, under a name that is new to the class and its
ancestors. -/
theorem enterAttribute_enters {a : Attribute} (h : (enterAttribute c a).run t = .ok () u)
    (known : t.contains c = true) : Enters c [(a.name.text, a.type.className)] t u := by
  obtain ⟨_, absent, rfl⟩ := enterAttribute_eq_ok.mp h
  have new := findAttribute?_eq_none.mp absent
  cases added : t.addAttribute? c a.name.text a.type.className with
  | none =>
    have present := findAttribute?_isSome (ownAttribute?_of_addAttribute?_eq_none added known)
    rw [absent] at present
    cases present
  | some w =>
    have grows := (addAttribute?_grows added).1
    obtain ⟨own, others⟩ := addAttribute?_own added
    rw [Option.getD_some]
    refine ⟨grows, own, others, fun below apart e d hd ne n hn => ?_⟩
    rw [grows.lineage] at hd
    by_cases isOwn : e = c
    · subst isOwn
      unfold ownNames at hn ⊢
      rw [others d ne]
      rw [own, List.map_append, List.mem_append] at hn
      rcases hn with hn | hn
      · exact apart e d hd ne n hn
      · cases List.mem_singleton.mp hn
        exact new d hd
    · have same : w.ownNames e = t.ownNames e := congrArg (List.map Prod.fst) (others e isOwn)
      rw [same] at hn
      by_cases above : d = c
      · subst above
        unfold ownNames at hn
        rw [below e hd isOwn] at hn
        cases hn
      · unfold ownNames
        rw [others d above]
        exact apart e d hd ne n hn

theorem enterAll_enters {as : List Attribute}
    (h : (as.forM (enterAttribute c)).run t = .ok () u) (known : t.contains c = true) :
    Enters c (as.map fun a => (a.name.text, a.type.className)) t u := by
  induction as generalizing t with
  | nil =>
    cases h
    exact .refl _ _
  | cons a as ih =>
    rw [List.forM_eq_forM, List.forM_cons] at h
    obtain ⟨_, w, first, rest⟩ := run_bind_eq_ok.mp h
    have entered := enterAttribute_enters first known
    exact entered.trans (ih rest ((entered.grows.contains c).trans known))

end Enter

section Order

/-- Where classes are entered in the order of their depth, each gets the attributes that it
declares, and they stay apart from those of its ancestors. -/
theorem Outlines.enter_inOrder (h : t.Outlines classes) (entered todo : List ClassDecl)
    (ran : (todo.forM fun c => c.attributes.forM (enterAttribute c.className)).run u = .ok () v)
    (hierarchy : ∀ c, u.lineage c = t.lineage c) (known : ∀ c ∈ todo, u.contains c.className = true)
    (order : t.Ordered (entered ++ todo)) (distinct : ((entered ++ todo).map (·.className)).Nodup)
    (own : ∀ c, u.ownAttributes c = declaredAttributes entered c) (apart : u.Apart) :
    (∀ c, v.ownAttributes c = declaredAttributes (entered ++ todo) c) ∧ v.Apart := by
  induction todo generalizing entered u with
  | nil =>
    cases ran
    rw [List.append_nil]
    exact ⟨own, apart⟩
  | cons c todo ih =>
    rw [List.forM_eq_forM, List.forM_cons] at ran
    obtain ⟨_, w, first, rest⟩ := run_bind_eq_ok.mp ran
    rw [List.forall_mem_cons] at known
    have enters := enterAll_enters first known.1
    have new : ∀ d ∈ entered, d.className ≠ c.className := by
      rw [List.map_append, List.nodup_append] at distinct
      exact fun d hd => distinct.2.2 _ (List.mem_map_of_mem hd) _ List.mem_cons_self
    -- Descendants are deeper than `c`, so they come later.
    have below : ∀ e, c.className ∈ u.lineage e → e ≠ c.className → u.ownAttributes e = [] := by
      intro e he ne
      rw [own]
      refine declaredAttributes_eq_nil fun d hd same => ?_
      subst same
      have deeper := h.depth_lt (hierarchy _ ▸ he) (Ne.symm ne)
      have before := (List.pairwise_append.mp order).2.2 d hd c List.mem_cons_self
      omega
    have regroup : entered ++ c :: todo = (entered ++ [c]) ++ todo := by simp
    rw [regroup] at order distinct ⊢
    refine ih (entered ++ [c]) rest (fun d => (enters.grows.lineage d).trans (hierarchy d))
      (fun d hd => (enters.grows.contains _).trans (known.2 d hd)) order distinct (fun d => ?_)
      (enters.apart below apart)
    have distinct := (List.map_append ▸ distinct).of_append_left
    by_cases isOwn : d = c.className
    · subst isOwn
      rw [enters.own, own, declaredAttributes_eq_nil new,
        declaredAttributes_of_mem distinct (List.mem_append_right _ List.mem_cons_self)]
      rfl
    · rw [enters.others d isOwn, own]
      unfold declaredAttributes
      rw [List.find?_append]
      simp [Ne.symm isOwn]

theorem le_key_trans {α : Type} (k : α → Nat) (x y z : α) (hxy : decide (k x ≤ k y) = true)
    (hyz : decide (k y ≤ k z) = true) : decide (k x ≤ k z) = true :=
  decide_eq_true (Nat.le_trans (of_decide_eq_true hxy) (of_decide_eq_true hyz))

theorem le_key_total {α : Type} (k : α → Nat) (x y : α) :
    (decide (k x ≤ k y) || decide (k y ≤ k x)) = true := by
  simpa using Nat.le_total (k x) (k y)

theorem hierarchyOrder_ordered (t : ClassTable) (classes : List ClassDecl) :
    t.Ordered (t.hierarchyOrder classes) :=
  (List.pairwise_mergeSort (le_key_trans fun c : ClassDecl => t.depth c.className)
    (le_key_total _) classes).imp of_decide_eq_true

theorem build_ownAttributes (h : build classes = .ok t) (c : ClassName) :
    t.ownAttributes c = [] := by
  obtain ⟨_, _, rfl⟩ := build_eq_ok.mp h
  have fixed : ∀ p ∈ builtin.classes, p.2.attributes = [] := by decide
  unfold ownAttributes
  cases found : (builtin.declared classes).get? c with
  | none => rfl
  | some e =>
    rcases List.mem_append.mp (mem_of_get? found) with mem | mem
    · exact fixed _ mem
    · obtain ⟨d, _, same⟩ := List.mem_map.mp mem
      cases same
      rfl

theorem Outlines.className_nodup (h : t.Outlines classes) :
    (classes.map ClassDecl.className).Nodup := by
  have distinct := h.distinct
  rw [outlinesOf, List.map_append, List.map_map] at distinct
  exact (List.nodup_append.mp distinct).2.1

/-- Classes whose attributes have been entered have those that they declare, each under a name that
no ancestor has. -/
theorem ownAttributes_of_entered (built : build classes = .ok u)
    (entered : (enterAttributes classes).run u = .ok () t) :
    (∀ c, t.ownAttributes c = declaredAttributes classes c) ∧ t.Apart := by
  have outlines := (outlines_of_build built).of_enterAttributes entered
  have grows := (enterAttributes_ok entered).1
  unfold enterAttributes at entered
  obtain ⟨_, _, hg, ran⟩ := run_bind_eq_ok.mp entered
  cases hg
  have perm : (u.hierarchyOrder classes).Perm classes := List.mergeSort_perm _ _
  have order : t.Ordered (u.hierarchyOrder classes) :=
    (hierarchyOrder_ordered u classes).imp fun hle => by rwa [grows.depth, grows.depth]
  have nothing := build_ownAttributes built
  have apart : u.Apart := by
    intro c d _ _ n hn
    rw [ownNames, nothing] at hn
    cases hn
  have distinct := outlines.className_nodup
  obtain ⟨own, apart⟩ := outlines.enter_inOrder [] _ ran (fun c => (grows.lineage c).symm)
    (fun c hc => ((build_ok built).2 c (perm.mem_iff.mp hc)).2.2) order
    ((perm.map _).nodup_iff.mpr distinct) nothing apart
  exact ⟨fun c => (own c).trans (declaredAttributes_perm distinct perm c), apart⟩

theorem ownAttributes_of_typecheck (h : typecheck classes = .ok t) :
    (∀ c, t.ownAttributes c = declaredAttributes classes c) ∧ t.Apart := by
  obtain ⟨u, built, entered, _⟩ := typecheck_eq_ok.mp h
  exact ownAttributes_of_entered built entered

end Order

section Slots

theorem allAttributes_eq_flatMap (t : ClassTable) (c : ClassName) :
    t.allAttributes c = (t.lineage c).reverse.flatMap t.ownAttributes := by
  unfold allAttributes
  congr 1
  funext d
  unfold ownAttributes
  cases t.get? d <;> rfl

theorem Outlines.allAttributes_eq (h : t.Outlines classes) (c : ClassName) : t.allAttributes c =
    (t.parent? c).elim [] t.allAttributes ++ t.ownAttributes c := by
  rw [allAttributes_eq_flatMap, h.lineage_eq c, List.reverse_cons, List.flatMap_append,
    List.flatMap_singleton]
  cases t.parent? c with
  | none => rfl
  | some p => exact congrArg (· ++ _) (allAttributes_eq_flatMap t p).symm

theorem mem_allAttributes {a : Bytes × ClassName} :
    a ∈ t.allAttributes c ↔ ∃ d ∈ t.lineage c, a ∈ t.ownAttributes d := by
  rw [allAttributes_eq_flatMap]
  simp only [List.mem_flatMap, List.mem_reverse]

theorem Regular.ownNames_nodup (h : t.Regular) (c : ClassName) : (t.ownNames c).Nodup := by
  unfold ownNames ownAttributes
  cases found : t.get? c with
  | none => exact List.nodup_nil
  | some e => exact h.attributes _ (mem_of_get? found)

theorem Outlines.allAttributes_nodup (h : t.Outlines classes) (regular : t.Regular)
    (apart : t.Apart) (c : ClassName) : ((t.allAttributes c).map Prod.fst).Nodup := by
  induction hn : (t.lineage c).length using Nat.strong_induction_on generalizing c with
  | _ n ih =>
    rw [h.allAttributes_eq, List.map_append]
    cases hp : t.parent? c with
    | none => exact regular.ownNames_nodup c
    | some p =>
      have longer : (t.lineage c).length = (t.lineage p).length + 1 := by
        rw [h.lineage_eq c, hp]
        rfl
      refine List.nodup_append.mpr ⟨ih _ (by omega) p rfl, regular.ownNames_nodup c, ?_⟩
      rintro _ inherited n own rfl
      obtain ⟨a, ha, rfl⟩ := List.mem_map.mp inherited
      obtain ⟨d, hd, ha⟩ := mem_allAttributes.mp ha
      have above : d ∈ t.lineage c := by
        rw [h.lineage_eq c, hp]
        exact List.mem_cons_of_mem _ hd
      have other : d ≠ c := by
        rintro rfl
        have shorter := (h.lineage_suffix hd).length_le
        omega
      exact apart c d above other _ own (List.mem_map_of_mem ha)

theorem slot?_iff (hn : ((t.allAttributes c).map Prod.fst).Nodup) {name : Bytes} {i : Nat}
    {type : ClassName} :
    t.slot? c name = some (i, type) ↔ (t.allAttributes c)[i]? = some (name, type) := by
  refine ⟨slot?_eq_some, fun there => ?_⟩
  have found : (t.slot? c name).isSome := by
    unfold slot?
    rw [Option.isSome_map, List.find?_isSome]
    refine ⟨(i, name, type), List.mem_reverse.mpr (List.mem_mapIdx.mpr ?_), decide_eq_true rfl⟩
    obtain ⟨hi, eq⟩ := List.getElem?_eq_some_iff.mp there
    exact ⟨i, hi, by rw [eq]⟩
  obtain ⟨⟨j, type'⟩, found⟩ := Option.isSome_iff_exists.mp found
  have names {k : Nat} {type : ClassName} (hk : (t.allAttributes c)[k]? = some (name, type)) :
      ((t.allAttributes c).map Prod.fst)[k]? = some name := by
    rw [List.getElem?_map, hk]
    rfl
  have there' := slot?_eq_some found
  have inside := (List.getElem?_eq_some_iff.mp (names there)).1
  have same : i = j := (List.getElem?_inj inside hn).mp ((names there).trans (names there').symm)
  subst same
  cases there.symm.trans there'
  exact found

end Slots

end ClassTable

open ClassTable

section Layout

variable {t : ClassTable} {classes : List ClassDecl} {c p : ClassName}

def ClassTable.inheritedAttributes (t : ClassTable) (c : ClassName) : List (Bytes × ClassName) :=
  (t.parent? c).elim [] t.allAttributes

structure ClassTable.ExtendsSlots (t : ClassTable) (classes : List ClassDecl) (c p : ClassName) :
    Prop where
  attributes : t.allAttributes c = t.allAttributes p ++ declaredAttributes classes c
  distinct : ((t.allAttributes c).map Prod.fst).Nodup
  /-- What is visible in the parent has the same slot and type. -/
  inherited : ∀ name, (t.findAttribute? p name).isSome →
    (t.slot? p name).isSome ∧ t.slot? c name = t.slot? p name
  bounded : ∀ name i type, t.slot? c name = some (i, type) → i < t.objectSize c
  absent : ∀ name, t.findAttribute? c name = none → t.slot? c name = none
  /-- What is found has the slot of its declaration, behind those that its owner inherits. -/
  found : ∀ name owner type, t.findAttribute? c name = some (owner, type) →
    ∃ k, (declaredAttributes classes owner)[k]? = some (name, type) ∧
      t.slot? c name = some ((t.inheritedAttributes owner).length + k, type)

theorem owner_of_findAttribute? {name : Bytes} {owner type : ClassName}
    (h : t.findAttribute? c name = some (owner, type)) :
    owner ∈ t.lineage c ∧ (name, type) ∈ t.ownAttributes owner := by
  obtain ⟨d, hd, found⟩ := List.exists_of_findSome?_eq_some h
  simp only [Option.bind_eq_bind, Option.bind_eq_some_iff] at found
  obtain ⟨e, he, type', own, same⟩ := found
  cases same
  refine ⟨hd, ?_⟩
  rw [ownAttributes, he]
  obtain ⟨before, after, whole, _⟩ := List.lookup_eq_some_iff.mp own
  change (name, type) ∈ e.attributes
  exact whole ▸ List.mem_append_right _ List.mem_cons_self

theorem slot?_of_findAttribute? (h : typecheck classes = .ok t) {name : Bytes}
    {owner type : ClassName} (found : t.findAttribute? c name = some (owner, type)) :
    ∃ k, (declaredAttributes classes owner)[k]? = some (name, type) ∧
      t.slot? c name = some ((t.inheritedAttributes owner).length + k, type) := by
  have outlines := outlines_of_typecheck h
  obtain ⟨own, apart⟩ := ownAttributes_of_typecheck h
  obtain ⟨above, mem⟩ := owner_of_findAttribute? found
  rw [own] at mem
  obtain ⟨k, hk⟩ := List.getElem?_of_mem mem
  refine ⟨k, hk, (slot?_iff (outlines.allAttributes_nodup (typecheck_ok h).1 apart c)).mpr ?_⟩
  refine Bril.getElem?_of_prefix (outlines.allAttributes_prefix above) ?_
  rw [outlines.allAttributes_eq, own, inheritedAttributes, List.getElem?_append_right (by omega),
    Nat.add_sub_cancel_left, hk]

/-- Objects of a class extend those of its parent. -/
theorem typecheck_extends (h : typecheck classes = .ok t) (hp : t.parent? c = some p) :
    t.ExtendsSlots classes c p := by
  have outlines := outlines_of_typecheck h
  obtain ⟨own, apart⟩ := ownAttributes_of_typecheck h
  have distinct := outlines.allAttributes_nodup (typecheck_ok h).1 apart c
  have attributes : t.allAttributes c = t.allAttributes p ++ declaredAttributes classes c := by
    rw [outlines.allAttributes_eq, hp, own]
    rfl
  refine ⟨attributes, distinct, ?_, ?_, ?_, fun _ _ _ => slot?_of_findAttribute? h⟩
  · intro name visible
    obtain ⟨⟨owner, type⟩, found⟩ := Option.isSome_iff_exists.mp visible
    obtain ⟨k, _, slot⟩ := slot?_of_findAttribute? h found
    rw [slot]
    refine ⟨rfl, (slot?_iff distinct).mpr ?_⟩
    exact Bril.getElem?_of_prefix (attributes ▸ List.prefix_append _ _) (slot?_eq_some slot)
  · intro name i type slot
    have inside := (List.getElem?_eq_some_iff.mp (slot?_eq_some slot)).1
    exact Nat.lt_of_lt_of_le inside (Nat.le_max_left _ _)
  · intro name absent
    have types := slot?_type (typecheck_ok h).1 c name
    rw [absent] at types
    exact Option.map_eq_none_iff.mp types

/-- A program with a row of three classes, of which the first and the last have attributes. -/
def extending : SourceFiles := .ofLines [
  "class Main \x7b main() : Int \x7b 0 \x7d; \x7d;",
  "class A \x7b a : Int; b : Bool; \x7d;",
  "class B inherits A \x7b \x7d;",
  "class C inherits B \x7b c : Int; f() : Int \x7b a \x7d; d : A; \x7d;"]

theorem extending_accepted :
    Accepted extending (SourceFiles.classes extending) (SourceFiles.tableInOrder extending) :=
  SourceFiles.accepted_inOrder (by decide +kernel)

theorem typecheck_extends_extending :
    (SourceFiles.tableInOrder extending).parent? (.named (ascii "C")) = some (.named (ascii "B")) ∧
    (SourceFiles.tableInOrder extending).ExtendsSlots (SourceFiles.classes extending)
      (.named (ascii "C")) (.named (ascii "B")) := by
  have parent : (SourceFiles.tableInOrder extending).parent? (.named (ascii "C")) =
      some (.named (ascii "B")) := by
    decide +kernel
  exact ⟨parent, typecheck_extends extending_accepted.typed parent⟩

end Layout

end Cool
