import Cool.Proofs.Class.Accepted

/-!
Where the classes of a table come from. The table of a program has the built-in classes and then
those of the program, each with its parent and its methods as they were declared.
-/
namespace Cool

namespace ClassTable

abbrev Outline := Option ClassName × List (Bytes × MethodType)

def outline? (t : ClassTable) (c : ClassName) : Option Outline :=
  (t.get? c).map fun e => (e.parent, e.methods)

def outlines (t : ClassTable) : List (ClassName × Outline) :=
  t.classes.map fun (c, e) => (c, e.parent, e.methods)

def outlinesOf (classes : List ClassDecl) : List (ClassName × Outline) :=
  builtin.outlines ++ classes.map fun c => (c.className, some c.parentName, c.signatures)

variable {t u : ClassTable}

theorem outline?_eq_lookup (t : ClassTable) (c : ClassName) : t.outline? c = t.outlines.lookup c :=
  (lookup_map_snd (fun _ (e : ClassEntry) => (e.parent, e.methods)) c t.classes).symm

theorem parent?_eq_outline? (t : ClassTable) (c : ClassName) :
    t.parent? c = (t.outline? c).bind Prod.fst := by
  unfold parent? outline?
  cases t.get? c <;> rfl

theorem contains_eq_outline? (t : ClassTable) (c : ClassName) :
    t.contains c = (t.outline? c).isSome := by
  unfold contains outline?
  rw [Option.isSome_map]

section Enter

theorem enterAttribute_outline? {c : ClassName} {a : Attribute}
    (h : (enterAttribute c a).run t = .ok () u) : u.outline? = t.outline? := by
  obtain ⟨_, _, rfl⟩ := enterAttribute_eq_ok.mp h
  cases added : t.addAttribute? c a.name.text a.type.className with
  | none => rfl
  | some v =>
    obtain ⟨e, he, _, rfl⟩ := addAttribute?_eq_some.mp added
    funext d
    change (t.replace c _).outline? d = t.outline? d
    unfold outline?
    rw [get?_replace]
    by_cases same : d = c
    · subst same
      simp [he]
    · simp [same]

theorem enterAttributes_outline? {classes : List ClassDecl}
    (h : (enterAttributes classes).run t = .ok () u) : u.outline? = t.outline? :=
  (enterAttributes_run (R := fun t u => u.outline? = t.outline?) (P := fun _ _ _ => True)
    (fun _ => rfl) (fun h h' => h'.trans h) (fun _ _ => trivial)
    (fun h => ⟨enterAttribute_outline? h, trivial⟩) h).1

end Enter

theorem Grows.cycleThrough? (h : t.Grows u) (c : ClassName) :
    u.cycleThrough? c = t.cycleThrough? c := by
  have from_ (n : Nat) (met : List ClassName) (d : ClassName) :
      u.cycleFrom c n met d = t.cycleFrom c n met d := by
    induction n generalizing met d with
    | zero => rfl
    | succ n ih =>
      unfold ClassTable.cycleFrom
      rw [h.parent]
      cases t.parent? d with
      | none => rfl
      | some p => simp only [ih]
  unfold ClassTable.cycleThrough?
  rw [h.size, from_]

structure Outlines (t : ClassTable) (classes : List ClassDecl) : Prop where
  outline? : ∀ c, t.outline? c = (outlinesOf classes).lookup c
  distinct : ((outlinesOf classes).map Prod.fst).Nodup
  methods : ∀ c ∈ classes, (c.signatures.map Prod.fst).Nodup
  parents : ∀ c ∈ classes, t.contains c.parentName = true
  acyclic : ∀ c ∈ classes, t.cycleThrough? c.className = none

theorem outlines_of_build {classes : List ClassDecl} (h : build classes = .ok t) :
    t.Outlines classes := by
  obtain ⟨declarable, acyclic, rfl⟩ := build_eq_ok.mp h
  have names : (outlinesOf classes).map Prod.fst =
      builtin.classes.map Prod.fst ++ classes.map ClassDecl.className := by
    rw [outlinesOf, List.map_append, List.map_map]
    rfl
  have whole : (builtin.declared classes).outlines = outlinesOf classes := by
    rw [outlines, declared, List.map_append, List.map_map]
    rfl
  refine ⟨fun c => ?_, ?_, fun c hc => ?_, fun c hc => ?_, acyclic⟩
  · rw [outline?_eq_lookup, whole]
  · rw [names]
    exact declared_nodup.mpr ⟨declarable.distinct, fun c hc => (declarable.reserved c hc).1⟩
  · rw [ClassDecl.signatures, List.map_map]
    exact declarable.methods c hc
  · exact contains_declared.mpr (declarable.parentName c hc).2

theorem Outlines.of_enterAttributes {classes entered : List ClassDecl} (h : t.Outlines classes)
    (ran : (enterAttributes entered).run t = .ok () u) : u.Outlines classes where
  outline? c := by rw [enterAttributes_outline? ran, h.outline?]
  distinct := h.distinct
  methods := h.methods
  parents c hc := ((enterAttributes_ok ran).1.contains _).trans (h.parents c hc)
  acyclic c hc := ((enterAttributes_ok ran).1.cycleThrough? _).trans (h.acyclic c hc)

theorem outlines_of_typecheck {classes : List ClassDecl} (h : typecheck classes = .ok t) :
    t.Outlines classes := by
  obtain ⟨u, built, entered, _⟩ := typecheck_eq_ok.mp h
  exact (outlines_of_build built).of_enterAttributes entered

theorem isBuiltin_of_outline? {c : ClassName} {o : Outline}
    (h : ClassTable.builtin.outline? c = some o) : c.isBuiltin = true := by
  have fixed : ∀ p ∈ ClassTable.builtin.outlines, p.1.isBuiltin = true := by decide
  rw [outline?_eq_lookup] at h
  obtain ⟨before, after, heq, _⟩ := List.lookup_eq_some_iff.mp h
  exact fixed (c, o) (heq ▸ List.mem_append_right before List.mem_cons_self)

namespace Outlines

variable {classes : List ClassDecl}

theorem lookup_of_nodup {α β : Type} [BEq α] [LawfulBEq α] {xs : List (α × β)} {a : α} {b : β}
    (hn : (xs.map Prod.fst).Nodup) (h : (a, b) ∈ xs) : xs.lookup a = some b := by
  obtain ⟨before, after, rfl⟩ := List.append_of_mem h
  rw [List.map_append, List.map_cons, List.nodup_append] at hn
  refine List.lookup_eq_some_iff.mpr ⟨before, after, rfl, fun p hp => ?_⟩
  have apart := hn.2.2 p.1 (List.mem_map.mpr ⟨p, hp, rfl⟩) a List.mem_cons_self
  simpa using Ne.symm apart

theorem of_mem (h : t.Outlines classes) {c : ClassDecl} (hc : c ∈ classes) :
    t.outline? c.className = some (some c.parentName, c.signatures) := by
  rw [h.outline?]
  refine lookup_of_nodup h.distinct (List.mem_append_right _ ?_)
  exact List.mem_map.mpr ⟨c, hc, rfl⟩

theorem parent_of_get? (h : t.Outlines classes) {c : ClassDecl} (hc : c ∈ classes) {e : ClassEntry}
    (found : t.get? c.className = some e) : e.parent = some c.parentName := by
  have outline := h.of_mem hc
  unfold ClassTable.outline? at outline
  rw [found] at outline
  exact congrArg Prod.fst (Option.some.inj outline)

theorem builtin_or_mem (h : t.Outlines classes) {c : ClassName} {o : Outline}
    (ho : t.outline? c = some o) :
    ClassTable.builtin.outline? c = some o ∨ ∃ d ∈ classes, d.className = c := by
  rw [h.outline?, outlinesOf, List.lookup_append, Option.or_eq_some_iff] at ho
  rw [outline?_eq_lookup]
  refine ho.imp id fun ⟨_, found⟩ => ?_
  obtain ⟨before, after, heq, _⟩ := List.lookup_eq_some_iff.mp found
  obtain ⟨d, hd, same⟩ := List.mem_map.mp (heq ▸ List.mem_append_right before List.mem_cons_self)
  exact ⟨d, hd, congrArg Prod.fst same⟩

theorem className_inj (h : t.Outlines classes) {c d : ClassDecl} (hc : c ∈ classes)
    (hd : d ∈ classes) (same : c.className = d.className) : c = d := by
  have distinct := h.distinct
  rw [outlinesOf, List.map_append, List.map_map] at distinct
  exact List.inj_on_of_nodup_map (List.nodup_append.mp distinct).2.1 hc hd same

theorem method_inj (h : t.Outlines classes) {c : ClassDecl} (hc : c ∈ classes) {m n : Method}
    (hm : m ∈ c.methods) (hn : n ∈ c.methods) (same : m.name.text = n.name.text) : m = n := by
  have distinct := h.methods c hc
  rw [ClassDecl.signatures, List.map_map] at distinct
  exact List.inj_on_of_nodup_map distinct hm hn same

theorem contains_iff_mem (h : t.Outlines classes) {c : ClassName} (hc : c.isBuiltin = false) :
    t.contains c = true ↔ ∃ d ∈ classes, d.className = c := by
  rw [contains_eq_outline?]
  constructor
  · intro known
    obtain ⟨o, ho⟩ := Option.isSome_iff_exists.mp known
    exact (h.builtin_or_mem ho).resolve_left fun found =>
      Bool.false_ne_true (hc.symm.trans (isBuiltin_of_outline? found))
  · rintro ⟨d, hd, rfl⟩
    rw [h.of_mem hd]
    rfl

theorem findMethod?_eq_some (h : t.Outlines classes) {c owner : ClassName} {name : Bytes}
    {m : MethodType} (found : t.findMethod? c name = some (owner, m)) : owner ∈ t.lineage c ∧
      ((∃ o, ClassTable.builtin.outline? owner = some o ∧ o.2.lookup name = some m) ∨
        ∃ d ∈ classes, d.className = owner ∧ ∃ k ∈ d.methods, k.name.text = name ∧ k.type = m) := by
  obtain ⟨d, hd, found⟩ := List.exists_of_findSome?_eq_some found
  simp only [Option.bind_eq_bind, Option.bind_eq_some_iff] at found
  obtain ⟨e, he, k, hk, same⟩ := found
  cases same
  refine ⟨hd, ?_⟩
  have ho : t.outline? owner = some (e.parent, e.methods) := by
    unfold ClassTable.outline?
    rw [he]
    rfl
  refine (h.builtin_or_mem ho).imp (fun builtin => ⟨(e.parent, e.methods), builtin, hk⟩) ?_
  rintro ⟨d, known, rfl⟩
  have methods : d.signatures = e.methods :=
    congrArg Prod.snd (Option.some.inj ((h.of_mem known).symm.trans ho))
  obtain ⟨before, after, heq, _⟩ := List.lookup_eq_some_iff.mp hk
  rw [← methods] at heq
  obtain ⟨n, hn, same⟩ := List.mem_map.mp (heq ▸ List.mem_append_right before List.mem_cons_self)
  cases same
  exact ⟨d, known, rfl, n, hn, rfl, rfl⟩

end Outlines

end ClassTable

theorem Accepted.outlines {files : SourceFiles} {classes : List ClassDecl} {t : ClassTable}
    (h : Accepted files classes t) : t.Outlines classes :=
  ClassTable.outlines_of_typecheck h.typed

end Cool
