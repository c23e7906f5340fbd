import Cool.Compile
import Cool.Proofs.Class.Declared
import Cool.Proofs.Tree.Parsed

/-!
What the table of an accepted program guarantees: it knows every declared class with its
attributes, no class descends from `SELF_TYPE`, and a slot has the type that its name has.
-/
namespace Cool

section Lists

variable {α β : Type} [BEq α] [LawfulBEq α]

theorem lookup_map_snd {γ : Type} (f : α → β → γ) (k : α) (xs : List (α × β)) :
    (xs.map fun (a, b) => (a, f a b)).lookup k = (xs.lookup k).map (f k) := by
  induction xs with
  | nil => rfl
  | cons x xs ih =>
    obtain ⟨a, b⟩ := x
    simp only [List.map_cons, List.lookup_cons]
    cases h : k == a with
    | true =>
      cases eq_of_beq h
      rfl
    | false => exact ih

/-- Without repeated keys, the last entry of a key is the first. -/
theorem find?_reverse_eq_lookup [DecidableEq α] {k : α} {xs : List (α × β)}
    (hn : (xs.map Prod.fst).Nodup) :
    (xs.reverse.find? fun x => x.1 = k).map Prod.snd = xs.lookup k := by
  induction xs with
  | nil => rfl
  | cons x xs ih =>
    obtain ⟨a, b⟩ := x
    rw [List.map_cons, List.nodup_cons] at hn
    rw [List.reverse_cons, List.find?_append, List.lookup_cons]
    cases h : k == a with
    | true =>
      cases eq_of_beq h
      have absent : xs.reverse.find? (fun x => x.1 = k) = none := by
        rw [List.find?_eq_none]
        intro x hx hk
        exact hn.1 (List.mem_map.mpr ⟨x, List.mem_reverse.mp hx, of_decide_eq_true hk⟩)
      simp [absent]
    | false =>
      have other : a ≠ k := fun e => by simp [e] at h
      rw [← ih hn.2]
      simp [other]

end Lists

namespace ClassTable

def ownAttribute? (t : ClassTable) (c : ClassName) (name : Bytes) : Option ClassName :=
  (t.get? c).bind (·.attribute? name)

structure Regular (t : ClassTable) : Prop where
  parent : ∀ p ∈ t.classes, p.2.parent ≠ some .selfType
  attributes : ∀ p ∈ t.classes, (p.2.attributes.map Prod.fst).Nodup

variable {t u : ClassTable}

theorem mem_of_get? {c : ClassName} {e : ClassEntry} (h : t.get? c = some e) :
    (c, e) ∈ t.classes := by
  obtain ⟨before, after, heq, _⟩ := List.lookup_eq_some_iff.mp h
  rw [heq]
  exact List.mem_append_right _ List.mem_cons_self

theorem contains_iff {c : ClassName} : t.contains c = true ↔ ∃ p ∈ t.classes, p.1 = c := by
  unfold contains get?
  rw [List.lookup_isSome_iff]
  exact exists_congr fun p => and_congr_right fun _ => by rw [beq_iff_eq, eq_comm]

theorem mem_lineage_self (t : ClassTable) (c : ClassName) : c ∈ t.lineage c := by
  unfold lineage
  obtain ⟨n, hn⟩ : ∃ n, max t.size 1 = n + 1 := ⟨max t.size 1 - 1, by omega⟩
  rw [hn]
  exact List.mem_cons_self

section Attributes

theorem findAttribute?_type (c : ClassName) (name : Bytes) :
    (t.findAttribute? c name).map Prod.snd =
      (t.lineage c).findSome? fun d => t.ownAttribute? d name := by
  unfold findAttribute? ownAttribute?
  rw [List.map_findSome?]
  congr 1
  funext d
  change ((t.get? d).bind fun e => (e.attribute? name).bind fun a => some (d, a)).map Prod.snd = _
  cases t.get? d with
  | none => rfl
  | some e =>
    change ((e.attribute? name).bind fun a => some (d, a)).map Prod.snd = e.attribute? name
    cases e.attribute? name <;> rfl

theorem findAttribute?_isSome {c : ClassName} {name : Bytes}
    (h : (t.ownAttribute? c name).isSome) : (t.findAttribute? c name).isSome := by
  rw [← Option.isSome_map, findAttribute?_type, List.findSome?_isSome_iff]
  exact ⟨c, mem_lineage_self t c, h⟩

/-- The slot of an attribute is that of the closest class that has one of its name. -/
theorem slot?_type (regular : t.Regular) (c : ClassName) (name : Bytes) :
    (t.slot? c name).map Prod.snd = (t.findAttribute? c name).map Prod.snd := by
  have numbered (xs : List (Bytes × ClassName)) :
      ((xs.mapIdx fun i a => (i, a)).reverse.find? fun p => p.2.1 = name).map Prod.snd =
        xs.reverse.find? fun a => a.1 = name := by
    have values : (xs.mapIdx fun i a => (i, a)).reverse.map Prod.snd = xs.reverse := by
      rw [List.map_reverse]
      exact congrArg List.reverse (List.ext_getElem (by simp) (by simp))
    rw [← values, List.find?_map]
    rfl
  calc (t.slot? c name).map Prod.snd
    _ = (((t.allAttributes c).mapIdx fun i a => (i, a)).reverse.find?
          fun p => p.2.1 = name).map fun x => x.2.2 := Option.map_map _ _ _
    _ = ((t.allAttributes c).reverse.find? fun a => a.1 = name).map Prod.snd := by
      rw [← numbered, Option.map_map]
      rfl
    _ = (t.lineage c).findSome? fun d => t.ownAttribute? d name := by
      unfold allAttributes
      rw [List.reverse_flatMap, List.reverse_reverse, List.find?_flatMap, List.map_findSome?]
      congr 1
      funext d
      simp only [Function.comp_apply]
      unfold ownAttribute?
      cases h : t.get? d with
      | none => rfl
      | some e => exact find?_reverse_eq_lookup (regular.attributes _ (mem_of_get? h))
    _ = (t.findAttribute? c name).map Prod.snd := (findAttribute?_type c name).symm

end Attributes

section Replace

theorem get?_replace (t : ClassTable) (c d : ClassName) (e : ClassEntry) :
    (t.replace c e).get? d = (t.get? d).map fun old => if d = c then e else old :=
  lookup_map_snd (fun d old => if d = c then e else old) d t.classes

theorem contains_replace (t : ClassTable) (c d : ClassName) (e : ClassEntry) :
    (t.replace c e).contains d = t.contains d := by
  unfold contains
  rw [get?_replace, Option.isSome_map]

structure Grows (t u : ClassTable) : Prop where
  size : u.size = t.size
  contains : ∀ c, u.contains c = t.contains c
  parent : ∀ c, u.parent? c = t.parent? c
  attributes : ∀ c n, ∀ a ∈ t.ownAttribute? c n, u.ownAttribute? c n = some a
  regular : t.Regular → u.Regular

theorem Grows.refl (t : ClassTable) : t.Grows t :=
  ⟨rfl, fun _ => rfl, fun _ => rfl, fun _ _ _ h => h, id⟩

theorem Grows.trans {v : ClassTable} (h : t.Grows u) (h' : u.Grows v) : t.Grows v where
  size := h'.size.trans h.size
  contains c := (h'.contains c).trans (h.contains c)
  parent c := (h'.parent c).trans (h.parent c)
  attributes c n a hn := h'.attributes c n a (h.attributes c n a hn)
  regular hr := h'.regular (h.regular hr)

/-- What has to be the same for the table to grow when an entry is replaced. -/
theorem replace_grows {c : ClassName} {e e' : ClassEntry} (he : t.get? c = some e)
    (parent : e'.parent = e.parent)
    (attributes : ∀ n, ∀ a ∈ e.attribute? n, e'.attribute? n = some a)
    (distinct : (e.attributes.map Prod.fst).Nodup → (e'.attributes.map Prod.fst).Nodup) :
    t.Grows (t.replace c e') where
  size := List.length_map _
  contains d := contains_replace t c d e'
  parent d := by
    unfold parent?
    rw [get?_replace]
    by_cases same : d = c
    · subst same
      simp [he, parent]
    · simp [same]
  attributes d n := by
    unfold ownAttribute?
    rw [get?_replace]
    by_cases same : d = c
    · subst same
      simpa [he] using attributes n
    · simp [same]
  regular hr := by
    have hc := mem_of_get? he
    constructor
    all_goals
      intro p hp
      obtain ⟨⟨d, old⟩, hd, rfl⟩ := List.mem_map.mp hp
      dsimp only
      split
    · exact parent ▸ hr.parent _ hc
    · exact hr.parent _ hd
    · exact distinct (hr.attributes _ hc)
    · exact hr.attributes _ hd

theorem addAttribute?_eq_some {c : ClassName} {name : Bytes} {type : ClassName} :
    t.addAttribute? c name type = some u ↔ ∃ e, t.get? c = some e ∧ e.attribute? name = none ∧
      u = t.replace c { e with attributes := e.attributes ++ [(name, type)] } := by
  unfold addAttribute? ClassEntry.addAttribute?
  cases t.get? c with
  | none => simp
  | some e => cases absent : e.attribute? name <;> simp [absent, eq_comm]

theorem addAttribute?_grows {c : ClassName} {name : Bytes} {type : ClassName}
    (h : t.addAttribute? c name type = some u) :
    t.Grows u ∧ u.ownAttribute? c name = some type := by
  obtain ⟨e, he, absent, rfl⟩ := addAttribute?_eq_some.mp h
  have lookup (n : Bytes) : (e.attributes ++ [(name, type)]).lookup n =
      ((e.attributes.lookup n).or (List.lookup n [(name, type)])) := List.lookup_append
  constructor
  · apply replace_grows he
    · rfl
    · intro n a hn
      unfold ClassEntry.attribute? at hn ⊢
      simp [lookup, Option.mem_def.mp hn]
    · intro hd
      rw [List.map_append]
      exact nodup_concat hd (lookup_eq_none_iff_not_mem.mp absent)
  · unfold ownAttribute? ClassEntry.attribute?
    rw [get?_replace]
    simp [he, lookup, show e.attributes.lookup name = none from absent]

theorem ownAttribute?_of_addAttribute?_eq_none {c : ClassName} {name : Bytes} {type : ClassName}
    (h : t.addAttribute? c name type = none) (known : t.contains c = true) :
    (t.ownAttribute? c name).isSome := by
  obtain ⟨e, he⟩ := Option.isSome_iff_exists.mp known
  unfold addAttribute? ClassEntry.addAttribute? at h
  unfold ownAttribute?
  cases present : e.attribute? name with
  | none => simp [he, present] at h
  | some a => simp [he, present]

end Replace

section Enter

def Entered (c : ClassName) (a : Attribute) (t : ClassTable) : Prop :=
  t.contains c = true → t.ownAttribute? c a.name.text = some a.type.className

theorem Grows.entered (h : t.Grows u) {c : ClassName} {a : Attribute} (he : Entered c a t) :
    Entered c a u := fun known => h.attributes _ _ _ (he (h.contains c ▸ known))

theorem enterAttribute_eq_ok {c : ClassName} {a : Attribute} :
    (enterAttribute c a).run t = .ok () u ↔
      (a.type.className = .selfType ∨ t.contains a.type.className = true) ∧
      t.findAttribute? c a.name.text = none ∧
      (t.addAttribute? c a.name.text a.type.className).getD t = u := by
  unfold enterAttribute
  rw [run_bind_eq_ok]
  constructor
  · rintro ⟨_, _, hg, h⟩
    cases hg
    dsimp only at h
    split at h
    · obtain ⟨_, _, hx, _⟩ := run_bind_eq_ok.mp h
      cases hx
    rename_i type
    split at h
    · cases h
    · rename_i absent
      cases h
      exact ⟨by simpa [or_iff_not_imp_left] using type, absent, rfl⟩
  · rintro ⟨type, absent, rfl⟩
    refine ⟨t, t, rfl, ?_⟩
    dsimp only
    rw [if_neg (by simpa [or_iff_not_imp_left] using type), absent]
    rfl

theorem enterAttribute_ok {c : ClassName} {a : Attribute}
    (h : (enterAttribute c a).run t = .ok () u) : t.Grows u ∧ Entered c a u := by
  obtain ⟨_, absent, rfl⟩ := enterAttribute_eq_ok.mp h
  cases added : t.addAttribute? c a.name.text a.type.className with
  | none =>
    refine ⟨.refl t, fun known => ?_⟩
    have present := findAttribute?_isSome (ownAttribute?_of_addAttribute?_eq_none added known)
    rw [absent] at present
    cases present
  | some v =>
    obtain ⟨grows, own⟩ := addAttribute?_grows added
    exact ⟨grows, fun _ => own⟩

/-- What entering an attribute brings about, and entering others does not undo, holds of all. -/
theorem enterAttributes_run {R : ClassTable → ClassTable → Prop}
    {P : ClassName → Attribute → ClassTable → Prop} (refl : ∀ t, R t t)
    (trans : ∀ {t u v}, R t u → R u v → R t v) (keep : ∀ {c a t u}, R t u → P c a t → P c a u)
    (step : ∀ {c a t u}, (enterAttribute c a).run t = .ok () u → R t u ∧ P c a u)
    {classes : List ClassDecl} (h : (enterAttributes classes).run t = .ok () u) :
    R t u ∧ ∀ c ∈ classes, ∀ a ∈ c.attributes, P c.className a u := by
  unfold enterAttributes at h
  obtain ⟨_, _, hg, h⟩ := run_bind_eq_ok.mp h
  cases hg
  have ⟨run, all⟩ := run_forM_ok (R := R) (P := fun c u => ∀ a ∈ c.attributes, P c.className a u)
    refl trans (by exact fun g p a ha => keep g (p a ha))
    (fun {c _ _} hc => run_forM_ok (P := P c.className) refl trans keep step hc) h
  refine ⟨run, fun c hc => all c ?_⟩
  exact List.mem_mergeSort.mpr hc

theorem enterAttributes_ok {classes : List ClassDecl}
    (h : (enterAttributes classes).run t = .ok () u) :
    t.Grows u ∧ ∀ c ∈ classes, ∀ a ∈ c.attributes, Entered c.className a u :=
  enterAttributes_run (P := Entered) Grows.refl Grows.trans (fun g p => g.entered p)
    enterAttribute_ok h

end Enter

section Build

/-- The table of a program knows each of its classes, which are neither built in nor `SELF_TYPE`. -/
theorem build_ok {classes : List ClassDecl} (h : build classes = .ok t) :
    t.Regular ∧ ∀ c ∈ classes, c.className ≠ .selfType ∧ c.className.isBuiltin = false ∧
      t.contains c.className = true := by
  obtain ⟨declarable, _, rfl⟩ := build_eq_ok.mp h
  have fixed : ∀ p ∈ builtin.classes,
      p.2.parent ≠ some .selfType ∧ (p.2.attributes.map Prod.fst).Nodup := by
    decide
  have entries : ∀ p ∈ (builtin.declared classes).classes,
      p.2.parent ≠ some .selfType ∧ (p.2.attributes.map Prod.fst).Nodup := by
    intro p hp
    rcases List.mem_append.mp hp with hp | hp
    · exact fixed p hp
    · obtain ⟨c, hc, rfl⟩ := List.mem_map.mp hp
      refine ⟨fun same => ?_, List.nodup_nil⟩
      exact (declarable.parentName c hc).1 (Option.some.inj same)
  refine ⟨⟨fun p hp => (entries p hp).1, fun p hp => (entries p hp).2⟩, fun c hc => ?_⟩
  obtain ⟨notBuiltin, notSelf⟩ := declarable.reserved c hc
  exact ⟨notSelf, notBuiltin, contains_declared.mpr (.inr ⟨c, hc, rfl⟩)⟩

end Build

section Lineage

theorem mem_walk_ne_selfType (regular : t.Regular) {n : Nat} {c d : ClassName}
    (hc : c ≠ .selfType) (hd : d ∈ t.walk n c) : d ≠ .selfType := by
  induction n generalizing c with
  | zero => cases hd
  | succ n ih =>
    unfold walk at hd
    rcases List.mem_cons.mp hd with rfl | hd
    · exact hc
    · cases hp : t.parent? c with
      | none =>
        rw [hp] at hd
        cases hd
      | some p =>
        rw [hp] at hd
        refine ih ?_ hd
        rintro rfl
        obtain ⟨e, he, hp⟩ := Option.bind_eq_some_iff.mp hp
        exact regular.parent _ (mem_of_get? he) hp

theorem join_ne_selfType (regular : t.Regular) {self : ClassName} (hs : self ≠ .selfType)
    (a b : ClassName) : t.join a b self ≠ .selfType := by
  have resolved (c : ClassName) : c.resolve self ≠ .selfType := by
    cases c with
    | selfType => exact hs
    | builtin _ | named _ => nofun
  unfold join
  dsimp only
  split
  · exact resolved a
  split
  · nofun
  cases found : (t.lineage (a.resolve self)).find? _ with
  | none => nofun
  | some d => exact mem_walk_ne_selfType regular (resolved a) (List.mem_of_find?_eq_some found)

end Lineage

structure Admits (t : ClassTable) (c : ClassDecl) : Prop where
  notSelfType : c.className ≠ .selfType
  notBuiltin : c.className.isBuiltin = false
  known : t.contains c.className = true
  own : ∀ a ∈ c.attributes, t.ownAttribute? c.className a.name.text = some a.type.className
  checked : c.check t = .ok ()

theorem Admits.attributes {c : ClassDecl} (h : t.Admits c) :
    ∀ a ∈ c.attributes, (t.findAttribute? c.className a.name.text).isSome :=
  fun a ha => findAttribute?_isSome (h.own a ha ▸ rfl)

end ClassTable

open ClassTable

theorem typecheck_eq_ok {classes : List ClassDecl} {t : ClassTable} :
    typecheck classes = .ok t ↔ ∃ u, build classes = .ok u ∧
      (enterAttributes classes).run u = .ok () t ∧ ∀ c ∈ classes, c.check t = .ok () := by
  have run (u : ClassTable) : (ClassTable.check classes).run u = .ok () t ↔
      (enterAttributes classes).run u = .ok () t ∧ ∀ c ∈ classes, c.check t = .ok () := by
    unfold ClassTable.check
    simp only [run_bind_eq_ok]
    rw [← forM_eq_ok]
    constructor
    · rintro ⟨_, _, entered, _, _, hg, ran⟩
      cases hg
      split at ran
      · rename_i checked
        cases ran
        exact ⟨entered, checked⟩
      · cases ran
    · rintro ⟨entered, checked⟩
      refine ⟨(), t, entered, t, t, rfl, ?_⟩
      rw [checked]
      rfl
  unfold typecheck
  rw [bind_eq_ok]
  refine exists_congr fun u => and_congr_right fun _ => ?_
  rw [← run]
  cases (ClassTable.check classes).run u <;> simp

theorem typecheck_ok {classes : List ClassDecl} {t : ClassTable} (h : typecheck classes = .ok t) :
    t.Regular ∧ ∀ c ∈ classes, t.Admits c := by
  obtain ⟨u, built, entered, checked⟩ := typecheck_eq_ok.mp h
  obtain ⟨regular, declared⟩ := build_ok built
  obtain ⟨grows, attributes⟩ := enterAttributes_ok entered
  refine ⟨grows.regular regular, fun c hc => ?_⟩
  obtain ⟨notSelf, notBuiltin, known⟩ := declared c hc
  have known := (grows.contains _).trans known
  exact ⟨notSelf, notBuiltin, known, fun a ha => attributes c hc a ha known, checked c hc⟩

/-- Files that have been read and found right, with their classes and the table of these. -/
structure Accepted (files : SourceFiles) (classes : List ClassDecl) (t : ClassTable) : Prop where
  parsed : parseFiles files = .ok classes
  typed : typecheck classes = .ok t

namespace Accepted

variable {files : SourceFiles} {classes : List ClassDecl} {t : ClassTable}

theorem wellFormed (h : Accepted files classes t) {c : ClassDecl} (hc : c ∈ classes) :
    c.WellFormed :=
  (parseFiles_wellFormed h.parsed c hc).1

theorem named (h : Accepted files classes t) {c : ClassDecl} (hc : c ∈ classes) : c.Named :=
  (parseFiles_wellFormed h.parsed c hc).2

theorem regular (h : Accepted files classes t) : t.Regular := (typecheck_ok h.typed).1

theorem admits (h : Accepted files classes t) {c : ClassDecl} (hc : c ∈ classes) : t.Admits c :=
  (typecheck_ok h.typed).2 c hc

end Accepted

section Ordered

namespace ClassTable

def Ordered (t : ClassTable) (classes : List ClassDecl) : Prop :=
  classes.Pairwise fun a b => t.depth a.className ≤ t.depth b.className

instance (t : ClassTable) (classes : List ClassDecl) : Decidable (t.Ordered classes) :=
  inferInstanceAs (Decidable (List.Pairwise _ _))

theorem hierarchyOrder_eq {t : ClassTable} {classes : List ClassDecl} (h : t.Ordered classes) :
    t.hierarchyOrder classes = classes :=
  List.mergeSort_of_pairwise (h.imp fun hle => decide_eq_true hle)

/-- The table of a program whose classes are ordered, without sorting them. -/
def typecheckInOrder (classes : List ClassDecl) : Option ClassTable := do
  let t ← (build classes).toOption
  if t.Ordered classes then
    match (classes.forM fun c => c.attributes.forM (enterAttribute c.className)).run t with
    | .ok _ u => (classes.forM (ClassDecl.check u)).toOption.map fun _ => u
    | .error _ _ => none
  else none

theorem typecheck_of_inOrder {classes : List ClassDecl} {u : ClassTable}
    (h : typecheckInOrder classes = some u) : typecheck classes = .ok u := by
  unfold typecheckInOrder at h
  obtain ⟨t, built, h⟩ := Option.bind_eq_some_iff.mp h
  split at h
  · rename_i ordered
    split at h
    · rename_i _ v entered
      obtain ⟨_, checked, rfl⟩ := Option.map_eq_some_iff.mp h
      cases built' : build classes with
      | error _ =>
        rw [built'] at built
        cases built
      | ok _ =>
        rw [built'] at built
        cases built
        cases checked' : classes.forM (ClassDecl.check v) with
        | error _ =>
          rw [checked'] at checked
          cases checked
        | ok _ =>
          refine typecheck_eq_ok.mpr ⟨t, built', ?_, forM_eq_ok.mp checked'⟩
          unfold enterAttributes
          refine run_bind_eq_ok.mpr ⟨t, t, rfl, ?_⟩
          rw [hierarchyOrder_eq ordered]
          exact entered
    · cases h
  · cases h

end ClassTable

end Ordered

namespace SourceFiles

def ofLines (lines : List String) : SourceFiles :=
  [⟨"main.cl", lines.flatMap fun line => ascii line ++ ascii "\n"⟩]

/-- The classes of some files, none if they have a fault. -/
def classes (files : SourceFiles) : List ClassDecl := (parseFiles files).toOption.getD []

/-- The table of the classes of some files, of the built-in ones alone if they have a fault. -/
def table (files : SourceFiles) : ClassTable :=
  (typecheck (SourceFiles.classes files)).toOption.getD .builtin

theorem accepted {files : SourceFiles}
    (h : ((parseFiles files).toOption.bind fun classes => (typecheck classes).toOption).isSome) :
    Accepted files (SourceFiles.classes files) (SourceFiles.table files) := by
  unfold SourceFiles.table SourceFiles.classes
  cases parsed : parseFiles files with
  | error e =>
    rw [parsed] at h
    cases h
  | ok classes =>
    rw [parsed] at h
    cases typed : typecheck classes with
    | error e =>
      simp [typed, Except.toOption] at h
    | ok table =>
      refine ⟨parsed, ?_⟩
      simp [typed, Except.toOption]

def tableInOrder (files : SourceFiles) : ClassTable :=
  (ClassTable.typecheckInOrder (SourceFiles.classes files)).getD .builtin

theorem accepted_inOrder {files : SourceFiles}
    (h : ((parseFiles files).toOption.bind ClassTable.typecheckInOrder).isSome) :
    Accepted files (SourceFiles.classes files) (SourceFiles.tableInOrder files) := by
  unfold SourceFiles.tableInOrder SourceFiles.classes
  cases parsed : parseFiles files with
  | error e =>
    rw [parsed] at h
    cases h
  | ok classes =>
    rw [parsed] at h
    obtain ⟨t, ht⟩ := Option.isSome_iff_exists.mp h
    change ClassTable.typecheckInOrder classes = some t at ht
    refine ⟨parsed, ?_⟩
    change typecheck classes = .ok ((ClassTable.typecheckInOrder classes).getD .builtin)
    rw [ht]
    exact ClassTable.typecheck_of_inOrder ht

end SourceFiles

end Cool
