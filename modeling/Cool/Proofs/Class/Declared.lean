import Cool.Class.Build
import Cool.Proofs.Outcome
import Mathlib.Data.List.Nodup

/-!
Which classes make a table. Each is entered with its parent and its methods, behind those that were
entered before it, and each check asks something of the classes that does not depend on their order.
-/
namespace Cool

theorem lookup_eq_none_iff_not_mem {α β : Type} [BEq α] [LawfulBEq α] {xs : List (α × β)} {a : α} :
    xs.lookup a = none ↔ a ∉ xs.map Prod.fst := by
  rw [List.lookup_eq_none_iff]
  constructor
  · intro h mem
    obtain ⟨p, hp, rfl⟩ := List.mem_map.mp mem
    simpa using h p hp
  · intro h p hp
    have other : a ≠ p.1 := fun same => h (same ▸ List.mem_map_of_mem hp)
    simpa using other

theorem nodup_concat {α : Type} {xs : List α} {a : α} (hn : xs.Nodup) (new : a ∉ xs) :
    (xs ++ [a]).Nodup := by
  rw [← List.concat_eq_append]
  exact hn.concat new

def ClassDecl.signatures (c : ClassDecl) : List (Bytes × MethodType) :=
  c.methods.map fun m => (m.name.text, m.type)

def IsClass (classes : List ClassDecl) (c : ClassName) : Prop :=
  c.isBuiltin = true ∨ ∃ d ∈ classes, d.className = c

/-- What is asked of the classes of a program, but that none is its own ancestor. -/
structure Declarable (classes : List ClassDecl) : Prop where
  distinct : (classes.map ClassDecl.className).Nodup
  reserved : ∀ c ∈ classes, c.className.isBuiltin = false ∧ c.className ≠ .selfType
  methods : ∀ c ∈ classes, (c.methods.map (·.name.text)).Nodup
  parents : ∀ c ∈ classes, ∀ p ∈ c.parent, p.className ≠ .selfType ∧ IsClass classes p.className

theorem Declarable.parentName {classes : List ClassDecl} (h : Declarable classes) :
    ∀ c ∈ classes, c.parentName ≠ .selfType ∧ IsClass classes c.parentName := by
  intro c hc
  unfold ClassDecl.parentName
  cases parent : c.parent with
  | none => exact ⟨nofun, .inl rfl⟩
  | some p => exact h.parents c hc p parent

namespace ClassTable

variable {t u : ClassTable} {classes : List ClassDecl}

/-- The table with some classes behind it, before their attributes are known. -/
def declared (t : ClassTable) (classes : List ClassDecl) : ClassTable :=
  ⟨t.classes ++ classes.map fun c => (c.className, ⟨some c.parentName, c.signatures, []⟩)⟩

theorem contains_eq_false {c : ClassName} :
    t.contains c = false ↔ c ∉ t.classes.map Prod.fst := by
  unfold contains get?
  rw [Option.isSome_eq_false_iff, Option.isNone_iff_eq_none, lookup_eq_none_iff_not_mem]

section Entries

theorem addMethod?_eq_some {e e' : ClassEntry} {name : Bytes} {type : MethodType} :
    e.addMethod? name type = some e' ↔ name ∉ e.methods.map Prod.fst ∧
      e' = { e with methods := e.methods ++ [(name, type)] } := by
  unfold ClassEntry.addMethod? ClassEntry.method?
  rw [← lookup_eq_none_iff_not_mem]
  cases e.methods.lookup name with
  | none => simp [eq_comm]
  | some m => simp

theorem addMethods_eq_ok {ε : Type} {fault : Method → ε} {ms : List Method} {e e' : ClassEntry}
    (hn : (e.methods.map Prod.fst).Nodup) :
    ms.foldlM (fun e m => match e.addMethod? m.name.text m.type with
      | some e => .ok e
      | none => .error (fault m)) e = (.ok e' : Except ε _) ↔
    (e.methods.map Prod.fst ++ ms.map (·.name.text)).Nodup ∧
      e' = { e with methods := e.methods ++ ms.map fun m => (m.name.text, m.type) } := by
  induction ms generalizing e with
  | nil =>
    simp only [List.foldlM_nil, List.map_nil, List.append_nil]
    exact ⟨fun h => by cases h; exact ⟨hn, rfl⟩, fun h => by rw [h.2]; rfl⟩
  | cons m ms ih =>
    rw [List.foldlM_cons, bind_eq_ok]
    have names : ({ e with methods := e.methods ++ [(m.name.text, m.type)] } :
        ClassEntry).methods.map Prod.fst = e.methods.map Prod.fst ++ [m.name.text] := by
      simp
    constructor
    · rintro ⟨e₁, added, rest⟩
      split at added
      · rename_i found
        cases added
        obtain ⟨new, rfl⟩ := addMethod?_eq_some.mp found
        obtain ⟨distinct, rfl⟩ := (ih (names ▸ nodup_concat hn new)).mp rest
        exact ⟨by simpa using distinct, by simp⟩
      · cases added
    · rintro ⟨distinct, rfl⟩
      have new : m.name.text ∉ e.methods.map Prod.fst := fun mem =>
        (List.nodup_append.mp distinct).2.2 _ mem _ List.mem_cons_self rfl
      refine ⟨_, by rw [addMethod?_eq_some.mpr ⟨new, rfl⟩], ?_⟩
      exact (ih (names ▸ nodup_concat hn new)).mpr ⟨by simpa using distinct, by simp⟩

theorem entryOf_eq_ok {c : ClassDecl} {e : ClassEntry} : entryOf c = .ok e ↔
    (c.methods.map (·.name.text)).Nodup ∧ e = ⟨some c.parentName, c.signatures, []⟩ :=
  addMethods_eq_ok List.nodup_nil

theorem declare_eq_ok {c : ClassDecl} : t.declare c = .ok u ↔
    (c.methods.map (·.name.text)).Nodup ∧ c.className ≠ .selfType ∧ t.contains c.className = false ∧
      u = t.declared [c] := by
  unfold declare
  rw [bind_eq_ok]
  constructor
  · rintro ⟨e, made, h⟩
    obtain ⟨distinct, rfl⟩ := entryOf_eq_ok.mp made
    split at h
    · cases h
    rename_i notSelf
    unfold add? at h
    split at h
    · rename_i added
      split at added
      · cases added
      rename_i new
      cases added
      cases h
      exact ⟨distinct, notSelf, Bool.eq_false_iff.mpr new, rfl⟩
    · cases h
  · rintro ⟨distinct, notSelf, new, rfl⟩
    refine ⟨_, entryOf_eq_ok.mpr ⟨distinct, rfl⟩, ?_⟩
    rw [if_neg notSelf, add?, new]
    rfl

theorem declareAll_eq_ok (hn : (t.classes.map Prod.fst).Nodup) : classes.foldlM declare t = .ok u ↔
    (t.classes.map Prod.fst ++ classes.map ClassDecl.className).Nodup ∧
      (∀ c ∈ classes, c.className ≠ .selfType ∧ (c.methods.map (·.name.text)).Nodup) ∧
      u = t.declared classes := by
  induction classes generalizing t with
  | nil =>
    simp only [List.foldlM_nil, declared, List.map_nil, List.append_nil]
    exact ⟨fun h => by cases h; exact ⟨hn, nofun, rfl⟩, fun h => by rw [h.2.2]; rfl⟩
  | cons c classes ih =>
    have regroup : (t.declared [c]).declared classes = t.declared (c :: classes) := by
      simp [declared]
    have names :
        (t.declared [c]).classes.map Prod.fst = t.classes.map Prod.fst ++ [c.className] := by
      simp [declared]
    rw [List.foldlM_cons, bind_eq_ok, List.forall_mem_cons]
    constructor
    · rintro ⟨v, one, rest⟩
      obtain ⟨methods, notSelf, new, rfl⟩ := declare_eq_ok.mp one
      have hn' := names ▸ nodup_concat hn (contains_eq_false.mp new)
      obtain ⟨distinct, each, rfl⟩ := (ih hn').mp rest
      rw [names, List.append_assoc] at distinct
      exact ⟨distinct, ⟨⟨notSelf, methods⟩, each⟩, regroup⟩
    · rintro ⟨distinct, ⟨⟨notSelf, methods⟩, each⟩, rfl⟩
      have new : c.className ∉ t.classes.map Prod.fst := fun mem =>
        (List.nodup_append.mp distinct).2.2 _ mem _ List.mem_cons_self rfl
      have hn' := names ▸ nodup_concat hn new
      refine ⟨_, declare_eq_ok.mpr ⟨methods, notSelf, contains_eq_false.mpr new, rfl⟩,
        (ih hn').mpr ⟨?_, each, regroup.symm⟩⟩
      rwa [names, List.append_assoc]

end Entries

section Build

theorem checkParent_eq_ok {c : ClassDecl} : t.checkParent c = .ok () ↔
    ∀ p ∈ c.parent, p.className ≠ .selfType ∧ t.contains p.className = true := by
  unfold checkParent
  cases c.parent with
  | none => simp
  | some p => simp

theorem checkAcyclic_eq_ok {c : ClassDecl} :
    t.checkAcyclic c = .ok () ↔ t.cycleThrough? c.className = none := by
  unfold checkAcyclic
  cases t.cycleThrough? c.className <;> simp

theorem mem_builtin {c : ClassName} : c ∈ builtin.classes.map Prod.fst ↔ c.isBuiltin = true := by
  cases c with
  | builtin b => exact iff_of_true (by cases b <;> decide) rfl
  | named name => exact iff_of_false (by simp [builtin, ClassName.object, ClassName.io,
      ClassName.int, ClassName.string, ClassName.bool]) Bool.false_ne_true
  | selfType => exact iff_of_false (by decide) Bool.false_ne_true

theorem contains_declared {c : ClassName} :
    (builtin.declared classes).contains c = true ↔ IsClass classes c := by
  rw [← Bool.not_eq_false, contains_eq_false, not_not, declared, List.map_append, List.mem_append,
    mem_builtin, List.map_map]
  exact or_congr_right List.mem_map

theorem declared_nodup : (builtin.classes.map Prod.fst ++ classes.map ClassDecl.className).Nodup ↔
    (classes.map ClassDecl.className).Nodup ∧ ∀ c ∈ classes, c.className.isBuiltin = false := by
  rw [List.nodup_append]
  constructor
  · rintro ⟨_, distinct, apart⟩
    refine ⟨distinct, fun c hc => Bool.eq_false_iff.mpr fun isBuiltin => ?_⟩
    exact apart _ (mem_builtin.mpr isBuiltin) _ (List.mem_map_of_mem hc) rfl
  · rintro ⟨distinct, reserved⟩
    refine ⟨by decide, distinct, ?_⟩
    rintro a ha _ hb rfl
    obtain ⟨c, hc, rfl⟩ := List.mem_map.mp hb
    exact Bool.false_ne_true ((reserved c hc).symm.trans (mem_builtin.mp ha))

/-- The checks but for that on cycles are passed by classes of which each can be declared. -/
theorem declarable_iff : Declarable classes ↔
    classes.foldlM declare builtin = .ok (builtin.declared classes) ∧
      classes.forM (builtin.declared classes).checkParent = .ok () := by
  rw [declareAll_eq_ok (by decide), forM_eq_ok, declared_nodup]
  constructor
  · rintro ⟨distinct, reserved, methods, parents⟩
    refine ⟨⟨⟨distinct, fun c hc => (reserved c hc).1⟩,
      fun c hc => ⟨(reserved c hc).2, methods c hc⟩, rfl⟩, fun c hc => ?_⟩
    exact checkParent_eq_ok.mpr fun p hp => (parents c hc p hp).imp_right contains_declared.mpr
  · rintro ⟨⟨⟨distinct, reserved⟩, each, _⟩, parents⟩
    refine ⟨distinct, fun c hc => ⟨reserved c hc, (each c hc).1⟩, fun c hc => (each c hc).2, ?_⟩
    intro c hc p hp
    exact (checkParent_eq_ok.mp (parents c hc) p hp).imp_right contains_declared.mp

/-- The table of classes has an entry for each of them, and no search for a cycle finds one. -/
theorem build_eq_ok : build classes = .ok t ↔ Declarable classes ∧
    (∀ c ∈ classes, (builtin.declared classes).cycleThrough? c.className = none) ∧
      t = builtin.declared classes := by
  rw [declarable_iff]
  constructor
  · intro h
    unfold build at h
    obtain ⟨v, hv, h⟩ := bind_eq_ok.mp h
    obtain ⟨_, parents, h⟩ := bind_eq_ok.mp h
    obtain ⟨_, acyclic, h⟩ := bind_eq_ok.mp h
    cases h
    obtain rfl := ((declareAll_eq_ok (by decide)).mp hv).2.2
    exact ⟨⟨hv, parents⟩, fun c hc => checkAcyclic_eq_ok.mp (forM_eq_ok.mp acyclic c hc), rfl⟩
  · rintro ⟨⟨declared, parents⟩, acyclic, rfl⟩
    refine bind_eq_ok.mpr ⟨_, declared, bind_eq_ok.mpr ⟨(), parents, bind_eq_ok.mpr ⟨(), ?_, rfl⟩⟩⟩
    exact forM_eq_ok.mpr fun c hc => checkAcyclic_eq_ok.mpr (acyclic c hc)

end Build

end ClassTable

end Cool
