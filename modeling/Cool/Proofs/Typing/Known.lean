import Cool.Proofs.Class.Entries
import Cool.Proofs.Typing.Places

/-!
The types that a table mentions. Attributes and results of methods have classes that the table has
too, so no lookup in the table of an accepted program leads out of it.
-/
namespace Cool

namespace Env

variable {env : Env}

theorem checkAssignable_known {sub sup : ClassName} {span : Span}
    (h : env.checkAssignable sub sup span = .ok ()) :
    env.table.contains (env.resolve sub) = true ∧ env.table.contains (env.resolve sup) = true := by
  unfold checkAssignable at h
  obtain ⟨_, sub, h⟩ := bind_eq_ok.mp h
  obtain ⟨_, sup, _⟩ := bind_eq_ok.mp h
  exact ⟨checkExists_ok sub, checkExists_ok sup⟩

end Env

theorem Method.result_known {t : ClassTable} {c : ClassName} {m : Method}
    (h : m.check ⟨t, c, .empty⟩ = .ok ()) : t.contains (m.result.className.resolve c) = true := by
  obtain ⟨inner, params, h⟩ := bind_eq_ok.mp h
  obtain ⟨_, _, h⟩ := bind_eq_ok.mp h
  cases checkParams_ok params
  exact (Env.checkAssignable_known h).2

namespace ClassTable

/-- Whether all that is looked up in a table has a class of the table. -/
structure Closed (t : ClassTable) : Prop where
  attributes : ∀ c, ∀ a ∈ t.allAttributes c, a.2 = .selfType ∨ t.contains a.2 = true
  results : ∀ c name owner m, t.findMethod? c name = some (owner, m) →
    m.result = .selfType ∨ t.contains m.result = true

variable {t : ClassTable} {classes : List ClassDecl} {c : ClassName}

theorem Outlines.contains_of_findMethod? (h : t.Outlines classes) {name : Bytes}
    {found : ClassName × MethodType} (hm : t.findMethod? c name = some found) :
    t.contains c = true := by
  by_contra unknown
  have absent : t.get? c = none := by
    unfold contains at unknown
    rwa [Bool.not_eq_true, Option.isSome_eq_false_iff, Option.isNone_iff_eq_none] at unknown
  have alone : t.lineage c = [c] := by
    rw [h.lineage_eq]
    unfold parent?
    rw [absent]
    rfl
  unfold findMethod? at hm
  rw [alone, List.findSome?_cons, absent] at hm
  cases hm

theorem closed_of_typecheck (h : typecheck classes = .ok t) : t.Closed := by
  have outlines := outlines_of_typecheck h
  have admits := (typecheck_ok h).2
  obtain ⟨hierarchical, enterable, _, eq⟩ := typecheck_eq_ok_tableOf.mp h
  have declarable := hierarchical.toDeclarable
  constructor
  · intro c a ha
    obtain ⟨d, _, own⟩ := mem_allAttributes.mp ha
    rw [eq, ownAttributes_tableOf declarable] at own
    by_cases declared : ∃ e ∈ classes, e.className = d
    · obtain ⟨e, he, rfl⟩ := declared
      rw [declaredAttributes_of_mem declarable.distinct he] at own
      obtain ⟨b, hb, rfl⟩ := List.mem_map.mp own
      exact (enterable.types e he b hb).imp_right (outlines.contains_of_isClass declarable)
    · rw [declaredAttributes_eq_nil fun e he same => declared ⟨e, he, same⟩] at own
      cases own
  · intro c name owner m found
    have fixed : ∀ p ∈ builtin.outlines, ∀ m ∈ p.2.2,
        m.2.result = .selfType ∨ m.2.result.isBuiltin = true := by
      decide
    obtain ⟨_, ⟨o, ho, hm⟩ | ⟨d, hd, _, k, hk, _, rfl⟩⟩ := outlines.findMethod?_eq_some found
    · rw [outline?_eq_lookup] at ho
      obtain ⟨_, _, old, _⟩ := List.lookup_eq_some_iff.mp ho
      obtain ⟨_, _, own, _⟩ := List.lookup_eq_some_iff.mp hm
      have result := fixed (owner, o) (old ▸ List.mem_append_right _ List.mem_cons_self) (name, m)
        (own ▸ List.mem_append_right _ List.mem_cons_self)
      exact result.imp_right fun builtin => outlines.contains_of_isClass declarable (.inl builtin)
    · have known := Method.result_known
        (forM_eq_ok.mp (admits d hd).checked _ (ClassDecl.mem_methods.mp hk))
      change k.result.className = .selfType ∨ t.contains k.result.className = true
      by_cases isSelf : k.result.className = .selfType
      · exact .inl isSelf
      · exact .inr (ClassName.resolve_eq_self isSelf ▸ known)

end ClassTable

end Cool
