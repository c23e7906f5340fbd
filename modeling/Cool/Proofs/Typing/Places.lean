import Cool.Proofs.Class.Outline
import Cool.Proofs.Typing.Checked

/-!
Where the checker comes to expressions, and that it gives each of them a type. These are all the
expressions of a program, also those that get no code.
-/
namespace Cool

def Method.locals (m : Method) : Scopes ClassName :=
  m.params.foldl (fun L p => L.bind p.name.text p.type.className) Scopes.empty.push

theorem checkParams_ok {env inner : Env} {seen : List Bytes} {ps : List Formal}
    (h : checkParams env seen ps = .ok inner) : inner = { env with
      locals := ps.foldl (fun L p => L.bind p.name.text p.type.className) env.locals } := by
  induction ps generalizing env seen with
  | nil =>
    cases h
    rfl
  | cons p ps ih =>
    unfold checkParams at h
    obtain ⟨_, _, h⟩ := bind_eq_ok.mp h
    split at h
    · cases h
    · exact ih h

structure Method.Checked (env : Env) (m : Method) : Prop where
  params : ∀ p ∈ m.params, env.table.contains (env.resolve p.type.className) = true
  distinct : (m.params.map (·.name.text)).Nodup
  body : ∃ T, Typed { env with locals := m.locals } m.body T ∧
    env.table.conforms T m.result.className env.self = true

theorem checkParams_each {env inner : Env} {seen : List Bytes} {ps : List Formal}
    (h : checkParams env seen ps = .ok inner) :
    (∀ p ∈ ps, env.table.contains (env.resolve p.type.className) = true) ∧
      (ps.map (·.name.text)).Nodup ∧ ∀ p ∈ ps, p.name.text ∉ seen := by
  induction ps generalizing env seen with
  | nil => exact ⟨List.forall_mem_nil _, List.nodup_nil, List.forall_mem_nil _⟩
  | cons p ps ih =>
    unfold checkParams at h
    obtain ⟨_, known, h⟩ := bind_eq_ok.mp h
    split at h
    · cases h
    rename_i new
    obtain ⟨rest, distinct, apart⟩ := ih h
    refine ⟨List.forall_mem_cons.mpr ⟨Env.checkExists_ok known, rest⟩, ?_, ?_⟩
    · rw [List.map_cons, List.nodup_cons]
      refine ⟨fun mem => ?_, distinct⟩
      obtain ⟨q, hq, same⟩ := List.mem_map.mp mem
      exact apart q hq (same ▸ List.mem_cons_self)
    · refine List.forall_mem_cons.mpr ⟨by simpa using new, fun q hq mem => ?_⟩
      exact apart q hq (List.mem_cons_of_mem _ mem)

theorem Method.check_ok {t : ClassTable} {c : ClassName} {m : Method}
    (h : m.check ⟨t, c, .empty⟩ = .ok ()) : m.Checked ⟨t, c, .empty⟩ := by
  obtain ⟨inner, params, h⟩ := bind_eq_ok.mp h
  obtain ⟨T, hT, h⟩ := bind_eq_ok.mp h
  obtain ⟨known, distinct, _⟩ := checkParams_each params
  cases checkParams_ok params
  exact ⟨known, distinct, T, hT, Env.checkAssignable_ok h⟩

namespace ClassTable.Admits

variable {t : ClassTable} {c : ClassDecl}

theorem method (h : t.Admits c) {m : Method} (hm : m ∈ c.methods) :
    m.Checked ⟨t, c.className, .empty⟩ :=
  Method.check_ok (forM_eq_ok.mp h.checked _ (ClassDecl.mem_methods.mp hm))

theorem firstValue (h : t.Admits c) {a : Attribute} (ha : a ∈ c.attributes) {e : Expr}
    (init : a.init = some e) : ∃ T, Typed ⟨t, c.className, .empty⟩ e T ∧
      t.conforms T a.type.className c.className = true := by
  have here := forM_eq_ok.mp h.checked _ (ClassDecl.mem_attributes.mp ha)
  unfold Feature.check Attribute.check at here
  simp only [init] at here
  obtain ⟨T, hT, fits⟩ := bind_eq_ok.mp here
  exact ⟨T, hT, Env.checkAssignable_ok fits⟩

end ClassTable.Admits

structure Place where
  locals : Scopes ClassName
  expr : Expr

inductive Part : Place → Place → Prop where
  | value {L name value span} : Part ⟨L, .assign name value span⟩ ⟨L, value⟩
  | selfArgument {L method args span a} : a ∈ args → Part ⟨L, .selfCall method args span⟩ ⟨L, a⟩
  | receiver {L receiver method args span} :
      Part ⟨L, .call receiver method args span⟩ ⟨L, receiver⟩
  | argument {L receiver method args span a} : a ∈ args →
      Part ⟨L, .call receiver method args span⟩ ⟨L, a⟩
  | staticReceiver {L receiver type method args span} :
      Part ⟨L, .staticCall receiver type method args span⟩ ⟨L, receiver⟩
  | staticArgument {L receiver type method args span a} : a ∈ args →
      Part ⟨L, .staticCall receiver type method args span⟩ ⟨L, a⟩
  | test {L test yes no span} : Part ⟨L, .cond test yes no span⟩ ⟨L, test⟩
  | yes {L test yes no span} : Part ⟨L, .cond test yes no span⟩ ⟨L, yes⟩
  | no {L test yes no span} : Part ⟨L, .cond test yes no span⟩ ⟨L, no⟩
  | loopTest {L test body span} : Part ⟨L, .loop test body span⟩ ⟨L, test⟩
  | loopBody {L test body span} : Part ⟨L, .loop test body span⟩ ⟨L, body⟩
  | item {L body span e} : e ∈ body → Part ⟨L, .block body span⟩ ⟨L.push, e⟩
  | init {L before name type e span after body span'} :
      Part ⟨L, .letIn (before ++ ⟨name, type, some e, span⟩ :: after) body span'⟩
        ⟨L.push.bindAll before, e⟩
  | body {L bindings body span} :
      Part ⟨L, .letIn bindings body span⟩ ⟨L.push.bindAll bindings, body⟩
  | scrutinee {L scrutinee arms span} : Part ⟨L, .case scrutinee arms span⟩ ⟨L, scrutinee⟩
  | arm {L scrutinee arms span a} : a ∈ arms →
      Part ⟨L, .case scrutinee arms span⟩ ⟨L.push.bind a.name.text a.type.className, a.body⟩
  | left {L op left right span} : Part ⟨L, .binary op left right span⟩ ⟨L, left⟩
  | right {L op left right span} : Part ⟨L, .binary op left right span⟩ ⟨L, right⟩
  | operand {L op operand span} : Part ⟨L, .unary op operand span⟩ ⟨L, operand⟩
  | inner {L inner span} : Part ⟨L, .group inner span⟩ ⟨L, inner⟩

theorem Part.subterms {a b : Place} (part : Part a b) : b.expr.subterms ⊆ a.expr.subterms := by
  intro x hx
  cases part with
  | selfArgument h | item h =>
    unfold Expr.subterms
    exact List.mem_cons_of_mem _ (mem_subtermsAll.mpr ⟨_, h, hx⟩)
  | argument h | staticArgument h =>
    unfold Expr.subterms
    exact List.mem_append_right _ (mem_subtermsAll.mpr ⟨_, h, hx⟩)
  | arm h =>
    unfold Expr.subterms
    exact List.mem_append_right _ (mem_subtermsOfArms.mpr ⟨_, h, hx⟩)
  | init =>
    unfold Expr.subterms
    exact List.mem_cons_of_mem _ (List.mem_append_left _
      (mem_subtermsOfBindings.mpr ⟨_, List.mem_append_right _ List.mem_cons_self, _, rfl, hx⟩))
  | value | receiver | staticReceiver | test | yes | no | loopTest | loopBody | body | scrutinee
  | left | right | operand | inner =>
    unfold Expr.subterms
    simp [show x ∈ Expr.subterms _ from hx]

/-- The expressions of a class: the bodies of its methods, the first values of its attributes, and
the parts of all these. -/
inductive Stands (c : ClassDecl) : Place → Prop where
  | method {m} : m ∈ c.methods → Stands c ⟨m.locals, m.body⟩
  | attribute {a e} : a ∈ c.attributes → a.init = some e → Stands c ⟨.empty, e⟩
  | part {a b} : Stands c a → Part a b → Stands c b

theorem Stands.subterms {c : ClassDecl} {place : Place} (h : Stands c place) :
    place.expr.subterms ⊆ c.subterms := by
  induction h with
  | method hm => exact fun x hx => List.mem_append_left _ (List.mem_flatMap.mpr ⟨_, hm, hx⟩)
  | «attribute» ha init =>
    exact fun x hx => List.mem_append_right _ (List.mem_flatMap.mpr ⟨_, ha, by rwa [init]⟩)
  | part _ hp ih => exact List.Subset.trans hp.subterms ih

def ClassDecl.env (c : ClassDecl) (t : ClassTable) (place : Place) : Env :=
  ⟨t, c.className, place.locals⟩

section Parts

variable {t : ClassTable} {c : ClassName}

theorem Part.typed {a b : Place} {T : ClassName} (part : Part a b)
    (h : Typed ⟨t, c, a.locals⟩ a.expr T) : ∃ U, Typed ⟨t, c, b.locals⟩ b.expr U := by
  cases part with
  | value =>
    obtain ⟨_, _, U, hU, _⟩ := h.assign
    exact ⟨U, hU⟩
  | selfArgument ha =>
    obtain ⟨_, _, _, fitting⟩ := h.calls .selfCall
    exact fitting.typed _ ha
  | receiver =>
    obtain ⟨U, hU, _⟩ := h.call
    exact ⟨U, hU⟩
  | argument ha =>
    obtain ⟨_, hU, _⟩ := h.call
    obtain ⟨_, _, _, fitting⟩ := h.calls (.call hU)
    exact fitting.typed _ ha
  | staticReceiver =>
    obtain ⟨U, hU, _⟩ := h.staticCall
    exact ⟨U, hU⟩
  | staticArgument ha =>
    obtain ⟨_, _, _, fitting⟩ := h.calls .staticCall
    exact fitting.typed _ ha
  | test => exact h.cond.1
  | yes =>
    obtain ⟨_, U, _, hU, _⟩ := h.cond
    exact ⟨U, hU⟩
  | no =>
    obtain ⟨_, _, U, _, hU, _⟩ := h.cond
    exact ⟨U, hU⟩
  | loopTest => exact h.loop.1
  | loopBody => exact h.loop.2.1
  | item he =>
    obtain ⟨_, all, _⟩ := h.block
    exact Typed.of_forall₂ all _ he
  | init =>
    obtain ⟨_, checked, _⟩ := h.letIn
    obtain ⟨U, hU, _⟩ := (Binding.checked_of_mem checked).init _ rfl
    exact ⟨U, hU⟩
  | body =>
    obtain ⟨_, checked, hT⟩ := h.letIn
    cases checkBindings_ok checked
    exact ⟨T, hT⟩
  | scrutinee => exact h.case.1
  | arm ha => exact h.case.2 _ ha
  | left => exact h.binary.1
  | right => exact h.binary.2.1
  | operand => exact h.unary.1
  | inner => exact ⟨T, h.group⟩

end Parts

theorem Accepted.typed_at {files : SourceFiles} {classes : List ClassDecl} {t : ClassTable}
    (h : Accepted files classes t) {c : ClassDecl} (hc : c ∈ classes) {place : Place}
    (stands : Stands c place) : ∃ T, Typed (c.env t place) place.expr T := by
  induction stands with
  | method hm =>
    obtain ⟨T, hT, _⟩ := ((h.admits hc).method hm).body
    exact ⟨T, hT⟩
  | «attribute» ha init =>
    obtain ⟨T, hT, _⟩ := (h.admits hc).firstValue ha init
    exact ⟨T, hT⟩
  | part _ hp ih =>
    obtain ⟨_, hT⟩ := ih
    exact hp.typed hT

end Cool
