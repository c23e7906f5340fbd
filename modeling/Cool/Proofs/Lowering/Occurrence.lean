import Cool.Proofs.Class.Accepted
import Cool.Proofs.Lowering.Members
import Cool.Proofs.Lowering.States
import Cool.Proofs.Typing.Places
import Mathlib.Logic.Relation

/-!
Where expressions stand in a program: which names the checker sees there, and in which state code
generation comes to them. Both see the same names with the same types, but for the parameters of the
method that a program starts with, which get no registers.
-/
namespace Cool

open FunctionState (Keeps Extends)

/-- An expression, with the names seen there by the checker and by code generation. -/
structure Site where
  locals : Scopes ClassName
  state : FunctionState
  expr : Expr

/-- The parts of an expression that get code, each in the state behind the parts before it. -/
inductive Child (env : LowerEnv) : Site → Site → Prop where
  | value {L s name value span} : Child env ⟨L, s, .assign name value span⟩ ⟨L, s, value⟩
  | selfArgument {L s t method before e after span xs} : LowersAll env s before xs t →
      Child env ⟨L, s, .selfCall method (before ++ e :: after) span⟩ ⟨L, t, e⟩
  | receiver {L s receiver method args span} :
      Child env ⟨L, s, .call receiver method args span⟩ ⟨L, s, receiver⟩
  | argument {L s t u receiver method before e after span x xs} : Lowers env s receiver x t →
      LowersAll env t before xs u →
      Child env ⟨L, s, .call receiver method (before ++ e :: after) span⟩ ⟨L, u, e⟩
  | staticReceiver {L s receiver type method args span} :
      Child env ⟨L, s, .staticCall receiver type method args span⟩ ⟨L, s, receiver⟩
  | staticArgument {L s t u receiver type method before e after span x xs} :
      Lowers env s receiver x t → LowersAll env t before xs u →
      Child env ⟨L, s, .staticCall receiver type method (before ++ e :: after) span⟩ ⟨L, u, e⟩
  | test {L s test yes no span} : Child env ⟨L, s, .cond test yes no span⟩ ⟨L, s, test⟩
  | yes {L s t test yes no span x} : Lowers env s test x t →
      Child env ⟨L, s, .cond test yes no span⟩ ⟨L, t.enterBranch, yes⟩
  | no {L s t u test yes no span x y} : Lowers env s test x t → Lowers env t.enterBranch yes y u →
      Child env ⟨L, s, .cond test yes no span⟩ ⟨L, u.leaveBranch.enterBranch, no⟩
  | loopTest {L s test body span} :
      Child env ⟨L, s, .loop test body span⟩ ⟨L, (s.skip 1).enterBranch, test⟩
  | loopBody {L s t test body span x} : Lowers env (s.skip 1).enterBranch test x t →
      Child env ⟨L, s, .loop test body span⟩ ⟨L, t.leaveBranch.enterBranch, body⟩
  | item {L s t before e after span xs} : LowersAll env s.push before xs t →
      Child env ⟨L, s, .block (before ++ e :: after) span⟩ ⟨L.push, t, e⟩
  | init {L s t before name type e span after body span' code} :
      LowersBindings env s.push before code t →
      Child env ⟨L, s, .letIn (before ++ ⟨name, type, some e, span⟩ :: after) body span'⟩
        ⟨L.push.bindAll before, t, e⟩
  | body {L s t bindings body span code} : LowersBindings env s.push bindings code t →
      Child env ⟨L, s, .letIn bindings body span⟩ ⟨L.push.bindAll bindings, t, body⟩
  | left {L s op left right span} : Child env ⟨L, s, .binary op left right span⟩ ⟨L, s, left⟩
  | right {L s t op left right span x} : Lowers env s left x t →
      Child env ⟨L, s, .binary op left right span⟩ ⟨L, t, right⟩
  | operand {L s op operand span} : op ≠ .isVoid →
      Child env ⟨L, s, .unary op operand span⟩ ⟨L, s, operand⟩
  | inner {L s inner span} : Child env ⟨L, s, .group inner span⟩ ⟨L, s, inner⟩

def LowerEnv.typing (env : LowerEnv) (locals : Scopes ClassName) : Env :=
  ⟨env.table, env.self, locals⟩

/-- Names that the checker sees have a register with their type, but for the hidden ones, and no
other names have one. -/
structure Agree (c : ClassName) (hidden : List Bytes) (L : Scopes ClassName)
    (s : FunctionState) : Prop where
  bound : ∀ n ∈ hidden, L.find? n ≠ none
  types : ∀ n, (s.find? n).map Local.type =
    if n ∈ hidden then none else (L.find? n).map (·.resolve c)

namespace Agree

variable {c : ClassName} {hidden : List Bytes} {L : Scopes ClassName} {s t : FunctionState}

theorem keeps (h : Agree c hidden L s) (hk : s.Keeps t) : Agree c hidden L t :=
  ⟨h.bound, fun n => by rw [hk.find?, h.types]⟩

theorem push (h : Agree c hidden L s) : Agree c hidden L.push s.push := ⟨h.bound, h.types⟩

theorem branch (h : Agree c hidden L s) (n : Nat) :
    Agree c hidden L { s with branches := n } := ⟨h.bound, h.types⟩

theorem bind (h : Agree c hidden L s) {name : Bytes} (visible : name ∉ hidden)
    (type : ClassName) :
    Agree c hidden (L.bind name type) (s.bind name (type.resolve c)).2 := by
  constructor
  · intro n hn
    have other : n ≠ name := fun e => visible (e ▸ hn)
    rw [Scopes.find?_bind_of_ne _ _ other]
    exact h.bound n hn
  · intro n
    by_cases same : n = name
    · rw [same, FunctionState.find?_bind_self, Scopes.find?_bind_self, if_neg visible]
      rfl
    · rw [FunctionState.find?_bind_of_ne _ _ same, Scopes.find?_bind_of_ne _ _ same, h.types]

theorem visible_of_free (h : Agree c hidden L s) {n : Bytes} (free : L.find? n = none) :
    n ∉ hidden := fun hn => h.bound n hn free

end Agree

theorem Agree.bindAll {env : LowerEnv} {hidden : List Bytes} {L : Scopes ClassName}
    {s t : FunctionState} {bs : List (Binding Expr)} {code : List Bril.Instr} {inner : Env}
    (after : List (Binding Expr)) (h : LowersBindings env s bs code t)
    (hw : ∀ b ∈ bs, Binding.WellFormed b)
    (checked : checkBindings (env.typing L) (bs ++ after) = .ok inner)
    (agree : Agree env.self hidden L s) : Agree env.self hidden (L.bindAll bs) t := by
  induction bs generalizing s L code with
  | nil =>
    cases h
    exact agree
  | cons b bs ih =>
    rw [List.forall_mem_cons] at hw
    obtain ⟨hb, checked⟩ := checkBindings_cons checked
    have visible := agree.visible_of_free hb.free.2.1
    cases h with
    | init hv hrest =>
      exact ih hrest hw.2 checked ((agree.keeps (hv.keeps (hw.1.2 _ rfl))).bind visible _)
    | default hrest => exact ih hrest hw.2 checked (agree.bind visible _)

structure Fits (env : LowerEnv) (hidden : List Bytes) (site : Site) : Prop where
  wellFormed : site.expr.WellFormed
  typed : ∃ T, Typed (env.typing site.locals) site.expr T
  sound : site.state.Sound
  agree : Agree env.self hidden site.locals site.state

section Children

variable {env : LowerEnv} {hidden : List Bytes} {L : Scopes ClassName} {s t : FunctionState}

theorem Fits.later {e : Expr} (wellFormed : e.WellFormed) (typed : ∃ T, Typed (env.typing L) e T)
    (sound : s.Sound) (agree : Agree env.self hidden L s) (keeps : s.Keeps t) :
    Fits env hidden ⟨L, t, e⟩ :=
  ⟨wellFormed, typed, keeps.sound sound, agree.keeps keeps⟩

/-- What holds of an expression holds of its parts. -/
theorem Fits.child {a b : Site} (fits : Fits env hidden a) (h : Child env a b) :
    Fits env hidden b := by
  obtain ⟨wf, ⟨T, typed⟩, sound, agree⟩ := fits
  cases h with
  | value =>
    cases wf with | assign _ hv =>
    obtain ⟨_, _, U, hU, _⟩ := typed.assign
    exact ⟨hv, ⟨U, hU⟩, sound, agree⟩
  | selfArgument hb =>
    cases wf with | selfCall ha =>
    obtain ⟨_, _, _, args, _⟩ := typed.selfCall
    have keeps := hb.keeps fun e he => ha e (List.mem_append_left _ he)
    exact .later (ha _ (by simp)) (args.typed _ (by simp)) sound agree keeps
  | receiver =>
    cases wf with | call hr _ =>
    obtain ⟨t, ht, _⟩ := typed.call
    exact ⟨hr, ⟨t, ht⟩, sound, agree⟩
  | argument hx hb =>
    cases wf with | call hr ha =>
    obtain ⟨_, _, _, _, _, args, _⟩ := typed.call
    have keeps := (hx.keeps hr).trans (hb.keeps fun e he => ha e (List.mem_append_left _ he))
    exact .later (ha _ (by simp)) (args.typed _ (by simp)) sound agree keeps
  | staticReceiver =>
    cases wf with | staticCall hr _ =>
    obtain ⟨t, ht, _⟩ := typed.staticCall
    exact ⟨hr, ⟨t, ht⟩, sound, agree⟩
  | staticArgument hx hb =>
    cases wf with | staticCall hr ha =>
    obtain ⟨_, _, _, _, _, _, args, _⟩ := typed.staticCall
    have keeps := (hx.keeps hr).trans (hb.keeps fun e he => ha e (List.mem_append_left _ he))
    exact .later (ha _ (by simp)) (args.typed _ (by simp)) sound agree keeps
  | test =>
    cases wf with | cond ht _ _ =>
    exact ⟨ht, typed.cond.1, sound, agree⟩
  | yes hx =>
    cases wf with | cond ht hy _ =>
    obtain ⟨_, y, _, typedYes, _⟩ := typed.cond
    have keeps := hx.keeps ht
    exact ⟨hy, ⟨y, typedYes⟩, (keeps.sound sound).branch _, (agree.keeps keeps).branch _⟩
  | no hx hy =>
    cases wf with | cond ht hwy hn =>
    obtain ⟨_, _, n, _, typedNo, _⟩ := typed.cond
    have keeps := (hx.keeps ht).trans (hy.keeps hwy).branch
    exact ⟨hn, ⟨n, typedNo⟩, (keeps.sound sound).branch _, (agree.keeps keeps).branch _⟩
  | loopTest =>
    cases wf with | loop ht _ =>
    exact ⟨ht, typed.loop.1, (sound.skip 1).branch _, (agree.keeps (.skip _ 1)).branch _⟩
  | loopBody hx =>
    cases wf with | loop ht hb =>
    have keeps := (Keeps.skip _ 1).trans (hx.keeps ht).branch
    exact ⟨hb, typed.loop.2.1, (keeps.sound sound).branch _, (agree.keeps keeps).branch _⟩
  | item hb =>
    cases wf with | block _ hw =>
    obtain ⟨Ts, all, _⟩ := typed.block
    have keeps := hb.keeps fun e he => hw e (List.mem_append_left _ he)
    exact .later (hw _ (by simp)) (Typed.of_forall₂ all _ (by simp)) sound.push agree.push keeps
  | init hb =>
    cases wf with | letIn hn hi hw =>
    obtain ⟨inner, checked, _⟩ := typed.letIn
    have hwb : ∀ b ∈ _, Binding.WellFormed b := fun b hb =>
      ⟨hn b (List.mem_append_left _ hb), hi b (List.mem_append_left _ hb)⟩
    obtain ⟨T, hT, _⟩ := (Binding.checked_of_mem checked).init _ rfl
    exact ⟨hi _ (List.mem_append_right _ List.mem_cons_self) _ rfl, ⟨T, hT⟩,
      (hb.extends hwb).sound sound.push, .bindAll _ hb hwb checked agree.push⟩
  | body hb =>
    cases wf with | letIn hn hi hw =>
    obtain ⟨inner, checked, typedBody⟩ := typed.letIn
    have hwb : ∀ b ∈ _, Binding.WellFormed b := fun b hb => ⟨hn b hb, hi b hb⟩
    cases checkBindings_ok checked
    exact ⟨hw, ⟨T, typedBody⟩, (hb.extends hwb).sound sound.push,
      .bindAll [] hb hwb (by rwa [List.append_nil]) agree.push⟩
  | left =>
    cases wf with | binary hl _ =>
    exact ⟨hl, typed.binary.1, sound, agree⟩
  | right hx =>
    cases wf with | binary hl hr =>
    exact .later hr typed.binary.2.1 sound agree (hx.keeps hl)
  | operand _ =>
    cases wf with | unary ho =>
    exact ⟨ho, typed.unary.1, sound, agree⟩
  | inner =>
    cases wf with | group hi =>
    exact ⟨hi, ⟨T, typed.group⟩, sound, agree⟩

theorem Fits.descendant {a b : Site} (fits : Fits env hidden a)
    (h : Relation.ReflTransGen (Child env) a b) : Fits env hidden b := by
  induction h with
  | refl => exact fits
  | tail _ hc ih => exact ih.child hc

/-- What is known of an expression: it fits, and all sites within it have a property. -/
structure Throughout (P : Site → Prop) (env : LowerEnv) (hidden : List Bytes) (site : Site) : Prop
    extends Fits env hidden site where
  within : ∀ inner, Relation.ReflTransGen (Child env) site inner → P inner

theorem Throughout.child {P : Site → Prop} {a b : Site} (h : Throughout P env hidden a)
    (hc : Child env a b) : Throughout P env hidden b :=
  ⟨h.toFits.child hc, fun inner hd => h.within inner (.head hc hd)⟩

def ThroughoutRow (P : Site → Prop) (env : LowerEnv) (hidden : List Bytes) (L : Scopes ClassName)
    (s : FunctionState) (es : List Expr) : Prop :=
  ∀ before {e after ys u}, es = before ++ e :: after → LowersAll env s before ys u →
    Throughout P env hidden ⟨L, u, e⟩

def ThroughoutBindings (P : Site → Prop) (env : LowerEnv) (hidden : List Bytes)
    (L : Scopes ClassName) (s : FunctionState) (bs : List (Binding Expr)) : Prop :=
  ∀ before {b after code u}, bs = before ++ b :: after → LowersBindings env s before code u →
    b.Checked (env.typing (L.bindAll before)) ∧
      ∀ e ∈ b.init, Throughout P env hidden ⟨L.bindAll before, u, e⟩

section Rows

variable {P : Site → Prop} {e : Expr} {es args : List Expr} {x : Lowered} {span : Span}
  {method : Name} {receiver : Expr} {type : TypeName} {b : Binding Expr} {bs : List (Binding Expr)}

theorem Throughout.selfArguments (h : Throughout P env hidden ⟨L, s, .selfCall method args span⟩) :
    ThroughoutRow P env hidden L s args := by
  rintro _ _ _ _ _ rfl hb
  exact h.child (.selfArgument hb)

theorem Throughout.arguments
    (h : Throughout P env hidden ⟨L, s, .call receiver method args span⟩)
    (hr : Lowers env s receiver x t) : ThroughoutRow P env hidden L t args := by
  rintro _ _ _ _ _ rfl hb
  exact h.child (.argument hr hb)

theorem Throughout.staticArguments
    (h : Throughout P env hidden ⟨L, s, .staticCall receiver type method args span⟩)
    (hr : Lowers env s receiver x t) : ThroughoutRow P env hidden L t args := by
  rintro _ _ _ _ _ rfl hb
  exact h.child (.staticArgument hr hb)

theorem Throughout.items (h : Throughout P env hidden ⟨L, s, .block es span⟩) :
    ThroughoutRow P env hidden L.push s.push es := by
  rintro _ _ _ _ _ rfl hb
  exact h.child (.item hb)

theorem Throughout.inits (h : Throughout P env hidden ⟨L, s, .letIn bs e span⟩) :
    ThroughoutBindings P env hidden L.push s.push bs := by
  rintro _ ⟨_, _, init, _⟩ _ _ _ rfl hb
  obtain ⟨_, hT⟩ := h.typed
  obtain ⟨_, checked, _⟩ := hT.letIn
  refine ⟨Binding.checked_of_mem checked, fun e he => ?_⟩
  cases he
  exact h.child (.init hb)

theorem ThroughoutRow.head (h : ThroughoutRow P env hidden L s (e :: es)) :
    Throughout P env hidden ⟨L, s, e⟩ := h [] rfl .nil

theorem ThroughoutRow.tail (h : ThroughoutRow P env hidden L s (e :: es))
    (hx : Lowers env s e x t) : ThroughoutRow P env hidden L t es := by
  rintro before _ _ _ _ rfl hb
  exact h (e :: before) rfl (.cons hx hb)

theorem ThroughoutBindings.head (h : ThroughoutBindings P env hidden L s (b :: bs)) :
    b.Checked (env.typing L) ∧ ∀ e ∈ b.init, Throughout P env hidden ⟨L, s, e⟩ := h [] rfl .empty

theorem ThroughoutBindings.tail_init {name : Name}
    (h : ThroughoutBindings P env hidden L s (⟨name, type, some e, span⟩ :: bs))
    (hx : Lowers env s e x t) : ThroughoutBindings P env hidden (L.bind name.text type.className)
      (t.bind name.text (type.className.resolve env.self)).2 bs := by
  rintro before _ _ _ _ rfl hb
  exact h (⟨name, type, some e, span⟩ :: before) rfl (.init hx hb)

theorem ThroughoutBindings.tail_default {name : Name}
    (h : ThroughoutBindings P env hidden L s (⟨name, type, none, span⟩ :: bs)) :
    ThroughoutBindings P env hidden (L.bind name.text type.className)
      (s.bind name.text (type.className.resolve env.self)).2 bs := by
  rintro before _ _ _ _ rfl hb
  exact h (⟨name, type, none, span⟩ :: before) rfl (.default hb)

end Rows

end Children

section Roots

open LowerEnv

/-- The expressions of a class that stand in no other: the bodies of its methods, marked if the
program starts with the method, and the first values of its attributes. -/
inductive Root (t : ClassTable) (e : Entry) (c : ClassDecl) : Option Method → Site → Prop where
  | method {m params s} : m ∈ c.methods → (c.lowerEnv t).isEntry e m = false →
      ((c.lowerEnv t).bindParams m.params).run .initial = .ok params s →
      Root t e c none ⟨m.locals, s, m.body⟩
  | entry {m} : m ∈ c.methods → (c.lowerEnv t).isEntry e m = true →
      Root t e c (some m) ⟨m.locals, FunctionState.initial.skip 1, m.body⟩
  | attribute {p call s before a after init code u} : t.get? c.className = some p →
      (parentCall p).run .initial = .ok call s → c.attributes = before ++ a :: after →
      ((c.lowerEnv t).setAttributes before).run s = .ok code u → a.init = some init →
      Root t e c none ⟨.empty, u, init⟩

def Occurs (t : ClassTable) (e : Entry) (c : ClassDecl) (entry : Option Method) (site : Site) :
    Prop :=
  ∃ root, Root t e c entry root ∧ Relation.ReflTransGen (Child (c.lowerEnv t)) root site

/-- The names without a register in the method that a program starts with. -/
def hiddenIn (entry : Option Method) : List Bytes :=
  (entry.elim [] (·.params)).map (·.name.text)

theorem agree_bindParams {env : LowerEnv} {ps : List Formal} {params : List Bril.Param}
    {L : Scopes ClassName} {s t : FunctionState}
    (h : (env.bindParams ps).run s = .ok params t) (words : ∀ p ∈ ps, IsWord p.name.text)
    (agree : Agree env.self [] L s) :
    Agree env.self [] (ps.foldl (fun L p => L.bind p.name.text p.type.className) L) t ∧
      s.Extends t := by
  induction ps generalizing L s params with
  | nil =>
    cases h
    exact ⟨agree, (Keeps.refl _).toExtends⟩
  | cons p ps ih =>
    rw [List.forall_mem_cons] at words
    obtain ⟨_, hps, _⟩ := run_bindParams_cons_eq_ok.mp h
    obtain ⟨agree, later⟩ := ih hps words.2 (agree.bind List.not_mem_nil _)
    exact ⟨agree, (Extends.bind s words.1 _).trans later⟩

theorem Sets.keeps {env : LowerEnv} {a : Attribute} {code : List Bril.Instr}
    {s t : FunctionState} (h : Sets env s a code t) (hw : Binding.WellFormed a) : s.Keeps t := by
  cases h with
  | init present lowers => exact (lowers.keeps (hw.2 _ present)).trans (.skip _ 2)
  | default => exact .skip s 3
  | none => exact .skip s 1

/-- Whether an attribute of a row gets its first value from a state, behind the attributes before
it. -/
def SetFrom (env : LowerEnv) (s : FunctionState) (as : List Attribute) (a : Attribute)
    (u : FunctionState) : Prop :=
  ∃ before after code, as = before ++ a :: after ∧ (env.setAttributes before).run s = .ok code u

theorem SetFrom.head {env : LowerEnv} {s : FunctionState} {a : Attribute} {as : List Attribute} :
    SetFrom env s (a :: as) a s := ⟨[], as, [], rfl, rfl⟩

theorem SetFrom.tail {env : LowerEnv} {s t u : FunctionState} {a b : Attribute}
    {as : List Attribute} {code : List Bril.Instr} (h : SetFrom env t as b u)
    (ha : (env.setAttribute a).run s = .ok code t) : SetFrom env s (a :: as) b u := by
  obtain ⟨before, after, more, rfl, done⟩ := h
  exact ⟨a :: before, after, code ++ more, rfl,
    run_setAttributes_cons_eq_ok.mpr ⟨code, t, more, ha, done, rfl⟩⟩

theorem setAttributes_keeps {env : LowerEnv} {as : List Attribute} {code : List Bril.Instr}
    {s t : FunctionState} (h : (env.setAttributes as).run s = .ok code t)
    (hw : ∀ a ∈ as, Binding.WellFormed a) : s.Keeps t := by
  induction as generalizing s code with
  | nil =>
    cases h
    exact .refl _
  | cons a as ih =>
    rw [List.forall_mem_cons] at hw
    obtain ⟨_, _, _, ha, has, _⟩ := run_setAttributes_cons_eq_ok.mp h
    exact ((Sets.of_run ha).keeps hw.1).trans (ih has hw.2)

theorem parentCall_keeps {p : ClassEntry} {code : List Bril.Instr} {s t : FunctionState}
    (h : (parentCall p).run s = .ok code t) : s.Keeps t := by
  obtain ⟨_, rfl⟩ | ⟨_, _, _, rfl, _⟩ := parentCall_ok h
  · exact .refl _
  · exact .skip s 1

theorem initial_agree (c : ClassName) (L : Scopes ClassName) (hidden : List Bytes)
    (h : ∀ n, L.find? n = none ↔ n ∉ hidden) : Agree c hidden L FunctionState.initial := by
  constructor
  · intro n hn free
    exact (h n).mp free hn
  · intro n
    by_cases hn : n ∈ hidden
    · rw [if_pos hn]
      rfl
    · rw [if_neg hn, (h n).mpr hn]
      rfl

theorem Method.locals_find?_eq_none {m : Method} {n : Bytes} :
    m.locals.find? n = none ↔ n ∉ m.params.map (·.name.text) := by
  unfold Method.locals
  have fold (ps : List Formal) (L : Scopes ClassName) :
      (ps.foldl (fun L p => L.bind p.name.text p.type.className) L).find? n = none ↔
        n ∉ ps.map (·.name.text) ∧ L.find? n = none := by
    induction ps generalizing L with
    | nil => simp
    | cons p ps ih =>
      rw [List.foldl_cons, ih, List.map_cons, List.mem_cons, not_or]
      by_cases same : n = p.name.text
      · rw [same, Scopes.find?_bind_self]
        simp
      · rw [Scopes.find?_bind_of_ne _ _ same]
        simp [same]
  rw [fold]
  exact and_iff_left rfl

/-- The bodies and first values of a class of an accepted program fit. -/
theorem Accepted.fits_root {files : SourceFiles} {classes : List ClassDecl} {t : ClassTable}
    (h : Accepted files classes t) {c : ClassDecl} (hc : c ∈ classes) {e : Entry}
    {entry : Option Method} {site : Site} (hr : Root t e c entry site) :
    Fits (c.lowerEnv t) (hiddenIn entry) site := by
  have wellFormed := h.wellFormed hc
  have method {m : Method} (hm : m ∈ c.methods) :
      ∃ T, Typed ((c.lowerEnv t).typing m.locals) m.body T := by
    obtain ⟨T, hT, _⟩ := ((h.admits hc).method hm).body
    exact ⟨T, hT⟩
  cases hr with
  | method hm _ hb =>
    have words := (wellFormed.method hm).1
    have nothing := initial_agree c.className (Scopes.empty.push) [] fun _ =>
      iff_of_true rfl List.not_mem_nil
    obtain ⟨agree, later⟩ := agree_bindParams hb words nothing
    exact ⟨(wellFormed.method hm).2, method hm, later.sound FunctionState.initial_sound, agree⟩
  | entry hm _ =>
    refine ⟨(wellFormed.method hm).2, method hm, FunctionState.initial_sound.skip 1, ?_⟩
    exact (initial_agree _ _ _ fun _ => Method.locals_find?_eq_none).keeps (.skip _ 1)
  | «attribute» _ hp has hcode hinit =>
    have mem {a : Attribute} (ha : a ∈ c.attributes) := wellFormed.attribute ha
    rw [has] at mem
    have keeps := (parentCall_keeps hp).trans
      (setAttributes_keeps hcode fun a ha => mem (List.mem_append_left _ ha))
    obtain ⟨T, hT, _⟩ :=
      (h.admits hc).firstValue (has ▸ List.mem_append_right _ List.mem_cons_self) hinit
    have nothing := initial_agree c.className .empty [] fun _ => iff_of_true rfl List.not_mem_nil
    exact .later ((mem (List.mem_append_right _ List.mem_cons_self)).2 _ hinit) ⟨T, hT⟩
      FunctionState.initial_sound nothing keeps

/-- So does every other expression of the class. -/
theorem Accepted.fits {files : SourceFiles} {classes : List ClassDecl} {t : ClassTable}
    (h : Accepted files classes t) {c : ClassDecl} (hc : c ∈ classes) {e : Entry}
    {entry : Option Method} {site : Site} (ho : Occurs t e c entry site) :
    Fits (c.lowerEnv t) (hiddenIn entry) site := by
  obtain ⟨root, hr, hd⟩ := ho
  exact (h.fits_root hc hr).descendant hd

end Roots

end Cool
