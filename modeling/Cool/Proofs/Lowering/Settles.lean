import Cool.Proofs.Lowering.Members
import Cool.Proofs.Lowering.States
import Mathlib.Logic.Function.Basic

/-!
Choosing what each register of a function stands for. Registers get their meanings one by one, as
they are given out, so what holds of code with some meanings holds whatever registers are given out
later.
-/
namespace Cool

open FunctionState (tempName Keeps Extends)

/-- What the register of the object at hand means, and those of variables, by their class. -/
structure Meaning (κ : Type) where
  self : κ
  ofClass : ClassName → κ

variable {κ : Type}

def Same (s : FunctionState) (k l : String → κ) : Prop := ∀ r, s.Given r → l r = k r

structure Knows (M : Meaning κ) (k : String → κ) (s : FunctionState) : Prop where
  self : k selfReg = M.self
  locals : ∀ {n x}, s.find? n = some x → k x.reg = M.ofClass x.type

/-- Whether the registers given out between two states can have meanings with which `P` holds,
whatever those given out before and later mean. -/
def Settles (M : Meaning κ) (s t : FunctionState) (P : (String → κ) → Prop) : Prop :=
  s.Sound → s.Extends t ∧ ∀ k, Knows M k s → ∃ l, Same s k l ∧ ∀ m, Same t l m → P m ∧ Knows M m t

variable {M : Meaning κ} {s t u : FunctionState} {k l m : String → κ} {P Q : (String → κ) → Prop}

theorem Same.refl (s : FunctionState) (k : String → κ) : Same s k k := fun _ _ => rfl

theorem Same.trans (h : Same s k l) (h' : Same t l m) (st : s.Extends t) : Same s k m :=
  fun r hr => (h' r (st.given hr)).trans (h r hr)

theorem Same.knows (h : Same s k l) (hs : s.Sound) (knows : Knows M k s) : Knows M l s where
  self := (h _ (.inl hs.self)).trans knows.self
  locals hx := (h _ (hs.given_local hx)).trans (knows.locals hx)

theorem Knows.keeps (h : Knows M k s) (st : s.Keeps t) : Knows M k t :=
  ⟨h.self, fun hx => h.locals (st.find? _ ▸ hx)⟩

namespace Settles

/-- Registers that are settled for a whole function have meanings. -/
theorem solve (h : Settles M .initial t P) : ∃ m, P m ∧ Knows M m t := by
  obtain ⟨l, _, all⟩ := (h FunctionState.initial_sound).2 (fun _ => M.self) ⟨rfl, nofun⟩
  exact ⟨l, all l (.refl t l)⟩

theorem imp (h : Settles M s t P) (hPQ : ∀ m, Knows M m t → P m → Q m) : Settles M s t Q := by
  refine fun hs => (h hs).imp_right fun settled k knows => ?_
  obtain ⟨l, same, all⟩ := settled k knows
  exact ⟨l, same, fun m hm => ⟨hPQ m (all m hm).2 (all m hm).1, (all m hm).2⟩⟩

theorem here (st : s.Keeps t) (h : ∀ m, Knows M m t → P m) : Settles M s t P := by
  refine fun hs => ⟨st.toExtends, fun k knows => ⟨k, .refl s k, fun m same => ?_⟩⟩
  have later := (((Same.refl s k).trans same st.toExtends).knows hs knows).keeps st
  exact ⟨h m later, later⟩

theorem bind (h : Settles M s t P) (next : Settles M t u Q) :
    Settles M s u fun m => P m ∧ Q m := by
  intro hs
  obtain ⟨st, first⟩ := h hs
  obtain ⟨tu, second⟩ := next (st.sound hs)
  refine ⟨st.trans tu, fun k knows => ?_⟩
  obtain ⟨l, same, all⟩ := first k knows
  obtain ⟨l', same', all'⟩ := second l (all l (.refl t l)).2
  -- What `l'` adds is given out behind `t`, so it leaves alone what `l` has settled.
  refine ⟨l', same.trans same' st, fun m hm => ?_⟩
  exact ⟨⟨(all m (same'.trans hm tu)).1, (all' m hm).1⟩, (all' m hm).2⟩

theorem after (h : Settles M t u P) (st : s.Keeps t) : Settles M s u P :=
  ((here st fun _ _ => trivial).bind h).imp fun _ _ ⟨_, hP⟩ => hP

theorem before (h : Settles M s t P) (tu : t.Keeps u) : Settles M s u P :=
  (h.bind (here tu fun _ _ => trivial)).imp fun _ _ ⟨hP, _⟩ => hP

/-- What has been entered with all names is left again. -/
theorem leave {s' t' : FunctionState} (h : Settles M s' t' P) (sound : s.Sound → s'.Sound)
    (names : s'.find? = s.find?) (back : s'.Extends t' → s.Keeps t)
    (first : ∀ r, s.Given r → s'.Given r) (last : ∀ r, t'.Given r → t.Given r) :
    Settles M s t P := by
  intro hs
  obtain ⟨st', settled⟩ := h (sound hs)
  refine ⟨(back st').toExtends, fun k knows => ?_⟩
  obtain ⟨l, same, all⟩ := settled k ⟨knows.self, fun hx => knows.locals (names ▸ hx)⟩
  refine ⟨l, fun r hr => same r (first r hr), fun m hm => ?_⟩
  have hm' : Same t' l m := fun r hr => hm r (last r hr)
  have fromStart : Same s k m := fun r hr =>
    (hm' r (st'.given (first r hr))).trans (same r (first r hr))
  exact ⟨(all m hm').1, (fromStart.knows hs knows).keeps (back st')⟩

theorem branch (h : Settles M s.enterBranch t P) (st : s.enterBranch.Keeps t) :
    Settles M s t.leaveBranch P :=
  h.leave (fun hs => hs.branch _) rfl (fun _ => st.branch) (fun _ hr => hr) fun _ hr => hr

theorem scope (h : Settles M s.push t P) : Settles M s t.pop P :=
  h.leave (fun hs => hs.push) rfl .pop (fun _ hr => hr) fun _ hr => hr

theorem new {reg : String} (fresh : s.Sound → ¬ s.Given reg) (given : t.Given reg)
    (st : s.Extends t) (a : κ) (names : ∀ m, Knows M m s → m reg = a → Knows M m t) :
    Settles M s t fun m => m reg = a := by
  refine fun hs => ⟨st, fun k knows => ?_⟩
  have same : Same s k (Function.update k reg a) := fun r hr =>
    Function.update_of_ne (fun h : r = reg => fresh hs (h ▸ hr)) ..
  refine ⟨_, same, fun m hm => ?_⟩
  have here : m reg = a := (hm reg given).trans (Function.update_self ..)
  exact ⟨here, names m ((same.trans hm st).knows hs knows) here⟩

theorem temp (s : FunctionState) (a : κ) :
    Settles M s (s.skip 1) fun m => m (tempName s.next) = a :=
  new (fun hs => hs.temp_not_given (Nat.le_refl _)) (s.given_next 0)
    (Keeps.skip s 1).toExtends a fun _ h _ => h.keeps (.skip s 1)

theorem temp₂ (s : FunctionState) (a b : κ) :
    Settles M s (s.skip 2) fun m => m (tempName s.next) = a ∧ m (tempName (s.next + 1)) = b :=
  (temp s a).bind (temp (s.skip 1) b)

theorem bound (s : FunctionState) {name : Bytes} (hn : IsWord name) (type : ClassName) :
    Settles M s (s.bind name type).2 fun m => m (s.bind name type).1 = M.ofClass type := by
  refine new (fun hs => hs.bind_reg_not_given hn.dotFree type)
    (FunctionState.Sound.bind_reg_given s name type) (Extends.bind s hn type) _ ?_
  refine fun m h here => ⟨h.self, fun {n x} hx => ?_⟩
  by_cases same : n = name
  · rw [same, FunctionState.find?_bind_self] at hx
    cases hx
    exact here
  · rw [FunctionState.find?_bind_of_ne _ _ same] at hx
    exact h.locals hx

end Settles

theorem bindParams_settles {env : LowerEnv} {ps : List Formal} {params : List Bril.Param}
    (h : (env.bindParams ps).run s = .ok params u) (words : ∀ p ∈ ps, IsWord p.name.text) :
    Settles M s u fun m => (params.map fun p => m p.name) =
      ps.map fun p => M.ofClass (p.type.className.resolve env.self) := by
  induction ps generalizing s params with
  | nil =>
    cases h
    exact .here (.refl _) fun _ _ => rfl
  | cons p ps ih =>
    rw [List.forall_mem_cons] at words
    obtain ⟨_, hps, rfl⟩ := run_bindParams_cons_eq_ok.mp h
    exact ((Settles.bound s words.1 _).bind (ih hps words.2)).imp
      fun _ _ ⟨reg, rest⟩ => congrArg₂ List.cons reg rest

end Cool
