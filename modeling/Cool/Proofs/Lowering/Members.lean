import Cool.Lowering.Program
import Cool.Proofs.Lowering.Lowers

/-!
What the functions of a class are made of. A class has a function for each of its members: its
constructor, which gives the attributes their first values, and its methods.
-/
namespace Cool

open Bril (Function Instr)

theorem Lower.result_eq_ok {α : Type} {x : Lower α} {a : α} :
    x.result = .ok a ↔ ∃ u, x.run .initial = .ok a u := by
  unfold Lower.result
  cases x.run .initial <;> simp

theorem Lower.result_eq_error {α : Type} {x : Lower α} {err : LoweringError} :
    x.result = .error err ↔ ∃ u, x.run .initial = .error err u := by
  unfold Lower.result
  cases x.run .initial <;> simp

def ClassDecl.lowerEnv (c : ClassDecl) (t : ClassTable) : LowerEnv := ⟨t, c.className⟩

section Parts

open LowerEnv
open FunctionState (tempName)

inductive Sets (env : LowerEnv) :
    FunctionState → Attribute → List Bril.Instr → FunctionState → Prop where
  | init {s t a init x slot type} : a.init = some init → Lowers env s init x t →
      env.table.slot? env.self a.name.text = some (slot, type) →
      Sets env s a
        (x.code ++ addressCode t.next slot ++ [.perform .store [tempName (t.next + 1), x.dest]])
        (t.skip 2)
  | default {s a value slot type} : a.init = none →
      (a.type.className.resolve env.self).default? = some value →
      env.table.slot? env.self a.name.text = some (slot, type) →
      Sets env s a
        ([.literal (tempName s.next) value] ++ addressCode (s.next + 1) slot
          ++ [.perform .store [tempName (s.next + 2), tempName s.next]]) (s.skip 3)
  | none {s a} : a.init = none → (a.type.className.resolve env.self).default? = none →
      Sets env s a [] (s.skip 1)

variable {env : LowerEnv} {s t u : FunctionState} {a : Attribute} {code : List Bril.Instr}

theorem run_bindParams_cons_eq_ok {p : Formal} {ps : List Formal} {params : List Bril.Param} :
    (env.bindParams (p :: ps)).run s = .ok params t ↔ ∃ more,
      (env.bindParams ps).run (s.bind p.name.text (p.type.className.resolve env.self)).2 =
        .ok more t ∧
      params = ⟨(s.bind p.name.text (p.type.className.resolve env.self)).1,
        (p.type.className.resolve env.self).ty⟩ :: more := by
  rw [bindParams]
  constructor
  · intro h
    obtain ⟨_, _, bound, h⟩ := run_bind_eq_ok.mp h
    cases bound
    obtain ⟨more, _, hps, h⟩ := run_bind_eq_ok.mp h
    cases h
    exact ⟨more, hps, rfl⟩
  · rintro ⟨more, hps, rfl⟩
    exact run_bind_eq_ok.mpr ⟨_, _, rfl, run_bind_eq_ok.mpr ⟨more, t, hps, rfl⟩⟩

theorem length_bindParams {ps : List Formal} {params : List Bril.Param}
    (h : (env.bindParams ps).run s = .ok params u) : params.length = ps.length := by
  induction ps generalizing s params with
  | nil =>
    cases h
    rfl
  | cons p ps ih =>
    obtain ⟨_, hps, rfl⟩ := run_bindParams_cons_eq_ok.mp h
    exact congrArg (· + 1) (ih hps)

theorem Sets.of_run (h : (env.setAttribute a).run s = .ok code t) : Sets env s a code t := by
  unfold setAttribute at h
  obtain ⟨value, u, initial, set⟩ := run_bind_eq_ok.mp h
  unfold initialValue at initial
  split at initial
  · rename_i init present
    obtain ⟨x, v, lowered, initial⟩ := run_bind_eq_ok.mp initial
    cases initial
    obtain ⟨_, _, address, set⟩ := run_bind_eq_ok.mp set
    obtain ⟨_, _, slot, rfl, rfl⟩ := run_attributeAddress_eq_ok.mp address
    cases set
    exact .init present (.of_run init lowered) slot
  · rename_i absent
    obtain ⟨_, _, temp, initial⟩ := run_bind_eq_ok.mp initial
    cases temp
    cases initial
    cases first : (a.type.className.resolve env.self).default? with
    | none =>
      rw [first] at set
      cases set
      exact .none absent first
    | some v =>
      rw [first] at set
      obtain ⟨_, _, address, set⟩ := run_bind_eq_ok.mp set
      obtain ⟨_, _, slot, rfl, rfl⟩ := run_attributeAddress_eq_ok.mp address
      cases set
      exact .default absent first slot

theorem Sets.run (h : Sets env s a code t) : (env.setAttribute a).run s = .ok code t := by
  unfold setAttribute initialValue
  cases h with
  | init present lowers slot =>
    rw [present]
    refine run_bind_eq_ok.mpr ⟨_, _, run_bind_eq_ok.mpr ⟨_, _, lowers.run, rfl⟩, ?_⟩
    exact run_bind_eq_ok.mpr ⟨_, _, run_attributeAddress_eq_ok.mpr ⟨_, _, slot, rfl, rfl⟩, rfl⟩
  | default absent value slot =>
    rw [absent, value]
    refine run_bind_eq_ok.mpr ⟨_, _, run_bind_eq_ok.mpr ⟨_, _, rfl, rfl⟩, ?_⟩
    exact run_bind_eq_ok.mpr ⟨_, _, run_attributeAddress_eq_ok.mpr ⟨_, _, slot, rfl, rfl⟩, rfl⟩
  | none absent nothing =>
    rw [absent, nothing]
    rfl

theorem run_setAttributes_cons_eq_ok {as : List Attribute} :
    (env.setAttributes (a :: as)).run s = .ok code u ↔ ∃ now v rest,
      (env.setAttribute a).run s = .ok now v ∧ (env.setAttributes as).run v = .ok rest u ∧
        code = now ++ rest := by
  rw [setAttributes]
  constructor
  · intro h
    obtain ⟨now, v, ha, h⟩ := run_bind_eq_ok.mp h
    obtain ⟨rest, _, has, h⟩ := run_bind_eq_ok.mp h
    cases h
    exact ⟨now, v, rest, ha, has, rfl⟩
  · rintro ⟨now, v, rest, ha, has, rfl⟩
    exact run_bind_eq_ok.mpr ⟨now, v, ha, run_bind_eq_ok.mpr ⟨rest, u, has, rfl⟩⟩

/-- The constructor of a parent is called if the parent is not built in. -/
theorem parentCall_ok {p : ClassEntry} (h : (parentCall p).run s = .ok code t) :
    code = [] ∧ t = s ∨ ∃ c, p.parent = some c ∧ c.isBuiltin = false ∧ t = s.skip 1 ∧
      code = [.call (tempName s.next) .object c.constructorName [selfReg]] := by
  unfold parentCall at h
  split at h
  · cases h
    exact .inl ⟨rfl, rfl⟩
  rename_i c parent
  split at h
  · cases h
    exact .inl ⟨rfl, rfl⟩
  · rename_i notBuiltin
    cases h
    exact .inr ⟨c, parent, Bool.eq_false_iff.mpr notBuiltin, rfl, rfl⟩

end Parts

inductive Member where
  | constructor (c : ClassDecl)
  | method (c : ClassDecl) (m : Method)

namespace Member

def owner : Member → ClassDecl
  | .constructor c => c
  | .method c _ => c

def Declared : Member → Prop
  | .constructor _ => True
  | .method c m => m ∈ c.methods

def label : Member → Bytes
  | .constructor _ => ascii "constructor"
  | .method _ m => m.name.text

def IsEntry (e : Entry) : Member → Prop
  | .constructor _ => False
  | .method c m => c.className.bytes = e.className ∧ m.name.text = e.method

instance (e : Entry) : (b : Member) → Decidable (b.IsEntry e)
  | .constructor _ => inferInstanceAs (Decidable False)
  | .method _ _ => inferInstanceAs (Decidable (_ ∧ _))

def functionName (e : Entry) (b : Member) : String :=
  if b.IsEntry e then entryName else b.owner.className.memberName b.label

/-- The number of arguments, of which the object is the first. Nothing is passed to the entry. -/
def arity (e : Entry) (b : Member) : Nat :=
  if b.IsEntry e then 0
  else match b with
    | .constructor _ => 1
    | .method _ m => m.params.length + 1

def function (t : ClassTable) (e : Entry) : Member → Except LoweringError Function
  | .constructor c => ((c.lowerEnv t).constructor c).result
  | .method c m =>
    if (c.lowerEnv t).isEntry e m then ((c.lowerEnv t).entry m).result
    else ((c.lowerEnv t).method m).result

theorem isEntry_iff {t : ClassTable} {e : Entry} {c : ClassDecl} {m : Method} :
    (c.lowerEnv t).isEntry e m = true ↔ (method c m).IsEntry e := by
  unfold LowerEnv.isEntry
  rw [Bool.and_eq_true, beq_iff_eq, beq_iff_eq]
  rfl

theorem isEntry_eq_false {t : ClassTable} {e : Entry} {c : ClassDecl} {m : Method} :
    (c.lowerEnv t).isEntry e m = false ↔ ¬ (method c m).IsEntry e := by
  rw [← isEntry_iff (t := t), Bool.not_eq_true]

variable {t : ClassTable} {e : Entry} {b : Member} {f : Function}

inductive Makes (t : ClassTable) (e : Entry) : Member → Function → Prop where
  | constructor {c entry call s code u} : t.get? c.className = some entry →
      (LowerEnv.parentCall entry).run .initial = .ok call s →
      ((c.lowerEnv t).setAttributes c.attributes).run s = .ok code u →
      Makes t e (.constructor c) ⟨c.className.constructorName, [⟨selfReg, .object⟩], some .object,
        call ++ code ++ [.ret (some selfReg)]⟩
  | entry {c m x u} : (c.lowerEnv t).isEntry e m = true →
      Lowers (c.lowerEnv t) (FunctionState.initial.skip 1) m.body x u →
      Makes t e (.method c m) ⟨entryName, [], none,
        [Instr.literal (FunctionState.tempName 0) (.int (t.objectSize c.className)),
          Instr.compute .alloc selfReg .object [FunctionState.tempName 0],
          Instr.call selfReg .object c.className.constructorName [selfReg]]
        ++ x.code ++ [Instr.perform .free [selfReg]]
        ++ u.takePending.1.map (fun reg => Instr.perform .free [reg]) ++ [Instr.ret none]⟩
  | method {c m params s x u} : (c.lowerEnv t).isEntry e m = false →
      ((c.lowerEnv t).bindParams m.params).run .initial = .ok params s →
      Lowers (c.lowerEnv t) s m.body x u →
      Makes t e (.method c m) ⟨c.className.memberName m.name.text, ⟨selfReg, .object⟩ :: params,
        some (m.result.className.resolve c.className).ty, x.code ++ [.ret (some x.dest)]⟩

theorem makes_of_function (h : b.function t e = .ok f) : b.Makes t e f := by
  cases b with
  | constructor c =>
    obtain ⟨_, h⟩ := Lower.result_eq_ok.mp h
    unfold LowerEnv.constructor at h
    split at h
    · cases h
    · rename_i entry found
      obtain ⟨_, _, called, h⟩ := run_bind_eq_ok.mp h
      obtain ⟨_, _, set, h⟩ := run_bind_eq_ok.mp h
      cases h
      exact .constructor found called set
  | method c m =>
    dsimp only [function] at h
    split at h
    · rename_i isEntry
      obtain ⟨_, h⟩ := Lower.result_eq_ok.mp h
      unfold LowerEnv.entry at h
      obtain ⟨_, _, started, h⟩ := run_bind_eq_ok.mp h
      cases started
      obtain ⟨x, _, body, h⟩ := run_bind_eq_ok.mp h
      obtain ⟨_, _, taken, h⟩ := run_bind_eq_ok.mp h
      cases taken
      cases h
      exact .entry isEntry (.of_run m.body body)
    · rename_i notEntry
      obtain ⟨_, h⟩ := Lower.result_eq_ok.mp h
      unfold LowerEnv.method at h
      obtain ⟨_, _, bound, h⟩ := run_bind_eq_ok.mp h
      obtain ⟨_, _, body, h⟩ := run_bind_eq_ok.mp h
      cases h
      exact .method (Bool.eq_false_iff.mpr notEntry) bound (.of_run m.body body)

theorem Makes.function (h : b.Makes t e f) : b.function t e = .ok f := by
  cases h with
  | @constructor c _ _ _ _ u found called set =>
    refine Lower.result_eq_ok.mpr ⟨u, ?_⟩
    unfold LowerEnv.constructor
    rw [show (c.lowerEnv t).table.get? (c.lowerEnv t).self = _ from found]
    exact run_bind_eq_ok.mpr ⟨_, _, called, run_bind_eq_ok.mpr ⟨_, _, set, rfl⟩⟩
  | @entry _ _ _ u isEntry body =>
    refine (if_pos isEntry).trans (Lower.result_eq_ok.mpr ⟨u.takePending.2, ?_⟩)
    exact run_bind_eq_ok.mpr ⟨_, _, rfl, run_bind_eq_ok.mpr ⟨_, _, body.run, rfl⟩⟩
  | @method _ _ _ _ _ u notEntry bound body =>
    refine (if_neg (Bool.eq_false_iff.mp notEntry)).trans (Lower.result_eq_ok.mpr ⟨u, ?_⟩)
    exact run_bind_eq_ok.mpr ⟨_, _, bound, run_bind_eq_ok.mpr ⟨_, _, body.run, rfl⟩⟩

end Member

def ClassDecl.members (c : ClassDecl) : List Member := .constructor c :: c.methods.map (.method c)

theorem ClassDecl.mem_members {c : ClassDecl} {b : Member} :
    b ∈ c.members ↔ b.owner = c ∧ b.Declared := by
  unfold ClassDecl.members
  cases b with
  | constructor d => simp [Member.owner, Member.Declared]
  | method d m =>
    rw [List.mem_cons, or_iff_right nofun, List.mem_map]
    constructor
    · rintro ⟨_, hm, same⟩
      cases same
      exact ⟨rfl, hm⟩
    · rintro ⟨rfl, hm⟩
      exact ⟨m, hm, rfl⟩

section Programs

variable {t : ClassTable} {e : Entry} {classes : List ClassDecl}
  {fs : List Function} {p : Bril.Program} {err : LoweringError}

theorem ClassDecl.functions_eq (t : ClassTable) (e : Entry) (c : ClassDecl) :
    c.functions t e = c.members.mapM (Member.function t e) := by
  unfold ClassDecl.functions ClassDecl.members
  rw [List.mapM_cons, List.mapM_map]
  rfl

/-- Each member of a class that gets code has a function there. -/
theorem Member.exists_makes (b : Member) (declared : b.Declared)
    (h : b.owner.functions t e = .ok fs) : ∃ f ∈ fs, b.Makes t e f := by
  rw [ClassDecl.functions_eq] at h
  obtain ⟨f, hf, made⟩ := exists_of_mapM_ok h b (ClassDecl.mem_members.mpr ⟨rfl, declared⟩)
  exact ⟨f, hf, makes_of_function made⟩

theorem generate_eq_ok : generate t e classes = .ok p ↔ ∃ fss,
    (t.hierarchyOrder classes).mapM (ClassDecl.functions t e) = .ok fss ∧
      p = ⟨builtinFunctions ++ fss.flatten⟩ := by
  unfold generate
  rw [bind_eq_ok]
  constructor
  · rintro ⟨fss, made, h⟩
    cases h
    exact ⟨fss, made, rfl⟩
  · rintro ⟨fss, made, rfl⟩
    exact ⟨fss, made, rfl⟩

theorem generate_eq_error : generate t e classes = .error err ↔
    (t.hierarchyOrder classes).mapM (ClassDecl.functions t e) = .error err := by
  unfold generate
  rw [bind_eq_error]
  exact or_iff_left fun ⟨_, _, h⟩ => nomatch h

end Programs

end Cool
