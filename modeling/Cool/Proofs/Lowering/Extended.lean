import Cool.Proofs.Class.Extended
import Cool.Proofs.Lowering.Alike
import Cool.Proofs.Typing.Known

/-!
The functions of a program that gets one more class. Code is made from what the table says of the
classes at hand, and all of these are classes that the program had before, so its functions stay as
they are, in their order.
-/
namespace Cool

open Bril (Instr Function)
open LowerEnv

section Expressions

variable {env : LowerEnv} {u : ClassTable} {s t : FunctionState}

/-- Whether the checker gives an expression a type, whatever the local names are. -/
def Typable (env : LowerEnv) (e : Expr) : Prop := ∃ L T, Typed (env.typing L) e T

def FunctionState.LocalsKnown (s : FunctionState) (t : ClassTable) : Prop :=
  ∀ x ∈ s.locals, t.contains x.2.type = true

structure LowerEnv.ExtendedBy (env : LowerEnv) (classes : List ClassDecl) (u : ClassTable) :
    Prop where
  outlines : env.table.Outlines classes
  closed : env.table.Closed
  tables : env.table.ExtendedBy u
  self : env.table.contains env.self = true

theorem FunctionState.LocalsKnown.of_restores {c : ClassTable} (h : s.LocalsKnown c)
    (after : s.Restores t) : t.LocalsKnown c := by
  unfold LocalsKnown
  rw [after.locals]
  exact h

theorem FunctionState.LocalsKnown.bind {c : ClassTable} (h : s.LocalsKnown c) {name : Bytes}
    {type : ClassName} (known : c.contains type = true) :
    (s.bind name type).2.LocalsKnown c := by
  obtain ⟨reg, n, heq, _⟩ := s.bind_eq name type
  rw [heq]
  unfold LocalsKnown locals
  rw [Scopes.flatten_bind]
  exact List.forall_mem_cons.mpr ⟨known, h⟩

namespace LowerEnv.ExtendedBy

variable {classes : List ClassDecl}

theorem resolve (h : env.ExtendedBy classes u) {c : ClassName}
    (known : c = .selfType ∨ env.table.contains c = true) :
    env.table.contains (c.resolve env.self) = true := by
  by_cases isSelf : c = .selfType
  · subst isSelf
    exact h.self
  · rw [ClassName.resolve_eq_self isSelf]
    exact known.resolve_left isSelf

theorem result (h : env.ExtendedBy classes u) {c receiver owner : ClassName} {name : Bytes}
    {m : MethodType} (found : env.table.findMethod? c name = some (owner, m))
    (known : env.table.contains receiver = true) :
    env.table.contains (Env.resultOf receiver m.result) = true := by
  rcases h.closed.results _ _ _ _ found with isSelf | there
  · rw [isSelf]
    exact known
  · cases same : m.result with
    | selfType => exact known
    | builtin _ | named _ =>
      rw [same] at there
      exact there

theorem slotType (h : env.ExtendedBy classes u) {name : Bytes} {slot : Nat} {type : ClassName}
    (found : env.table.slot? env.self name = some (slot, type)) :
    env.table.contains (type.resolve env.self) = true :=
  h.resolve (h.closed.attributes _ (name, type)
    (List.mem_of_getElem? (ClassTable.slot?_eq_some found)))

theorem findMethod? (h : env.ExtendedBy classes u) {c : ClassName} {name : Bytes}
    {found : ClassName × MethodType} (hm : env.table.findMethod? c name = some found) :
    (env.over u).table.findMethod? c name = some found :=
  (h.tables.findMethod? c (h.outlines.contains_of_findMethod? hm) name).trans hm

theorem slot? (h : env.ExtendedBy classes u) {name : Bytes} {found : Nat × ClassName}
    (hs : env.table.slot? env.self name = some found) :
    (env.over u).table.slot? (env.over u).self name = some found :=
  (h.tables.slot? _ h.self name).trans hs

theorem objectCode (h : env.ExtendedBy classes u) {c : ClassName}
    (known : env.table.contains c = true) (id : Nat) :
    (env.over u).objectCode id c = env.objectCode id c := by
  unfold LowerEnv.objectCode
  rw [show (env.over u).table.objectSize c = env.table.objectSize c from
    h.tables.objectSize c known]

theorem contains (h : env.ExtendedBy classes u) {c : ClassName}
    (known : env.table.contains c = true) : (env.over u).table.contains c = true := by
  unfold ClassTable.contains
  rw [show (env.over u).table.get? c = env.table.get? c from h.tables.get? c known]
  exact known

end LowerEnv.ExtendedBy

/-- An expression with a type gets the same code when the table is extended, and its class is one
that was known before. -/
theorem Lowers.extended {classes : List ClassDecl} (ext : env.ExtendedBy classes u) {e : Expr}
    {x : Lowered} (h : Lowers env s e x t) (typable : Typable env e)
    (known : s.LocalsKnown env.table) :
    Lowers (env.over u) s e x t ∧ env.table.contains x.type = true := by
  induction h using Lowers.rec
    (motive_2 := fun s es xs t _ => (∀ e ∈ es, Typable env e) → s.LocalsKnown env.table →
      LowersAll (env.over u) s es xs t ∧ ∀ x ∈ xs, env.table.contains x.type = true)
    (motive_3 := fun s bs code t _ =>
      (∀ b ∈ bs, env.table.contains (b.type.className.resolve env.self) = true ∧
        ∀ e ∈ b.init, Typable env e) → s.LocalsKnown env.table →
      LowersBindings (env.over u) s bs code t ∧ t.LocalsKnown env.table) with
  | assignLocal _ found ih =>
    obtain ⟨L, _, typed⟩ := typable
    obtain ⟨_, _, T, hT, _⟩ := typed.assign
    obtain ⟨value, type⟩ := ih ⟨L, T, hT⟩ known
    exact ⟨.assignLocal value found, type⟩
  | assignAttribute _ absent slot ih =>
    obtain ⟨L, _, typed⟩ := typable
    obtain ⟨_, _, T, hT, _⟩ := typed.assign
    obtain ⟨value, type⟩ := ih ⟨L, T, hT⟩ known
    exact ⟨.assignAttribute value absent (ext.slot? slot), type⟩
  | selfCall hm code _ ih =>
    obtain ⟨L, _, typed⟩ := typable
    obtain ⟨_, _, _, fitting, _⟩ := typed.selfCall
    obtain ⟨args, _⟩ := ih (fun a ha => ⟨L, fitting.typed a ha⟩) known
    exact ⟨.selfCall (ext.findMethod? hm) code args, ext.result hm ext.self⟩
  | call hr hm code _ ihr iha =>
    obtain ⟨L, _, typed⟩ := typable
    obtain ⟨R, hR, _, _, _, fitting, _⟩ := typed.call
    obtain ⟨receiver, type⟩ := ihr ⟨L, R, hR⟩ known
    obtain ⟨args, _⟩ := iha (fun a ha => ⟨L, fitting.typed a ha⟩) (known.of_restores hr.restores)
    exact ⟨.call receiver (ext.findMethod? hm) code args, ext.result hm type⟩
  | staticCall hr hm code _ ihr iha =>
    obtain ⟨L, _, typed⟩ := typable
    obtain ⟨R, hR, _, _, _, _, fitting, _⟩ := typed.staticCall
    obtain ⟨receiver, type⟩ := ihr ⟨L, R, hR⟩ known
    obtain ⟨args, _⟩ := iha (fun a ha => ⟨L, fitting.typed a ha⟩) (known.of_restores hr.restores)
    exact ⟨.staticCall receiver (ext.findMethod? hm) code args, ext.result hm type⟩
  | @cond s _ _ _ test yes no span _ _ _ ht hy hn iht ihy ihn =>
    obtain ⟨L, _, typed⟩ := typable
    obtain ⟨⟨_, hT⟩, Y, N, hY, hN, _⟩ := typed.cond
    have knownYes := known.of_restores ht.restores
    have knownNo := knownYes.of_restores hy.restores.branch
    obtain ⟨codeTest, _⟩ := iht ⟨L, _, hT⟩ known
    obtain ⟨codeYes, typeYes⟩ := ihy ⟨L, Y, hY⟩ knownYes
    obtain ⟨codeNo, typeNo⟩ := ihn ⟨L, N, hN⟩ knownNo
    have joined := ext.tables.join _ _ env.self (ext.resolve (.inr typeYes))
      (ext.resolve (.inr typeNo))
    have code : Lowers (env.over u) s (.cond test yes no span) _ _ := .cond codeTest codeYes codeNo
    rw [show (env.over u).table.join _ _ (env.over u).self = _ from joined] at code
    exact ⟨code, ext.outlines.contains_common (ext.resolve (.inr typeYes))⟩
  | loop ht _ iht ihb =>
    obtain ⟨L, _, typed⟩ := typable
    obtain ⟨⟨_, hT⟩, ⟨_, hB⟩, _⟩ := typed.loop
    obtain ⟨test, _⟩ := iht ⟨L, _, hT⟩ known
    have inside := known.of_restores (.trans (.skip _ 1) ht.restores.branch)
    obtain ⟨body, _⟩ := ihb ⟨L, _, hB⟩ inside
    exact ⟨.loop test body, ext.outlines.contains_builtin .object⟩
  | @block _ _ _ _ xs _ ih =>
    obtain ⟨L, _, typed⟩ := typable
    obtain ⟨_, all, _⟩ := typed.block
    obtain ⟨items, types⟩ := ih (fun e he => ⟨L.push, Typed.of_forall₂ all e he⟩) known
    refine ⟨.block items, ?_⟩
    unfold LowerEnv.lastOf
    cases last : xs.getLast? with
    | none => exact ext.self
    | some x => exact types x (List.mem_of_getLast? last)
  | letIn _ _ ihb ih =>
    obtain ⟨L, _, typed⟩ := typable
    obtain ⟨_, checked, hT⟩ := typed.letIn
    obtain ⟨bindings, inside⟩ := ihb (fun b hb => by
      obtain ⟨before, after, rfl⟩ := List.append_of_mem hb
      have each := Binding.checked_of_mem checked
      exact ⟨each.known, fun e he => ⟨_, (each.init e he).imp fun _ h => h.1⟩⟩) known
    cases checkBindings_ok checked
    obtain ⟨body, type⟩ := ih ⟨_, _, hT⟩ inside
    exact ⟨.letIn bindings body, type⟩
  | newInt isInt => exact ⟨.newInt isInt, ext.outlines.contains_builtin .int⟩
  | newBool isBool => exact ⟨.newBool isBool, ext.outlines.contains_builtin .bool⟩
  | @newObject s type span _ hc notInt notBool notString there =>
    have code : Lowers (env.over u) s (.new type span) _ _ :=
      .newObject hc notInt notBool notString (ext.contains there)
    rw [ext.objectCode there] at code
    exact ⟨code, there⟩
  | @binary _ _ _ op _ _ _ _ _ hl _ ihl ihr =>
    obtain ⟨L, _, typed⟩ := typable
    obtain ⟨⟨_, hL⟩, ⟨_, hR⟩, _⟩ := typed.binary
    obtain ⟨left, _⟩ := ihl ⟨L, _, hL⟩ known
    obtain ⟨right, _⟩ := ihr ⟨L, _, hR⟩ (known.of_restores hl.restores)
    refine ⟨.binary left right, ?_⟩
    cases op <;> exact ext.outlines.contains_builtin _
  | not _ ih =>
    obtain ⟨L, _, typed⟩ := typable
    obtain ⟨⟨T, hT⟩, _⟩ := typed.unary
    obtain ⟨operand, _⟩ := ih ⟨L, T, hT⟩ known
    exact ⟨.not operand, ext.outlines.contains_builtin .bool⟩
  | complement _ ih =>
    obtain ⟨L, _, typed⟩ := typable
    obtain ⟨⟨T, hT⟩, _⟩ := typed.unary
    obtain ⟨operand, _⟩ := ih ⟨L, T, hT⟩ known
    exact ⟨.complement operand, ext.outlines.contains_builtin .int⟩
  | self isSelf => exact ⟨.self isSelf, ext.self⟩
  | «local» notSelf found => exact ⟨.local notSelf found, known _ (FunctionState.mem_locals found)⟩
  | «attribute» notSelf absent slot =>
    exact ⟨.attribute notSelf absent (ext.slot? slot), ext.slotType slot⟩
  | group _ ih =>
    obtain ⟨L, T, typed⟩ := typable
    obtain ⟨inner, type⟩ := ih ⟨L, T, typed.group⟩ known
    exact ⟨.group inner, type⟩
  | int => exact ⟨.int, ext.outlines.contains_builtin .int⟩
  | bool => exact ⟨.bool, ext.outlines.contains_builtin .bool⟩
  | nil => exact ⟨.nil, fun _ h => nomatch h⟩
  | cons he _ ih ihs typables known =>
    obtain ⟨here, rest⟩ := List.forall_mem_cons.mp typables
    obtain ⟨first, type⟩ := ih here known
    obtain ⟨more, types⟩ := ihs rest (known.of_restores he.restores)
    exact ⟨.cons first more, List.forall_mem_cons.mpr ⟨type, types⟩⟩
  | empty _ known => exact ⟨.empty, known⟩
  | init hv _ ihv ih bindings known =>
    obtain ⟨here, rest⟩ := List.forall_mem_cons.mp bindings
    obtain ⟨value, _⟩ := ihv (here.2 _ rfl) known
    obtain ⟨more, inside⟩ := ih rest ((known.of_restores hv.restores).bind here.1)
    exact ⟨.init value more, inside⟩
  | default _ ih bindings known =>
    obtain ⟨here, rest⟩ := List.forall_mem_cons.mp bindings
    obtain ⟨more, inside⟩ := ih rest (known.bind here.1)
    exact ⟨.default more, inside⟩

end Expressions

section Functions

variable {env : LowerEnv} {u : ClassTable} {s t : FunctionState} {classes : List ClassDecl}

theorem FunctionState.initial_localsKnown (c : ClassTable) :
    FunctionState.initial.LocalsKnown c :=
  fun _ h => nomatch h

theorem Sets.extended (ext : env.ExtendedBy classes u) {a : Attribute} {code : List Instr}
    (h : Sets env s a code t) (typable : ∀ e ∈ a.init, Typable env e)
    (known : s.LocalsKnown env.table) :
    Sets (env.over u) s a code t ∧ t.LocalsKnown env.table := by
  cases h with
  | init present lowers slot =>
    obtain ⟨value, _⟩ := lowers.extended ext (typable _ present) known
    have known := known.of_restores lowers.restores
    exact ⟨.init present value (ext.slot? slot), known⟩
  | default absent value slot => exact ⟨.default absent value (ext.slot? slot), known⟩
  | none absent nothing => exact ⟨.none absent nothing, known⟩

theorem setAttributes_extended (ext : env.ExtendedBy classes u) {as : List Attribute}
    {code : List Instr} (values : ∀ a ∈ as, ∀ e ∈ a.init, Typable env e)
    (known : s.LocalsKnown env.table) (h : (env.setAttributes as).run s = .ok code t) :
    ((env.over u).setAttributes as).run s = .ok code t := by
  induction as generalizing s code with
  | nil =>
    cases h
    rfl
  | cons a as ih =>
    obtain ⟨here, rest⟩ := List.forall_mem_cons.mp values
    obtain ⟨now, v, more, ha, has, rfl⟩ := run_setAttributes_cons_eq_ok.mp h
    obtain ⟨first, known⟩ := (Sets.of_run ha).extended ext here known
    exact run_setAttributes_cons_eq_ok.mpr ⟨now, v, more, first.run, ih rest known has, rfl⟩

theorem bindParams_localsKnown {c : ClassTable} {ps : List Formal} {params : List Bril.Param}
    (types : ∀ p ∈ ps, c.contains (p.type.className.resolve env.self) = true)
    (known : s.LocalsKnown c) (h : (env.bindParams ps).run s = .ok params t) :
    t.LocalsKnown c := by
  induction ps generalizing s params with
  | nil =>
    cases h
    exact known
  | cons p ps ih =>
    obtain ⟨here, rest⟩ := List.forall_mem_cons.mp types
    obtain ⟨_, hps, _⟩ := run_bindParams_cons_eq_ok.mp h
    exact ih rest (known.bind here) hps

theorem Member.Makes.extended {t : ClassTable} {e : Entry} {b : Member} {f : Function}
    (ext : (b.owner.lowerEnv t).ExtendedBy classes u) (admits : t.Admits b.owner)
    (declared : b.Declared) (h : b.Makes t e f) : b.Makes u e f := by
  have start := FunctionState.initial_localsKnown t
  cases h with
  | @constructor c entry call s code v found called set =>
    have values : ∀ a ∈ c.attributes, ∀ e ∈ a.init, Typable (c.lowerEnv t) e := by
      intro a ha e he
      obtain ⟨T, hT, _⟩ := admits.firstValue ha he
      exact ⟨_, T, hT⟩
    have known : s.LocalsKnown t := by
      unfold FunctionState.LocalsKnown
      rw [(parentCall_keeps called).locals]
      exact start
    exact .constructor ((ext.tables.get? _ ext.self).trans found) called
      (setAttributes_extended ext values known set)
  | @entry c m x v isEntry body =>
    obtain ⟨T, hT, _⟩ := (admits.method declared).body
    obtain ⟨body, _⟩ := body.extended ext ⟨_, T, hT⟩ start
    rw [← show u.objectSize c.className = t.objectSize c.className from
      ext.tables.objectSize _ ext.self]
    exact .entry isEntry body
  | method notEntry bound body =>
    have checked := admits.method declared
    obtain ⟨T, hT, _⟩ := checked.body
    have known := bindParams_localsKnown checked.params start bound
    obtain ⟨body, _⟩ := body.extended ext ⟨_, T, hT⟩ known
    refine .method notEntry ?_ body
    exact (congrArg (EStateM.run · _) (bindParams_over _)).trans bound

theorem mapM_ok_congr {ε α β : Type} {f g : α → Except ε β} {xs : List α} {ys : List β}
    (same : ∀ x ∈ xs, ∀ y, f x = .ok y → g x = .ok y) (h : xs.mapM f = .ok ys) :
    xs.mapM g = .ok ys := by
  rw [mapM_eq_ok] at h ⊢
  induction h with
  | nil => exact .nil
  | cons hf _ ih =>
    obtain ⟨here, rest⟩ := List.forall_mem_cons.mp same
    exact .cons (here _ hf) (ih rest)

theorem ClassDecl.functions_extended {t u : ClassTable} {c : ClassDecl} {e : Entry}
    {fs : List Function} (ext : (c.lowerEnv t).ExtendedBy classes u) (admits : t.Admits c)
    (h : c.functions t e = .ok fs) : c.functions u e = .ok fs := by
  rw [c.functions_eq] at h ⊢
  refine mapM_ok_congr (fun b hb f made => ?_) h
  obtain ⟨rfl, declared⟩ := ClassDecl.mem_members.mp hb
  exact ((Member.makes_of_function made).extended ext admits declared).function

end Functions

section Sorting

variable {α : Type} {k : α → Nat}

/-- Of a row that is sorted, a new first member goes behind all that come before it. -/
theorem mergeSort_cons_eq (k : α → Nat) (a : α) (xs : List α) :
    (a :: xs).mergeSort (fun x y => k x ≤ k y) =
      (xs.mergeSort fun x y => k x ≤ k y).filter (fun x => k x < k a) ++
        a :: (xs.mergeSort fun x y => k x ≤ k y).filter (fun x => ¬ k x < k a) := by
  have trans := ClassTable.le_key_trans k
  have total := ClassTable.le_key_total k
  obtain ⟨before, after, whole, rest, first⟩ := List.mergeSort_cons trans total a xs
  have sorted := List.pairwise_mergeSort trans total (a :: xs)
  rw [whole, List.pairwise_append, List.pairwise_cons] at sorted
  have low : ∀ x ∈ before, k x < k a := by simpa using first
  have high : ∀ x ∈ after, ¬ k x < k a := by simpa using sorted.2.1.1
  rw [whole, rest, List.filter_append, List.filter_append]
  rw [List.filter_eq_self.mpr (by simpa using low),
    List.filter_eq_nil_iff.mpr (by simpa using high),
    List.filter_eq_nil_iff.mpr (by simpa using low),
    List.filter_eq_self.mpr (by simpa using high), List.append_nil, List.nil_append]

/-- A member that comes last of its row is sorted in between the others. -/
theorem mergeSort_concat (k : α → Nat) (xs : List α) (a : α) : ∃ before after,
    xs.mergeSort (fun x y => k x ≤ k y) = before ++ after ∧
      (xs ++ [a]).mergeSort (fun x y => k x ≤ k y) = before ++ a :: after := by
  induction xs with
  | nil => exact ⟨[], [], List.mergeSort_nil, List.mergeSort_singleton a⟩
  | cons x xs ih =>
    obtain ⟨before, after, sorted, sorted'⟩ := ih
    rw [List.cons_append, mergeSort_cons_eq, mergeSort_cons_eq, sorted, sorted']
    simp only [List.filter_append, List.filter_cons]
    by_cases first : k a < k x
    · refine ⟨before.filter fun y => k y < k x, after.filter (fun y => k y < k x) ++
        x :: (before.filter (fun y => ¬ k y < k x) ++ after.filter fun y => ¬ k y < k x), ?_, ?_⟩
      · rw [List.append_assoc]
      · simp [first]
    · refine ⟨before.filter (fun y => k y < k x) ++ after.filter (fun y => k y < k x) ++
        x :: before.filter (fun y => ¬ k y < k x), after.filter fun y => ¬ k y < k x, ?_, ?_⟩
      · simp
      · simp [first]

end Sorting

section Programs

open ClassTable

variable {t u : ClassTable} {classes : List ClassDecl} {new : ClassDecl} {e : Entry}

theorem hierarchyOrder_concat (ext : t.ExtendedBy u)
    (known : ∀ c ∈ classes, t.contains c.className = true) (new : ClassDecl) : ∃ before after,
    t.hierarchyOrder classes = before ++ after ∧
      u.hierarchyOrder (classes ++ [new]) = before ++ new :: after := by
  have same : t.hierarchyOrder classes = u.hierarchyOrder classes := by
    have mapped := List.map_mergeSort (l := classes) (f := id)
      (r := fun a b => decide (t.depth a.className ≤ t.depth b.className))
      (s := fun a b => decide (u.depth a.className ≤ u.depth b.className)) fun a ha b hb => by
        rw [id_eq, id_eq, ext.depth _ (known a ha), ext.depth _ (known b hb)]
    rwa [List.map_id, List.map_id] at mapped
  rw [same]
  exact mergeSort_concat (fun c : ClassDecl => u.depth c.className) classes new

theorem lowerEnv_extended {c : ClassDecl} (h : typecheck classes = .ok t) (ext : t.ExtendedBy u)
    (hc : c ∈ classes) : (c.lowerEnv t).ExtendedBy classes u where
  outlines := outlines_of_typecheck h
  closed := closed_of_typecheck h
  tables := ext
  self := ((typecheck_ok h).2 c hc).known

/-- A class that is added to a program changes no answer about the classes that the program had, and
the functions of these stay as they are: those of the new class go in between. -/
theorem typecheck_concat (h : typecheck classes = .ok t)
    (h' : typecheck (classes ++ [new]) = .ok u) :
    t.ExtendedBy u ∧ ∀ e p p', generate t e classes = .ok p →
      generate u e (classes ++ [new]) = .ok p' →
      (∀ c ∈ classes, ∃ fs, c.functions t e = .ok fs ∧ c.functions u e = .ok fs) ∧
      ∃ before added after, new.functions u e = .ok added ∧ p.functions = before ++ after ∧
        p'.functions = before ++ added ++ after := by
  have ext := extendedBy_of_append h h'
  have admits := (typecheck_ok h).2
  refine ⟨ext, fun e p p' made made' => ?_⟩
  have kept : ∀ c ∈ classes, ∀ fs, c.functions t e = .ok fs → c.functions u e = .ok fs :=
    fun c hc _ => c.functions_extended (lowerEnv_extended h ext hc) (admits c hc)
  constructor
  · intro c hc
    obtain ⟨fs, hfs, _⟩ := class_functions made hc
    exact ⟨fs, hfs, kept c hc fs hfs⟩
  · obtain ⟨before, after, order, order'⟩ :=
      hierarchyOrder_concat ext (fun c hc => (admits c hc).known) new
    have declared : ∀ c ∈ before ++ after, c ∈ classes := by
      rw [← order]
      exact fun c hc => List.mem_mergeSort.mp hc
    unfold generate at made made'
    rw [order, List.mapM_append] at made
    rw [order', List.mapM_append, List.mapM_cons] at made'
    simp only [bind_eq_ok] at made made'
    obtain ⟨_, ⟨fs, first, gs, last, whole⟩, made⟩ := made
    obtain ⟨_, ⟨fs', first', _, ⟨added, own, gs', last', rest⟩, whole'⟩, made'⟩ := made'
    cases whole
    cases rest
    cases whole'
    cases made
    cases made'
    have same {cs : List ClassDecl} {fss fss' : List (List Function)}
        (all : ∀ c ∈ cs, c ∈ before ++ after) (h : cs.mapM (ClassDecl.functions t e) = .ok fss)
        (h' : cs.mapM (ClassDecl.functions u e) = .ok fss') : fss' = fss :=
      Except.ok.inj (h'.symm.trans
        (mapM_ok_congr (fun c hc => kept c (declared c (all c hc))) h))
    rw [same (fun _ => List.mem_append_left _) first first',
      same (fun _ => List.mem_append_right _) last last']
    refine ⟨builtinFunctions ++ fs.flatten, added, gs.flatten, own, ?_, ?_⟩
    · rw [List.flatten_append, List.append_assoc]
    · rw [List.flatten_append, List.flatten_cons]
      simp only [List.append_assoc]

/-- Whether classes stand in order, are accepted and get code. -/
def compilesInOrder (e : Entry) (classes : List ClassDecl) : Bool :=
  (typecheckInOrder classes).any fun t =>
    decide (t.Ordered classes) && (codeInOrder t e classes).toOption.isSome

theorem generated_of_compilesInOrder (h : compilesInOrder e classes = true) :
    ∃ t p, typecheck classes = .ok t ∧ generate t e classes = .ok p := by
  unfold compilesInOrder at h
  cases typed : typecheckInOrder classes with
  | none =>
    rw [typed] at h
    cases h
  | some t =>
    rw [typed] at h
    obtain ⟨ordered, coded⟩ := Bool.and_eq_true_iff.mp h
    refine ⟨t, ?_⟩
    rw [generate_inOrder (of_decide_eq_true ordered)]
    cases made : codeInOrder t e classes with
    | error _ =>
      rw [made] at coded
      cases coded
    | ok p => exact ⟨p, typecheck_of_inOrder typed, rfl⟩

/-- A program whose last class overrides a method. -/
def lengthened : SourceFiles := .ofLines [
  "class Main \x7b m : A; main() : Int \x7b (if true then new A else new B fi).get() \x7d; \x7d;",
  "class A \x7b n : Int; get() : Int \x7b n \x7d; \x7d;",
  "class B inherits A \x7b \x7d;",
  "class C inherits A \x7b k : B; get() : Int \x7b k.get() \x7d; \x7d;"]

theorem typecheck_concat_lengthened : ∃ classes new t u p p',
    SourceFiles.classes lengthened = classes ++ [new] ∧
    typecheck classes = .ok t ∧ typecheck (classes ++ [new]) = .ok u ∧
    generate t .default classes = .ok p ∧ generate u .default (classes ++ [new]) = .ok p' ∧
    t.ExtendedBy u ∧ ∃ before added after, new.functions u .default = .ok added ∧
      p.functions = before ++ after ∧ p'.functions = before ++ added ++ after := by
  have long : SourceFiles.classes lengthened ≠ [] := by
    rw [← List.length_pos_iff]
    decide +kernel
  have whole := (List.dropLast_append_getLast long).symm
  have compiles : compilesInOrder .default (SourceFiles.classes lengthened).dropLast = true := by
    decide +kernel
  have compiles' : compilesInOrder .default (SourceFiles.classes lengthened) = true := by
    decide +kernel
  obtain ⟨t, p, typed, made⟩ := generated_of_compilesInOrder compiles
  obtain ⟨u, p', typed', made'⟩ := generated_of_compilesInOrder compiles'
  rw [whole] at typed' made'
  obtain ⟨ext, functions⟩ := typecheck_concat typed typed'
  exact ⟨_, _, t, u, p, p', whole, typed, typed', made, made', ext,
    (functions _ _ _ made made').2⟩

end Programs

end Cool
