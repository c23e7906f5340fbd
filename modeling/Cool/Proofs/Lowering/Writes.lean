import Cool.Proofs.Bril.Machine
import Cool.Proofs.Lowering.States

/-!
Which registers the code of an expression writes: new ones, and those of the variables that the
expression assigns.
-/
namespace Cool

open Bril (Instr written written_append written_cons)
open FunctionState (tempName given_temp given_next Keeps Extends)

mutual

/-- The variables that an expression assigns, but for those it declares itself. -/
def Expr.assigned : Expr → List Bytes
  | .assign name value _ => value.assigned ++ [name.text]
  | .selfCall _ args _ => assignedAll args
  | .call receiver _ args _ | .staticCall receiver _ _ args _ =>
    receiver.assigned ++ assignedAll args
  | .cond test yes no _ => test.assigned ++ yes.assigned ++ no.assigned
  | .loop test body _ => test.assigned ++ body.assigned
  | .block body _ => assignedAll body
  | .letIn bindings body _ => assignedIn body.assigned bindings
  | .case scrutinee arms _ => scrutinee.assigned ++ assignedArms arms
  | .binary _ left right _ => left.assigned ++ right.assigned
  | .unary _ operand _ => operand.assigned
  | .group inner _ => inner.assigned
  | .new _ _ | .name _ | .int _ _ | .string _ _ | .bool _ _ => []

def assignedAll : List Expr → List Bytes
  | [] => []
  | e :: es => e.assigned ++ assignedAll es

/-- What a `let` assigns, given what its body does. -/
def assignedIn (inner : List Bytes) : List (Binding Expr) → List Bytes
  | [] => inner
  | ⟨name, _, some init, _⟩ :: rest =>
    init.assigned ++ (assignedIn inner rest).filter (· ≠ name.text)
  | ⟨name, _, none, _⟩ :: rest => (assignedIn inner rest).filter (· ≠ name.text)

def assignedArms : List (CaseArm Expr) → List Bytes
  | [] => []
  | ⟨name, _, body, _⟩ :: rest => body.assigned.filter (· ≠ name.text) ++ assignedArms rest

end

theorem mem_assignedIn {n : Bytes} {inner : List Bytes} {bs : List (Binding Expr)} (hn : n ∈ inner)
    (outer : n ∉ bs.map (·.name.text)) : n ∈ assignedIn inner bs := by
  induction bs with
  | nil => exact hn
  | cons b bs ih =>
    obtain ⟨name, type, init, span⟩ := b
    rw [List.map_cons, List.mem_cons, not_or] at outer
    have mem : n ∈ (assignedIn inner bs).filter (· ≠ name.text) :=
      List.mem_filter.mpr ⟨ih outer.2, by simpa using outer.1⟩
    cases init with
    | none => exact mem
    | some e => exact List.mem_append_right _ mem

/-- The registers have been given out by `t`; those among them that `s` had given out belong to
variables of these names. -/
def Confined (s t : FunctionState) (names : List Bytes) (regs : List String) : Prop :=
  ∀ r ∈ regs, t.Given r ∧ (s.Given r → ∃ n ∈ names, ∃ x, s.find? n = some x ∧ x.reg = r)

namespace Confined

variable {s t u : FunctionState} {names more : List Bytes} {regs rest : List String}

theorem nil : Confined s t names [] := fun _ h => nomatch h

theorem append (h : Confined s t names regs) (h' : Confined s t names rest) :
    Confined s t names (regs ++ rest) := fun r hr =>
  (List.mem_append.mp hr).elim (h r) (h' r)

theorem of_subset (h : Confined s t names regs) (hn : names ⊆ more) : Confined s t more regs :=
  fun r hr => ⟨(h r hr).1, fun hg =>
    let ⟨n, hm, hx⟩ := (h r hr).2 hg
    ⟨n, hn hm, hx⟩⟩

theorem of_mem (h : Confined s t names regs) (hr : ∀ r ∈ rest, r ∈ regs) :
    Confined s t names rest := fun r hm => h r (hr r hm)

theorem later (h : Confined s t names regs) (ht : t.Extends u) : Confined s u names regs :=
  fun r hr => ⟨ht.given (h r hr).1, (h r hr).2⟩

theorem earlier (h : Confined t u names regs) (hs : s.Keeps t) : Confined s u names regs :=
  fun r hr => ⟨(h r hr).1, fun hg => by
    obtain ⟨n, hn, x, hx, hreg⟩ := (h r hr).2 (hs.given hg)
    exact ⟨n, hn, x, hs.find? n ▸ hx, hreg⟩⟩

theorem seq (h : Confined s t names regs) (hst : s.Keeps t) (h' : Confined t u more rest)
    (htu : t.Extends u) : Confined s u (names ++ more) (regs ++ rest) :=
  ((h.later htu).of_subset (List.subset_append_left _ _)).append
    ((h'.earlier hst).of_subset (List.subset_append_right _ _))

/-- The next `n` temporaries are new. -/
theorem temps (names : List Bytes) (hs : s.Sound) (n : Nat) :
    Confined s (s.skip n) names ((List.range n).map fun i => tempName (s.next + i)) := by
  intro r hr
  obtain ⟨i, hi, rfl⟩ := List.mem_map.mp hr
  exact ⟨given_temp s (List.mem_range.mp hi),
    fun h => absurd h (hs.temp_not_given (Nat.le_add_right _ _))⟩

/-- The next `n` temporaries behind registers that are confined. -/
theorem behind (h : Confined s t names regs) (hs : s.Sound) (keeps : s.Keeps t) (n : Nat) :
    Confined s (t.skip n) names (regs ++ (List.range n).map fun i => tempName (t.next + i)) := by
  have both := h.seq keeps (temps [] (keeps.sound hs) n) (Keeps.skip t n).toExtends
  rwa [List.append_nil] at both

theorem reg (hs : s.Sound) {name : Bytes} {x : Local} (h : s.find? name = some x) :
    Confined s s [name] [x.reg] := by
  intro r hr
  cases List.mem_singleton.mp hr
  exact ⟨hs.given_local h, fun _ => ⟨name, List.mem_singleton_self _, x, h, rfl⟩⟩

theorem branch (h : Confined s.enterBranch t names regs) : Confined s t.leaveBranch names regs := h

theorem pop (h : Confined s.push t names regs) : Confined s t.pop names regs := h

/-- The code in the scope of a new variable, seen from before it. -/
theorem bind (hs : s.Sound) {name : Bytes} (hn : IsWord name) {type : ClassName}
    (h : Confined (s.bind name type).2 t names regs) (ht : (s.bind name type).2.Extends t) :
    Confined s t (names.filter (· ≠ name)) ((s.bind name type).1 :: regs) := by
  intro r hr
  rcases List.mem_cons.mp hr with rfl | hr
  · exact ⟨ht.given (FunctionState.Sound.bind_reg_given s name type),
      fun hg => absurd hg (hs.bind_reg_not_given hn.dotFree type)⟩
  · refine ⟨(h r hr).1, fun hg => ?_⟩
    obtain ⟨n, hm, x, hx, rfl⟩ := (h r hr).2 ((Extends.bind s hn type).given hg)
    obtain ⟨other, hx⟩ := hs.find?_of_bind hn.dotFree hx hg
    exact ⟨n, List.mem_filter.mpr ⟨hm, by simpa using other⟩, x, hx, rfl⟩

end Confined

section Written

open LowerEnv

variable {id : Nat} {r : String} {x y z : Lowered}

theorem mem_written_condCode : r ∈ written (condCode id x y z) ↔
    r ∈ written x.code ∨ r ∈ written y.code ∨ r ∈ written z.code ∨ r = tempName (id + 1) := by
  simp only [condCode, written_append, written_cons, Instr.br, Instr.compute, Instr.jmp,
    Instr.dest?, Option.toList_none, Option.toList_some, List.mem_append, List.mem_cons,
    List.not_mem_nil, Bril.written_nil, or_false]
  grind

theorem mem_written_loopCode : r ∈ written (loopCode id x y).code ↔
    r ∈ written x.code ∨ r ∈ written y.code := by
  simp only [loopCode, written_append, written_cons, Instr.br, Instr.jmp,
    Instr.dest?, Option.toList_none, List.mem_append, List.not_mem_nil, Bril.written_nil, false_or,
    or_false]

theorem mem_written_objectCode {env : LowerEnv} {c : ClassName} :
    r ∈ written (env.objectCode id c) ↔ r = tempName id ∨ r = tempName (id + 1) := by
  unfold objectCode
  split <;> simp [written_cons, Instr.literal, Instr.compute, Instr.call, Instr.dest?]

theorem mem_written_defaultCode {dest : String} {c : ClassName}
    (h : r ∈ written (defaultCode dest c)) : r = dest := by
  unfold defaultCode at h
  cases value : c.default? with
  | none =>
    rw [value] at h
    cases h
  | some v =>
    rw [value] at h
    exact List.mem_singleton.mp h

theorem written_called {owner : ClassName} {method : Bytes} {result : ClassName}
    {operands : List Lowered} : written (called id owner method result operands).code =
      written (operands.flatMap (·.code)) ++ [tempName id] :=
  written_append _ _

end Written

open Confined

/-- The registers of the body of a `let`, seen from before its names. A name that the `let` declares
has a new register there, so what is written of those before is of another one. -/
theorem Confined.body {env : LowerEnv} {s t u : FunctionState} {bs : List (Binding Expr)}
    {code : List Instr} {names : List Bytes} {regs : List String} (h : Confined t u names regs)
    (hb : LowersBindings env s bs code t) (hs : s.Sound)
    (hw : ∀ b ∈ bs, Binding.WellFormed b) : Confined s u (assignedIn names bs) regs := by
  refine fun r hr => ⟨(h r hr).1, fun hg => ?_⟩
  obtain ⟨n, hn, y, hy, rfl⟩ := (h r hr).2 ((hb.extends hw).given hg)
  have outer : n ∉ bs.map (·.name.text) := fun hm => by
    obtain ⟨z, hz, new⟩ := hb.new_of_mem hw hs hm
    cases hz.symm.trans hy
    exact new hg
  exact ⟨n, mem_assignedIn hn outer, y, (hb.find?_of_not_mem hw outer).symm.trans hy, rfl⟩

theorem given_called (t : FunctionState) {owner : ClassName} {method : Bytes} {result : ClassName}
    {operands : List Lowered} :
    (t.skip 1).Given (LowerEnv.called t.next owner method result operands).dest :=
  given_next t 0

/-- The code of an expression writes new registers and those of the variables it assigns. -/
theorem Lowers.confined {env : LowerEnv} {s t : FunctionState} {e : Expr} {x : Lowered}
    (h : Lowers env s e x t) (hs : s.Sound) (hw : e.WellFormed) :
    t.Given x.dest ∧ Confined s t e.assigned (written x.code) := by
  induction h using Lowers.rec
    (motive_2 := fun s es xs t _ => s.Sound → (∀ e ∈ es, e.WellFormed) →
      (∀ x ∈ xs, t.Given x.dest) ∧
      Confined s t (assignedAll es) (written (xs.flatMap (·.code))))
    (motive_3 := fun s bs code t _ => s.Sound → (∀ b ∈ bs, Binding.WellFormed b) →
      ∀ inner, Confined s t (assignedIn inner bs) (written code)) with
  | assignLocal hv found ih =>
    cases hw with | assign _ hwv =>
    have keeps := hv.keeps hwv
    have sound := keeps.sound hs
    refine ⟨sound.given_local found, ?_⟩
    rw [written_append]
    exact (ih hs hwv).2.seq keeps (Confined.reg sound found) (Keeps.refl _).toExtends
  | assignAttribute hv absent _ ih =>
    cases hw with | assign _ hwv =>
    have keeps := hv.keeps hwv
    refine ⟨(Keeps.skip _ 2).given (ih hs hwv).1, ?_⟩
    rw [written_append, written_append, List.append_assoc]
    exact ((ih hs hwv).2.seq keeps (temps _ (keeps.sound hs) 2) (Keeps.skip _ 2).toExtends)
  | selfCall _ _ ha ih =>
    cases hw with | selfCall hwa =>
    refine ⟨given_called _, ?_⟩
    rw [written_called]
    exact (ih hs hwa).2.behind hs (ha.keeps hwa) 1
  | call hr _ _ ha ihr iha | staticCall hr _ _ ha ihr iha =>
    cases hw
    rename_i hwr hwa
    have keeps := hr.keeps hwr
    have keeps' := ha.keeps hwa
    have operands := (ihr hs hwr).2.seq keeps (iha (keeps.sound hs) hwa).2 keeps'.toExtends
    refine ⟨given_called _, ?_⟩
    rw [written_called, List.flatMap_cons, written_append]
    exact operands.behind hs (keeps.trans keeps') 1
  | cond ht hy hn iht ihy ihn =>
    cases hw with | cond hwt hwy hwn =>
    have keeps := ht.keeps hwt
    have keepsYes := (hy.keeps hwy).branch
    have keepsNo := (hn.keeps hwn).branch
    have sound := keeps.sound hs
    have sound' := keepsYes.sound sound
    have first :=
      (iht hs hwt).2.seq keeps (ihy (sound.branch _) hwy).2.branch keepsYes.toExtends
    have arms :=
      first.seq (keeps.trans keepsYes) (ihn (sound'.branch _) hwn).2.branch keepsNo.toExtends
    have code := arms.behind hs ((keeps.trans keepsYes).trans keepsNo) 2
    refine ⟨given_temp _ Nat.one_lt_two, code.of_mem fun r hr => ?_⟩
    rcases mem_written_condCode.mp hr with h | h | h | rfl
    · simp [h]
    · simp [h]
    · simp [h]
    · exact List.mem_append_right _ (List.mem_cons_of_mem _ List.mem_cons_self)
  | loop ht hb iht ihb =>
    cases hw with | loop hwt hwb =>
    have keeps := (Keeps.skip _ 1).trans (ht.keeps hwt).branch
    have keepsBody := (hb.keeps hwb).branch
    have test := iht ((hs.skip 1).branch _) hwt
    have code := (test.2.branch.earlier (Keeps.skip _ 1)).seq keeps
      (ihb ((keeps.sound hs).branch _) hwb).2.branch keepsBody.toExtends
    exact ⟨keepsBody.given test.1,
      code.of_mem fun r hr => List.mem_append.mpr (mem_written_loopCode.mp hr)⟩
  | block ha ih =>
    cases hw with | block ne hwb =>
    have items := ih hs.push hwb
    refine ⟨?_, items.2.pop⟩
    unfold LowerEnv.lastOf
    cases last : List.getLast? _ with
    | none => exact .inl ((ha.keeps hwb).sound hs.push).self
    | some y => exact items.1 y (List.mem_of_getLast? last)
  | letIn hb hx ihb ih =>
    rename_i body _ _ _
    cases hw with | letIn hwn hwi hwb =>
    have hwbs : ∀ b ∈ _, Binding.WellFormed b := fun b hb => ⟨hwn b hb, hwi b hb⟩
    have first := ihb hs.push hwbs body.assigned
    obtain ⟨dest, code⟩ := ih ((hb.extends hwbs).sound hs.push) hwb
    refine ⟨dest, ?_⟩
    rw [written_append]
    exact (first.later (hx.keeps hwb).toExtends).append (code.body hb hs.push hwbs)
  | newInt | newBool | int | bool => exact ⟨given_next _ 0, temps _ hs 1⟩
  | newObject _ _ _ _ _ =>
    refine ⟨(Keeps.recordAlloc _ _).given (given_temp _ Nat.one_lt_two),
      ((temps [] hs 2).later (Keeps.recordAlloc _ _).toExtends).of_mem fun r hr => ?_⟩
    rcases mem_written_objectCode.mp hr with rfl | rfl
    · exact List.mem_cons_self
    · exact List.mem_cons_of_mem _ List.mem_cons_self
  | binary hl hr ihl ihr =>
    cases hw with | binary hwl hwr =>
    have keeps := hl.keeps hwl
    have keeps' := hr.keeps hwr
    have operands := (ihl hs hwl).2.seq keeps (ihr (keeps.sound hs) hwr).2 keeps'.toExtends
    refine ⟨given_next _ 0, ?_⟩
    rw [written_append, written_append]
    exact operands.behind hs (keeps.trans keeps') 1
  | not hx ih =>
    cases hw with | unary hwo =>
    refine ⟨given_next _ 0, ?_⟩
    rw [written_append]
    exact (ih hs hwo).2.behind hs (hx.keeps hwo) 1
  | complement hx ih =>
    cases hw with | unary hwo =>
    refine ⟨given_temp _ Nat.one_lt_two, ?_⟩
    rw [written_append]
    exact (ih hs hwo).2.behind hs (hx.keeps hwo) 2
  | self _ => exact ⟨.inl hs.self, nil⟩
  | «local» _ found => exact ⟨hs.given_local found, nil⟩
  | «attribute» _ _ _ =>
    exact ⟨given_temp _ (Nat.lt_succ_self 2), temps _ hs 3⟩
  | group _ ih =>
    cases hw with | group hwi =>
    exact ih hs hwi
  | nil _ _ => exact ⟨fun _ h => (nomatch h), nil⟩
  | cons hx hxs ih ihs hs hw =>
    rw [List.forall_mem_cons] at hw
    have keeps := hx.keeps hw.1
    have keeps' := hxs.keeps hw.2
    obtain ⟨dest, code⟩ := ih hs hw.1
    obtain ⟨dests, codes⟩ := ihs (keeps.sound hs) hw.2
    refine ⟨List.forall_mem_cons.mpr ⟨keeps'.given dest, dests⟩, ?_⟩
    rw [List.flatMap_cons, written_append]
    exact code.seq keeps codes keeps'.toExtends
  | empty _ _ inner => exact nil
  | init hv hrest ihv ih hs hw inner =>
    rw [List.forall_mem_cons] at hw
    have keeps := hv.keeps (hw.1.2 _ rfl)
    have sound := keeps.sound hs
    have later := hrest.extends hw.2
    rw [written_append, written_append, List.append_assoc]
    exact (ihv hs (hw.1.2 _ rfl)).2.seq keeps
      ((ih (sound.bind hw.1.1.dotFree _) hw.2 inner).bind sound hw.1.1 later)
      ((Extends.bind _ hw.1.1 _).trans later)
  | default hrest ih hs hw inner =>
    rw [List.forall_mem_cons] at hw
    have code := (ih (hs.bind hw.1.1.dotFree _) hw.2 inner).bind hs hw.1.1 (hrest.extends hw.2)
    refine code.of_mem fun r hr => ?_
    rw [written_append] at hr
    rcases List.mem_append.mp hr with hr | hr
    · exact mem_written_defaultCode hr ▸ List.mem_cons_self
    · exact List.mem_cons_of_mem _ hr

/-- The registers of the variables that an expression assigns are written. -/
theorem Lowers.writes_assigned {env : LowerEnv} {s t : FunctionState} {e : Expr} {x : Lowered}
    (h : Lowers env s e x t) (hw : e.WellFormed) {n : Bytes} {y : Local} (hn : n ∈ e.assigned)
    (hy : s.find? n = some y) : y.reg ∈ written x.code := by
  induction h using Lowers.rec
    (motive_2 := fun s es xs t _ => (∀ e ∈ es, e.WellFormed) → n ∈ assignedAll es →
      s.find? n = some y → y.reg ∈ written (xs.flatMap (·.code)))
    (motive_3 := fun s bs code t _ => (∀ b ∈ bs, Binding.WellFormed b) → ∀ inner,
      n ∈ assignedIn inner bs → s.find? n = some y →
      y.reg ∈ written code ∨ n ∈ inner ∧ t.find? n = some y) with
  | assignLocal hv found ih =>
    cases hw with | assign _ hwv =>
    rw [written_append]
    rcases List.mem_append.mp hn with hn | hn
    · exact List.mem_append_left _ (ih hwv hn hy)
    · cases List.mem_singleton.mp hn
      rw [← (hv.keeps hwv).find?, found] at hy
      cases hy
      exact List.mem_append_right _ List.mem_cons_self
  | assignAttribute hv absent _ ih =>
    cases hw with | assign _ hwv =>
    rw [written_append, written_append]
    rcases List.mem_append.mp hn with hn | hn
    · exact List.mem_append_left _ (List.mem_append_left _ (ih hwv hn hy))
    · cases List.mem_singleton.mp hn
      rw [← (hv.keeps hwv).find?, absent] at hy
      cases hy
  | selfCall _ _ _ ih =>
    cases hw with | selfCall hwa =>
    rw [written_called]
    exact List.mem_append_left _ (ih hwa hn hy)
  | call hr _ _ _ ihr iha | staticCall hr _ _ _ ihr iha =>
    cases hw
    rename_i hwr hwa
    rw [written_called, List.flatMap_cons, written_append]
    refine List.mem_append_left _ (List.mem_append.mpr ((List.mem_append.mp hn).imp ?_ ?_))
    · exact fun hn => ihr hwr hn hy
    · exact fun hn => iha hwa hn ((hr.keeps hwr).find? n ▸ hy)
  | cond ht hy' hn' iht ihy ihn =>
    cases hw with | cond hwt hwy hwn =>
    have keeps := ht.keeps hwt
    have keepsYes := keeps.trans (hy'.keeps hwy).branch
    rw [mem_written_condCode]
    simp only [Expr.assigned, List.mem_append] at hn
    rcases hn with (hn | hn) | hn
    · exact .inl (iht hwt hn hy)
    · exact .inr (.inl (ihy hwy hn (keeps.find? n ▸ hy)))
    · exact .inr (.inr (.inl (ihn hwn hn (keepsYes.find? n ▸ hy))))
  | loop ht hb iht ihb =>
    cases hw with | loop hwt hwb =>
    have keeps := (Keeps.skip _ 1).trans (ht.keeps hwt).branch
    rw [mem_written_loopCode]
    refine (List.mem_append.mp hn).imp ?_ ?_
    · exact fun hn => iht hwt hn hy
    · exact fun hn => ihb hwb hn (keeps.find? n ▸ hy)
  | block _ ih =>
    cases hw with | block _ hwb =>
    exact ih hwb hn hy
  | letIn _ _ ihb ih =>
    cases hw with | letIn hwn hwi hwb =>
    rw [written_append, List.mem_append]
    refine (ihb (fun b hb => ⟨hwn b hb, hwi b hb⟩) _ hn hy).imp_right ?_
    exact fun ⟨hn, hy⟩ => ih hwb hn hy
  | newInt | newBool | newObject | self | «local» | «attribute» | int | bool => cases hn
  | binary hl _ ihl ihr =>
    cases hw with | binary hwl hwr =>
    rw [written_append, written_append]
    refine List.mem_append_left _ (List.mem_append.mpr ((List.mem_append.mp hn).imp ?_ ?_))
    · exact fun hn => ihl hwl hn hy
    · exact fun hn => ihr hwr hn ((hl.keeps hwl).find? n ▸ hy)
  | not _ ih | complement _ ih =>
    cases hw with | unary hwo =>
    rw [written_append]
    exact List.mem_append_left _ (ih hwo hn hy)
  | group _ ih =>
    cases hw with | group hwi =>
    exact ih hwi hn hy
  | nil _ hn => cases hn
  | cons hx _ ih ihs hw hn hy =>
    rw [List.forall_mem_cons] at hw
    rw [List.flatMap_cons, written_append]
    refine List.mem_append.mpr ((List.mem_append.mp hn).imp ?_ ?_)
    · exact fun hn => ih hw.1 hn hy
    · exact fun hn => ihs hw.2 hn ((hx.keeps hw.1).find? n ▸ hy)
  | empty _ inner hn hy => exact .inr ⟨hn, hy⟩
  | init hv _ ihv ih hw inner hn hy =>
    rw [List.forall_mem_cons] at hw
    rw [written_append, written_append, List.mem_append, List.mem_append]
    rcases List.mem_append.mp hn with hn | hn
    · exact .inl (.inl (.inl (ihv (hw.1.2 _ rfl) hn hy)))
    · obtain ⟨hn, other⟩ := List.mem_filter.mp hn
      rw [← (hv.keeps (hw.1.2 _ rfl)).find?] at hy
      refine (ih hw.2 inner hn ?_).imp_left .inr
      exact (FunctionState.find?_bind_of_ne _ _ (by simpa using other)).trans hy
  | default _ ih hw inner hn hy =>
    rw [List.forall_mem_cons] at hw
    rw [written_append, List.mem_append]
    obtain ⟨hn, other⟩ := List.mem_filter.mp hn
    refine (ih hw.2 inner hn ?_).imp_left .inr
    exact (FunctionState.find?_bind_of_ne _ _ (by simpa using other)).trans hy

end Cool
