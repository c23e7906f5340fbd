import Cool.Proofs.Bril.Passage
import Cool.Proofs.Lowering.Functions
import Cool.Proofs.Lowering.Labels

/-!
How generated code is laid out: in rows, conditionals and loops, whose labels tell where an
instruction lies. The objects that are recorded to be freed are those that are allocated outside of
the arms of conditionals and of loops.
-/
namespace Cool

open Bril (Instr Contained labels labels_append allocated freed conditional repeated
  mem_labels_conditional mem_labels_repeated)
open FunctionState (tempName labelName)
open LowerEnv

section Layout

/-- Whether the labels around a place tell that it lies in an arm of a conditional, or in the test
or the body of a loop. -/
def Enclosed (before after : List Instr) : Prop :=
  ∃ id, labelName "if" "then" id ∈ labels before ∧ labelName "if" "exit" id ∈ labels after ∨
    labelName "loop" "cond" id ∈ labels before ∧ labelName "loop" "end" id ∈ labels after

/-- Whether code allocates an object outside of the arms of conditionals and of loops. -/
def AllocatesOutside (code : List Instr) (reg : String) : Prop :=
  ∃ before i after, code = before ++ i :: after ∧ i.allocates? = some reg ∧ ¬ Enclosed before after

/-- Whether an instruction neither is nor names a label, nor allocates or frees an object. -/
def Bril.Instr.isPlain : Instr → Bool
  | .const _ _ _ => true
  | .value op _ _ _ _ => op ≠ .alloc
  | .effect op _ _ labels => op ≠ .free ∧ labels = []
  | .label _ => false

/-- Code put together of rows, conditionals and loops, the registers of the objects that it
allocates outside of their arms and of loops, and those of the objects that it frees, which it does
only there. -/
inductive Laid : List Instr → List String → List String → Prop where
  | row {code} : code.all Instr.isPlain = true → Laid code [] []
  | alloc {i reg} : i.allocates? = some reg → Laid [i] [reg] []
  | free {reg} : Laid [.perform .free [reg]] [] [reg]
  | append {a b made made' gone gone'} : Laid a made gone → Laid b made' gone' →
      Laid (a ++ b) (made ++ made') (gone ++ gone')
  | branch {test yes no made gone inYes inNo} (cond : String) (id : Nat) : Laid test made gone →
      Laid yes inYes [] → Laid no inNo [] →
      Laid (conditional test cond (labelName "if" "then" id) (labelName "if" "else" id)
        (labelName "if" "exit" id) yes no) made gone
  | loop {test cond body inTest inBody} (id : Nat) : Laid test inTest [] → Laid body inBody [] →
      Laid (repeated test cond (labelName "loop" "cond" id) (labelName "loop" "body" id)
        (labelName "loop" "end" id) body) [] []

variable {code a b before after : List Instr} {made gone : List String} {i : Instr} {reg : String}

theorem Enclosed.mono {before' after' : List Instr} (h : Enclosed before after)
    (hb : before ⊆ before') (ha : after ⊆ after') : Enclosed before' after' := by
  obtain ⟨id, h⟩ := h
  simp only [Bril.mem_labels] at h
  refine ⟨id, ?_⟩
  simp only [Bril.mem_labels]
  exact h.imp (.imp (@hb _) (@ha _)) (.imp (@hb _) (@ha _))

theorem Bril.Instr.of_isPlain (h : i.isPlain = true) :
    i.targets = [] ∧ i.allocates? = none ∧ i.frees = [] ∧ ∀ l, i ≠ .label l := by
  cases i with
  | const => exact ⟨rfl, rfl, rfl, nofun⟩
  | value op =>
    refine ⟨rfl, ?_, rfl, nofun⟩
    cases op <;> first | rfl | cases h
  | effect op _ _ names =>
    obtain ⟨other, rfl⟩ : op ≠ .free ∧ names = [] := of_decide_eq_true h
    refine ⟨rfl, rfl, ?_, nofun⟩
    cases op <;> first | rfl | exact absurd rfl other
  | label => cases h

theorem split_append (h : before ++ i :: after = a ++ b) :
    (∃ rest, a = before ++ i :: rest ∧ after = rest ++ b) ∨
      ∃ rest, before = a ++ rest ∧ b = rest ++ i :: after := by
  rcases List.append_eq_append_iff.mp h with ⟨x, ha, hx⟩ | ⟨x, hb, hx⟩
  · cases x with
    | nil => exact .inr ⟨[], by simpa using ha.symm, by simpa using hx.symm⟩
    | cons j x =>
      obtain ⟨rfl, rfl⟩ := List.cons.inj hx
      exact .inl ⟨x, ha, rfl⟩
  · exact .inr ⟨x, hb, hx⟩

/-- An allocation between two labels lies behind the first and before the second. -/
theorem mem_labels_around {inner : List Instr} {l l' : String}
    (h : before ++ i :: after = .label l :: (inner ++ [.label l'])) (hi : i.allocates? = some reg) :
    l ∈ labels before ∧ l' ∈ labels after := by
  simp only [Bril.mem_labels]
  cases before with
  | nil =>
    cases h
    cases hi
  | cons j before =>
    obtain ⟨rfl, within⟩ := List.cons.inj h
    refine ⟨List.mem_cons_self, ?_⟩
    rcases split_append within with ⟨rest, -, rfl⟩ | ⟨rest, rfl, last⟩
    · exact List.mem_append_right _ List.mem_cons_self
    · cases rest with
      | nil =>
        cases last
        cases hi
      | cons _ rest =>
        have := congrArg List.length last
        simp at this

namespace Laid

theorem nil : Laid [] [] [] := .row rfl

theorem labels_row (h : code.all Instr.isPlain = true) : labels code = [] :=
  List.eq_nil_iff_forall_not_mem.mpr fun _ hl =>
    (Instr.of_isPlain (List.all_eq_true.mp h _ (Bril.mem_labels.mp hl))).2.2.2 _ rfl

theorem labels_alloc (h : i.allocates? = some reg) : labels [i] = [] := by
  cases i with
  | value => rfl
  | label | const | effect => cases h

theorem contained (h : Laid code made gone) : Contained code := by
  induction h with
  | row plain =>
    intro i hi l hl
    rw [(Instr.of_isPlain (List.all_eq_true.mp plain i hi)).1] at hl
    cases hl
  | alloc new => exact .one (Instr.plain_of_allocates? new).2.1
  | free => exact .one rfl
  | append _ _ iha ihb => exact iha.append ihb
  | branch _ _ _ _ _ iht ihy ihn => exact .conditional iht ihy ihn
  | loop _ _ _ iht ihb => exact .repeated iht ihb

theorem freed_eq (h : Laid code made gone) : freed code = gone := by
  induction h with
  | row plain =>
    exact List.flatMap_eq_nil_iff.mpr fun i hi =>
      (Instr.of_isPlain (List.all_eq_true.mp plain i hi)).2.2.1
  | alloc new => simp [freed, (Instr.plain_of_allocates? new).1]
  | free => rfl
  | append _ _ iha ihb => rw [Bril.freed_append, iha, ihb]
  | branch _ _ _ _ _ iht ihy ihn =>
    rw [Bril.freed_conditional, iht, ihy, ihn, List.append_nil, List.append_nil]
  | loop _ _ _ iht ihb => rw [Bril.freed_repeated, iht, ihb, List.append_nil]

theorem made_sublist (h : Laid code made gone) : made.Sublist (allocated code) := by
  induction h with
  | row | free | loop => exact List.nil_sublist _
  | alloc new => exact Bril.allocated_cons new ▸ List.Sublist.refl _
  | append _ _ iha ihb =>
    rw [Bril.allocated_append]
    exact iha.append ihb
  | branch _ _ _ _ _ iht =>
    rw [Bril.allocated_conditional, List.append_assoc]
    exact iht.trans (List.sublist_append_left _ _)

theorem frees (regs : List String) : Laid (regs.map fun reg => .perform .free [reg]) [] regs := by
  induction regs with
  | nil => exact .nil
  | cons reg regs ih => exact .append .free ih

/-- A construct that begins in code ends there. -/
theorem closes (h : Laid code made gone) (id : Nat) :
    (labelName "if" "then" id ∈ labels code → labelName "if" "exit" id ∈ labels code) ∧
      (labelName "loop" "cond" id ∈ labels code → labelName "loop" "end" id ∈ labels code) := by
  induction h with
  | row plain =>
    rw [labels_row plain]
    exact ⟨nofun, nofun⟩
  | alloc new =>
    rw [labels_alloc new]
    exact ⟨nofun, nofun⟩
  | free => exact ⟨nofun, nofun⟩
  | append _ _ iha ihb =>
    simp only [labels_append, List.mem_append]
    exact ⟨.imp iha.1 ihb.1, .imp iha.2 ihb.2⟩
  | branch _ n _ _ _ iht ihy ihn =>
    simp (disch := decide) [mem_labels_conditional, labelName_eq_iff]
    exact ⟨.imp_right (.imp iht.1 (.imp ihy.1 ihn.1)), .imp iht.2 (.imp ihy.2 ihn.2)⟩
  | loop n _ _ iht ihb =>
    simp (disch := decide) [mem_labels_repeated, labelName_eq_iff]
    exact ⟨.imp iht.1 ihb.1, .imp_right (.imp iht.2 ihb.2)⟩

/-- A register of an object that code makes gets it from an instruction that no conditional or loop
surrounds. -/
theorem exists_alloc (h : Laid code made gone) (hr : reg ∈ made) :
    ∃ before i after, code = before ++ i :: after ∧ i.allocates? = some reg ∧
      (∃ made gone, Laid before made gone) ∧ ∃ made gone, Laid after made gone := by
  induction h with
  | row | free | loop => cases hr
  | alloc new =>
    cases List.mem_singleton.mp hr
    exact ⟨[], _, [], rfl, new, ⟨_, _, .nil⟩, ⟨_, _, .nil⟩⟩
  | append ha hb iha ihb =>
    rcases List.mem_append.mp hr with hr | hr
    · obtain ⟨before, i, after, rfl, new, first, _, _, last⟩ := iha hr
      exact ⟨before, i, _, by simp, new, first, _, _, last.append hb⟩
    · obtain ⟨before, i, after, rfl, new, ⟨_, _, first⟩, last⟩ := ihb hr
      exact ⟨_, i, after, by simp, new, ⟨_, _, ha.append first⟩, last⟩
  | branch cond id _ hy hn iht =>
    obtain ⟨before, i, after, rfl, new, first, _, _, last⟩ := iht hr
    exact ⟨before, i, _, by simp [conditional], new, first, _, _, last.branch cond id hy hn⟩

/-- An object that code allocates outside of arms and loops is among those that it makes. -/
theorem made_of_not_enclosed (h : Laid code made gone) (hc : code = before ++ i :: after)
    (hi : i.allocates? = some reg) (outside : ¬ Enclosed before after) : reg ∈ made := by
  induction h generalizing before after with
  | row plain =>
    have plain := List.all_eq_true.mp plain i (hc ▸ List.mem_append_right _ List.mem_cons_self)
    cases (Instr.of_isPlain plain).2.1.symm.trans hi
  | @alloc j _ new =>
    have here : i ∈ [j] := hc ▸ List.mem_append_right _ List.mem_cons_self
    cases List.mem_singleton.mp here
    cases new.symm.trans hi
    exact List.mem_singleton_self _
  | @free r =>
    have here : i ∈ [.perform .free [r]] := hc ▸ List.mem_append_right _ List.mem_cons_self
    cases List.mem_singleton.mp here
    cases hi
  | append _ _ iha ihb =>
    rcases split_append hc.symm with ⟨rest, rfl, rfl⟩ | ⟨rest, rfl, rfl⟩
    · exact List.mem_append_left _ (iha rfl fun h => outside (h.mono (List.Subset.refl _)
        (List.subset_append_left _ _)))
    · exact List.mem_append_right _ (ihb rfl fun h => outside (h.mono
        (List.subset_append_right _ _) (List.Subset.refl _)))
  | @branch test yes no _ _ _ _ cond id _ _ _ iht =>
    have shape : before ++ i :: after =
        test ++ (Instr.br cond (labelName "if" "then" id) (labelName "if" "else" id) ::
          .label (labelName "if" "then" id) :: ((yes ++ Instr.jmp (labelName "if" "exit" id) ::
            .label (labelName "if" "else" id) :: (no ++ [Instr.jmp (labelName "if" "exit" id)]))
              ++ [Instr.label (labelName "if" "exit" id)])) := by
      rw [← hc]
      simp [conditional]
    rcases split_append shape with ⟨rest, rfl, rfl⟩ | ⟨rest, rfl, arms⟩
    · exact iht rfl fun h => outside (h.mono (List.Subset.refl _) (List.subset_append_left _ _))
    · cases rest with
      | nil =>
        cases arms
        cases hi
      | cons _ rest =>
        obtain ⟨rfl, inner⟩ := List.cons.inj arms
        obtain ⟨opened, closed⟩ := mem_labels_around inner.symm hi
        refine absurd ⟨id, .inl ⟨?_, closed⟩⟩ outside
        rw [labels_append]
        exact List.mem_append_right _ opened
  | @loop test cond body _ _ id =>
    have shape : before ++ i :: after = Instr.label (labelName "loop" "cond" id) ::
        ((test ++ Instr.br cond (labelName "loop" "body" id) (labelName "loop" "end" id) ::
          .label (labelName "loop" "body" id) :: (body ++ [Instr.jmp (labelName "loop" "cond" id)]))
            ++ [Instr.label (labelName "loop" "end" id)]) := by
      rw [← hc]
      simp [repeated]
    exact absurd ⟨id, .inr (mem_labels_around shape hi)⟩ outside

/-- Code with different labels makes the objects that it allocates outside of arms and loops. -/
theorem mem_made_iff (h : Laid code made gone) (distinct : (labels code).Nodup) :
    reg ∈ made ↔ AllocatesOutside code reg := by
  constructor
  · intro hr
    obtain ⟨before, i, after, rfl, new, ⟨_, _, first⟩, -⟩ := h.exists_alloc hr
    refine ⟨before, i, after, rfl, new, ?_⟩
    -- What begins before the place ends there, so it does not end behind it again.
    rw [labels_append] at distinct
    have apart {l : String} (hb : l ∈ labels before) (ha : l ∈ labels after) : False := by
      have later : l ∈ labels (i :: after) := by
        rw [← List.singleton_append, labels_append]
        exact List.mem_append_right _ ha
      exact (List.nodup_append.mp distinct).2.2 l hb l later rfl
    rintro ⟨id, ⟨opened, closed⟩ | ⟨opened, closed⟩⟩
    · exact apart ((first.closes id).1 opened) closed
    · exact apart ((first.closes id).2 opened) closed
  · rintro ⟨before, i, after, hc, new, outside⟩
    exact h.made_of_not_enclosed hc new outside

end Laid

end Layout

section Expressions

variable {env : LowerEnv} {s t u : FunctionState} {code a b : List Instr}

/-- Code between two states is laid out, and the objects that it makes are those recorded, unless it
lies in a branch itself. -/
def Records (s : FunctionState) (code : List Instr) (t : FunctionState) : Prop :=
  ∃ made, Laid code made [] ∧ t.branches = s.branches ∧
    (s.branches = 0 → t.pending = s.pending ++ made)

namespace Records

theorem row (plain : code.all Instr.isPlain = true) (hb : t.branches = s.branches)
    (hp : t.pending = s.pending) : Records s code t :=
  ⟨[], .row plain, hb, fun _ => by rw [hp, List.append_nil]⟩

theorem append (ha : Records s a t) (hb : Records t b u) : Records s (a ++ b) u := by
  obtain ⟨made, first, same, recorded⟩ := ha
  obtain ⟨made', second, same', recorded'⟩ := hb
  refine ⟨made ++ made', first.append second, same'.trans same, fun outside => ?_⟩
  rw [recorded' (same.trans outside), recorded outside, List.append_assoc]

theorem nil : Records s [] s := row rfl rfl rfl

theorem pop (h : Records s.push code t) : Records s code t.pop := h

theorem bind {name : Bytes} {type : ClassName} (plain : code.all Instr.isPlain = true) :
    Records s code (s.bind name type).2 := by
  obtain ⟨reg, n, heq, -⟩ := s.bind_eq name type
  rw [heq]
  exact row plain rfl rfl

theorem object {c : ClassName} :
    Records s (env.objectCode s.next c) ((s.skip 2).recordAlloc (tempName (s.next + 1))) := by
  have size : Laid [.literal (tempName s.next) (.int (env.table.objectSize c))] [] [] :=
    .row rfl
  have alloc : Laid [.compute .alloc (tempName (s.next + 1)) .object [tempName s.next]]
      [tempName (s.next + 1)] [] := .alloc rfl
  refine ⟨[tempName (s.next + 1)], ?_, (FunctionState.Restores.recordAlloc _ _).branches, ?_⟩
  · refine (size.append alloc).append (Laid.row ?_)
    split <;> rfl
  · intro outside
    have outside : (s.skip 2).branches = 0 := outside
    unfold FunctionState.recordAlloc
    rw [if_pos outside]
    rfl

end Records

theorem records_called {owner : ClassName} {method : Bytes} {result : ClassName} {xs : List Lowered}
    (h : Records s (xs.flatMap (·.code)) t) :
    Records s (called t.next owner method result xs).code (t.skip 1) :=
  h.append (.row rfl rfl rfl)

theorem isPlain_defaultCode (dest : String) (c : ClassName) :
    (defaultCode dest c).all Instr.isPlain = true := by
  unfold defaultCode
  cases c.default? <;> rfl

theorem Lowers.records {e : Expr} {x : Lowered} (h : Lowers env s e x t) : Records s x.code t := by
  induction h using Lowers.rec
    (motive_2 := fun s _ xs t _ => Records s (xs.flatMap (·.code)) t)
    (motive_3 := fun s _ code t _ => Records s code t) with
  | assignLocal _ _ ih => exact ih.append (.row rfl rfl rfl)
  | assignAttribute _ _ _ ih =>
    rw [List.append_assoc]
    exact ih.append (.row rfl rfl rfl)
  | selfCall _ _ _ ih => exact records_called ih
  | call _ _ _ _ ihr iha | staticCall _ _ _ _ ihr iha =>
    refine records_called ?_
    rw [List.flatMap_cons]
    exact ihr.append iha
  | @cond s t u w _ _ _ _ x y z _ hy hn iht ihy ihn =>
    obtain ⟨made, test, same, recorded⟩ := iht
    obtain ⟨_, yes, -⟩ := ihy
    obtain ⟨_, no, -⟩ := ihn
    have arms := hy.restores.branch.trans hn.restores.branch
    rw [condCode_eq]
    refine ⟨made, test.branch _ w.next (yes.append (.row rfl)) (no.append (.row rfl)),
      arms.branches.trans same, fun outside => ?_⟩
    rw [← recorded outside]
    exact hn.restores.pending_branch.trans hy.restores.pending_branch
  | @loop s t u _ _ _ _ _ ht hb iht ihb =>
    obtain ⟨_, test, -⟩ := iht
    obtain ⟨_, body, -⟩ := ihb
    have parts := ht.restores.branch.trans hb.restores.branch
    refine ⟨[], test.loop s.next body, parts.branches, fun _ => ?_⟩
    rw [List.append_nil]
    exact hb.restores.pending_branch.trans ht.restores.pending_branch
  | block _ ih => exact ih.pop
  | letIn _ _ ihb ih => exact (ihb.append ih).pop
  | newInt | newBool | int | bool => exact .row rfl rfl rfl
  | newObject => exact .object
  | @binary _ _ _ op _ _ _ _ _ _ _ ihl ihr =>
    refine (ihl.append ihr).append (.row ?_ rfl rfl)
    cases op <;> rfl
  | not _ ih => exact ih.append (.row rfl rfl rfl)
  | complement _ ih => exact ih.append (.row rfl rfl rfl)
  | self | «local» => exact .nil
  | «attribute» => exact .row rfl rfl rfl
  | group _ ih => exact ih
  | nil => exact .nil
  | cons _ _ ih ihs =>
    rw [List.flatMap_cons]
    exact ih.append ihs
  | empty => exact .nil
  | init _ _ ihv ih => exact (ihv.append (.bind rfl)).append ih
  | default _ ih => exact (Records.bind (isPlain_defaultCode _ _)).append ih

end Expressions

end Cool
