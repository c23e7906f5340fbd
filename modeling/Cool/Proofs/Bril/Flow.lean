import Cool.Proofs.Bril.Triple
import Mathlib.Data.List.Nodup
import Mathlib.Data.Set.Basic

/-!
Where control can go in code, whatever the registers hold, and which registers are written on the
way. Each path through a row, a conditional or a loop is put together from paths through its parts.
-/
namespace Cool.Bril

namespace Instr

def reads : Instr → List String
  | .label _ | .const _ _ _ => []
  | .value _ _ _ args _ | .effect _ args _ _ => args

def targets : Instr → List String
  | .effect _ _ _ labels => labels
  | .label _ | .const _ _ _ | .value _ _ _ _ _ => []

def calls : Instr → List (String × Nat)
  | .value .call _ _ args funcs => funcs.map (·, args.length)
  | .effect .call args funcs _ => funcs.map (·, args.length)
  | _ => []

def returns : Instr → Bool
  | .effect .ret _ _ _ => true
  | _ => false

def passes : Instr → Bool
  | .effect .jmp _ _ _ | .effect .br _ _ _ | .effect .ret _ _ _ => false
  | _ => true

theorem mem_targets_br {cond yes no label : String} :
    label ∈ (br cond yes no).targets ↔ label = yes ∨ label = no := by
  simp [targets, br]

theorem returns_of_passes {i : Instr} (h : i.passes = true) : i.returns = false := by
  cases i with
  | effect op _ _ _ => cases op <;> first | rfl | cases h
  | label | const | value => rfl

end Instr

inductive Leads (code : List Instr) : List Instr → List Instr → Prop where
  | next {i rest} : i.passes = true → Leads code (i :: rest) rest
  | jump {i rest label there} : label ∈ i.targets → behind? label code = some there →
      Leads code (i :: rest) there

inductive Path (code : List Instr) : List Instr → List Instr → List Instr → Prop where
  | here {rest} : Path code rest [] rest
  | step {i rest mid passed last} : Leads code (i :: rest) mid → Path code mid passed last →
      Path code (i :: rest) (i :: passed) last

/-- What each register read on a path from a place in code is, within `n` steps: one of `A`, or one
that is written on the way. -/
def Backed (code : List Instr) (n : Nat) (A : Set String) (start : List Instr) : Prop :=
  ∀ passed i last, passed.length < n → Path code start passed (i :: last) →
    ∀ r ∈ i.reads, r ∈ A ∨ r ∈ written passed

namespace Backed

variable {code rest start there : List Instr} {n m : Nat} {A B : Set String} {i : Instr}
  {label : String}

theorem zero : Backed code 0 A start := fun _ _ _ short => absurd short (Nat.not_lt_zero _)

theorem mono (h : Backed code n A start) (hs : A ⊆ B) : Backed code n B start :=
  fun passed i last short path r hr => (h passed i last short path r hr).imp_left (@hs r)

theorem of_le (h : Backed code n A start) (hl : m ≤ n) : Backed code m A start :=
  fun passed i last short => h passed i last (Nat.lt_of_lt_of_le short hl)

/-- A place is backed if what stands there reads from `A` and wherever it leads is backed. -/
theorem step (hr : ∀ r ∈ i.reads, r ∈ A)
    (hl : ∀ there, Leads code (i :: rest) there →
      Backed code n (A ∪ {r | i.dest? = some r}) there) :
    Backed code (n + 1) A (i :: rest) := by
  rintro passed j last short path r hread
  cases path with
  | here => exact .inl (hr r hread)
  | @step _ _ mid passed _ leads path =>
    have shorter := Nat.lt_of_succ_lt_succ short
    rcases hl mid leads passed j last shorter path r hread with (old | new) | later
    · exact .inl old
    · refine .inr ?_
      rw [written_cons, show i.dest? = some r from new]
      exact List.mem_cons_self
    · refine .inr ?_
      rw [written_cons]
      exact List.mem_append_right _ later

theorem pass (hp : i.targets = []) (hr : ∀ r ∈ i.reads, r ∈ A)
    (h : Backed code n (A ∪ {r | i.dest? = some r}) rest) : Backed code n A (i :: rest) := by
  cases n with
  | zero => exact zero
  | succ n =>
    refine step hr fun there leads => ?_
    cases leads with
    | next => exact h.of_le (Nat.le_succ n)
    | jump named =>
      rw [hp] at named
      cases named

theorem leave (hp : i.passes = false) (hr : ∀ r ∈ i.reads, r ∈ A)
    (h : ∀ l ∈ i.targets, ∀ there, behind? l code = some there → Backed code n A there) :
    Backed code (n + 1) A (i :: rest) := by
  refine step hr fun there leads => ?_
  cases leads with
  | next passes => exact Bool.noConfusion (hp.symm.trans passes)
  | jump named found => exact (h _ named there found).mono Set.subset_union_left

theorem ret {reg : Option String} (hr : ∀ r ∈ reg, r ∈ A) : Backed code n A (.ret reg :: rest) := by
  cases n with
  | zero => exact zero
  | succ n =>
    refine leave rfl (fun r hm => hr r (Option.mem_toList.mp hm)) ?_
    intro _ named
    cases named

theorem jmp (found : behind? label code = some there) (h : Backed code n A there) :
    Backed code (n + 1) A (.jmp label :: rest) := by
  refine leave rfl (fun _ hr => nomatch hr) ?_
  intro l named there' found'
  cases List.mem_singleton.mp named
  cases found.symm.trans found'
  exact h

theorem br {cond yes no : String} {onYes onNo : List Instr} (hc : cond ∈ A)
    (foundYes : behind? yes code = some onYes) (foundNo : behind? no code = some onNo)
    (hy : Backed code n A onYes) (hn : Backed code n A onNo) :
    Backed code (n + 1) A (.br cond yes no :: rest) := by
  refine leave rfl (fun r hr => List.mem_singleton.mp hr ▸ hc) ?_
  intro l named there found
  rcases Instr.mem_targets_br.mp named with rfl | rfl
  · cases foundYes.symm.trans found
    exact hy
  · cases foundNo.symm.trans found
    exact hn

end Backed

def Contained (code : List Instr) : Prop := ∀ i ∈ code, ∀ l ∈ i.targets, l ∈ labels code

section Labels

variable {a b test yes no body : List Instr} {i : Instr}
  {cond onYes onNo start inside exit l : String}

theorem mem_labels_conditional : l ∈ labels (conditional test cond onYes onNo exit yes no) ↔
    (l = onYes ∨ l = onNo ∨ l = exit) ∨ l ∈ labels test ∨ l ∈ labels yes ∨ l ∈ labels no := by
  simp only [conditional, labels_append, List.mem_append, labels_cons_label, labels_cons_br,
    labels_cons_jmp, labels_nil, List.mem_singleton]
  grind

theorem mem_labels_repeated : l ∈ labels (repeated test cond start inside exit body) ↔
    (l = start ∨ l = inside ∨ l = exit) ∨ l ∈ labels test ∨ l ∈ labels body := by
  simp only [repeated, labels_append, List.mem_append, labels_cons_label, labels_cons_br,
    labels_cons_jmp, labels_nil, List.mem_singleton]
  grind

namespace Contained

theorem nil : Contained [] := fun _ h => nomatch h

theorem one (h : i.targets = []) : Contained [i] := by
  intro j hj l hl
  rw [List.mem_singleton.mp hj, h] at hl
  cases hl

theorem append (ha : Contained a) (hb : Contained b) : Contained (a ++ b) := by
  intro i hi l hl
  rw [labels_append, List.mem_append]
  exact (List.mem_append.mp hi).imp (ha i · l hl) (hb i · l hl)

theorem cons (h : i.targets = []) (ha : Contained a) : Contained (i :: a) := (one h).append ha

theorem conditional (ht : Contained test) (hy : Contained yes) (hn : Contained no) :
    Contained (conditional test cond onYes onNo exit yes no) := by
  intro i hi l hl
  rw [mem_labels_conditional]
  simp only [Bril.conditional, List.mem_append, List.mem_singleton, or_assoc] at hi
  rcases hi with hi | rfl | rfl | hi | rfl | rfl | hi | rfl | rfl
  · exact .inr (.inl (ht i hi l hl))
  · rcases Instr.mem_targets_br.mp hl with rfl | rfl <;> simp
  · cases hl
  · exact .inr (.inr (.inl (hy i hi l hl)))
  · exact .inl (.inr (.inr (List.mem_singleton.mp hl)))
  · cases hl
  · exact .inr (.inr (.inr (hn i hi l hl)))
  · exact .inl (.inr (.inr (List.mem_singleton.mp hl)))
  · cases hl

theorem repeated (ht : Contained test) (hb : Contained body) :
    Contained (repeated test cond start inside exit body) := by
  intro i hi l hl
  rw [mem_labels_repeated]
  simp only [Bril.repeated, List.mem_append, List.mem_cons, List.not_mem_nil, or_false,
    or_assoc] at hi
  rcases hi with rfl | hi | rfl | rfl | hi | rfl | rfl
  · cases hl
  · exact .inr (.inl (ht i hi l hl))
  · rcases Instr.mem_targets_br.mp hl with rfl | rfl <;> simp
  · cases hl
  · exact .inr (.inr (hb i hi l hl))
  · exact .inl (.inl (List.mem_singleton.mp hl))
  · cases hl

end Contained

end Labels

/-- Code that control enters at its start and leaves at its end: with the registers of `A` written
before it reads no others but its own, and behind it those of the last set are written. -/
inductive Flows : Set String → List Instr → Set String → Prop where
  | nil {A} : Flows A [] A
  | one {A i} : i.passes = true → i.targets = [] → (∀ r ∈ i.reads, r ∈ A) →
      Flows A [i] (A ∪ {r | i.dest? = some r})
  | append {A B C a b} : Flows A a B → Flows B b C → Flows A (a ++ b) C
  | branch {A B C D test cond onYes onNo exit yes no} : Flows A test B → cond ∈ B →
      Flows B yes C → Flows B no D → Flows A (conditional test cond onYes onNo exit yes no) (C ∩ D)
  | loop {A B C test cond start inside exit body} : Flows A test B → cond ∈ B → Flows B body C →
      Flows A (repeated test cond start inside exit body) B

namespace Flows

open Triple (conditional_append repeated_append)

variable {A B : Set String} {code body : List Instr}

theorem subset (h : Flows A body B) : A ⊆ B := by
  induction h with
  | nil => exact fun _ hr => hr
  | one => exact Set.subset_union_left
  | append _ _ iha ihb => exact iha.trans ihb
  | branch _ _ _ _ iht ihy ihn => exact iht.trans (Set.subset_inter ihy ihn)
  | loop _ _ _ iht _ => exact iht

theorem returns_eq_false (h : Flows A body B) : ∀ i ∈ body, i.returns = false := by
  induction h with
  | nil => exact fun _ h => nomatch h
  | one passes =>
    rintro _ hi
    cases List.mem_singleton.mp hi
    exact Instr.returns_of_passes passes
  | append _ _ iha ihb => exact fun i hi => (List.mem_append.mp hi).elim (iha i) (ihb i)
  | branch _ _ _ _ iht ihy ihn =>
    simp only [conditional, List.forall_mem_append, List.forall_mem_singleton]
    exact ⟨⟨⟨⟨⟨⟨⟨⟨iht, rfl⟩, rfl⟩, ihy⟩, rfl⟩, rfl⟩, ihn⟩, rfl⟩, rfl⟩
  | loop _ _ _ iht ihb =>
    simp only [repeated, List.forall_mem_append, List.forall_mem_cons]
    have nothing : ∀ i ∈ ([] : List Instr), i.returns = false := List.forall_mem_nil _
    exact ⟨⟨⟨⟨⟨rfl, nothing⟩, iht⟩, rfl, rfl, nothing⟩, ihb⟩, rfl, rfl, nothing⟩

theorem contained (h : Flows A body B) : Contained body := by
  induction h with
  | nil => exact .nil
  | one _ none => exact .one none
  | append _ _ iha ihb => exact iha.append ihb
  | branch _ _ _ _ iht ihy ihn => exact .conditional iht ihy ihn
  | loop _ _ _ iht ihb => exact .repeated iht ihb

/-- Where code flows, it is backed if what stands behind it is. -/
theorem backed (h : Flows A body B) (hn : (labels code).Nodup) {post : List Instr} {n : Nat}
    (hs : body ++ post <:+ code) (hp : Backed code n B post) : Backed code n A (body ++ post) := by
  induction h generalizing post n with
  | nil => exact hp
  | one _ none reads => exact .pass none reads hp
  | append _ _ iha ihb =>
    rw [List.append_assoc] at hs ⊢
    exact iha hs (ihb ((List.suffix_append _ _).trans hs) hp)
  | @branch A B C D test cond onYes onNo exit yes no ht hc hy hno iht ihy ihn =>
    rw [conditional_append] at hs ⊢
    have atYes := ((List.suffix_cons _ _).trans (List.suffix_append _ _)).trans hs
    have inYes := (List.suffix_cons _ _).trans atYes
    have atNo := ((List.suffix_cons _ _).trans (List.suffix_append _ _)).trans inYes
    have inNo := (List.suffix_cons _ _).trans atNo
    have atExit := ((List.suffix_cons _ _).trans (List.suffix_append _ _)).trans inNo
    -- Both arms end in a jump to the exit, where only what both have written counts.
    have exits {E : Set String} (hE : C ∩ D ⊆ E) (rest : List Instr) :
        Backed code n E (.jmp exit :: rest) := by
      cases n with
      | zero => exact .zero
      | succ n => exact .jmp (behind?_of_suffix hn atExit) ((hp.mono hE).of_le (Nat.le_succ n))
    have backedYes := ihy inYes (exits Set.inter_subset_left _)
    have backedNo := ihn inNo (exits Set.inter_subset_right _)
    refine iht hs ?_
    cases n with
    | zero => exact .zero
    | succ n =>
      exact .br hc (behind?_of_suffix hn atYes) (behind?_of_suffix hn atNo)
        (backedYes.of_le (Nat.le_succ n)) (backedNo.of_le (Nat.le_succ n))
  | @loop A B C test cond start inside exit body ht hc hb iht ihb =>
    rw [repeated_append] at hs ⊢
    have inTest := (List.suffix_cons _ _).trans hs
    have atInside := ((List.suffix_cons _ _).trans (List.suffix_append _ _)).trans inTest
    have inBody := (List.suffix_cons _ _).trans atInside
    have atExit := ((List.suffix_cons _ _).trans (List.suffix_append _ _)).trans inBody
    refine .pass rfl (fun _ hr => nomatch hr) (Backed.mono ?_ Set.subset_union_left)
    -- The jump back to the start takes a step, so there are fewer left for the next round.
    induction n with
    | zero => exact .zero
    | succ n ih =>
      have later := hp.of_le (Nat.le_succ n)
      have leaves := behind?_of_suffix hn atExit
      refine iht inTest (.br hc (behind?_of_suffix hn atInside) leaves ?_ later)
      refine Backed.of_le (ihb inBody ?_) (Nat.le_succ n)
      exact .jmp (behind?_of_suffix hn hs) ((ih later).mono (ht.subset.trans hb.subset))

end Flows

theorem suffix_of_behind? {label : String} {code there : List Instr}
    (h : behind? label code = some there) : .label label :: there <:+ code := by
  induction code with
  | nil => cases h
  | cons i code ih =>
    unfold behind? at h
    split at h
    · rename_i found
      cases h
      exact found ▸ List.suffix_refl _
    · exact (ih h).trans (List.suffix_cons _ _)

/-- Control does not get behind the return that code ends in. -/
theorem Leads.inside {code body start mid : List Instr} {reg : Option String} {i : Instr}
    (hc : code = body ++ [.ret reg]) (h : Leads code (i :: start) mid) (hs : i :: start <:+ code) :
    mid <:+ code ∧ mid ≠ [] := by
  have last {j : Instr} (hj : [j] <:+ code) : j = .ret reg := by
    obtain ⟨before, whole⟩ := hj
    exact List.singleton_inj.mp (List.append_inj_right' (whole.trans hc) rfl)
  cases h with
  | next passes =>
    refine ⟨(List.suffix_cons _ _).trans hs, ?_⟩
    rintro rfl
    rw [last hs] at passes
    cases passes
  | jump _ found =>
    have labelled := suffix_of_behind? found
    refine ⟨(List.suffix_cons _ _).trans labelled, ?_⟩
    rintro rfl
    cases last labelled

theorem Path.inside {code body start passed last : List Instr} {reg : Option String}
    (hc : code = body ++ [.ret reg]) (h : Path code start passed last) (hs : start <:+ code)
    (hne : start ≠ []) : last ≠ [] := by
  induction h with
  | here => exact hne
  | step leads _ ih =>
    obtain ⟨hs, hne⟩ := leads.inside hc hs
    exact ih hs hne

def FlowsTo (A : Set String) (code : List Instr) (Q : Set String → Prop) : Prop :=
  ∃ B, Flows A code B ∧ Q B

namespace FlowsTo

variable {A : Set String} {a b : List Instr} {i : Instr} {P Q : Set String → Prop}

theorem nil (h : Q A) : FlowsTo A [] Q := ⟨A, .nil, h⟩

theorem one (hp : i.passes = true) (ht : i.targets = []) (hr : ∀ r ∈ i.reads, r ∈ A)
    (h : Q (A ∪ {r | i.dest? = some r})) : FlowsTo A [i] Q :=
  ⟨_, .one hp ht hr, h⟩

theorem append (ha : FlowsTo A a P) (hb : ∀ B, A ⊆ B → P B → FlowsTo B b Q) :
    FlowsTo A (a ++ b) Q := by
  obtain ⟨B, first, hB⟩ := ha
  obtain ⟨C, second, hC⟩ := hb B first.subset hB
  exact ⟨C, first.append second, hC⟩

theorem imp (h : FlowsTo A a P) (hq : ∀ B, A ⊆ B → P B → Q B) : FlowsTo A a Q := by
  obtain ⟨B, flows, hB⟩ := h
  exact ⟨B, flows, hq B flows.subset hB⟩

end FlowsTo

namespace Function

variable {f : Function} {A : Set String}

/-- Whether control stays in a function until it returns: its labels differ, each that is named is
there, and it ends in its only return. -/
structure Routed (f : Function) : Prop where
  distinct : (labels f.instrs).Nodup
  defined : ∀ i ∈ f.instrs, ∀ l ∈ i.targets, (labels f.instrs).count l = 1
  returns : ∃ body reg, f.instrs = body ++ [.ret reg] ∧ ∀ i ∈ body, i.returns = false
  inside : ∀ passed last, Path f.instrs f.instrs passed last → last ≠ []

theorem Routed.not_mem_of_returns {body : List Instr} {reg : Option String} {i : Instr}
    (h : f.Routed) (hc : f.instrs = body ++ [.ret reg]) (hi : i.returns = true) : i ∉ body := by
  obtain ⟨_, _, hc', before⟩ := h.returns
  rw [(List.append_inj' (hc.symm.trans hc') rfl).1]
  exact fun hm => Bool.noConfusion ((before i hm).symm.trans hi)

/-- Whether each register is a parameter or written on every path on which it is read, but for those
that are exempt. -/
def DefinesFirst (f : Function) (Exempt : String → Prop) : Prop :=
  ∀ passed i last, Path f.instrs f.instrs passed (i :: last) →
    ∀ r ∈ i.reads, r ∈ f.params.map (·.name) ∨ r ∈ written passed ∨ Exempt r

def FlowsFrom (f : Function) (A : Set String) : Prop :=
  ∃ body reg, f.instrs = body ++ [.ret reg] ∧ FlowsTo A body fun B => ∀ r ∈ reg, r ∈ B

theorem FlowsFrom.routed (h : f.FlowsFrom A) (hn : (labels f.instrs).Nodup) : f.Routed := by
  obtain ⟨body, reg, code, B, flows, _⟩ := h
  refine ⟨hn, ?_, ⟨body, reg, code, flows.returns_eq_false⟩, ?_⟩
  · intro i hi l hl
    refine List.count_eq_one_of_mem hn ?_
    rw [code, List.mem_append, List.mem_singleton] at hi
    rw [code, labels_append, List.mem_append]
    rcases hi with hi | rfl
    · exact .inl (flows.contained i hi l hl)
    · cases hl
  · intro passed last path
    exact path.inside code (List.suffix_refl _) (by simp [code])

theorem FlowsFrom.definesFirst (h : f.FlowsFrom A) (hn : (labels f.instrs).Nodup)
    {Exempt : String → Prop} (hA : ∀ r ∈ A, r ∈ f.params.map (·.name) ∨ Exempt r) :
    f.DefinesFirst Exempt := by
  obtain ⟨body, reg, code, B, flows, returned⟩ := h
  intro passed i last path r hr
  have backed : Backed f.instrs (passed.length + 1) A f.instrs := by
    have suffix : body ++ [.ret reg] <:+ f.instrs := code ▸ List.suffix_refl _
    exact code ▸ flows.backed hn suffix (.ret returned)
  rcases backed passed i last (Nat.lt_succ_self _) path r hr with known | written
  · exact (hA r known).imp_right .inr
  · exact .inr (.inl written)

end Function

end Cool.Bril
