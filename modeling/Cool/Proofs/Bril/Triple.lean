import Cool.Proofs.Bril.Machine

/-!
Pieces of code that run through, wherever they stand in a function. Rows, conditionals and loops of
such pieces run through as well.
-/
namespace Cool.Bril

/-- In all code without repeated labels that it stands in, `body` runs through from registers with
`P` to registers with `Q`, and keeps those that it does not write. -/
def Triple (A : Arithmetic) (P : Registers → Prop) (body : List Instr) (Q : Registers → Prop) :
    Prop :=
  ∀ code rest regs, (labels code).Nodup → body ++ rest <:+ code → P regs →
    ∃ regs', Runs A code (body ++ rest, regs) (rest, regs') ∧ Q regs' ∧
      ∀ r ∉ written body, regs' r = regs r

def conditional (test : List Instr) (cond onYes onNo exit : String) (yes no : List Instr) :
    List Instr :=
  test ++ [.br cond onYes onNo] ++ [.label onYes] ++ yes ++ [.jmp exit] ++ [.label onNo] ++ no
    ++ [.jmp exit] ++ [.label exit]

def repeated (test : List Instr) (cond start inside exit : String) (body : List Instr) :
    List Instr :=
  [.label start] ++ test ++ [.br cond inside exit, .label inside] ++ body
    ++ [.jmp start, .label exit]

theorem Runs.behind_label {A : Arithmetic} {code rest there : List Instr} {regs regs' : Registers}
    {name : String} (h : Runs A code (.label name :: there, regs) (rest, regs'))
    (shorter : rest.length ≤ there.length) : Runs A code (there, regs) (rest, regs') := by
  rcases Relation.ReflTransGen.cases_head h with same | ⟨_, first, later⟩
  · have whole : .label name :: there = rest := congrArg Prod.fst same
    rw [← whole, List.length_cons] at shorter
    omega
  · cases first
    exact later

namespace Triple

variable {A : Arithmetic} {P Q R S : Registers → Prop} {a b body test yes no : List Instr}
  {dest cond onYes onNo start inside exit : String}

theorem nil : Triple A P [] P := fun _ _ regs _ _ hp => ⟨regs, .refl, hp, fun _ _ => rfl⟩

theorem imp {P' Q' : Registers → Prop} (h : Triple A P body Q) (hp : ∀ regs, P' regs → P regs)
    (hq : ∀ regs, Q regs → Q' regs) : Triple A P' body Q' := by
  intro code rest regs hn hs hp'
  obtain ⟨regs', runs, post, kept⟩ := h code rest regs hn hs (hp regs hp')
  exact ⟨regs', runs, hq regs' post, kept⟩

theorem seq (ha : Triple A P a Q) (hb : Triple A Q b R) : Triple A P (a ++ b) R := by
  intro code rest regs hn hs hp
  rw [List.append_assoc] at hs ⊢
  obtain ⟨regs₁, runs₁, hq, kept₁⟩ := ha code (b ++ rest) regs hn hs hp
  obtain ⟨regs₂, runs₂, hr, kept₂⟩ := hb code rest regs₁ hn ((List.suffix_append a _).trans hs) hq
  refine ⟨regs₂, runs₁.trans runs₂, hr, fun r hw => ?_⟩
  rw [written_append, List.mem_append, not_or] at hw
  rw [kept₂ r hw.2, kept₁ r hw.1]

theorem keep (h : Triple A P body Q) {reg : String} (hr : reg ∉ written body) (v : Literal) :
    Triple A (fun regs => P regs ∧ regs reg = some v) body
      (fun regs => Q regs ∧ regs reg = some v) := by
  intro code rest regs hn hs ⟨hp, hv⟩
  obtain ⟨regs', runs, hq, kept⟩ := h code rest regs hn hs hp
  exact ⟨regs', runs, ⟨hq, (kept reg hr).trans hv⟩, kept⟩

theorem literal (v : Literal) : Triple A (fun regs => Q (regs.set dest v)) [.literal dest v] Q := by
  intro code rest regs _ _ hq
  refine ⟨_, Runs.literal dest v, hq, fun r hr => Registers.set_of_ne regs v ?_⟩
  rintro rfl
  exact hr List.mem_cons_self

theorem compute {op : ValueOp} {ty : Ty} {args : List String} :
    Triple A (fun regs => ∃ vs v, args.mapM regs = some vs ∧ op.apply A vs = some v ∧
      Q (regs.set dest v)) [.compute op dest ty args] Q := by
  rintro code rest regs _ _ ⟨vs, v, hargs, hv, hq⟩
  refine ⟨_, Runs.compute hargs hv, hq, fun r hr => Registers.set_of_ne regs v ?_⟩
  rintro rfl
  exact hr List.mem_cons_self

theorem id {source : String} {ty : Ty} :
    Triple A (fun regs => ∃ v, regs source = some v ∧ Q (regs.set dest v))
      [.compute .id dest ty [source]] Q := by
  refine compute.imp ?_ fun _ hq => hq
  rintro regs ⟨v, hv, hq⟩
  exact ⟨[v], v, by simp [hv], rfl, hq⟩

theorem conditional_append (rest : List Instr) :
    conditional test cond onYes onNo exit yes no ++ rest =
      test ++ .br cond onYes onNo :: .label onYes :: (yes ++ .jmp exit :: .label onNo ::
        (no ++ .jmp exit :: .label exit :: rest)) := by
  simp [conditional]

theorem written_conditional : written (conditional test cond onYes onNo exit yes no) =
    written test ++ written yes ++ written no := by
  simp [conditional, written_cons, Instr.br, Instr.jmp, Instr.dest?]

/-- A conditional runs through if its test and the arm that is taken do. -/
theorem branch {t : Bool} (ht : Triple A P test fun regs => Q regs ∧ regs cond = some (.bool t))
    (harm : Triple A Q (if t then yes else no) R) :
    Triple A P (conditional test cond onYes onNo exit yes no) R := by
  intro code rest regs hn hs hp
  rw [conditional_append] at hs ⊢
  rw [written_conditional]
  obtain ⟨regs₁, runs₁, ⟨hq, hc⟩, kept₁⟩ := ht code _ regs hn hs hp
  have atYes := ((List.suffix_cons _ _).trans (List.suffix_append _ _)).trans hs
  have inYes := (List.suffix_cons _ _).trans atYes
  have atNo := ((List.suffix_cons _ _).trans (List.suffix_append _ _)).trans inYes
  have inNo := (List.suffix_cons _ _).trans atNo
  have atExit := ((List.suffix_cons _ _).trans (List.suffix_append _ _)).trans inNo
  have leave := behind?_of_suffix hn atExit
  cases t with
  | true =>
    obtain ⟨regs₂, runs₂, hr, kept₂⟩ := harm code _ regs₁ hn inYes hq
    refine ⟨regs₂, ?_, hr, fun r hw => ?_⟩
    · have toArm := runs₁.trans (Runs.br hc (behind?_of_suffix hn atYes))
      exact (toArm.trans runs₂).trans (Runs.jmp leave)
    · simp only [List.mem_append, not_or] at hw
      rw [kept₂ r hw.1.2, kept₁ r hw.1.1]
  | false =>
    obtain ⟨regs₂, runs₂, hr, kept₂⟩ := harm code _ regs₁ hn inNo hq
    refine ⟨regs₂, ?_, hr, fun r hw => ?_⟩
    · have toArm := runs₁.trans (Runs.br hc (behind?_of_suffix hn atNo))
      exact (toArm.trans runs₂).trans (Runs.jmp leave)
    · simp only [List.mem_append, not_or] at hw
      rw [kept₂ r hw.2, kept₁ r hw.1.1]

theorem repeated_append (rest : List Instr) : repeated test cond start inside exit body ++ rest =
    .label start :: (test ++ .br cond inside exit :: .label inside :: (body ++ .jmp start ::
      .label exit :: rest)) := by
  simp [repeated]

theorem written_repeated : written (repeated test cond start inside exit body) =
    written test ++ written body := by
  simp [repeated, written_cons, Instr.br, Instr.jmp, Instr.dest?]

/-- A loop whose test fails runs through. -/
theorem leave (ht : Triple A P test fun regs => Q regs ∧ regs cond = some (.bool false)) :
    Triple A P (repeated test cond start inside exit body) Q := by
  intro code rest regs hn hs hp
  rw [repeated_append] at hs ⊢
  rw [written_repeated]
  have inTest := (List.suffix_cons _ _).trans hs
  obtain ⟨regs₁, runs₁, ⟨hq, hc⟩, kept₁⟩ := ht code _ regs hn inTest hp
  have inBody := ((List.suffix_cons _ _).trans ((List.suffix_cons _ _).trans
    (List.suffix_append _ _))).trans inTest
  have atExit := ((List.suffix_cons _ _).trans (List.suffix_append _ _)).trans inBody
  refine ⟨regs₁, ?_, hq, fun r hw => kept₁ r fun h => hw (List.mem_append_left _ h)⟩
  exact ((Runs.label start).trans runs₁).trans (Runs.br hc (behind?_of_suffix hn atExit))

/-- A loop runs through if its test holds, and its body and the loop behind that run through. -/
theorem again (ht : Triple A P test fun regs => Q regs ∧ regs cond = some (.bool true))
    (hbody : Triple A Q body R) (hloop : Triple A R (repeated test cond start inside exit body) S) :
    Triple A P (repeated test cond start inside exit body) S := by
  intro code rest regs hn hs hp
  have next := fun regs => hloop code rest regs hn hs
  rw [repeated_append] at hs next ⊢
  rw [written_repeated] at next ⊢
  have inTest := (List.suffix_cons _ _).trans hs
  obtain ⟨regs₁, runs₁, ⟨hq, hc⟩, kept₁⟩ := ht code _ regs hn inTest hp
  have atBody := ((List.suffix_cons _ _).trans (List.suffix_append _ _)).trans inTest
  have inBody := (List.suffix_cons _ _).trans atBody
  obtain ⟨regs₂, runs₂, hr, kept₂⟩ := hbody code _ regs₁ hn inBody hq
  obtain ⟨regs₃, runs₃, hs₃, kept₃⟩ := next regs₂ hr
  refine ⟨regs₃, ?_, hs₃, fun r hw => ?_⟩
  · have enter := (Runs.label start).trans (runs₁.trans (Runs.br hc (behind?_of_suffix hn atBody)))
    have back := (enter.trans runs₂).trans (Runs.jmp (behind?_of_suffix hn hs))
    exact back.trans (runs₃.behind_label (by simp; omega))
  · have hw' := hw
    simp only [List.mem_append, not_or] at hw
    rw [kept₃ r hw', kept₂ r hw.2, kept₁ r hw.1]

end Triple

end Cool.Bril
