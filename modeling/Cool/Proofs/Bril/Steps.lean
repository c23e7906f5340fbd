import Cool.Proofs.Bril.Flow
import Cool.Proofs.Bril.Memory
import Cool.Proofs.Bril.Passage
import Cool.Proofs.Outcome

/-!
Runs of a program, and what a step of one can do, said once. The running function goes on, with the
objects that are there, a new one or one less, or it calls another function, or it returns.
-/
namespace Cool.Bril

section Heaps

variable {heap heap' : Heap} {v address size : Value} {o : Nat}

def Heap.there (heap : Heap) : List Bool := heap.map Option.isSome

theorem Heap.length_there : heap.there.length = heap.length := List.length_map _

theorem Heap.there_eq_true :
    heap.there[o]? = some true ↔ ∃ slots, heap[o]? = some (some slots) := by
  simp [there, List.getElem?_map, Option.isSome_iff_exists]

theorem Heap.there_store (h : heap.store address v = .ok heap') : heap'.there = heap.there := by
  obtain ⟨⟨o, i, slots⟩, found, h⟩ := bind_eq_ok.mp h
  cases h
  have old : heap.there[o]? = some true := by
    unfold Heap.locate at found
    split at found
    · split at found
      · split at found <;> cases found
        exact there_eq_true.mpr ⟨_, ‹_›⟩
      · cases found
    · cases found
  refine List.ext_getElem? fun n => ?_
  unfold there at old ⊢
  rw [List.map_set, List.getElem?_set]
  split
  · rename_i same
    subst same
    obtain ⟨inside, -⟩ := List.getElem?_eq_some_iff.mp old
    rw [if_pos inside, old]
    rfl
  · rfl

theorem Heap.there_alloc (h : heap.alloc size = .ok (heap', v)) :
    heap'.there = heap.there ++ [true] ∧ v = .pointer heap.length 0 := by
  unfold Heap.alloc at h
  split at h
  · split at h <;> cases h
    exact ⟨List.map_append, rfl⟩
  · cases h

theorem Heap.there_free (h : heap.free v = .ok heap') :
    ∃ o, v = .pointer o 0 ∧ heap.there[o]? = some true ∧ heap'.there = heap.there.set o false := by
  unfold Heap.free at h
  split at h
  · split at h <;> cases h
    exact ⟨_, rfl, there_eq_true.mpr ⟨_, ‹_›⟩, List.map_set⟩
  · cases h

theorem Heap.free_eq_ok (h : heap.there[o]? = some true) :
    ∃ heap', heap.free (.pointer o 0) = .ok heap' := by
  obtain ⟨slots, there⟩ := there_eq_true.mp h
  exact ⟨heap.set o none, by simp [Heap.free, there]⟩

end Heaps

section Steps

structure State.Advances (s : State) (i : Instr) (t : State) : Prop where
  callers : t.callers = s.callers
  code : t.frame.code = s.frame.code
  leads : Leads s.frame.code s.frame.rest t.frame.rest
  regs : ∀ r, i.dest? ≠ some r → t.frame.regs r = s.frame.regs r

/-- What comes of a step: the function goes on, with the same objects, a new one or one less, or it
calls another function, or returns. -/
inductive Moves (p : Program) (s : State) : State → Prop where
  | on {i rest} {t : State} : s.frame.rest = i :: rest → s.Advances i t → i.calls = [] →
      i.allocates? = none → i.frees = [] → t.heap.there = s.heap.there → Moves p s t
  | alloc {i rest r} {t : State} : s.frame.rest = i :: rest → s.Advances i t →
      i.allocates? = some r → t.heap.there = s.heap.there ++ [true] →
      t.frame.regs r = some (.pointer s.heap.length 0) → Moves p s t
  | free {i rest r o} {t : State} : s.frame.rest = i :: rest → s.Advances i t → i.frees = [r] →
      s.frame.regs r = some (.pointer o 0) → s.heap.there[o]? = some true →
      t.heap.there = s.heap.there.set o false → Moves p s t
  | into {i rest call g vs} : s.frame.rest = i :: rest → i.passes = true → call ∈ i.calls →
      p.find? call.1 = some g → i.reads.mapM s.frame.get = .ok vs →
      Moves p s ⟨s.heap, .start g vs, (i.dest?, s.frame.goTo rest) :: s.callers⟩
  | back {g callers} : s.callers = (none, g) :: callers → Moves p s ⟨s.heap, g, callers⟩
  | result {i rest r v x g callers} : s.frame.rest = i :: rest → i.returns = true →
      i.reads = [r] → s.frame.regs r = some v → s.callers = (some x, g) :: callers →
      Moves p s ⟨s.heap, g.set x v, callers⟩

variable {p : Program} {A : Arithmetic} {s t : State} {i : Instr} {rest : List Instr}

theorem Frame.get_eq_ok {f : Frame} {reg : String} {v : Value} :
    f.get reg = .ok v ↔ f.regs reg = some v := by
  unfold Frame.get
  cases f.regs reg <;> simp

theorem advances_goTo {heap : Heap} (hi : s.frame.rest = i :: rest) (passes : i.passes = true) :
    s.Advances i ⟨heap, s.frame.goTo rest, s.callers⟩ :=
  ⟨rfl, rfl, hi ▸ .next passes, fun _ _ => rfl⟩

theorem advances_put {heap : Heap} {dest : String} {v : Value} (hi : s.frame.rest = i :: rest)
    (passes : i.passes = true) (hd : i.dest? = some dest) :
    s.Advances i ⟨heap, (s.frame.set dest v).goTo rest, s.callers⟩ := by
  refine ⟨rfl, rfl, hi ▸ .next passes, fun r hr => Function.update_of_ne ?_ ..⟩
  rintro rfl
  exact hr hd

theorem jump_moves {label : String} (hi : s.frame.rest = i :: rest) (named : label ∈ i.targets)
    (calls : i.calls = []) (frees : i.frees = []) (alloc : i.allocates? = none)
    (h : s.jump label = .ok (some t)) : Moves p s t := by
  unfold State.jump at h
  split at h <;> cases h
  exact .on hi ⟨rfl, rfl, hi ▸ .jump named ‹_›, fun _ _ => rfl⟩ calls alloc frees rfl

theorem enter_moves {func : String} {n : Nat} {vs : List Value} (hi : s.frame.rest = i :: rest)
    (passes : i.passes = true) (calls : (func, n) ∈ i.calls)
    (hvs : i.reads.mapM s.frame.get = .ok vs)
    (h : s.enter p i.dest? func vs rest = .ok (some t)) : Moves p s t := by
  unfold State.enter at h
  split at h
  · split at h <;> cases h
    exact .into hi passes calls ‹_› hvs
  · cases h

theorem applyTo_eq_some {op : ValueOp} {vs : List Value} {v : Value} (h : op.applyTo A vs = some v) :
    op ≠ .alloc ∧ op ≠ .call := by
  constructor <;> rintro rfl <;> simp [ValueOp.applyTo, ValueOp.apply] at h

theorem compute_moves {op : ValueOp} {dest : String} {ty : Ty} {args funcs : List String}
    {vs : List Value} (hi : s.frame.rest = .value op dest ty args funcs :: rest)
    (hvs : args.mapM s.frame.get = .ok vs)
    (h : s.compute p A op dest vs funcs rest = .ok (some t)) : Moves p s t := by
  unfold State.compute at h
  split at h
  · exact enter_moves hi rfl (List.mem_singleton_self (_, args.length)) hvs h
  · obtain ⟨⟨heap, v⟩, made, h⟩ := bind_eq_ok.mp h
    cases h
    obtain ⟨there, rfl⟩ := Heap.there_alloc made
    exact .alloc hi (advances_put hi rfl rfl) rfl there (Function.update_self ..)
  · obtain ⟨v, -, h⟩ := bind_eq_ok.mp h
    cases h
    exact .on hi (advances_put hi rfl rfl) rfl rfl rfl rfl
  · obtain ⟨v, -, h⟩ := bind_eq_ok.mp h
    cases h
    exact .on hi (advances_put hi rfl rfl) rfl rfl rfl rfl
  · split at h <;> cases h
    obtain ⟨notAlloc, notCall⟩ := applyTo_eq_some ‹_›
    refine .on hi (advances_put hi rfl rfl) ?_ ?_ rfl rfl
    · cases op <;> first | rfl | exact absurd rfl notCall
    · cases op <;> first | rfl | exact absurd rfl notAlloc

theorem leave_moves {w : Option Value} (h : s.leave w = .ok (some t))
    (hw : ∀ v ∈ w, ∃ i rest r, s.frame.rest = i :: rest ∧ i.returns = true ∧ i.reads = [r] ∧
      s.frame.regs r = some v) : Moves p s t := by
  unfold State.leave at h
  split at h <;> cases h
  · exact .back ‹_›
  · obtain ⟨i, rest, r, hi, returns, reads, hr⟩ := hw _ rfl
    exact .result hi returns reads hr ‹_›

theorem Frame.mapM_get_singleton {f : Frame} {args : List String} {v : Value}
    (h : args.mapM f.get = .ok [v]) : ∃ r, args = [r] ∧ f.regs r = some v := by
  obtain _ | ⟨hr, _ | _⟩ := mapM_eq_ok.mp h
  exact ⟨_, rfl, get_eq_ok.mp hr⟩

theorem perform_moves {op : EffectOp} {args funcs labels : List String} {vs : List Value}
    (hi : s.frame.rest = .effect op args funcs labels :: rest)
    (hvs : args.mapM s.frame.get = .ok vs)
    (h : s.perform p op vs funcs labels rest = .ok (some t)) : Moves p s t := by
  unfold State.perform at h
  split at h
  · exact jump_moves hi (List.mem_singleton_self _) rfl rfl rfl h
  · rename_i b yes no
    refine jump_moves hi ?_ rfl rfl rfl h
    cases b <;> simp [Instr.targets]
  · exact enter_moves hi rfl (List.mem_singleton_self (_, args.length)) hvs h
  · exact leave_moves h (by simp)
  · obtain ⟨r, rfl, hr⟩ := Frame.mapM_get_singleton hvs
    refine leave_moves h fun v hv => ?_
    cases hv
    exact ⟨_, rest, r, hi, rfl, rfl, hr⟩
  · cases h
    exact .on hi (advances_goTo hi rfl) rfl rfl rfl rfl
  · obtain ⟨heap, freed, h⟩ := bind_eq_ok.mp h
    cases h
    obtain ⟨r, rfl, hr⟩ := Frame.mapM_get_singleton hvs
    obtain ⟨o, rfl, there, gone⟩ := Heap.there_free freed
    exact .free hi (advances_goTo hi rfl) rfl hr there gone
  · obtain ⟨heap, stored, h⟩ := bind_eq_ok.mp h
    cases h
    exact .on hi (advances_goTo hi rfl) rfl rfl rfl (Heap.there_store stored)
  · cases h

theorem step_moves (h : s.step p A = .ok (some t)) : Moves p s t := by
  unfold State.step at h
  split at h
  · exact leave_moves h (by simp)
  · rename_i hi
    cases h
    exact .on hi (advances_goTo hi rfl) rfl rfl rfl rfl
  · rename_i hi
    cases h
    exact .on hi (advances_put hi rfl rfl) rfl rfl rfl rfl
  · rename_i hi
    obtain ⟨vs, hvs, h⟩ := bind_eq_ok.mp h
    exact compute_moves hi hvs h
  · rename_i hi
    obtain ⟨vs, hvs, h⟩ := bind_eq_ok.mp h
    exact perform_moves hi hvs h

theorem step_free {r : String} {v : Value} {heap : Heap} (hi : s.frame.rest = i :: rest)
    (frees : i.frees = [r]) (hr : s.frame.regs r = some v) (free : s.heap.free v = .ok heap) :
    s.step p A = .ok (some ⟨heap, s.frame.goTo rest, s.callers⟩) := by
  cases i with
  | effect op =>
    cases op <;> cases frees
    have hvs : [r].mapM s.frame.get = .ok [v] := by
      simp [List.mapM_cons, Frame.get_eq_ok.mpr hr, pure, Except.pure, bind, Except.bind]
    unfold State.step
    rw [hi]
    dsimp only
    rw [hvs]
    simp [State.perform, free, bind, Except.bind, State.goTo]
  | label | const | value => cases frees

/-- A program ends when the function that it started with returns. -/
theorem returns_of_step_eq_none (h : s.step p A = .ok none) :
    s.callers = [] ∧ ∀ i rest, s.frame.rest = i :: rest → i.returns = true := by
  have left {w : Option Value} (h : s.leave w = .ok none) : s.callers = [] := by
    unfold State.leave at h
    split at h <;> first | assumption | cases h
  have entered {dest : Option String} {func : String} {vs : List Value} {rest : List Instr} :
      s.enter p dest func vs rest ≠ .ok none := by
    unfold State.enter
    split
    · split <;> nofun
    · nofun
  have jumped {label : String} : s.jump label ≠ .ok none := by
    unfold State.jump
    split <;> nofun
  unfold State.step at h
  split at h
  · rename_i hi
    exact ⟨left h, fun _ _ hi' => nomatch hi.symm.trans hi'⟩
  · cases h
  · cases h
  · obtain ⟨vs, -, h⟩ := bind_eq_ok.mp h
    unfold State.compute at h
    split at h
    · exact absurd h entered
    · obtain ⟨_, -, h⟩ := bind_eq_ok.mp h
      cases h
    · obtain ⟨_, -, h⟩ := bind_eq_ok.mp h
      cases h
    · obtain ⟨_, -, h⟩ := bind_eq_ok.mp h
      cases h
    · split at h <;> cases h
  · rename_i hi
    obtain ⟨vs, -, h⟩ := bind_eq_ok.mp h
    unfold State.perform at h
    split at h
    · exact absurd h jumped
    · exact absurd h jumped
    · exact absurd h entered
    · exact ⟨left h, fun _ _ hi' => by cases hi.symm.trans hi'; rfl⟩
    · exact ⟨left h, fun _ _ hi' => by cases hi.symm.trans hi'; rfl⟩
    · cases h
    · obtain ⟨_, -, h⟩ := bind_eq_ok.mp h
      cases h
    · obtain ⟨_, -, h⟩ := bind_eq_ok.mp h
      cases h
    · cases h

end Steps

section Runs

inductive Run (p : Program) (A : Arithmetic) (s : State) : List State → State → Prop where
  | here : Run p A s [] s
  | step {passed : List State} {t u : State} : Run p A s passed t →
      t.step p A = .ok (some u) → Run p A s (passed ++ [t]) u

/-- Runs a program to its end, if it is there after `n` steps: the states on the way, and the
last. -/
def State.finish (p : Program) (A : Arithmetic) : Nat → State → Option (List State × State)
  | 0, _ => none
  | n + 1, s => match s.step p A with
    | .ok (some t) => (t.finish p A n).map (.map (s :: ·) id)
    | .ok none => some ([], s)
    | .error _ => none

variable {p : Program} {A : Arithmetic} {s t u : State} {passed : List State} {n : Nat}

theorem Run.cons (h : s.step p A = .ok (some t)) (run : Run p A t passed u) :
    Run p A s (s :: passed) u := by
  induction run with
  | here => exact .step .here h
  | step _ next ih => exact .step ih next

theorem Run.of_finish (h : s.finish p A n = some (passed, t)) :
    Run p A s passed t ∧ t.step p A = .ok none := by
  induction n generalizing s passed with
  | zero => cases h
  | succ n ih =>
    unfold State.finish at h
    split at h
    · obtain ⟨⟨later, _⟩, rest, same⟩ := Option.map_eq_some_iff.mp h
      cases same
      obtain ⟨run, done⟩ := ih rest
      exact ⟨run.cons ‹_›, done⟩
    · cases h
      exact ⟨.here, ‹_›⟩
    · cases h

end Runs

end Cool.Bril
