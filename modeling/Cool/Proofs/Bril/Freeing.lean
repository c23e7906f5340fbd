import Cool.Proofs.Bril.RegisterTypes
import Cool.Proofs.Bril.Steps

/-!
What a running program frees. A function makes objects at places that no jump leads over, and frees
them behind. The functions that it calls free nothing, and the register of an object is written
again only by calls that hand the object back. Then each of these objects is freed once, and nothing
else is.
-/
namespace Cool.Bril

section Ledger

/-- The object that the function that a program started with makes next, and its register. -/
def State.makes? (s : State) : Option (String × Nat) :=
  match s.callers, s.frame.rest with
  | [], i :: _ => i.allocates?.map (·, s.heap.length)
  | _, _ => none

/-- The object that the running function frees next, and its register. -/
def State.frees? (s : State) : Option (String × Nat) :=
  match s.frame.rest with
  | i :: _ => match i.frees with
    | [r] => match s.frame.regs r with
      | some (.pointer o 0) => some (r, o)
      | _ => none
    | _ => none
  | [] => none

def madeIn (passed : List State) : List (String × Nat) := passed.filterMap State.makes?

def freedIn (passed : List State) : List (String × Nat) := passed.filterMap State.frees?

/-- Whether a program that starts with `f` frees what `f` makes in some registers: in every run, no
object is freed twice and no others are freed, an object that is to be freed is there, and when the
program ends all have been freed. -/
structure FreesOnce (p : Program) (f : Function) (own : String → Prop) : Prop where
  once : ∀ A passed s, Run p A (.start f) passed s → ((freedIn passed).map Prod.snd).Nodup
  only : ∀ A passed s, Run p A (.start f) passed s →
    ∀ x ∈ freedIn passed, own x.1 ∧ x ∈ madeIn passed
  there : ∀ A passed s, Run p A (.start f) passed s →
    ∀ i rest, s.frame.rest = i :: rest → i.frees ≠ [] → ∃ t, s.step p A = .ok (some t)
  all : ∀ A passed s, Run p A (.start f) passed s → s.step p A = .ok none →
    ∀ x ∈ madeIn passed, own x.1 → x ∈ freedIn passed

variable {passed : List State} {s : State} {i : Instr} {rest : List Instr} {r : String} {o : Nat}

theorem madeIn_concat : madeIn (passed ++ [s]) = madeIn passed ++ s.makes?.toList := by
  unfold madeIn
  rw [List.filterMap_append]
  cases h : s.makes? <;> simp [h]

theorem freedIn_concat : freedIn (passed ++ [s]) = freedIn passed ++ s.frees?.toList := by
  unfold freedIn
  rw [List.filterMap_append]
  cases h : s.frees? <;> simp [h]

theorem makes?_eq (hi : s.frame.rest = i :: rest) (bottom : s.callers = []) :
    s.makes? = i.allocates?.map (·, s.heap.length) := by
  unfold State.makes?
  rw [hi, bottom]

theorem makes?_of_callers (h : s.callers ≠ []) : s.makes? = none := by
  unfold State.makes?
  split
  · contradiction
  · rfl

theorem frees?_eq_none (h : ∀ i rest, s.frame.rest = i :: rest → i.frees = []) :
    s.frees? = none := by
  unfold State.frees?
  split
  · rw [h _ _ ‹_›]
  · rfl

theorem frees?_eq_some (hi : s.frame.rest = i :: rest) (hf : i.frees = [r])
    (hr : s.frame.regs r = some (.pointer o 0)) : s.frees? = some (r, o) := by
  simp [State.frees?, hi, hf, hr]

end Ledger

section Stages

/-- How far code has got with an object, when `rest` is left to run: the objects that have been made
for its register and those that have been freed, and what is in the register while it is there. -/
inductive Stage (a : List Instr) (i : Instr) (b : List Instr) (j : Instr) (c : List Instr)
    (made gone : Nat → Prop) (rest : List Instr) (v : Option Value) : Prop where
  | before {x} : x <:+ a → rest = x ++ i :: (b ++ j :: c) → (∀ o, ¬ made o) → Stage ..
  | between {x o} : x <:+ b → rest = x ++ j :: c → (∀ n, made n ↔ n = o) → ¬ gone o →
      v = some (.pointer o 0) → Stage ..
  | behind {o} : rest <:+ c → (∀ n, made n ↔ n = o) → gone o → Stage ..

variable {code a b c rest there : List Instr} {i j k : Instr} {r : String} {made gone : Nat → Prop}
  {v : Option Value} {o n : Nat}

namespace Stage

/-- An instruction that neither makes nor frees the object does not leave the stage. -/
theorem leads (h : Stage a i b j c made gone (k :: rest) v) (places : Places code r a i b j c)
    (hn : (labels code).Nodup) (leads : Leads code (k :: rest) there)
    (notMakes : k.allocates? ≠ some r) (notFrees : r ∉ k.frees) :
    Stage a i b j c made gone there v := by
  have whole : a ++ i :: (b ++ j :: c) <:+ code := places.split ▸ List.suffix_refl _
  have second : b ++ j :: c <:+ code :=
    (List.suffix_cons _ _).trans ((List.suffix_append _ _).trans whole)
  cases h with
  | @before x hx split none =>
    cases x with
    | nil =>
      cases split
      exact absurd places.makes notMakes
    | cons _ x =>
      cases split
      obtain ⟨y, hy, rfl⟩ := leads.within hn whole places.front hx
      exact .before hy rfl none
  | @between x o hx split one there held =>
    cases x with
    | nil =>
      cases split
      exact absurd (places.frees ▸ List.mem_singleton_self r) notFrees
    | cons _ x =>
      cases split
      obtain ⟨y, hy, rfl⟩ := leads.within hn second places.between hx
      exact .between hy rfl one there held
  | behind hr one freed =>
    have third : c ++ [] <:+ code := by
      rw [List.append_nil]
      exact (List.suffix_cons _ _).trans ((List.suffix_append _ _).trans second)
    rw [← List.append_nil rest] at leads
    obtain ⟨y, hy, rfl⟩ := leads.within hn third places.behind hr
    rw [List.append_nil]
    exact .behind hy one freed

theorem make (h : Stage a i b j c made gone (k :: rest) v) (places : Places code r a i b j c)
    (leads : Leads code (k :: rest) there) (makes : k.allocates? = some r)
    (sound : ∀ o, gone o → made o) :
    Stage a i b j c (fun o => made o ∨ o = n) gone there (some (.pointer n 0)) := by
  cases h with
  | @before x hx split none =>
    cases x with
    | nil =>
      cases split
      cases leads with
      | next => exact .between (List.suffix_refl b) rfl (by simp [none]) (none _ <| sound _ ·) rfl
      | jump named =>
        rw [(Instr.plain_of_allocates? makes).2.1] at named
        cases named
    | cons _ x =>
      cases split
      exact absurd makes (places.not_makes (.inl (hx.subset List.mem_cons_self)))
  | @between x o hx split =>
    refine absurd makes (places.not_makes ?_)
    cases x with
    | nil =>
      cases split
      exact .inr (.inr (.inr rfl))
    | cons _ x =>
      cases split
      exact .inr (.inl (hx.subset List.mem_cons_self))
  | behind hr =>
    exact absurd makes (places.not_makes (.inr (.inr (.inl (hr.subset List.mem_cons_self)))))

/-- An object is freed behind where it is made, while it is in its register. -/
theorem freeing (h : Stage a i b j c made gone (k :: rest) v) (places : Places code r a i b j c)
    (frees : r ∈ k.frees) : ∃ o, k = j ∧ rest = c ∧ (∀ n, made n ↔ n = o) ∧ ¬ gone o ∧
      v = some (.pointer o 0) := by
  cases h with
  | @before x hx split =>
    refine absurd frees (places.not_frees ?_)
    cases x with
    | nil =>
      cases split
      exact .inr (.inl rfl)
    | cons _ x =>
      cases split
      exact .inl (hx.subset List.mem_cons_self)
  | @between x o hx split one there held =>
    cases x with
    | nil =>
      cases split
      exact ⟨o, rfl, rfl, one, there, held⟩
    | cons _ x =>
      cases split
      exact absurd frees (places.not_frees (.inr (.inr (.inl (hx.subset List.mem_cons_self)))))
  | behind hr =>
    exact absurd frees (places.not_frees (.inr (.inr (.inr (hr.subset List.mem_cons_self)))))

theorem free (h : Stage a i b j c made gone (k :: rest) v) (places : Places code r a i b j c)
    (frees : r ∈ k.frees) (leads : Leads code (k :: rest) there) (held : v = some (.pointer n 0)) :
    Stage a i b j c made (fun o => gone o ∨ o = n) there v := by
  obtain ⟨o, rfl, rfl, one, -, held'⟩ := h.freeing places frees
  cases held.symm.trans held'
  cases leads with
  | next => exact .behind (List.suffix_refl _) one (.inr rfl)
  | jump named =>
    rw [places.plain] at named
    cases named

/-- Code that returns has freed what it has made. -/
theorem ends (h : Stage a i b j c made gone rest v) (places : Places code r a i b j c)
    (returns : ∀ k tail, rest = k :: tail → k.returns = true) (hm : made o) : gone o := by
  cases h with
  | before _ _ none => exact absurd hm (none o)
  | @between x _ hx split =>
    exfalso
    cases x with
    | nil =>
      exact Bool.noConfusion
        ((returns _ _ split).symm.trans (Instr.not_returns_of_frees places.frees))
    | cons k x =>
      have inside : k ∈ a ++ b := List.mem_append_right _ (hx.subset List.mem_cons_self)
      exact Bool.noConfusion ((returns _ _ split).symm.trans (places.stays k inside))
  | behind _ one freed => exact (one o).mp hm ▸ freed

end Stage

end Stages

section Towers

def Frame.Runs (p : Program) (f : Function) (m : Frame) : Prop :=
  f ∈ p.functions ∧ m.code = f.instrs ∧ m.rest <:+ f.instrs

def Frame.Calm (p : Program) (m : Frame) : Prop := ∃ f, m.Runs p f ∧ freed f.instrs = []

def Frame.Gives (m : Frame) (v : Value) : Prop :=
  ∃ self, m.regs self = some v ∧ self ∉ written m.code ∧
    ∀ i ∈ m.code, i.returns = true → i = .ret (some self)

/-- Whether a function returns what it is called with. -/
def Function.HandsBack (f : Function) : Prop :=
  ∃ self, f.params.map (·.name) = [self] ∧ self ∉ written f.instrs ∧
    ∀ i ∈ f.instrs, i.returns = true → i = .ret (some self)

/-- Whether an instruction calls a function on an object that hands it back. -/
def Program.HandsBack (p : Program) (r : String) (i : Instr) : Prop :=
  ∃ ty func g, i = .call r ty func [r] ∧ p.find? func = some g ∧ g.HandsBack

/-- Whether a program starts with a function that may free what it makes: it does so in places, lets
only functions that hand objects back write their registers, and no function that frees anything is
called. -/
structure Program.Frees (p : Program) (f : Function) : Prop where
  known : f ∈ p.functions
  distinct : (labels f.instrs).Nodup
  places : ∀ r ∈ freed f.instrs, ∃ a i b j c, Places f.instrs r a i b j c
  kept : ∀ r ∈ freed f.instrs, ∀ k ∈ f.instrs, k.dest? = some r →
    k.allocates? = some r ∨ p.HandsBack r k
  calm : ∀ g ∈ p.functions, ∀ k ∈ g.instrs, ∀ call ∈ k.calls, ∀ callee,
    p.find? call.1 = some callee → freed callee.instrs = []

structure Bottom (p : Program) (f : Function) (made gone : List (String × Nat)) (m : Frame) :
    Prop where
  runs : m.Runs p f
  stages : ∀ r ∈ freed f.instrs, ∃ a i b j c, Places f.instrs r a i b j c ∧
    Stage a i b j c (fun o => (r, o) ∈ made) (fun o => (r, o) ∈ gone) m.rest (m.regs r)

/-- A running function and its callers, above the function that a program started with: they free
nothing, and what is called on an object that `f` is to free hands it back. -/
inductive Tower (p : Program) (f : Function) (made gone : List (String × Nat)) :
    Frame → List (Option String × Frame) → Prop where
  | bottom {m : Frame} : Bottom p f made gone m → Tower p f made gone m []
  | above {g d m} : g.Calm p → Bottom p f made gone m →
      (∀ r ∈ d, r ∈ freed f.instrs → ∃ v, m.regs r = some v ∧ g.Gives v) →
      Tower p f made gone g [(d, m)]
  | higher {g d h caller callers} : g.Calm p → (∀ r ∈ d, r ∈ written h.code) →
      Tower p f made gone h (caller :: callers) →
      Tower p f made gone g ((d, h) :: caller :: callers)

variable {p : Program} {A : Arithmetic} {f g : Function} {made gone : List (String × Nat)}
  {m m' : Frame} {s t : State} {i : Instr} {rest : List Instr}
  {caller : Option String × Frame} {callers : List (Option String × Frame)}

theorem Frame.Runs.leads (h : m.Runs p f) (leads : Leads m.code m.rest m'.rest)
    (code : m'.code = m.code) : m'.Runs p f := by
  obtain ⟨known, same, inside⟩ := h
  refine ⟨known, code.trans same, ?_⟩
  rw [same] at leads
  generalize m.rest = here at leads inside
  cases leads with
  | next => exact (List.suffix_cons _ _).trans inside
  | jump _ found => exact behind?_suffix found

theorem Frame.Runs.mem (h : m.Runs p f) (hi : m.rest = i :: rest) : i ∈ f.instrs :=
  (hi ▸ h.2.2).subset List.mem_cons_self

theorem Frame.Calm.not_frees (h : m.Calm p) (hi : m.rest = i :: rest) : i.frees = [] := by
  obtain ⟨f, runs, none⟩ := h
  exact List.flatMap_eq_nil_iff.mp none i (runs.mem hi)

theorem Bottom.congr (h : Bottom p f made gone m) (code : m'.code = m.code) (hr : m'.rest = m.rest)
    (regs : ∀ r ∈ freed f.instrs, m'.regs r = m.regs r) : Bottom p f made gone m' := by
  obtain ⟨runs, stages⟩ := h
  refine ⟨?_, fun r mem => ?_⟩
  · unfold Frame.Runs
    rwa [code, hr]
  · rw [hr, regs r mem]
    exact stages r mem

/-- A frame may go on as long as it keeps to its code. -/
theorem Tower.change (h : Tower p f made gone m (caller :: callers)) (code : m'.code = m.code)
    (runs : ∀ f, m.Runs p f → m'.Runs p f)
    (regs : ∀ r, r ∉ written m.code → m'.regs r = m.regs r) :
    Tower p f made gone m' (caller :: callers) := by
  have calm : m.Calm p → m'.Calm p := .imp fun f h => ⟨runs f h.1, h.2⟩
  cases h with
  | above hc hm gives =>
    refine .above (calm hc) hm fun r hr mem => ?_
    obtain ⟨v, held, self, given, kept, returns⟩ := gives r hr mem
    exact ⟨v, held, self, (regs self kept).trans given, code ▸ kept, code ▸ returns⟩
  | higher hc hd ht => exact .higher (calm hc) hd ht

theorem Frame.Runs.start (found : p.find? g.name = some g) (vs : List Value) :
    (Frame.start g vs).Runs p g :=
  ⟨List.mem_of_find?_eq_some found, rfl, List.suffix_refl _⟩

/-- A step of a called function leaves the function at the bottom where it is, or comes back to
it. -/
theorem Tower.step_above (program : p.Frees f) (hc : s.callers = caller :: callers)
    (h : Tower p f made gone s.frame (caller :: callers)) (moves : Moves p s t) :
    Tower p f made gone t.frame t.callers := by
  obtain ⟨g, runs, nothing⟩ : s.frame.Calm p := by
    cases h with
    | above calm | higher calm => exact calm
  have advance {i : Instr} {rest : List Instr} {u : State} (hi : s.frame.rest = i :: rest)
      (adv : s.Advances i u) : Tower p f made gone u.frame (caller :: callers) := by
    refine h.change adv.code (fun _ hf => hf.leads adv.leads adv.code) fun r hr => adv.regs r ?_
    rw [runs.2.1] at hr
    exact fun hd => hr (List.mem_filterMap.mpr ⟨i, runs.mem hi, hd⟩)
  cases moves with
  | on hi adv | alloc hi adv | free hi adv =>
    rw [adv.callers, hc]
    exact advance hi adv
  | @into i rest call callee vs hi passes calls found =>
    have name : callee.name = call.1 := by simpa using List.find?_some found
    have calm := program.calm g runs.1 i (runs.mem hi) call calls callee found
    rw [hc]
    refine .higher ⟨callee, .start (name ▸ found) vs, calm⟩ (fun r hr => ?_)
      (advance (u := ⟨s.heap, s.frame.goTo rest, s.callers⟩) hi (advances_goTo hi passes))
    refine List.mem_filterMap.mpr ⟨i, ?_, hr⟩
    rw [show (s.frame.goTo rest).code = _ from runs.2.1]
    exact runs.mem hi
  | back back =>
    cases hc.symm.trans back
    cases h with
    | above _ bottom => exact .bottom bottom
    | higher _ _ tower => exact tower
  | @result i rest r v x _ _ hi returns reads held back =>
    cases hc.symm.trans back
    cases h with
    | @above _ _ m _ bottom gives =>
      refine .bottom (bottom.congr rfl rfl fun r' mem => ?_)
      by_cases same : r' = x
      · -- What is called on the object hands it back to the register where it is.
        subst same
        obtain ⟨w, old, self, given, -, last⟩ := gives r' rfl mem
        have code := runs.mem hi
        rw [← runs.2.1] at code
        cases last i code returns
        cases List.singleton_inj.mp reads
        cases held.symm.trans given
        exact (Function.update_self ..).trans old.symm
      · exact Function.update_of_ne same ..
    | @higher _ _ m _ _ _ written tower =>
      refine tower.change rfl (fun _ hf => hf) fun r' hr => Function.update_of_ne ?_ ..
      rintro rfl
      exact hr (written r' rfl)

/-- An instruction of the function at the bottom that neither makes nor frees an object of `r`. -/
theorem Bottom.keeps (h : Bottom p f made gone s.frame) (program : p.Frees f)
    (hi : s.frame.rest = i :: rest) (adv : s.Advances i t) (calls : i.calls = []) {r : String}
    (mem : r ∈ freed f.instrs) (notMakes : i.allocates? ≠ some r) (notFrees : r ∉ i.frees) :
    ∃ a i b j c, Places f.instrs r a i b j c ∧ Stage a i b j c (fun o => (r, o) ∈ made)
      (fun o => (r, o) ∈ gone) t.frame.rest (t.frame.regs r) := by
  obtain ⟨a, j, b, k, c, places, stage⟩ := h.stages r mem
  have leads := adv.leads
  rw [hi] at stage leads
  rw [h.runs.2.1] at leads
  have other : i.dest? ≠ some r := by
    intro hd
    rcases program.kept r mem i (h.runs.mem hi) hd with makes | ⟨ty, func, g, rfl, -⟩
    · exact notMakes makes
    · cases calls
  rw [adv.regs r other]
  exact ⟨a, j, b, k, c, places, stage.leads places program.distinct leads notMakes notFrees⟩

theorem Bottom.on (h : Bottom p f made gone s.frame) (program : p.Frees f)
    (hi : s.frame.rest = i :: rest) (adv : s.Advances i t) (calls : i.calls = [])
    (makes : i.allocates? = none) (frees : i.frees = []) : Bottom p f made gone t.frame where
  runs := h.runs.leads adv.leads adv.code
  stages r mem := h.keeps program hi adv calls mem (by simp [makes]) (by simp [frees])

theorem Bottom.alloc (h : Bottom p f made gone s.frame) (program : p.Frees f)
    (sound : ∀ x ∈ gone, x ∈ made) (hi : s.frame.rest = i :: rest) (adv : s.Advances i t)
    {r : String} {o : Nat} (makes : i.allocates? = some r)
    (held : t.frame.regs r = some (.pointer o 0)) :
    Bottom p f (made ++ [(r, o)]) gone t.frame where
  runs := h.runs.leads adv.leads adv.code
  stages r' mem := by
    by_cases same : r' = r
    · subst same
      obtain ⟨a, j, b, k, c, places, stage⟩ := h.stages r' mem
      have leads := adv.leads
      rw [hi] at stage leads
      rw [h.runs.2.1] at leads
      refine ⟨a, j, b, k, c, places, ?_⟩
      rw [held]
      simpa using stage.make places leads makes fun o => sound (r', o)
    · have calls : i.calls = [] := by
        cases i with
        | value op => cases op <;> first | rfl | cases makes
        | label | const | effect => cases makes
      have frees : i.frees = [] := (Instr.plain_of_allocates? makes).1
      have other : i.allocates? ≠ some r' := fun makes' =>
        same (Option.some.inj (makes'.symm.trans makes))
      simpa [same] using h.keeps program hi adv calls mem other (by simp [frees])

theorem Bottom.free (h : Bottom p f made gone s.frame) (program : p.Frees f)
    (hi : s.frame.rest = i :: rest) (adv : s.Advances i t) {r : String} {o : Nat}
    (frees : i.frees = [r]) (held : s.frame.regs r = some (.pointer o 0)) :
    Bottom p f made (gone ++ [(r, o)]) t.frame where
  runs := h.runs.leads adv.leads adv.code
  stages r' mem := by
    have plain : i.calls = [] ∧ i.dest? = none ∧ i.allocates? = none := by
      cases i with
      | effect op => cases op <;> first | exact ⟨rfl, rfl, rfl⟩ | cases frees
      | label | const | value => cases frees
    by_cases same : r' = r
    · subst same
      obtain ⟨a, j, b, k, c, places, stage⟩ := h.stages r' mem
      have leads := adv.leads
      rw [hi] at stage leads
      rw [h.runs.2.1] at leads
      refine ⟨a, j, b, k, c, places, ?_⟩
      rw [adv.regs r' (by simp [plain.2.1])]
      simpa using stage.free places (frees ▸ List.mem_singleton_self r') leads held
    · simpa [same] using
        h.keeps program hi adv plain.1 mem (by simp [plain.2.2]) (by simpa [frees] using same)

/-- A call of the function at the bottom on an object that it is to free is one that hands it
back. -/
theorem Bottom.into (h : Bottom p f made gone s.frame) (program : p.Frees f)
    (hi : s.frame.rest = i :: rest) (passes : i.passes = true) {call : String × Nat}
    (calls : call ∈ i.calls) {callee : Function} (found : p.find? call.1 = some callee)
    {vs : List Value} (hvs : i.reads.mapM s.frame.get = .ok vs) :
    Tower p f made gone (.start callee vs) [(i.dest?, s.frame.goTo rest)] := by
  have name : callee.name = call.1 := by simpa using List.find?_some found
  have code := h.runs.mem hi
  have calm := program.calm f h.runs.1 i code call calls callee found
  have adv : s.Advances i ⟨s.heap, s.frame.goTo rest, s.callers⟩ := advances_goTo hi passes
  obtain ⟨notMakes, notFrees⟩ := Instr.plain_of_calls calls
  refine .above ⟨callee, .start (name ▸ found) vs, calm⟩ ⟨h.runs.leads adv.leads adv.code, ?_⟩ ?_
  · intro r mem
    obtain ⟨a, j, b, k, c, places, stage⟩ := h.stages r mem
    have leads := adv.leads
    rw [hi] at stage leads
    rw [h.runs.2.1] at leads
    exact ⟨a, j, b, k, c, places, stage.leads places program.distinct leads (by simp [notMakes])
      (by simp [notFrees])⟩
  · intro r hr mem
    rcases program.kept r mem i code hr with makes | ⟨ty, func, g, rfl, found', hands⟩
    · cases notMakes.symm.trans makes
    · cases List.mem_singleton.mp calls
      cases found.symm.trans found'
      obtain ⟨self, params, kept, returns⟩ := hands
      obtain ⟨v, rfl, hv⟩ := forall₂_singleton (mapM_eq_ok.mp hvs)
      refine ⟨v, Frame.get_eq_ok.mp hv, self, ?_, kept, returns⟩
      change ((callee.params.map (·.name)).zip [v]).lookup self = _
      simp [params]

end Towers

section Tidiness

structure Tidy (p : Program) (f : Function) (passed : List State) (s : State) : Prop where
  tower : Tower p f (madeIn passed) (freedIn passed) s.frame s.callers
  known : ∀ x ∈ madeIn passed, x.2 < s.heap.length
  apart : ((madeIn passed).map Prod.snd).Nodup
  sound : ∀ x ∈ freedIn passed, x.1 ∈ freed f.instrs ∧ x ∈ madeIn passed
  once : ((freedIn passed).map Prod.snd).Nodup
  there : ∀ x ∈ madeIn passed, x.1 ∈ freed f.instrs → x ∉ freedIn passed →
    s.heap.there[x.2]? = some true

variable {p : Program} {A : Arithmetic} {f : Function} {passed : List State} {s t : State}
  {i : Instr} {rest : List Instr} {r : String} {o : Nat}

theorem Tidy.start (program : p.Frees f) : Tidy p f [] (.start f) where
  tower := by
    refine .bottom ⟨⟨program.known, rfl, List.suffix_refl _⟩, fun r mem => ?_⟩
    obtain ⟨a, i, b, j, c, places⟩ := program.places r mem
    exact ⟨a, i, b, j, c, places, .before (List.suffix_refl a) places.split fun _ => nofun⟩
  known := nofun
  apart := List.nodup_nil
  sound := nofun
  once := List.nodup_nil
  there := nofun

/-- A step that neither makes nor frees anything that counts. -/
theorem Tidy.quiet (h : Tidy p f passed s) (makes : s.makes? = none) (frees : s.frees? = none)
    (later : s.heap.there <+: t.heap.there)
    (tower : Tower p f (madeIn passed) (freedIn passed) t.frame t.callers) :
    Tidy p f (passed ++ [s]) t := by
  have made : madeIn (passed ++ [s]) = madeIn passed := by simp [madeIn_concat, makes]
  have gone : freedIn (passed ++ [s]) = freedIn passed := by simp [freedIn_concat, frees]
  have longer := later.length_le
  rw [Heap.length_there, Heap.length_there] at longer
  constructor <;> simp only [made, gone]
  · exact tower
  · exact fun x hx => Nat.lt_of_lt_of_le (h.known x hx) longer
  · exact h.apart
  · exact h.sound
  · exact h.once
  · intro x hx mem left
    have there := h.there x hx mem left
    obtain ⟨inside, -⟩ := List.getElem?_eq_some_iff.mp there
    obtain ⟨more, hm⟩ := later
    rw [← hm, List.getElem?_append_left inside, there]

theorem Tidy.alloc (h : Tidy p f passed s) (program : p.Frees f) (bottom : s.callers = [])
    (hi : s.frame.rest = i :: rest) (adv : s.Advances i t) (makes : i.allocates? = some r)
    (there : t.heap.there = s.heap.there ++ [true])
    (held : t.frame.regs r = some (.pointer s.heap.length 0)) : Tidy p f (passed ++ [s]) t := by
  have made : madeIn (passed ++ [s]) = madeIn passed ++ [(r, s.heap.length)] := by
    simp [madeIn_concat, makes?_eq hi bottom, makes]
  have gone : freedIn (passed ++ [s]) = freedIn passed := by
    have nothing : s.frees? = none := frees?_eq_none fun k tail hk => by
      cases hi.symm.trans hk
      exact (Instr.plain_of_allocates? makes).1
    simp [freedIn_concat, nothing]
  have length : t.heap.length = s.heap.length + 1 := by
    rw [← Heap.length_there, there, List.length_append, Heap.length_there]
    rfl
  have tower := h.tower
  rw [bottom] at tower
  cases tower with | bottom old =>
  constructor <;> simp only [made, gone, List.forall_mem_append, List.forall_mem_singleton]
  · rw [adv.callers, bottom]
    exact .bottom (old.alloc program (fun x hx => (h.sound x hx).2) hi adv makes held)
  · exact ⟨fun x hx => by have := h.known x hx; omega, by omega⟩
  · rw [List.map_append, List.nodup_append]
    refine ⟨h.apart, by simp, fun o ho n hn => ?_⟩
    obtain ⟨x, hx, rfl⟩ := List.mem_map.mp ho
    rw [List.mem_singleton.mp hn]
    exact Nat.ne_of_lt (h.known x hx)
  · exact fun x hx => ⟨(h.sound x hx).1, List.mem_append_left _ (h.sound x hx).2⟩
  · exact h.once
  · rw [there]
    refine ⟨fun x hx mem left => ?_, fun _ _ => ?_⟩
    · rw [List.getElem?_append_left (by rw [Heap.length_there]; exact h.known x hx)]
      exact h.there x hx mem left
    · rw [← Heap.length_there]
      exact List.getElem?_concat_length

/-- What the function at the bottom frees is an object that it has made and not freed. -/
theorem Tidy.freeing (h : Tidy p f passed s) (bottom : s.callers = [])
    (hi : s.frame.rest = i :: rest) (hr : r ∈ i.frees) : ∃ o, i.frees = [r] ∧
      r ∈ freed f.instrs ∧ s.frame.regs r = some (.pointer o 0) ∧ (r, o) ∈ madeIn passed ∧
      (r, o) ∉ freedIn passed := by
  have tower := h.tower
  rw [bottom] at tower
  cases tower with | bottom old =>
  have mem : r ∈ freed f.instrs := List.mem_flatMap.mpr ⟨i, old.runs.mem hi, hr⟩
  obtain ⟨a, j, b, k, c, places, stage⟩ := old.stages r mem
  rw [hi] at stage
  obtain ⟨o, rfl, -, one, left, held⟩ := stage.freeing places hr
  exact ⟨o, places.frees, mem, held, (one o).mpr rfl, left⟩

theorem Tidy.free (h : Tidy p f passed s) (program : p.Frees f) (bottom : s.callers = [])
    (hi : s.frame.rest = i :: rest) (adv : s.Advances i t) (frees : i.frees = [r])
    (held : s.frame.regs r = some (.pointer o 0))
    (there : t.heap.there = s.heap.there.set o false) : Tidy p f (passed ++ [s]) t := by
  obtain ⟨o', -, mem, held', new, left⟩ :=
    h.freeing bottom hi (frees ▸ List.mem_singleton_self r)
  cases held.symm.trans held'
  have made : madeIn (passed ++ [s]) = madeIn passed := by
    have plain : i.allocates? = none := Instr.not_allocates_of_frees frees
    simp [madeIn_concat, makes?_eq hi bottom, plain]
  have gone : freedIn (passed ++ [s]) = freedIn passed ++ [(r, o)] := by
    simp [freedIn_concat, frees?_eq_some hi frees held]
  have length : t.heap.length = s.heap.length := by
    rw [← Heap.length_there, there, List.length_set, Heap.length_there]
  have tower := h.tower
  rw [bottom] at tower
  cases tower with | bottom old =>
  constructor <;> simp only [made, gone, List.forall_mem_append, List.forall_mem_singleton]
  · rw [adv.callers, bottom]
    exact .bottom (old.free program hi adv frees held)
  · exact fun x hx => length ▸ h.known x hx
  · exact h.apart
  · exact ⟨h.sound, mem, new⟩
  · rw [List.map_append, List.nodup_append]
    refine ⟨h.once, by simp, fun n hn o' ho => ?_⟩
    obtain ⟨x, hx, rfl⟩ := List.mem_map.mp hn
    rw [List.mem_singleton.mp ho]
    intro same
    -- Of the objects that have been made, no two are the same.
    have : x = (r, o) := List.inj_on_of_nodup_map h.apart (h.sound x hx).2 new same
    exact left (this ▸ hx)
  · intro x hx own notGone
    rw [List.mem_append, not_or, List.mem_singleton] at notGone
    have other : o ≠ x.2 := fun same =>
      notGone.2 (List.inj_on_of_nodup_map h.apart hx new same.symm)
    rw [there, List.getElem?_set_ne other]
    exact h.there x hx own notGone.1

theorem Tidy.step (h : Tidy p f passed s) (program : p.Frees f) (moves : Moves p s t) :
    Tidy p f (passed ++ [s]) t := by
  cases hc : s.callers with
  | cons caller callers =>
    have tower := hc ▸ h.tower
    have calm : s.frame.Calm p := by
      cases tower with
      | above calm | higher calm => exact calm
    refine h.quiet (makes?_of_callers (by simp [hc])) (frees?_eq_none fun i rest => calm.not_frees)
      ?_ (tower.step_above program hc moves)
    cases moves with
    | on _ _ _ _ _ there => exact there ▸ List.prefix_refl _
    | alloc _ _ _ there => exact there ▸ List.prefix_append _ _
    | free hi _ frees => cases (calm.not_frees hi).symm.trans frees
    | into | back | result => exact List.prefix_refl _
  | nil =>
    have tower := hc ▸ h.tower
    cases tower with | bottom old =>
    cases moves with
    | @on i rest _ hi adv calls makes frees there =>
      refine h.quiet (by simp [makes?_eq hi hc, makes]) (frees?_eq_none fun k tail hk => ?_)
        (there ▸ List.prefix_refl _) ?_
      · cases hi.symm.trans hk
        exact frees
      · rw [adv.callers, hc]
        exact .bottom (old.on program hi adv calls makes frees)
    | alloc hi adv makes there held => exact h.alloc program hc hi adv makes there held
    | free hi adv frees held _ there => exact h.free program hc hi adv frees held there
    | @into i rest call callee vs hi passes calls found hvs =>
      obtain ⟨makes, frees⟩ := Instr.plain_of_calls calls
      refine h.quiet (by simp [makes?_eq hi hc, makes]) (frees?_eq_none fun k tail hk => ?_)
        (List.prefix_refl _) ?_
      · cases hi.symm.trans hk
        exact frees
      · rw [hc]
        exact old.into program hi passes calls found hvs
    | back back => cases hc.symm.trans back
    | result _ _ _ _ back => cases hc.symm.trans back

theorem Tidy.run (program : p.Frees f) (run : Run p A (.start f) passed s) : Tidy p f passed s := by
  induction run with
  | here => exact .start program
  | step _ step ih => exact ih.step program (step_moves step)

/-- A program that may free what it makes does so once. -/
theorem Program.Frees.freesOnce (program : p.Frees f) : FreesOnce p f (· ∈ freed f.instrs) where
  once _ _ _ run := (Tidy.run program run).once
  only _ _ _ run := (Tidy.run program run).sound
  there A passed s run i rest hi frees := by
    have tidy := Tidy.run program run
    have bottom : s.callers = [] := by
      have tower := tidy.tower
      cases hc : s.callers with
      | nil => rfl
      | cons =>
        rw [hc] at tower
        cases tower with
        | above calm | higher calm => exact absurd (calm.not_frees hi) frees
    obtain ⟨r, hr⟩ := List.exists_mem_of_ne_nil _ frees
    obtain ⟨o, single, mem, held, made, left⟩ := tidy.freeing bottom hi hr
    obtain ⟨heap, free⟩ := Heap.free_eq_ok (tidy.there (r, o) made mem left)
    exact ⟨_, step_free hi single held free⟩
  all A passed s run done x hx mem := by
    have tidy := Tidy.run program run
    obtain ⟨bottom, returns⟩ := returns_of_step_eq_none done
    have tower := tidy.tower
    rw [bottom] at tower
    cases tower with | bottom old =>
    obtain ⟨a, i, b, j, c, places, stage⟩ := old.stages x.1 mem
    exact stage.ends places returns hx

end Tidiness

end Cool.Bril
