import Cool.Proofs.Lowering.Labels

/-!
The names that a function gives out. Temporaries, labels and the numbers behind local variables come
from one count, and only the registers of variables are remembered. Whatever is asked of the state
of a function, and in whatever order, no register is given out twice, and neither is a label.
-/
namespace Cool.FunctionState

inductive Request where
  | temp
  | labels (construct : String) (parts : List String)
  | bind (name : Bytes) (type : ClassName)
  | push
  | pop
  | enterBranch
  | leaveBranch
  | recordAlloc (reg : String)
  | takePending

def answer (s : FunctionState) : Request → List String × FunctionState
  | .temp => ([s.temp.1], s.temp.2)
  | .labels construct parts => s.labels construct parts
  | .bind name type => ([(s.bind name type).1], (s.bind name type).2)
  | .push => ([], s.push)
  | .pop => ([], s.pop)
  | .enterBranch => ([], s.enterBranch)
  | .leaveBranch => ([], s.leaveBranch)
  | .recordAlloc reg => ([], s.recordAlloc reg)
  | .takePending => ([], s.takePending.2)

def answers (s : FunctionState) : List Request → List (Request × List String)
  | [] => []
  | r :: rs => (r, (s.answer r).1) :: (s.answer r).2.answers rs

def registersOf : Request × List String → List String
  | (.temp, names) => names
  | (.bind _ _, names) => names
  | _ => []

/-- A label that is given out: by the request of which number, and for which part of which
construct. -/
@[ext]
structure GivenLabel where
  request : Nat
  construct : String
  part : String
  name : String

def labelsOf : (Request × List String) × Nat → List GivenLabel
  | ((.labels construct parts, names), request) =>
    List.zipWith (⟨request, construct, ·, ·⟩) parts names
  | _ => []

section Registers

structure GivesOut (s : FunctionState) (regs : List String) (t : FunctionState) : Prop where
  sound : t.Sound
  given : ∀ r, s.Given r → t.Given r
  fresh : ∀ r ∈ regs, ¬ s.Given r ∧ t.Given r
  nodup : regs.Nodup

variable {s t u : FunctionState}

theorem GivesOut.nothing (sound : t.Sound) (given : ∀ r, s.Given r → t.Given r) :
    s.GivesOut [] t :=
  ⟨sound, given, List.forall_mem_nil _, List.nodup_nil⟩

theorem GivesOut.one {reg : String} (sound : t.Sound) (given : ∀ r, s.Given r → t.Given r)
    (fresh : ¬ s.Given reg) (new : t.Given reg) : s.GivesOut [reg] t :=
  ⟨sound, given, List.forall_mem_singleton.mpr ⟨fresh, new⟩, List.nodup_singleton reg⟩

theorem GivesOut.append {regs more : List String} (h : s.GivesOut regs t)
    (h' : t.GivesOut more u) : s.GivesOut (regs ++ more) u where
  sound := h'.sound
  given r hr := h'.given r (h.given r hr)
  fresh r hr := by
    rcases List.mem_append.mp hr with now | later
    · exact ⟨(h.fresh r now).1, h'.given r (h.fresh r now).2⟩
    · exact ⟨fun before => (h'.fresh r later).1 (h.given r before), (h'.fresh r later).2⟩
  nodup := by
    refine List.nodup_append.mpr ⟨h.nodup, h'.nodup, ?_⟩
    rintro r now _ later rfl
    exact (h'.fresh r later).1 (h.fresh r now).2

theorem given_bind {name : Bytes} {type : ClassName} {reg : String} (h : s.Given reg) :
    (s.bind name type).2.Given reg := by
  obtain ⟨new, n, eq, -⟩ := s.bind_eq name type
  rw [eq]
  rcases h with used | ⟨m, before, same⟩
  · exact .inl (List.mem_cons_of_mem _ used)
  · exact .inr ⟨m, Nat.lt_of_lt_of_le before (Nat.le_add_right _ _), same⟩

theorem Sound.answer (hs : s.Sound) (r : Request)
    (dotless : ∀ name type, r = .bind name type → byte '.' ∉ name) :
    s.GivesOut (registersOf (r, (s.answer r).1)) (s.answer r).2 := by
  cases r with
  | temp =>
    refine .one (hs.skip 1) (fun r => (Keeps.skip s 1).given) (hs.temp_not_given (Nat.le_refl _)) ?_
    exact .inr ⟨s.next, Nat.lt_succ_self _, rfl⟩
  | bind name type =>
    have plain := dotFree_lossy (dotless name type rfl)
    exact .one (hs.bind plain type) (fun r => given_bind) (hs.bind_reg_not_given plain type)
      (Sound.bind_reg_given s name type)
  | labels construct parts => exact .nothing (hs.skip 1) fun r => (Keeps.skip s 1).given
  | push => exact .nothing hs.push fun r h => h
  | pop => exact .nothing hs.pop fun r h => h
  | enterBranch => exact .nothing (hs.branch _) fun r h => h
  | leaveBranch => exact .nothing (hs.branch _) fun r h => h
  | recordAlloc reg =>
    have keeps := Keeps.recordAlloc s reg
    exact .nothing (keeps.sound hs) fun r => keeps.given
  | takePending => exact .nothing ⟨hs.self, hs.fresh, hs.used, hs.distinct⟩ fun r h => h

theorem Sound.answers (hs : s.Sound) (rs : List Request)
    (dotless : ∀ name type, .bind name type ∈ rs → byte '.' ∉ name) :
    ∃ t, s.GivesOut ((s.answers rs).flatMap registersOf) t := by
  induction rs generalizing s with
  | nil => exact ⟨s, .nothing hs fun _ h => h⟩
  | cons r rs ih =>
    have now := hs.answer r fun name type h => dotless name type (h ▸ List.mem_cons_self)
    obtain ⟨t, later⟩ := ih now.sound fun name type h =>
      dotless name type (List.mem_cons_of_mem r h)
    exact ⟨t, now.append later⟩

end Registers

section Labels

variable {s : FunctionState} {request : Nat} {a b : GivenLabel}

/-- A label has its number behind its last dot, whatever dots stand before it. -/
theorem labelName_inj_number {construct construct' part part' : String} {m n : Nat}
    (h : labelName construct part m = labelName construct' part' n) :
    construct ++ "." ++ part = construct' ++ "." ++ part' ∧ m = n := by
  obtain ⟨front, number⟩ := (dotFree_toString m).append_inj_right (dotFree_toString n) h
  exact ⟨front, toString_inj number⟩

theorem labelName_inj_part {construct part part' : String} {n : Nat}
    (h : labelName construct part n = labelName construct part' n) : part = part' := by
  have front := (labelName_inj_number h).1
  exact String.append_right_inj _ |>.mp front

theorem next_le_answer (s : FunctionState) (r : Request) : s.next ≤ (s.answer r).2.next := by
  cases r with
  | temp | labels _ _ => exact Nat.le_succ _
  | bind name type =>
    obtain ⟨reg, n, eq, -⟩ := s.bind_eq name type
    change s.next ≤ (s.bind name type).2.next
    rw [eq]
    exact Nat.le_add_right _ _
  | push | pop | enterBranch | leaveBranch | takePending => exact Nat.le_refl _
  | recordAlloc reg => exact (Keeps.recordAlloc s reg).next

theorem of_mem_labelsOf {r : Request} (h : a ∈ labelsOf ((r, (s.answer r).1), request)) :
    ∃ parts, r = .labels a.construct parts ∧ a.request = request ∧
      a.name = labelName a.construct a.part s.next ∧ (s.answer r).2.next = s.next + 1 := by
  cases r with
  | labels construct parts =>
    have h : a ∈ List.zipWith (GivenLabel.mk request construct) parts
        (parts.map (labelName construct · s.next)) := h
    rw [List.zipWith_map_right, List.zipWith_self, List.mem_map] at h
    obtain ⟨part, -, rfl⟩ := h
    exact ⟨parts, rfl, rfl, rfl, rfl⟩
  | temp | bind | push | pop | enterBranch | leaveBranch | recordAlloc | takePending => cases h

theorem of_mem_labels {rs : List Request}
    (h : a ∈ ((s.answers rs).zipIdx request).flatMap labelsOf) :
    ∃ n ≥ s.next, a.name = labelName a.construct a.part n := by
  induction rs generalizing s request with
  | nil => cases h
  | cons r rs ih =>
    rw [answers, List.zipIdx_cons, List.flatMap_cons, List.mem_append] at h
    rcases h with now | later
    · obtain ⟨_, _, _, name, _⟩ := of_mem_labelsOf now
      exact ⟨s.next, Nat.le_refl _, name⟩
    · obtain ⟨n, behind, name⟩ := ih later
      exact ⟨n, Nat.le_trans (s.next_le_answer r) behind, name⟩

theorem name_ne_later {r : Request} {rs : List Request} {later : Nat}
    (ha : a ∈ labelsOf ((r, (s.answer r).1), request))
    (hb : b ∈ (((s.answer r).2.answers rs).zipIdx later).flatMap labelsOf) : a.name ≠ b.name := by
  intro same
  obtain ⟨_, _, _, name, next⟩ := of_mem_labelsOf ha
  obtain ⟨n, behind, name'⟩ := of_mem_labels hb
  have number := (labelName_inj_number (name.symm.trans (same.trans name'))).2
  omega

/-- A label tells by which request it was given out, and for which part of which construct. -/
theorem labels_inj {rs : List Request}
    (ha : a ∈ ((s.answers rs).zipIdx request).flatMap labelsOf)
    (hb : b ∈ ((s.answers rs).zipIdx request).flatMap labelsOf) (same : a.name = b.name) :
    a = b := by
  induction rs generalizing s request with
  | nil => cases ha
  | cons r rs ih =>
    rw [answers, List.zipIdx_cons, List.flatMap_cons, List.mem_append] at ha hb
    -- Labels of one request differ in their parts, those of different requests in their numbers.
    rcases ha with ha | ha <;> rcases hb with hb | hb
    · obtain ⟨parts, made, number, name, -⟩ := of_mem_labelsOf ha
      obtain ⟨parts', made', number', name', -⟩ := of_mem_labelsOf hb
      obtain ⟨construct, -⟩ := Request.labels.inj (made.symm.trans made')
      rw [name, name', construct] at same
      have part := labelName_inj_part same
      refine GivenLabel.ext (number.trans number'.symm) construct part ?_
      rw [name, name', construct, part]
    · exact absurd same (name_ne_later ha hb)
    · exact absurd same.symm (name_ne_later hb ha)
    · exact ih ha hb

end Labels

/-- Whatever is asked of the state of a new function, and in whatever order: its registers are
different from each other and from the object at hand, and its labels are different unless they are
given out at once for parts of one name. Variables must be called without a dot, constructs and
their parts need not. -/
theorem names_fresh (requests : List Request)
    (dotless : ∀ name type, .bind name type ∈ requests → byte '.' ∉ name) :
    let given := initial.answers requests
    let registers := given.flatMap registersOf
    let labels := given.zipIdx.flatMap labelsOf
    registers.Nodup ∧ selfReg ∉ registers ∧ ∀ a ∈ labels, ∀ b ∈ labels, a.name = b.name → a = b := by
  obtain ⟨t, registers⟩ := initial_sound.answers requests dotless
  refine ⟨registers.nodup, fun own => ?_, fun a ha b hb => labels_inj ha hb⟩
  exact (registers.fresh selfReg own).1 (.inl initial_sound.self)

/-- Variables that are called like the registers of temporaries begin and like the object at hand,
in a scope and behind it. -/
theorem names_fresh_of_t_and_self :
    let requests : List Request := [.bind (ascii "t") .int, .temp, .push, .bind (ascii "self") .int,
      .labels "if" ["then", "else"], .bind (ascii "t") .int, .pop, .bind (ascii "t") .int, .temp]
    let given := initial.answers requests
    let registers := given.flatMap registersOf
    let labels := given.zipIdx.flatMap labelsOf
    registers = ["t", "t.0", "self.1", "t.3", "t.4", "t.5"] ∧
      labels.map (·.name) = ["if.then.2", "if.else.2"] ∧ registers.Nodup ∧ selfReg ∉ registers ∧
      ∀ a ∈ labels, ∀ b ∈ labels, a.name = b.name → a = b := by
  refine ⟨by decide +kernel, by decide +kernel, names_fresh _ fun name type h => ?_⟩
  have dotless : ∀ text ∈ [ascii "t", ascii "self"], byte '.' ∉ text := by decide
  refine dotless name ?_
  simp only [List.mem_cons, Request.bind.injEq, reduceCtorEq, false_or, List.not_mem_nil,
    or_false] at h ⊢
  rcases h with ⟨rfl, -⟩ | ⟨rfl, -⟩ | ⟨rfl, -⟩ | ⟨rfl, -⟩ <;> simp

end Cool.FunctionState
