import Cool.Proofs.Bril.Passage
import Cool.Proofs.Bril.RegisterTypes
import Cool.Proofs.Outcome

/-!
Setting up an object. The functions that do it alone know the object: neither the memory nor any
other function holds a pointer to it, until all slots of some set have been stored to. So a slot of
the set is loaded from only by these functions, and they store to it before.
-/
namespace Cool.Bril

open Relation (ReflTransGen)

variable {o : Nat} {p : Program} {A : Arithmetic} {s t : State}

section Avoiding

def Value.Avoids (o : Nat) : Value → Prop
  | .literal _ => True
  | .pointer object _ => object ≠ o

structure Heap.Avoids (o : Nat) (heap : Heap) : Prop where
  known : o < heap.length
  slots : ∀ slots, some slots ∈ heap → ∀ v, some v ∈ slots → v.Avoids o

def Frame.Avoids (o : Nat) (f : Frame) : Prop := ∀ reg v, f.regs reg = some v → v.Avoids o

variable {heap heap' : Heap} {f : Frame} {v w address : Value} {vs : List Value} {op : ValueOp}

theorem Value.Avoids.shift (h : v.Avoids o) (hw : v.shift w = .ok address) : address.Avoids o := by
  unfold Value.shift at hw
  split at hw <;> cases hw
  exact h

theorem ValueOp.applyTo_avoids (h : ∀ v ∈ vs, v.Avoids o) (hv : op.applyTo A vs = some v) :
    v.Avoids o := by
  unfold ValueOp.applyTo at hv
  split at hv
  · cases hv
    simpa using h
  · cases hv
    trivial
  · simp only [Option.bind_eq_bind, Option.bind_eq_some_iff, Option.map_eq_some_iff] at hv
    obtain ⟨_, _, _, _, rfl⟩ := hv
    trivial

theorem Heap.locate_eq_ok {object i : Nat} {slots : Slots}
    (h : heap.locate address = .ok (object, i, slots)) :
    address = .pointer object i ∧ heap[object]? = some (some slots) := by
  unfold Heap.locate at h
  split at h
  · split at h
    · split at h <;> cases h
      exact ⟨rfl, ‹_›⟩
    · cases h
  · cases h

namespace Heap.Avoids

theorem load (h : heap.Avoids o) (hv : heap.load address = .ok v) : v.Avoids o := by
  obtain ⟨⟨object, i, slots⟩, found, hv⟩ := bind_eq_ok.mp hv
  have there := (Heap.locate_eq_ok found).2
  dsimp only at hv
  split at hv <;> cases hv
  exact h.slots slots (List.mem_of_getElem? there) _ (List.mem_of_getElem? ‹_›)

theorem set (h : heap.Avoids o) {object : Nat} {slots : Slots}
    (hs : ∀ v, some v ∈ slots → v.Avoids o) : Heap.Avoids o (heap.set object (some slots)) where
  known := by rw [List.length_set]; exact h.known
  slots others mem := by
    rcases List.mem_or_eq_of_mem_set mem with mem | same
    · exact h.slots others mem
    · exact Option.some.inj same ▸ hs

theorem store (h : heap.Avoids o) (hv : v.Avoids o) (stored : heap.store address v = .ok heap') :
    heap'.Avoids o := by
  obtain ⟨⟨object, i, slots⟩, found, stored⟩ := bind_eq_ok.mp stored
  cases stored
  refine h.set fun w mem => ?_
  rcases List.mem_or_eq_of_mem_set mem with mem | same
  · exact h.slots slots (List.mem_of_getElem? (Heap.locate_eq_ok found).2) w mem
  · exact Option.some.inj same ▸ hv

theorem alloc (h : heap.Avoids o) {size : Value} (made : heap.alloc size = .ok (heap', v)) :
    heap'.Avoids o ∧ v.Avoids o := by
  unfold Heap.alloc at made
  split at made
  · split at made <;> cases made
    refine ⟨⟨by rw [List.length_append]; exact Nat.lt_add_right _ h.known, fun slots mem => ?_⟩,
      Nat.ne_of_gt h.known⟩
    rcases List.mem_append.mp mem with mem | mem
    · exact h.slots slots mem
    · intro w hw
      rw [Option.some.inj (List.mem_singleton.mp mem)] at hw
      cases (List.mem_replicate.mp hw).2
  · cases made

theorem free (h : heap.Avoids o) (freed : heap.free v = .ok heap') : heap'.Avoids o := by
  unfold Heap.free at freed
  split at freed
  · split at freed <;> cases freed
    refine ⟨by rw [List.length_set]; exact h.known, fun slots mem => ?_⟩
    exact h.slots slots ((List.mem_or_eq_of_mem_set mem).resolve_right nofun)
  · cases freed

end Heap.Avoids

namespace Frame.Avoids

theorem get (h : f.Avoids o) {reg : String} (hv : f.get reg = .ok v) : v.Avoids o := by
  unfold Frame.get at hv
  split at hv <;> cases hv
  exact h reg _ ‹_›

theorem set (h : f.Avoids o) (hv : v.Avoids o) (dest : String) : (f.set dest v).Avoids o := by
  intro reg w hw
  simp only [Frame.set, Function.update_apply] at hw
  split at hw
  · exact Option.some.inj hw ▸ hv
  · exact h reg w hw

theorem operands (h : f.Avoids o) {args : List String} (hvs : args.mapM f.get = .ok vs) :
    ∀ v ∈ vs, v.Avoids o := by
  intro v hv
  obtain ⟨_, _, found⟩ := mem_of_mapM_ok hvs hv
  exact h.get found

theorem start {g : Function} (h : ∀ v ∈ vs, v.Avoids o) : (Frame.start g vs).Avoids o := by
  intro reg v hv
  obtain ⟨before, after, split, -⟩ := List.lookup_eq_some_iff.mp hv
  have mem : (reg, v) ∈ (g.params.map (·.name)).zip vs := split ▸ by simp
  exact h v (List.of_mem_zip mem).2

end Frame.Avoids

end Avoiding

section Steps

variable {rest : List Instr} {vs : List Value}

inductive Goes (o : Nat) (callers : List (Option String × Frame)) : State → Prop where
  | on {t : State} : t.heap.Avoids o → t.frame.Avoids o → t.callers = callers → Goes o callers t
  | into {t : State} {dest : Option String} {f : Frame} : t.heap.Avoids o → t.frame.Avoids o →
      f.Avoids o → t.callers = (dest, f) :: callers → Goes o callers t
  | back {t : State} {f : Frame} : t.heap.Avoids o → callers = (none, f) :: t.callers →
      t.frame = f → Goes o callers t
  | result {t : State} {dest : String} {f : Frame} {v : Value} : t.heap.Avoids o →
      callers = (some dest, f) :: t.callers → v.Avoids o → t.frame = f.set dest v →
      Goes o callers t

theorem leave_goes (heap : s.heap.Avoids o) {v : Option Value} (hv : ∀ w ∈ v, w.Avoids o)
    (h : s.leave v = .ok (some t)) : Goes o s.callers t := by
  unfold State.leave at h
  split at h <;> cases h
  · exact .back heap ‹_› rfl
  · exact .result heap ‹_› (hv _ rfl) rfl

theorem enter_goes (heap : s.heap.Avoids o) (frame : s.frame.Avoids o)
    (hvs : ∀ v ∈ vs, v.Avoids o) {dest : Option String} {func : String}
    (h : s.enter p dest func vs rest = .ok (some t)) : Goes o s.callers t := by
  unfold State.enter at h
  split at h
  · split at h <;> cases h
    exact .into (f := s.frame.goTo rest) heap (.start hvs) frame rfl
  · cases h

theorem jump_goes (heap : s.heap.Avoids o) (frame : s.frame.Avoids o) {label : String}
    (h : s.jump label = .ok (some t)) : Goes o s.callers t := by
  unfold State.jump at h
  split at h <;> cases h
  exact .on heap frame rfl

theorem compute_goes (heap : s.heap.Avoids o) (frame : s.frame.Avoids o)
    (hvs : ∀ v ∈ vs, v.Avoids o) {op : ValueOp} {dest : String} {funcs : List String}
    (h : s.compute p A op dest vs funcs rest = .ok (some t)) : Goes o s.callers t := by
  unfold State.compute at h
  split at h
  · exact enter_goes heap frame hvs h
  · obtain ⟨⟨heap', v⟩, made, h⟩ := bind_eq_ok.mp h
    cases h
    obtain ⟨heap, hv⟩ := heap.alloc made
    exact .on heap (frame.set hv dest) rfl
  · obtain ⟨v, shifted, h⟩ := bind_eq_ok.mp h
    cases h
    exact .on heap (frame.set (.shift (hvs _ List.mem_cons_self) shifted) dest) rfl
  · obtain ⟨v, loaded, h⟩ := bind_eq_ok.mp h
    cases h
    exact .on heap (frame.set (heap.load loaded) dest) rfl
  · split at h <;> cases h
    exact .on heap (frame.set (ValueOp.applyTo_avoids hvs ‹_›) dest) rfl

theorem perform_goes (heap : s.heap.Avoids o) (frame : s.frame.Avoids o)
    (hvs : ∀ v ∈ vs, v.Avoids o) {op : EffectOp} {funcs labels : List String}
    (h : s.perform p op vs funcs labels rest = .ok (some t)) : Goes o s.callers t := by
  unfold State.perform at h
  split at h
  · exact jump_goes heap frame h
  · exact jump_goes heap frame h
  · exact enter_goes heap frame hvs h
  · exact leave_goes heap (by simp) h
  · exact leave_goes heap (by simpa using hvs) h
  · cases h
    exact .on heap frame rfl
  · obtain ⟨heap', freed, h⟩ := bind_eq_ok.mp h
    cases h
    exact .on (heap.free freed) frame rfl
  · obtain ⟨heap', stored, h⟩ := bind_eq_ok.mp h
    cases h
    exact .on (heap.store (hvs _ (by simp)) stored) frame rfl
  · cases h

theorem step_goes (heap : s.heap.Avoids o) (frame : s.frame.Avoids o)
    (h : s.step p A = .ok (some t)) : Goes o s.callers t := by
  unfold State.step at h
  split at h
  · exact leave_goes heap (by simp) h
  · cases h
    exact .on heap frame rfl
  · cases h
    exact .on heap (frame.set (v := .literal _) trivial _) rfl
  · obtain ⟨vs, hvs, h⟩ := bind_eq_ok.mp h
    exact compute_goes heap frame (frame.operands hvs) h
  · obtain ⟨vs, hvs, h⟩ := bind_eq_ok.mp h
    exact perform_goes heap frame (frame.operands hvs) h

end Steps

section Shares

/-- What a register of a function that sets up an object may hold of it: nothing, the object, the
number of a slot, a pointer to a slot, or anything, if it is never read. -/
inductive Share where
  | nothing
  | object
  | offset (slot : Nat)
  | address (slot : Nat)
  | anything

def Share.Holds (o : Nat) : Share → Value → Prop
  | .nothing, v => v.Avoids o
  | .object, v => v = .pointer o 0
  | .offset i, v => v = .literal (.int i)
  | .address i, v => v = .pointer o i
  | .anything, _ => True

abbrev Shares := String → Share

def Frame.Holds (o : Nat) (k : Shares) (f : Frame) : Prop :=
  ∀ reg v, f.regs reg = some v → (k reg).Holds o v

/-- Whether an instruction keeps the object where it is, and loads only from slots it may load
from. -/
inductive Instr.Discreet (may : Nat → Prop) (k : Shares) : Instr → Prop where
  | label {name} : Discreet may k (.label name)
  | literal {dest v} : k dest = .nothing → Discreet may k (.literal dest v)
  | offset {dest} {i : Nat} : k dest = .offset i → Discreet may k (.literal dest (.int i))
  | operation {op dest ty args} : op ≠ .ptradd → op ≠ .load → (∀ r ∈ args, k r = .nothing) →
      k dest = .nothing → Discreet may k (.compute op dest ty args)
  | address {dest ty base offset i} : k base = .object → k offset = .offset i →
      k dest = .address i → Discreet may k (.compute .ptradd dest ty [base, offset])
  | load {dest ty address i} : k address = .address i → may i → k dest = .nothing →
      Discreet may k (.compute .load dest ty [address])
  | store {address reg i} : k address = .address i → k reg = .nothing →
      Discreet may k (.perform .store [address, reg])
  | call {dest ty func args} : (∀ r ∈ args, k r = .nothing) → k dest = .nothing →
      Discreet may k (.call dest ty func args)
  | jmp {label} : Discreet may k (.jmp label)
  | br {cond yes no} : Discreet may k (.br cond yes no)

def Discreet (may : Nat → Prop) (k : Shares) (code : List Instr) : Prop :=
  ∀ i ∈ code, i.Discreet may k

section

variable {may might : Nat → Prop} {k : Shares} {code : List Instr} {i : Instr}

@[simp] theorem discreet_nil : Discreet may k [] := List.forall_mem_nil _

@[simp] theorem discreet_cons :
    Discreet may k (i :: code) ↔ i.Discreet may k ∧ Discreet may k code := List.forall_mem_cons

@[simp] theorem discreet_append {more : List Instr} :
    Discreet may k (code ++ more) ↔ Discreet may k code ∧ Discreet may k more :=
  List.forall_mem_append

theorem Instr.Discreet.mono (h : i.Discreet may k) (hm : ∀ n, may n → might n) :
    i.Discreet might k := by
  cases h with
  | label => exact .label
  | literal dest => exact .literal dest
  | offset dest => exact .offset dest
  | operation notAddress notLoad args dest => exact .operation notAddress notLoad args dest
  | address base offset dest => exact .address base offset dest
  | load address may dest => exact .load address (hm _ may) dest
  | store address reg => exact .store address reg
  | call args dest => exact .call args dest
  | jmp => exact .jmp
  | br => exact .br

theorem Discreet.mono (h : Discreet may k code) (hm : ∀ n, may n → might n) :
    Discreet might k code := fun i hi => (h i hi).mono hm

end

/-- Whether code, run when the slots `done` have been stored to, stores to more of them, row by row,
until it returns, with `last` stored to by then. A row loads only from slots that have
been stored to, but for those that are not watched. When all that are watched have been, the code
may be any. -/
inductive Fills (watched : Nat → Prop) (k : Shares) : List Nat → List Instr → List Nat → Prop where
  | all {done last code} : (∀ i, watched i → i ∈ done) → Fills watched k done code last
  | row {done last row address value i more} : Contained row →
      Discreet (fun n => watched n → n ∈ done) k row → k address = .address i →
      k value = .nothing → Fills watched k (i :: done) more last →
      Fills watched k done (row ++ .perform .store [address, value] :: more) last
  | ret {done reg} : Fills watched k done [.ret (some reg)] done

inductive SetsUp (p : Program) (watched : Nat → Prop) : Function → List Nat → Prop where
  | alone {f : Function} {reg : String} {k : Shares} {last : List Nat} :
      f.params.map (·.name) = [reg] → (labels f.instrs).Nodup → k reg = .object →
      Fills watched k [] f.instrs last → SetsUp p watched f last
  | behind {f g : Function} {reg dest func : String} {ty : Ty} {code : List Instr} {k : Shares}
      {done last : List Nat} : f.params.map (·.name) = [reg] → (labels f.instrs).Nodup →
      k reg = .object → k dest = .anything → f.instrs = .call dest ty func [reg] :: code →
      p.find? func = some g → SetsUp p watched g done → Fills watched k done code last →
      SetsUp p watched f last

end Shares

section Setup

variable (p o) (watched : Nat → Prop)

inductive Resumes : List Nat → List (Option String × Frame) → Prop where
  | top {done} : Resumes done []
  | child {done last dest f callers k} : f.Holds o k → k dest = .anything →
      (labels f.code).Nodup → f.rest <:+ f.code → Fills watched k done f.rest last →
      Resumes last callers → Resumes done ((some dest, f) :: callers)

structure RowOf (k : Shares) (done last : List Nat) (code row tail : List Instr) : Prop where
  distinct : (labels code).Nodup
  place : row ++ tail <:+ code
  own : Contained row
  discreet : Discreet (fun n => watched n → n ∈ done) k row
  ends : ∃ address value i more, tail = .perform .store [address, value] :: more ∧
    k address = .address i ∧ k value = .nothing ∧ Fills watched k (i :: done) more last

structure Frame.Busy (k : Shares) (done last : List Nat) (f : Frame) : Prop where
  holds : f.Holds o k
  place : ∃ row tail rest, RowOf watched k done last f.code row tail ∧ f.rest = rest ++ tail ∧
    rest <:+ row

inductive Waits (done : List Nat) : List (Option String × Frame) → Prop where
  | row {dest f callers k last} : f.Busy o watched k done last → k dest = .nothing →
      Resumes o watched last callers → Waits done ((some dest, f) :: callers)
  | other {dest f callers} : f.Avoids o → Waits done callers → Waits done ((dest, f) :: callers)

/-- Whether the running program is setting up an object of which the slots `done` have been stored
to. -/
inductive SettingUp : List Nat → State → Prop where
  | calls {s : State} {k : Shares} {dest func reg : String} {ty : Ty} {code : List Instr}
      {g : Function} {done last : List Nat} : s.heap.Avoids o → s.frame.Holds o k →
      (labels s.frame.code).Nodup → k reg = .object → k dest = .anything →
      s.frame.rest = .call dest ty func [reg] :: code → s.frame.rest <:+ s.frame.code →
      p.find? func = some g → SetsUp p watched g done → Fills watched k done code last →
      Resumes o watched last s.callers → SettingUp [] s
  | row {s : State} {k : Shares} {done last : List Nat} : s.heap.Avoids o →
      s.frame.Busy o watched k done last → Resumes o watched last s.callers → SettingUp done s
  | returns {s : State} {reg : String} {done : List Nat} : s.heap.Avoids o →
      s.frame.rest = [.ret (some reg)] → Resumes o watched done s.callers → SettingUp done s
  | away {s : State} {done : List Nat} : s.heap.Avoids o → s.frame.Avoids o →
      Waits o watched done s.callers → SettingUp done s

end Setup

section Steps

variable {watched may : Nat → Prop} {k : Shares} {done last : List Nat} {f : Frame} {v : Value}
  {rest : List Instr} {i : Instr}

def State.Loads (s : State) (o i : Nat) : Prop :=
  ∃ dest ty address funcs rest, s.frame.rest = .value .load dest ty [address] funcs :: rest ∧
    s.frame.regs address = some (.pointer o i)

def State.Stores (s : State) (o i : Nat) : Prop :=
  ∃ address value funcs labels rest,
    s.frame.rest = .effect .store [address, value] funcs labels :: rest ∧
    s.frame.regs address = some (.pointer o i)

namespace Frame.Holds

theorem get (h : f.Holds o k) {reg : String} (hv : f.get reg = .ok v) :
    f.regs reg = some v ∧ (k reg).Holds o v := by
  unfold Frame.get at hv
  split at hv <;> cases hv
  exact ⟨‹_›, h reg _ ‹_›⟩

theorem set (h : f.Holds o k) {dest : String} {share : Share} (hk : k dest = share)
    (hv : share.Holds o v) : (f.set dest v).Holds o k := by
  intro reg w hw
  simp only [Frame.set, Function.update_apply] at hw
  split at hw
  · subst reg
    rw [hk]
    exact Option.some.inj hw ▸ hv
  · exact h reg w hw

theorem nothing (h : f.Holds o k) {args : List String} {vs : List Value}
    (hk : ∀ r ∈ args, k r = .nothing) (hvs : args.mapM f.get = .ok vs) : ∀ v ∈ vs, v.Avoids o := by
  intro v hv
  obtain ⟨reg, mem, found⟩ := mem_of_mapM_ok hvs hv
  have := (h.get found).2
  rwa [hk reg mem] at this

theorem start {g : Function} {reg : String} (hg : g.params.map (·.name) = [reg])
    (hk : k reg = .object) : (Frame.start g [.pointer o 0]).Holds o k := by
  intro r v hv
  change ((g.params.map (·.name)).zip [Value.pointer o 0]).lookup r = some v at hv
  rw [hg, List.zip_cons_cons, List.lookup_cons] at hv
  split at hv
  · rename_i same
    rw [eq_of_beq same, hk]
    exact (Option.some.inj hv).symm
  · cases hv

end Frame.Holds

/-- Code that fills an object is in a row or at its end, unless all that is watched is filled. -/
theorem Fills.enter (fills : Fills watched k done s.frame.rest last) (heap : s.heap.Avoids o)
    (holds : s.frame.Holds o k) (distinct : (labels s.frame.code).Nodup)
    (place : s.frame.rest <:+ s.frame.code) (resumes : Resumes o watched last s.callers) :
    (∀ i, watched i → i ∈ done) ∨ SettingUp o p watched done s := by
  generalize hr : s.frame.rest = code at fills place
  cases fills with
  | all filled => exact .inl filled
  | row own discreet address value more =>
    have isRow : RowOf watched k done last s.frame.code _ _ :=
      ⟨distinct, place, own, discreet, _, _, _, _, rfl, address, value, more⟩
    exact .inr (.row heap ⟨holds, _, _, _, isRow, hr, List.suffix_refl _⟩ resumes)
  | ret => exact .inr (.returns heap hr resumes)

theorem SetsUp.enter {g : Function} {heap : Heap} {callers : List (Option String × Frame)}
    (setsUp : SetsUp p watched g done) (avoids : heap.Avoids o)
    (resumes : Resumes o watched done callers) :
    (∀ i, ¬ watched i) ∨
      SettingUp o p watched [] ⟨heap, .start g [.pointer o 0], callers⟩ := by
  cases setsUp with
  | alone params distinct object fills =>
    have enters := Fills.enter (s := ⟨heap, .start g [.pointer o 0], callers⟩) (p := p) fills
      avoids (.start params object) distinct (List.suffix_refl _) resumes
    exact enters.imp_left fun none i hi => List.not_mem_nil (none i hi)
  | behind params distinct object anything instrs found before fills =>
    exact .inr (.calls avoids (.start params object) distinct object anything instrs
      (List.suffix_refl _) found before fills resumes)

/-- How setting up an object proceeds: slots that are stored to now count, and when all that are
watched do, nothing else is claimed. -/
def Proceeds (o : Nat) (p : Program) (watched : Nat → Prop) (done : List Nat) (s t : State) :
    Prop :=
  ∃ more, (∀ i ∈ more, i ∈ done ∨ s.Stores o i) ∧
    ((∀ i, watched i → i ∈ more) ∨ SettingUp o p watched more t)

theorem Proceeds.same (h : (∀ i, watched i → i ∈ done) ∨ SettingUp o p watched done t) :
    Proceeds o p watched done s t :=
  ⟨done, fun _ => .inl, h⟩

namespace RowOf

variable {row tail : List Instr} (h : RowOf watched k done last s.frame.code row tail)
  (heap : s.heap.Avoids o) (holds : s.frame.Holds o k) (resumes : Resumes o watched last s.callers)
include h

theorem busy (code : f.code = s.frame.code) (holds : f.Holds o k) (hr : rest <:+ row) :
    (f.goTo (rest ++ tail)).Busy o watched k done last :=
  ⟨holds, row, tail, rest, code ▸ h, rfl, hr⟩

include resumes in
theorem stays {m : Heap} (heap : m.Avoids o) (holds : f.Holds o k) (code : f.code = s.frame.code)
    (hr : rest <:+ row) : Proceeds o p watched done s ⟨m, f.goTo (rest ++ tail), s.callers⟩ :=
  .same (.inr (.row heap (h.busy code holds hr) resumes))

include heap holds resumes

theorem jump {label : String} (mem : i ∈ row) (named : label ∈ i.targets)
    (jump : s.jump label = .ok (some t)) : Proceeds o p watched done s t := by
  unfold State.jump at jump
  split at jump <;> cases jump
  obtain ⟨rest, hr, rfl⟩ := exists_behind h.distinct h.place (h.own i mem label named) ‹_›
  exact h.stays resumes heap holds rfl hr

theorem step_end (hrest : s.frame.rest = tail) (step : s.step p A = .ok (some t)) :
    Proceeds o p watched done s t := by
  obtain ⟨address, value, j, more, rfl, haddress, hvalue, fills⟩ := h.ends
  rw [step_perform hrest] at step
  obtain ⟨vs, hvs, step⟩ := bind_eq_ok.mp step
  obtain ⟨a, v, rfl, ha, hv⟩ := forall₂_pair (mapM_eq_ok.mp hvs)
  obtain ⟨heap', stored, step⟩ := bind_eq_ok.mp step
  cases step
  obtain ⟨there, points⟩ := holds.get ha
  have avoids := (holds.get hv).2
  rw [haddress] at points
  rw [hvalue] at avoids
  have stores : s.Stores o j := ⟨address, value, [], [], more, hrest, points ▸ there⟩
  refine ⟨j :: done, List.forall_mem_cons.mpr ⟨.inr stores, fun _ => .inl⟩, ?_⟩
  refine Fills.enter (s := ({ s with heap := heap' } : State).goTo more) fills
    (heap.store avoids stored) holds h.distinct ?_ resumes
  exact (List.suffix_cons _ _).trans ((List.suffix_append _ _).trans h.place)

/-- A discreet instruction keeps the object where it is. -/
theorem step_row (hrest : s.frame.rest = i :: rest ++ tail) (hr : i :: rest <:+ row)
    (step : s.step p A = .ok (some t)) : Proceeds o p watched done s t := by
  have mem : i ∈ row := hr.subset List.mem_cons_self
  have later : rest <:+ row := (List.suffix_cons i rest).trans hr
  rw [List.cons_append] at hrest
  cases h.discreet i mem with
  | label =>
    rw [step_label hrest] at step
    cases step
    exact h.stays resumes heap holds rfl later
  | literal nothing =>
    rw [step_literal hrest] at step
    cases step
    exact h.stays resumes heap (holds.set nothing trivial) rfl later
  | offset offset =>
    rw [step_literal hrest] at step
    cases step
    exact h.stays resumes heap (holds.set offset rfl) rfl later
  | @operation op _ _ _ notAddress notLoad operands dest =>
    rw [step_compute hrest] at step
    obtain ⟨vs, hvs, step⟩ := bind_eq_ok.mp step
    have avoids := holds.nothing operands hvs
    unfold State.compute at step
    split at step
    · contradiction
    · obtain ⟨⟨heap', v⟩, made, step⟩ := bind_eq_ok.mp step
      cases step
      obtain ⟨heap, hv⟩ := heap.alloc made
      exact h.stays resumes heap (holds.set dest hv) rfl later
    · exact absurd rfl notAddress
    · exact absurd rfl notLoad
    · split at step <;> cases step
      exact h.stays resumes heap (holds.set dest (ValueOp.applyTo_avoids avoids ‹_›)) rfl later
  | address base offset dest =>
    rw [step_compute hrest] at step
    obtain ⟨vs, hvs, step⟩ := bind_eq_ok.mp step
    obtain ⟨v, w, rfl, hv, hw⟩ := forall₂_pair (mapM_eq_ok.mp hvs)
    have object := (holds.get hv).2
    have number := (holds.get hw).2
    rw [base] at object
    rw [offset] at number
    cases object
    cases number
    cases step
    exact h.stays resumes heap (holds.set dest (by simp [Share.Holds])) rfl later
  | load address may dest =>
    rw [step_compute hrest] at step
    obtain ⟨vs, hvs, step⟩ := bind_eq_ok.mp step
    obtain ⟨v, rfl, hv⟩ := forall₂_singleton (mapM_eq_ok.mp hvs)
    obtain ⟨w, loaded, step⟩ := bind_eq_ok.mp step
    cases step
    exact h.stays resumes heap (holds.set dest (heap.load loaded)) rfl later
  | store address reg =>
    rw [step_perform hrest] at step
    obtain ⟨vs, hvs, step⟩ := bind_eq_ok.mp step
    obtain ⟨v, w, rfl, hv, hw⟩ := forall₂_pair (mapM_eq_ok.mp hvs)
    obtain ⟨heap', stored, step⟩ := bind_eq_ok.mp step
    cases step
    have avoids := (holds.get hw).2
    rw [reg] at avoids
    exact h.stays resumes (heap.store avoids stored) holds rfl later
  | call args dest =>
    rw [step_call hrest] at step
    obtain ⟨vs, hvs, step⟩ := bind_eq_ok.mp step
    have avoids := holds.nothing args hvs
    unfold State.enter at step
    split at step
    · split at step <;> cases step
      exact .same (.inr (.away heap (.start avoids) (.row (h.busy rfl holds later) dest resumes)))
    · cases step
  | jmp =>
    rw [step_jmp hrest] at step
    exact h.jump heap holds resumes mem List.mem_cons_self step
  | br =>
    rw [step_br hrest] at step
    obtain ⟨v, hv, step⟩ := bind_eq_ok.mp step
    rcases v with (_ | b) | _
    · cases step
    · exact h.jump heap holds resumes mem (Instr.mem_targets_br.mpr (by cases b <;> simp)) step
    · cases step

end RowOf

theorem step_calls {dest func reg : String} {ty : Ty} {code : List Instr} {g : Function}
    (heap : s.heap.Avoids o) (holds : s.frame.Holds o k) (distinct : (labels s.frame.code).Nodup)
    (object : k reg = .object) (anything : k dest = .anything)
    (hrest : s.frame.rest = .call dest ty func [reg] :: code)
    (place : s.frame.rest <:+ s.frame.code) (found : p.find? func = some g)
    (before : SetsUp p watched g done) (fills : Fills watched k done code last)
    (resumes : Resumes o watched last s.callers) (step : s.step p A = .ok (some t)) :
    Proceeds o p watched [] s t := by
  rw [step_call hrest] at step
  obtain ⟨vs, hvs, step⟩ := bind_eq_ok.mp step
  obtain ⟨v, rfl, hv⟩ := forall₂_singleton (mapM_eq_ok.mp hvs)
  have self := (holds.get hv).2
  rw [object] at self
  cases self
  unfold State.enter at step
  rw [found] at step
  dsimp only at step
  split at step <;> cases step
  have rest : code <:+ s.frame.code := (List.suffix_cons _ _).trans (hrest ▸ place)
  refine .same ((before.enter heap (.child (f := s.frame.goTo code) holds anything distinct rest
    fills resumes)).imp_left fun none i hi => absurd hi (none i))

theorem step_returns {reg : String} (heap : s.heap.Avoids o)
    (hrest : s.frame.rest = [.ret (some reg)]) (resumes : Resumes o watched done s.callers)
    (step : s.step p A = .ok (some t)) : Proceeds o p watched done s t := by
  rw [step_ret hrest] at step
  obtain ⟨v, hv, step⟩ := bind_eq_ok.mp step
  obtain ⟨m, frame, callers⟩ := s
  cases resumes with
  | top => cases step
  | child holds anything distinct place fills resumes =>
    cases step
    exact .same (Fills.enter fills heap (holds.set anything trivial) distinct place resumes)

/-- Functions that do not know the object come back to where it is set up. -/
theorem step_away (heap : s.heap.Avoids o) (frame : s.frame.Avoids o)
    (waits : Waits o watched done s.callers) (step : s.step p A = .ok (some t)) :
    Proceeds o p watched done s t := by
  refine .same (.inr ?_)
  -- A value comes back to the row only through functions that do not know the object either.
  cases step_goes heap frame step with
  | on heap frame callers => exact .away heap frame (callers ▸ waits)
  | into heap frame caller callers => exact .away heap frame (callers ▸ .other caller waits)
  | back heap callers frame =>
    rw [callers] at waits
    cases waits with
    | other avoids waits => exact .away heap (frame ▸ avoids) waits
  | @result dest f v heap callers hv frame =>
    rw [callers] at waits
    cases waits with
    | row busy nothing resumes =>
      have busy : (f.set dest v).Busy o watched _ done _ :=
        ⟨busy.holds.set nothing hv, busy.place⟩
      exact .row heap (frame ▸ busy) resumes
    | other avoids waits => exact .away heap (frame ▸ avoids.set hv _) waits

/-- A step of setting up an object is a step of it, or the last that matters. -/
theorem SettingUp.step (h : SettingUp o p watched done s) (step : s.step p A = .ok (some t)) :
    Proceeds o p watched done s t := by
  cases h with
  | calls heap holds distinct object anything hrest place found before fills resumes =>
    exact step_calls heap holds distinct object anything hrest place found before fills resumes step
  | row heap busy resumes =>
    obtain ⟨holds, row, tail, rest, isRow, hrest, hr⟩ := busy
    cases rest with
    | nil => exact isRow.step_end heap holds resumes hrest step
    | cons => exact isRow.step_row heap holds resumes hrest hr step
  | returns heap hrest resumes => exact step_returns heap hrest resumes step
  | away heap frame waits => exact step_away heap frame waits step

/-- What is loaded from while an object is set up has been stored to. -/
theorem SettingUp.loads (h : SettingUp o p watched done s) {n : Nat} (hn : watched n)
    (loads : s.Loads o n) : n ∈ done := by
  obtain ⟨dest, ty, address, funcs, next, hnext, there⟩ := loads
  cases h with
  | calls heap holds distinct object anything hrest => cases hnext.symm.trans hrest
  | returns heap hrest => cases hnext.symm.trans hrest
  | away heap frame => exact absurd rfl (frame _ _ there)
  | row heap busy =>
    obtain ⟨holds, row, tail, rest, isRow, hrest, hr⟩ := busy
    cases rest with
    | nil =>
      obtain ⟨_, _, _, _, rfl, -⟩ := isRow.ends
      cases hnext.symm.trans hrest
    | cons i rest =>
      have discreet := isRow.discreet i (hr.subset List.mem_cons_self)
      cases hnext.symm.trans hrest
      have held := holds _ _ there
      cases discreet with
      | operation _ notLoad => exact absurd rfl notLoad
      | load points may =>
        rw [points] at held
        cases held
        exact may hn

end Steps

section Runs

variable {watched : Nat → Prop} {done : List Nat} {n : Nat} {heap : Heap} {f : Function}

/-- Running some instructions of a program, none of which stores to a slot of an object. -/
def Spares (p : Program) (A : Arithmetic) (o n : Nat) : State → State → Prop :=
  ReflTransGen fun s t => s.step p A = .ok (some t) ∧ ¬ s.Stores o n

def Heap.Closed (heap : Heap) : Prop :=
  ∀ slots, some slots ∈ heap → ∀ object i, some (.pointer object i) ∈ slots → object < heap.length

/-- Whether a function that is called with a new object stores to some slots of it before anything,
there or in the functions that it calls, loads from them. -/
def Function.StoresFirst (p : Program) (f : Function) (slots : Nat → Prop) : Prop :=
  ∀ A (heap heap' : Heap) size o, heap.Closed → heap.alloc size = .ok (heap', .pointer o 0) →
    ∀ n, slots n → ∀ s, Spares p A o n ⟨heap', .start f [.pointer o 0], []⟩ s → ¬ s.Loads o n

theorem Heap.Closed.alloc {heap' : Heap} {size : Value} {i : Int} (h : heap.Closed)
    (made : heap.alloc size = .ok (heap', .pointer o i)) : heap'.Avoids o := by
  unfold Heap.alloc at made
  split at made
  · split at made <;> cases made
    refine ⟨by simp, fun slots mem v hv => ?_⟩
    rcases List.mem_append.mp mem with mem | mem
    · cases v with
      | literal => trivial
      | pointer object i => exact Nat.ne_of_lt (h slots mem object i hv)
    · rw [Option.some.inj (List.mem_singleton.mp mem)] at hv
      cases (List.mem_replicate.mp hv).2
  · cases made

/-- An object is still being set up as long as a slot that is watched has not been stored to. -/
theorem SettingUp.spares (h : SettingUp o p watched [] s) (hn : watched n)
    (run : Spares p A o n s t) : ∃ done, n ∉ done ∧ SettingUp o p watched done t := by
  induction run with
  | refl => exact ⟨[], List.not_mem_nil, h⟩
  | tail _ step ih =>
    obtain ⟨done, left, state⟩ := ih
    obtain ⟨more, counts, next⟩ := state.step step.1
    -- The step does not store to `n`, so `n` does not count behind it either.
    have left : n ∉ more := fun hm => (counts n hm).elim left step.2
    exact ⟨more, left, next.resolve_left fun all => left (all n hn)⟩

theorem SetsUp.storesFirst (h : SetsUp p watched f done) : f.StoresFirst p watched := by
  intro A heap heap' size o closed made n hn s run loads
  have setting := (h.enter (closed.alloc made) .top).resolve_left fun none => none n hn
  obtain ⟨done, left, state⟩ := setting.spares hn run
  exact left (state.loads hn loads)

/-- A function that begins with a load from the object that it is called with does not store there
before. -/
theorem not_storesFirst {slots : Nat → Prop} {self offset address dest : String} {ty ty' : Ty}
    {rest : List Instr} (hn : slots n) (params : f.params.map (·.name) = [self])
    (apart : offset ≠ self) (instrs : f.instrs = .literal offset (.int n) ::
      .compute .ptradd address ty [self, offset] :: .compute .load dest ty' [address] :: rest) :
    ¬ f.StoresFirst p slots := by
  intro first
  let heap : Heap := [some (List.replicate (n + 1) none)]
  let start : State := ⟨heap, .start f [.pointer 0 0], []⟩
  let code := .compute .load dest ty' [address] :: rest
  let second := start.put offset (.literal (.int n))
    (.compute .ptradd address ty [self, offset] :: code)
  have object : second.frame.get self = .ok (.pointer 0 0) := by
    have held : second.frame.regs self = some (.pointer 0 0) := by
      refine (Function.update_of_ne apart.symm ..).trans ?_
      change ((f.params.map (·.name)).zip [Value.pointer 0 0]).lookup self = _
      simp [params]
    unfold Frame.get
    rw [held]
  have number : second.frame.get offset = .ok (.literal (.int n)) := by
    unfold Frame.get
    rw [show second.frame.regs offset = _ from Function.update_self ..]
  have one : start.step p .exact = .ok (some second) := step_literal instrs
  have two : second.step p .exact = .ok (some (second.put address (.pointer 0 (0 + n)) code)) := by
    rw [step_compute rfl]
    simp only [List.mapM_cons, List.mapM_nil, object, number]
    rfl
  have made : Heap.alloc [] (.literal (.int (n + 1))) = .ok (heap, .pointer 0 0) := by
    simp [Heap.alloc, heap]
  refine first .exact [] heap _ 0 (fun _ mem => by cases mem) made n hn _
    (.head ⟨one, ?_⟩ (.single ⟨two, ?_⟩)) ?_
  · rintro ⟨_, _, _, _, _, next, _⟩
    cases instrs.symm.trans next
  · rintro ⟨_, _, _, _, _, next, _⟩
    cases next
  · refine ⟨dest, ty', address, [], rest, rfl, (Function.update_self ..).trans ?_⟩
    rw [Int.zero_add]

end Runs

end Cool.Bril
