import Cool.Proofs.Bril.Memory
import Mathlib.Data.List.Forall2

/-!
Types for registers, with which a program stays within its memory. Objects belong to classes, which
say what their slots hold. A register has one type wherever it is used in a function.
-/
namespace Cool.Bril

section Layouts

/-- Whether what is an object of the class `k` is one of the class `l`. No class stands for all
values. -/
def Under {C : Type} (Below : C → C → Prop) (k l : Option C) : Prop :=
  ∀ d ∈ l, ∃ c ∈ k, Below c d

/-- What the slots of objects hold, and which objects can be used for others: they have the same
slots and perhaps more, and those hold the same. -/
structure Layout (C : Type) where
  slots : C → List (Option C)
  Below : C → C → Prop
  refl : ∀ c, Below c c
  trans : ∀ {b c d}, Below b c → Below c d → Below b d
  slot : ∀ {c d : C} {i : Nat} {k : Option C}, Below c d → (slots d)[i]? = some k →
    ∃ l, (slots c)[i]? = some l ∧ Under Below l k ∧ Under Below k l

variable {C : Type} {L : Layout C} {k l m : Option C}

theorem Under.refl (k : Option C) : Under L.Below k k := fun c hc => ⟨c, hc, L.refl c⟩

theorem Under.trans (h : Under L.Below k l) (h' : Under L.Below l m) : Under L.Below k m := by
  intro d hd
  obtain ⟨c, hc, below⟩ := h' d hd
  obtain ⟨b, hb, below'⟩ := h c hc
  exact ⟨b, hb, L.trans below' below⟩

end Layouts

section Kinds

variable {C : Type}

inductive Kind (C : Type) where
  /-- It points to an object of a class, or it is any value. -/
  | value (k : Option C)
  /-- It is the first argument of the function. -/
  | receiver
  | number (n : Int)
  /-- It points to a slot of an object of a class. -/
  | slot (c : C) (i : Nat)

/-- Whether a register of one kind may be copied to one of another, in a function whose first
argument is of the class `here`. -/
inductive Fits (L : Layout C) (here : Option C) : Kind C → Kind C → Prop where
  | refl (k : Kind C) : Fits L here k k
  | any (k : Kind C) : Fits L here k (.value none)
  | value {k l : Option C} : Under L.Below k l → Fits L here (.value k) (.value l)
  | receiver {l : Option C} : Under L.Below here l → Fits L here .receiver (.value l)

inductive Result (C : Type) where
  | receiver
  | value (k : Option C)

/-- What a call returns to a function, where the first argument is of kind `first`. -/
def Result.kind (first : Kind C) : Result C → Kind C
  | .receiver => first
  | .value k => .value k

structure Signature (C : Type) where
  receiver : Option C
  params : List (Option C)
  result : Result C

/-- Whether an instruction is right for the kinds of the registers. `result` is what the function
returns, if it does. -/
inductive Instr.Typed (L : Layout C) (signed : String → Signature C → Prop) (here : Option C)
    (result : Option (Result C)) (kinds : String → Kind C) : Instr → Prop where
  | label {name} : Typed L signed here result kinds (.label name)
  | literal {dest v} : kinds dest = .value none → Typed L signed here result kinds (.literal dest v)
  | number {dest n} : kinds dest = .number n →
      Typed L signed here result kinds (.literal dest (.int n))
  | operation {op dest ty args} : op ≠ .alloc → op ≠ .ptradd → op ≠ .load →
      kinds dest = .value none → Typed L signed here result kinds (.compute op dest ty args)
  | copy {dest ty reg} : Fits L here (kinds reg) (kinds dest) →
      Typed L signed here result kinds (.compute .id dest ty [reg])
  | alloc {dest ty size} {n : Nat} {c} : kinds size = .number n → (L.slots c).length ≤ n →
      Fits L here (.value (some c)) (kinds dest) →
      Typed L signed here result kinds (.compute .alloc dest ty [size])
  | address {dest ty base offset c} {i : Nat} : Fits L here (kinds base) (.value (some c)) →
      kinds offset = .number i → kinds dest = .slot c i →
      Typed L signed here result kinds (.compute .ptradd dest ty [base, offset])
  | load {dest ty address c i k} : kinds address = .slot c i → (L.slots c)[i]? = some k →
      Fits L here (.value k) (kinds dest) →
      Typed L signed here result kinds (.compute .load dest ty [address])
  | store {address reg c i k} : kinds address = .slot c i → (L.slots c)[i]? = some k →
      Fits L here (kinds reg) (.value k) →
      Typed L signed here result kinds (.perform .store [address, reg])
  | call {dest ty func first args sig} : signed func sig →
      Fits L here (kinds first) (.value sig.receiver) →
      List.Forall₂ (fun reg k => Fits L here (kinds reg) (.value k)) args sig.params →
      Fits L here (sig.result.kind (kinds first)) (kinds dest) →
      Typed L signed here result kinds (.call dest ty func (first :: args))
  | print {args} : Typed L signed here result kinds (.perform .print args)
  | jmp {label} : Typed L signed here result kinds (.jmp label)
  | br {cond yes no} : Typed L signed here result kinds (.br cond yes no)
  | ret {reg r} : result = some r → Fits L here (kinds reg) (r.kind .receiver) →
      Typed L signed here result kinds (.ret (some reg))

/-- Code that frees objects and returns. -/
def Ending (code : List Instr) : Prop :=
  ∀ i ∈ code, (∃ reg, i = .perform .free [reg]) ∨ i = .ret none

def Function.Typed (L : Layout C) (signed : String → Signature C → Prop) (f : Function)
    (sig : Signature C) : Prop :=
  ∃ kinds : String → Kind C,
    (f.params.map fun p => kinds p.name) = .receiver :: sig.params.map .value ∧
    ∀ i ∈ f.instrs, i.Typed L signed sig.receiver (some sig.result) kinds

/-- Whether the function that a program starts with is right: what follows on right code are only
the ends of objects and of the function. -/
def Function.Starts (L : Layout C) (signed : String → Signature C → Prop) (f : Function) : Prop :=
  ∃ kinds code last, f.instrs = code ++ last ∧ Ending last ∧
    ∀ i ∈ code, i.Typed L signed none none kinds

structure Program.Typed (L : Layout C) (signed : String → Signature C → Prop) (p : Program) :
    Prop where
  function : ∀ {name sig f}, signed name sig → p.find? name = some f →
    f.params.length = sig.params.length + 1 → f.Typed L signed sig
  main : ∀ {f}, p.find? "main" = some f → f.Starts L signed

end Kinds

section Values

variable {C : Type} {L : Layout C} {H H' : List C} {o : Nat} {c d : C} {v self : Value}

def Value.PointsTo (L : Layout C) (H : List C) (v : Value) (i : Nat) (c : C) : Prop :=
  ∃ o d, v = .pointer o i ∧ H[o]? = some d ∧ L.Below d c

/-- Whether a value is an object of a class, or there is no class to be of. -/
def Value.Is (L : Layout C) (H : List C) (v : Value) (k : Option C) : Prop :=
  ∀ c ∈ k, v.PointsTo L H 0 c

def Kind.Holds (L : Layout C) (H : List C) (self : Value) : Kind C → Value → Prop
  | .value k, v => v.Is L H k
  | .receiver, v => v = self
  | .number n, v => v = .literal (.int n)
  | .slot c i, v => v.PointsTo L H i c

theorem getElem?_of_prefix {α : Type} {xs ys : List α} {i : Nat} {a : α} (h : xs <+: ys)
    (hi : xs[i]? = some a) : ys[i]? = some a := by
  obtain ⟨rest, rfl⟩ := h
  rw [List.getElem?_append_left (List.getElem?_eq_some_iff.mp hi).1, hi]

theorem Value.PointsTo.later {i : Nat} (h : v.PointsTo L H i c) (later : H <+: H') :
    v.PointsTo L H' i c := by
  obtain ⟨o, d, rfl, hd, below⟩ := h
  exact ⟨o, d, rfl, getElem?_of_prefix later hd, below⟩

theorem Value.Is.later {k : Option C} (h : v.Is L H k) (later : H <+: H') : v.Is L H' k :=
  fun c hc => (h c hc).later later

theorem Value.Is.under {k l : Option C} (h : v.Is L H k) (under : Under L.Below k l) :
    v.Is L H l := by
  intro d hd
  obtain ⟨c, hc, below⟩ := under d hd
  obtain ⟨o, b, rfl, hb, below'⟩ := h c hc
  exact ⟨o, b, rfl, hb, L.trans below' below⟩

theorem Kind.Holds.later {k : Kind C} (h : k.Holds L H self v) (later : H <+: H') :
    k.Holds L H' self v := by
  cases k with
  | value k => exact Value.Is.later h later
  | slot c i => exact Value.PointsTo.later h later
  | receiver | number _ => exact h

theorem Fits.holds {here : Option C} {k l : Kind C} (fits : Fits L here k l)
    (hs : self.Is L H here) (h : k.Holds L H self v) : l.Holds L H self v := by
  cases fits with
  | refl => exact h
  | any => exact fun _ hc => nomatch hc
  | value under => exact Value.Is.under h under
  | receiver under =>
    cases h
    exact hs.under under

theorem Fits.under {here k l : Option C} {a : Kind C} (fits : Fits L here a (.value k))
    (under : Under L.Below k l) : Fits L here a (.value l) := by
  cases fits with
  | refl => exact .value under
  | value h => exact .value (h.trans under)
  | receiver h => exact .receiver (h.trans under)
  | any =>
    cases l with
    | none => exact .any a
    | some d => exact absurd (under d rfl) (by rintro ⟨_, h, _⟩; cases h)

end Values

section Outcomes

def Within {α : Type} (P : α → Prop) : Except Fault α → Prop
  | .ok a => P a
  | .error fault => fault ≠ .outside

variable {α β : Type} {P : α → Prop} {Q : β → Prop}

theorem Within.bind {x : Except Fault α} {f : α → Except Fault β} (hx : Within P x)
    (hf : ∀ a, P a → Within Q (f a)) : Within Q (x >>= f) := by
  cases x with
  | ok a => exact hf a hx
  | error _ => exact hx

theorem Within.imp {P' : α → Prop} {x : Except Fault α} (hx : Within P x) (h : ∀ a, P a → P' a) :
    Within P' x := by
  cases x with
  | ok a => exact h a hx
  | error _ => exact hx

theorem Within.get (f : Frame) (reg : String) :
    Within (fun v => f.regs reg = some v) (f.get reg) := by
  unfold Frame.get
  cases f.regs reg with
  | some v => exact rfl
  | none => exact Fault.noConfusion

theorem Within.mapM_get (f : Frame) (args : List String) :
    Within (List.Forall₂ (fun reg v => f.regs reg = some v) args) (args.mapM f.get) := by
  induction args with
  | nil => exact .nil
  | cons reg args ih =>
    rw [List.mapM_cons]
    exact (Within.get f reg).bind fun v hv => ih.bind fun vs hvs => .cons hv hvs

end Outcomes

section Heaps

variable {C : Type} {L : Layout C} {H : List C} {heap : Heap} {c : C} {i : Nat} {k : Option C}
  {v : Value}

structure Heap.Typed (L : Layout C) (H : List C) (heap : Heap) : Prop where
  length : heap.length = H.length
  object : ∀ {o : Nat} {c : C}, H[o]? = some c → ∃ slots, heap[o]? = some (some slots) ∧
    (L.slots c).length ≤ slots.length ∧ ∀ {i : Nat} {v k}, slots[i]? = some (some v) →
      (L.slots c)[i]? = some k → v.Is L H k

namespace Heap.Typed

theorem locate (h : heap.Typed L H) (points : v.PointsTo L H i c)
    (hk : (L.slots c)[i]? = some k) : ∃ o d slots l, heap.locate v = .ok (o, i, slots) ∧
      i < slots.length ∧ H[o]? = some d ∧ heap[o]? = some (some slots) ∧
      (L.slots d)[i]? = some l ∧ Under L.Below l k ∧ Under L.Below k l := by
  obtain ⟨o, d, rfl, hd, below⟩ := points
  obtain ⟨slots, there, room, _⟩ := h.object hd
  obtain ⟨l, hl, under⟩ := L.slot below hk
  have inside : i < slots.length :=
    Nat.lt_of_lt_of_le (List.getElem?_eq_some_iff.mp hl).1 room
  refine ⟨o, d, slots, l, ?_, inside, hd, there, hl, under⟩
  unfold Heap.locate
  simp only [there, if_pos inside]

theorem load (h : heap.Typed L H) (points : v.PointsTo L H i c)
    (hk : (L.slots c)[i]? = some k) : Within (fun w => w.Is L H k) (heap.load v) := by
  obtain ⟨o, d, slots, l, found, inside, hd, there, hl, under, _⟩ := h.locate points hk
  simp only [Heap.load, found, bind, Except.bind]
  split
  · rename_i w hw
    obtain ⟨slots', there', _, holds⟩ := h.object hd
    cases there.symm.trans there'
    exact (holds hw hl).under under
  · exact Fault.noConfusion

theorem store (h : heap.Typed L H) (points : v.PointsTo L H i c)
    (hk : (L.slots c)[i]? = some k) {w : Value} (hw : w.Is L H k) :
    Within (Heap.Typed L H) (heap.store v w) := by
  obtain ⟨o, d, slots, l, found, inside, hd, there, hl, _, under⟩ := h.locate points hk
  unfold Heap.store
  rw [found]
  refine ⟨by rw [List.length_set, h.length], fun {o' c'} hc' => ?_⟩
  obtain ⟨slots', there', room, holds⟩ := h.object hc'
  by_cases same : o = o'
  · subst same
    cases hd.symm.trans hc'
    cases there.symm.trans there'
    have bound := (List.getElem?_eq_some_iff.mp there).1
    refine ⟨_, List.getElem?_set_self bound, by rwa [List.length_set], fun {j u m} hu hm => ?_⟩
    by_cases slot : i = j
    · subst slot
      rw [List.getElem?_set_self inside] at hu
      cases hu
      cases hl.symm.trans hm
      exact hw.under under
    · rw [List.getElem?_set_ne slot] at hu
      exact holds hu hm
  · exact ⟨slots', by rwa [List.getElem?_set_ne same], room, holds⟩

theorem append (h : heap.Typed L H) {n : Nat} (hn : (L.slots c).length ≤ n) :
    Heap.Typed L (H ++ [c]) (heap ++ [some (List.replicate n none)]) := by
  refine ⟨by simp [h.length], fun {o d} hd => ?_⟩
  rcases Nat.lt_or_ge o H.length with old | new
  · rw [List.getElem?_append_left old] at hd
    obtain ⟨slots, there, room, holds⟩ := h.object hd
    refine ⟨slots, ?_, room, fun hv hk => (holds hv hk).later (List.prefix_append _ _)⟩
    rwa [List.getElem?_append_left (h.length ▸ old)]
  · rw [List.getElem?_append_right new, List.getElem?_singleton] at hd
    split at hd
    · rename_i last
      cases hd
      refine ⟨List.replicate n none, ?_, by rwa [List.length_replicate], fun {i v k} hv _ => ?_⟩
      · rw [List.getElem?_append_right (h.length ▸ new), h.length, last]
        rfl
      · rw [List.getElem?_replicate] at hv
        split at hv <;> cases hv
    · cases hd

theorem alloc (h : heap.Typed L H) {n : Nat} (hn : (L.slots c).length ≤ n) :
    Within (fun r => r.1.Typed L (H ++ [c]) ∧ r.2.PointsTo L (H ++ [c]) 0 c)
      (heap.alloc (.literal (.int n))) := by
  unfold Heap.alloc
  dsimp only
  split
  · refine ⟨h.append hn, heap.length, c, rfl, ?_, L.refl c⟩
    rw [h.length]
    simp
  · exact Fault.noConfusion

end Heap.Typed

end Heaps

section States

variable {C : Type} {L : Layout C} {signed : String → Signature C → Prop}

/-- Whether a function runs right with the first argument `first`: what is left of it is an end of
its code, which is right but for its end, and its registers hold what they are to hold. Only the
function that the program starts with frees objects, and returns nothing. -/
structure Frame.Typed (L : Layout C) (signed : String → Signature C → Prop) (H : List C) (f : Frame)
    (result : Option (Result C)) (first : Value) (kinds : String → Kind C) (here : Option C) :
    Prop where
  code : ∀ i rest, i :: rest <:+ f.code →
    i.Typed L signed here result kinds ∨ result = none ∧ Ending (i :: rest)
  rest : f.rest <:+ f.code
  regs : ∀ {reg v}, f.regs reg = some v → (kinds reg).Holds L H first v
  here : first.Is L H here

inductive Waiting (L : Layout C) (signed : String → Signature C → Prop) (H : List C) :
    List (Option String × Frame) → Option (Result C) → Value → Prop where
  | none {first} : Waiting L signed H [] none first
  | call {dest f callers result r kinds here first callee} :
      f.Typed L signed H result first kinds here →
      (∀ H' v, H <+: H' → (r.kind .receiver).Holds L H' callee v →
        (kinds dest).Holds L H' first v) →
      Waiting L signed H callers result first →
      Waiting L signed H ((some dest, f) :: callers) (some r) callee

def State.Typed (L : Layout C) (signed : String → Signature C → Prop) (s : State) : Prop :=
  ∃ H result first kinds here, s.heap.Typed L H ∧
    s.frame.Typed L signed H result first kinds here ∧ Waiting L signed H s.callers result first

def State.Ending (s : State) : Prop := s.callers = [] ∧ Bril.Ending s.frame.rest

variable {H H' : List C} {f : Frame} {result : Option (Result C)} {first : Value}
  {kinds : String → Kind C} {here : Option C}

theorem Frame.Typed.later (h : f.Typed L signed H result first kinds here) (later : H <+: H') :
    f.Typed L signed H' result first kinds here :=
  ⟨h.code, h.rest, fun hv => (h.regs hv).later later, h.here.later later⟩

theorem Frame.Typed.goTo (h : f.Typed L signed H result first kinds here) {rest : List Instr}
    (hr : rest <:+ f.code) : (f.goTo rest).Typed L signed H result first kinds here :=
  ⟨h.code, hr, h.regs, h.here⟩

theorem Frame.Typed.set (h : f.Typed L signed H result first kinds here) {dest : String} {v : Value}
    (hv : (kinds dest).Holds L H first v) :
    (f.set dest v).Typed L signed H result first kinds here := by
  refine ⟨h.code, h.rest, fun {reg w} hw => ?_, h.here⟩
  by_cases same : reg = dest
  · subst same
    rw [show (f.set reg v).regs reg = some v from Function.update_self ..] at hw
    cases hw
    exact hv
  · rw [show (f.set dest v).regs reg = f.regs reg from Function.update_of_ne same ..] at hw
    exact h.regs hw

theorem Waiting.later {callers : List (Option String × Frame)}
    (h : Waiting L signed H callers result first) (later : H <+: H') :
    Waiting L signed H' callers result first := by
  induction h with
  | none => exact .none
  | call frame returns _ ih =>
    exact .call (frame.later later) (fun H'' v h => returns H'' v (later.trans h)) ih

end States

section Steps

variable {p : Program} {A : Arithmetic} {s : State} {rest : List Instr}

theorem step_literal {dest : String} {v : Literal} (h : s.frame.rest = .literal dest v :: rest) :
    s.step p A = .ok (some (s.put dest (.literal v) rest)) := by
  unfold State.step
  rw [h]
  rfl

theorem step_label {name : String} (h : s.frame.rest = .label name :: rest) :
    s.step p A = .ok (some (s.goTo rest)) := by
  unfold State.step
  rw [h]

theorem step_compute {op : ValueOp} {dest : String} {ty : Ty} {args : List String}
    (h : s.frame.rest = .compute op dest ty args :: rest) :
    s.step p A = args.mapM s.frame.get >>= fun vs => s.compute p A op dest vs [] rest := by
  unfold State.step
  rw [h]
  rfl

theorem step_call {dest func : String} {ty : Ty} {args : List String}
    (h : s.frame.rest = .call dest ty func args :: rest) :
    s.step p A = args.mapM s.frame.get >>= fun vs => s.enter p (some dest) func vs rest := by
  unfold State.step
  rw [h]
  rfl

theorem step_perform {op : EffectOp} {args : List String}
    (h : s.frame.rest = .perform op args :: rest) :
    s.step p A = args.mapM s.frame.get >>= fun vs => s.perform p op vs [] [] rest := by
  unfold State.step
  rw [h]
  rfl

theorem step_jmp {label : String} (h : s.frame.rest = .jmp label :: rest) :
    s.step p A = s.jump label := by
  unfold State.step
  rw [h]
  rfl

theorem step_br {cond yes no : String} (h : s.frame.rest = .br cond yes no :: rest) :
    s.step p A = s.frame.get cond >>= fun v => s.perform p .br [v] [] [yes, no] rest := by
  unfold State.step
  rw [h]
  simp only [Instr.br, List.mapM_cons, List.mapM_nil]
  cases s.frame.get cond <;> rfl

theorem step_ret {reg : String} (h : s.frame.rest = .ret (some reg) :: rest) :
    s.step p A = s.frame.get reg >>= fun v => s.leave (some v) := by
  unfold State.step
  rw [h]
  simp only [Instr.ret, Option.toList_some, List.mapM_cons, List.mapM_nil]
  cases s.frame.get reg <;> rfl

end Steps

section Preservation

variable {C : Type} {L : Layout C} {signed : String → Signature C → Prop} {H : List C} {p : Program}
  {A : Arithmetic} {s : State} {result : Option (Result C)} {first : Value}
  {kinds : String → Kind C} {here : Option C} {rest : List Instr}

def State.Right (L : Layout C) (signed : String → Signature C → Prop) (s : State) : Prop :=
  s.Typed L signed ∨ s.Ending

def Next (L : Layout C) (signed : String → Signature C → Prop) (t : Option State) : Prop :=
  ∀ s ∈ t, s.Right L signed

theorem Next.typed (h : s.Typed L signed) : Next L signed (some s) :=
  fun _ hs => .inl (Option.some.inj hs ▸ h)

theorem next_put (heap : s.heap.Typed L H)
    (frame : s.frame.Typed L signed H result first kinds here)
    (waiting : Waiting L signed H s.callers result first) (hr : rest <:+ s.frame.code)
    {dest : String} {v : Value} (hv : (kinds dest).Holds L H first v) :
    Next L signed (some (s.put dest v rest)) :=
  .typed ⟨H, result, first, kinds, here, heap, (frame.set hv).goTo hr, waiting⟩

theorem next_goTo (heap : s.heap.Typed L H)
    (frame : s.frame.Typed L signed H result first kinds here)
    (waiting : Waiting L signed H s.callers result first) (hr : rest <:+ s.frame.code) :
    Next L signed (some (s.goTo rest)) :=
  .typed ⟨H, result, first, kinds, here, heap, frame.goTo hr, waiting⟩

theorem within_jump (heap : s.heap.Typed L H)
    (frame : s.frame.Typed L signed H result first kinds here)
    (waiting : Waiting L signed H s.callers result first) (label : String) :
    Within (Next L signed) (s.jump label) := by
  unfold State.jump
  split
  · rename_i there found
    exact next_goTo heap frame waiting (behind?_suffix found)
  · exact Fault.noConfusion

theorem within_leave (heap : s.heap.Typed L H) (waiting : Waiting L signed H s.callers result first)
    {r : Result C} (hr : result = some r) {v : Value} (hv : (r.kind .receiver).Holds L H first v) :
    Within (Next L signed) (s.leave (some v)) := by
  subst hr
  obtain ⟨_, _, callers⟩ := s
  cases waiting with | call frame returns waiting =>
  exact .typed ⟨H, _, _, _, _, heap, frame.set (returns H v (List.prefix_refl H) hv), waiting⟩

theorem within_leave_none (waiting : Waiting L signed H s.callers result first) :
    Within (Next L signed) (s.leave none) := by
  obtain ⟨_, _, callers⟩ := s
  cases waiting with
  | none => exact fun _ h => nomatch h
  | call => exact Fault.noConfusion

theorem holds_of_lookup {names : List String} {vs : List Value} {ks : List (Kind C)}
    (hk : names.map kinds = ks) (hv : List.Forall₂ (fun k v => k.Holds L H first v) ks vs)
    {reg : String} {v : Value} (h : (names.zip vs).lookup reg = some v) :
    (kinds reg).Holds L H first v := by
  induction names generalizing ks vs with
  | nil => cases h
  | cons name names ih =>
    subst hk
    cases hv with | cons head tail =>
    rw [List.zip_cons_cons, List.lookup_cons] at h
    split at h
    · rename_i same
      cases h
      exact eq_of_beq same ▸ head
    · exact ih rfl tail h

/-- A function starts right with arguments that are right for its signature. -/
theorem Function.Typed.start {f : Function} {sig : Signature C} (h : f.Typed L signed sig)
    (hf : first.Is L H sig.receiver) {vs : List Value}
    (hv : List.Forall₂ (fun v k => v.Is L H k) vs sig.params) : ∃ kinds,
    (Frame.start f (first :: vs)).Typed L signed H (some sig.result) first kinds sig.receiver := by
  obtain ⟨kinds, params, code⟩ := h
  have held : List.Forall₂ (fun (k : Kind C) v => k.Holds L H first v)
      (.receiver :: sig.params.map .value) (first :: vs) :=
    .cons rfl (List.forall₂_map_left_iff.mpr hv.flip)
  refine ⟨kinds, fun i rest hi => .inl (code i (hi.subset List.mem_cons_self)), List.suffix_refl _,
    fun {reg v} hr => holds_of_lookup ?_ held hr, hf⟩
  rw [← params, List.map_map]
  rfl

theorem within_enter (program : p.Typed L signed) (heap : s.heap.Typed L H)
    (frame : s.frame.Typed L signed H result first kinds here)
    (waiting : Waiting L signed H s.callers result first) (hr : rest <:+ s.frame.code)
    {dest func : String} {sig : Signature C} (hs : signed func sig) {v : Value} {vs : List Value}
    (hv : v.Is L H sig.receiver) (hvs : List.Forall₂ (fun v k => v.Is L H k) vs sig.params)
    (returns : ∀ H' w, H <+: H' → (sig.result.kind .receiver).Holds L H' v w →
      (kinds dest).Holds L H' first w) :
    Within (Next L signed) (s.enter p (some dest) func (v :: vs) rest) := by
  unfold State.enter
  split
  · rename_i f found
    split
    · rename_i arity
      have arity : f.params.length = sig.params.length + 1 := by
        rw [arity, List.length_cons, hvs.length_eq]
      obtain ⟨kinds', started⟩ := (program.function hs found arity).start hv hvs
      exact .typed ⟨H, _, v, kinds', _, heap, started, .call (frame.goTo hr) returns waiting⟩
    · exact Fault.noConfusion
  · exact Fault.noConfusion

theorem Frame.Typed.operand {f : Frame} (h : f.Typed L signed H result first kinds here)
    (reg : String) : Within ((kinds reg).Holds L H first) (f.get reg) :=
  (Within.get f reg).imp fun _ hv => h.regs hv

theorem Frame.Typed.operands {f : Frame} (h : f.Typed L signed H result first kinds here)
    (args : List String) : Within (List.Forall₂ (fun reg v => (kinds reg).Holds L H first v) args)
      (args.mapM f.get) :=
  (Within.mapM_get f args).imp fun _ hvs => hvs.imp fun _ _ hv => h.regs hv

theorem forall₂_singleton {α β : Type} {R : α → β → Prop} {a : α} {bs : List β}
    (h : List.Forall₂ R [a] bs) : ∃ b, bs = [b] ∧ R a b := by
  cases h with | cons hb none =>
  cases none
  exact ⟨_, rfl, hb⟩

theorem forall₂_pair {α β : Type} {R : α → β → Prop} {a c : α} {bs : List β}
    (h : List.Forall₂ R [a, c] bs) : ∃ b d, bs = [b, d] ∧ R a b ∧ R c d := by
  cases h with | cons hb rest =>
  obtain ⟨d, rfl, hd⟩ := forall₂_singleton rest
  exact ⟨_, d, rfl, hb, hd⟩

theorem holds_params (hf : first.Is L H here) {args : List String} {ks : List (Option C)}
    {vs : List Value}
    (fits : List.Forall₂ (fun reg k => Fits L here (kinds reg) (.value k)) args ks)
    (holds : List.Forall₂ (fun reg v => (kinds reg).Holds L H first v) args vs) :
    List.Forall₂ (fun v k => v.Is L H k) vs ks := by
  induction fits generalizing vs with
  | nil =>
    cases holds
    exact .nil
  | cons fits _ ih =>
    cases holds with | cons hv holds =>
    exact .cons (fits.holds hf hv) (ih holds)

/-- Running a right instruction leads to a right state. -/
theorem within_instr (program : p.Typed L signed) (heap : s.heap.Typed L H)
    (frame : s.frame.Typed L signed H result first kinds here)
    (waiting : Waiting L signed H s.callers result first) {i : Instr}
    (hi : s.frame.rest = i :: rest) (typed : i.Typed L signed here result kinds) :
    Within (Next L signed) (s.step p A) := by
  have hr : rest <:+ s.frame.code := (List.suffix_cons i rest).trans (hi ▸ frame.rest)
  cases typed with
  | label =>
    rw [step_label hi]
    exact next_goTo heap frame waiting hr
  | literal any =>
    rw [step_literal hi]
    refine next_put heap frame waiting hr ?_
    rw [any]
    exact nofun
  | number num =>
    rw [step_literal hi]
    refine next_put heap frame waiting hr ?_
    rw [num]
    exact rfl
  | @operation op _ _ args notAlloc notAddress notLoad any =>
    rw [step_compute hi]
    refine (frame.operands args).bind fun vs _ => ?_
    unfold State.compute
    split
    · contradiction
    · exact absurd rfl notAlloc
    · exact absurd rfl notAddress
    · exact absurd rfl notLoad
    · split
      · refine next_put heap frame waiting hr ?_
        rw [any]
        exact nofun
      · exact Fault.noConfusion
  | copy fits =>
    rw [step_compute hi]
    refine (frame.operands _).bind fun vs hvs => ?_
    obtain ⟨v, rfl, hv⟩ := forall₂_singleton hvs
    exact next_put heap frame waiting hr (fits.holds frame.here hv)
  | @alloc _ _ _ n c size room fits =>
    rw [step_compute hi]
    refine (frame.operands _).bind fun vs hvs => ?_
    obtain ⟨v, rfl, hv⟩ := forall₂_singleton hvs
    rw [size] at hv
    cases hv
    refine (heap.alloc room).bind fun ⟨heap', w⟩ ⟨heap, points⟩ => ?_
    -- The frames were right for the objects before; they are for more of them.
    have later := List.prefix_append H [c]
    refine next_put (s := { s with heap := heap' }) heap (frame.later later)
      (waiting.later later) hr (fits.holds (frame.here.later later) fun d hd => ?_)
    exact Option.some.inj hd ▸ points
  | @address _ _ _ _ c i base offset dest =>
    rw [step_compute hi]
    refine (frame.operands _).bind fun vs hvs => ?_
    obtain ⟨v, w, rfl, hv, hw⟩ := forall₂_pair hvs
    rw [offset] at hw
    cases hw
    obtain ⟨o, d, rfl, hd, below⟩ := base.holds frame.here hv c rfl
    refine next_put heap frame waiting hr ?_
    rw [dest]
    exact ⟨o, d, by simp, hd, below⟩
  | load address slot fits =>
    rw [step_compute hi]
    refine (frame.operands _).bind fun vs hvs => ?_
    obtain ⟨v, rfl, hv⟩ := forall₂_singleton hvs
    rw [address] at hv
    refine (heap.load hv slot).bind fun w hw => ?_
    exact next_put heap frame waiting hr (fits.holds frame.here hw)
  | store address slot fits =>
    rw [step_perform hi]
    refine (frame.operands _).bind fun vs hvs => ?_
    obtain ⟨v, w, rfl, hv, hw⟩ := forall₂_pair hvs
    rw [address] at hv
    refine (heap.store hv slot (fits.holds frame.here hw)).bind fun heap' heap => ?_
    exact next_goTo (s := { s with heap := heap' }) heap frame waiting hr
  | @call dest _ func reg args sig hs receiver params returned =>
    rw [step_call hi]
    refine (frame.operands _).bind fun vs hvs => ?_
    obtain ⟨v, vs, hv, hvs', rfl⟩ := List.forall₂_cons_left_iff.mp hvs
    refine within_enter program heap frame waiting hr hs (receiver.holds frame.here hv)
      (holds_params frame.here params hvs') fun H' w later hw => ?_
    refine returned.holds (frame.here.later later) ?_
    cases result : sig.result with
    | receiver =>
      rw [result] at hw
      cases hw
      exact hv.later later
    | value k =>
      rw [result] at hw
      exact hw
  | print =>
    rw [step_perform hi]
    exact (frame.operands _).bind fun _ _ => next_goTo heap frame waiting hr
  | jmp =>
    rw [step_jmp hi]
    exact within_jump heap frame waiting _
  | br =>
    rw [step_br hi]
    refine (frame.operand _).bind fun v _ => ?_
    rcases v with (_ | b) | _
    · exact Fault.noConfusion
    · exact within_jump heap frame waiting _
    · exact Fault.noConfusion
  | ret returns fits =>
    rw [step_ret hi]
    exact (frame.operand _).bind fun v hv =>
      within_leave heap waiting returns (fits.holds frame.here hv)

theorem State.Ending.step (h : s.Ending) : Within (Next L signed) (s.step p A) := by
  obtain ⟨heap, ⟨code, rest, regs⟩, callers⟩ := s
  obtain ⟨rfl, last⟩ := h
  cases rest with
  | nil => exact fun _ hs => nomatch hs
  | cons i rest =>
    have more : Bril.Ending rest := fun j hj => last j (List.mem_cons_of_mem i hj)
    rcases last i List.mem_cons_self with ⟨reg, rfl⟩ | rfl
    · rw [step_perform rfl]
      refine (Within.mapM_get _ _).bind fun vs hvs => ?_
      obtain ⟨v, rfl, _⟩ := forall₂_singleton hvs
      have freed : Within (fun _ => True) (heap.free v) := by
        unfold Heap.free
        repeat' split
        all_goals first | trivial | exact Fault.noConfusion
      exact freed.bind fun _ _ _ hs => .inr (Option.some.inj hs ▸ ⟨rfl, more⟩)
    · exact fun _ hs => nomatch hs

theorem State.Right.step (program : p.Typed L signed) (h : s.Right L signed) :
    Within (Next L signed) (s.step p A) := by
  rcases h with ⟨H, result, first, kinds, here, heap, frame, waiting⟩ | ending
  · cases hi : s.frame.rest with
    | nil =>
      unfold State.step
      rw [hi]
      exact within_leave_none waiting
    | cons i rest =>
      rcases frame.code i rest (hi ▸ frame.rest) with typed | ⟨rfl, last⟩
      · exact within_instr program heap frame waiting hi typed
      · refine State.Ending.step ⟨?_, hi ▸ last⟩
        generalize s.callers = callers at waiting
        cases waiting
        rfl
  · exact ending.step

theorem State.Right.reaches (program : p.Typed L signed) {t : State} (h : s.Right L signed)
    (run : Reaches p A s t) : t.Right L signed := by
  induction run with
  | refl => exact h
  | tail _ step ih =>
    have next := ih.step program (A := A)
    rw [step] at next
    exact next _ rfl

theorem Function.Starts.right {f : Function} (h : f.Starts L signed) :
    (State.start f).Right L signed := by
  obtain ⟨kinds, code, last, instrs, ending, typed⟩ := h
  refine .inl ⟨[], none, .literal (.int 0), kinds, none, ⟨rfl, nofun⟩, ⟨fun i rest hi => ?_,
    List.suffix_refl _, fun {reg v} hv => ?_, nofun⟩, .none⟩
  · obtain ⟨before, hi⟩ : i :: rest <:+ code ++ last := instrs ▸ hi
    rcases List.append_eq_append_iff.mp hi with ⟨more, rfl, heq⟩ | ⟨more, _, rfl⟩
    · cases more with
      | nil => exact .inr ⟨rfl, heq ▸ ending⟩
      | cons j more =>
        cases heq
        exact .inl (typed i (by simp))
    · exact .inr ⟨rfl, fun j hj => ending j (List.mem_append_right more hj)⟩
  · have none : (f.params.map (·.name)).zip ([] : List Value) = [] := List.zip_nil_right
    change ((f.params.map (·.name)).zip []).lookup reg = some v at hv
    rw [none] at hv
    cases hv

/-- A program with right functions stays within its memory. -/
theorem Program.Typed.safe (program : p.Typed L signed) : p.Safe := by
  intro A f found s run outside
  have right := ((program.main found).right.reaches program run).step program (A := A)
  rw [outside] at right
  exact right rfl

end Preservation

end Cool.Bril
