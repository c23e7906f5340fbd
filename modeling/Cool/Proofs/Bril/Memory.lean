import Cool.Proofs.Bril.Machine
import Mathlib.Logic.Function.Basic

/-!
Running whole Bril programs, one instruction at a time, with calls and memory. An object is a row of
slots, which hold nothing at first. A pointer may leave its object, but not be read or written
there.
-/
namespace Cool.Bril

inductive Value where
  | literal (v : Literal)
  | pointer (object : Nat) (slot : Int)
deriving DecidableEq, Repr

inductive Fault where
  /-- A register or a slot is read that holds nothing. -/
  | uninitialized
  /-- Memory is read or written where no object is. -/
  | outside
  /-- An instruction has no meaning for its operands. -/
  | stuck
deriving DecidableEq, Repr

abbrev Slots := List (Option Value)

/-- The objects in the order of their allocation. One that has been freed is nothing. -/
abbrev Heap := List (Option Slots)

namespace Heap

/-- The object that a value points into, the slot there, and all slots of the object. -/
def locate (heap : Heap) : Value → Except Fault (Nat × Nat × Slots)
  | .pointer object (.ofNat i) => match heap[object]? with
    | some (some slots) => if i < slots.length then .ok (object, i, slots) else .error .outside
    | _ => .error .outside
  | _ => .error .outside

def load (heap : Heap) (address : Value) : Except Fault Value := do
  let (_, i, slots) ← heap.locate address
  match slots[i]? with
  | some (some v) => .ok v
  | _ => .error .uninitialized

def store (heap : Heap) (address v : Value) : Except Fault Heap := do
  let (object, i, slots) ← heap.locate address
  .ok (heap.set object (some (slots.set i (some v))))

def alloc (heap : Heap) : Value → Except Fault (Heap × Value)
  | .literal (.int n) =>
    if 0 < n then .ok (heap ++ [some (List.replicate n.toNat none)], .pointer heap.length 0)
    else .error .stuck
  | _ => .error .stuck

def free (heap : Heap) : Value → Except Fault Heap
  | .pointer object 0 => match heap[object]? with
    | some (some _) => .ok (heap.set object none)
    | _ => .error .stuck
  | _ => .error .stuck

end Heap

namespace Value

def shift : Value → Value → Except Fault Value
  | .pointer object i, .literal (.int n) => .ok (.pointer object (i + n))
  | _, _ => .error .outside

def literal? : Value → Option Literal
  | .literal v => some v
  | .pointer _ _ => none

end Value

/-- The result of an operation on registers alone. Pointers can be copied and compared. -/
def ValueOp.applyTo (A : Arithmetic) : ValueOp → List Value → Option Value
  | .id, [v] => some v
  | .eq, [.pointer a i, .pointer b j] => some (.literal (.bool (a = b ∧ i = j)))
  | op, vs => do
    let literals ← vs.mapM Value.literal?
    (op.apply A literals).map .literal

structure Frame where
  code : List Instr
  rest : List Instr
  regs : String → Option Value

namespace Frame

def start (f : Function) (args : List Value) : Frame :=
  ⟨f.instrs, f.instrs, fun reg => ((f.params.map (·.name)).zip args).lookup reg⟩

def get (f : Frame) (reg : String) : Except Fault Value :=
  match f.regs reg with
  | some v => .ok v
  | none => .error .uninitialized

def goTo (f : Frame) (rest : List Instr) : Frame := { f with rest }

def set (f : Frame) (reg : String) (v : Value) : Frame :=
  { f with regs := Function.update f.regs reg (some v) }

end Frame

/-- A running program: the memory, the running function, and its callers, each with the register
that waits for the result. -/
structure State where
  heap : Heap
  frame : Frame
  callers : List (Option String × Frame)

namespace State

def start (f : Function) : State := ⟨[], .start f [], []⟩

def goTo (s : State) (rest : List Instr) : State := { s with frame := s.frame.goTo rest }

def put (s : State) (dest : String) (v : Value) (rest : List Instr) : State :=
  { s with frame := (s.frame.set dest v).goTo rest }

def jump (s : State) (label : String) : Except Fault (Option State) :=
  match behind? label s.frame.code with
  | some there => .ok (some (s.goTo there))
  | none => .error .stuck

def enter (s : State) (p : Program) (dest : Option String) (func : String) (args : List Value)
    (rest : List Instr) : Except Fault (Option State) :=
  match p.find? func with
  | some f =>
    if f.params.length = args.length then
      .ok (some ⟨s.heap, .start f args, (dest, s.frame.goTo rest) :: s.callers⟩)
    else .error .stuck
  | none => .error .stuck

/-- Returns to the caller. Without one the program is done. -/
def leave (s : State) (result : Option Value) : Except Fault (Option State) :=
  match s.callers, result with
  | [], _ => .ok none
  | (none, f) :: callers, _ => .ok (some ⟨s.heap, f, callers⟩)
  | (some dest, f) :: callers, some v => .ok (some ⟨s.heap, f.set dest v, callers⟩)
  | (some _, _) :: _, none => .error .stuck

def compute (s : State) (p : Program) (A : Arithmetic) (op : ValueOp) (dest : String)
    (vs : List Value) (funcs : List String) (rest : List Instr) : Except Fault (Option State) :=
  match op, vs, funcs with
  | .call, vs, [func] => s.enter p (some dest) func vs rest
  | .alloc, [size], _ => do
    let (heap, v) ← s.heap.alloc size
    .ok (some ({ s with heap }.put dest v rest))
  | .ptradd, [base, offset], _ => do
    let v ← base.shift offset
    .ok (some (s.put dest v rest))
  | .load, [address], _ => do
    let v ← s.heap.load address
    .ok (some (s.put dest v rest))
  | op, vs, _ => match op.applyTo A vs with
    | some v => .ok (some (s.put dest v rest))
    | none => .error .stuck

def perform (s : State) (p : Program) (op : EffectOp) (vs : List Value) (funcs labels : List String)
    (rest : List Instr) : Except Fault (Option State) :=
  match op, vs, funcs, labels with
  | .jmp, _, _, [label] => s.jump label
  | .br, [.literal (.bool b)], _, [yes, no] => s.jump (if b then yes else no)
  | .call, vs, [func], _ => s.enter p none func vs rest
  | .ret, [], _, _ => s.leave none
  | .ret, [v], _, _ => s.leave (some v)
  | .print, _, _, _ => .ok (some (s.goTo rest))
  | .free, [v], _, _ => do
    let heap ← s.heap.free v
    .ok (some ({ s with heap }.goTo rest))
  | .store, [address, v], _, _ => do
    let heap ← s.heap.store address v
    .ok (some ({ s with heap }.goTo rest))
  | _, _, _, _ => .error .stuck

/-- Runs the next instruction. A program that is done has no next state. -/
def step (p : Program) (A : Arithmetic) (s : State) : Except Fault (Option State) :=
  match s.frame.rest with
  | [] => s.leave none
  | .label _ :: rest => .ok (some (s.goTo rest))
  | .const dest _ v :: rest => .ok (some (s.put dest (.literal v) rest))
  | .value op dest _ args funcs :: rest => do
    let vs ← args.mapM s.frame.get
    s.compute p A op dest vs funcs rest
  | .effect op args funcs labels :: rest => do
    let vs ← args.mapM s.frame.get
    s.perform p op vs funcs labels rest

end State

def Reaches (p : Program) (A : Arithmetic) : State → State → Prop :=
  Relation.ReflTransGen fun s t => s.step p A = .ok (some t)

/-- Running at most `n` instructions of a program. -/
def State.run (p : Program) (A : Arithmetic) : Nat → State → Except Fault (Option State)
  | 0, s => .ok (some s)
  | n + 1, s => do
    match ← s.step p A with
    | some t => t.run p A n
    | none => .ok none

theorem State.run_error {p : Program} {A : Arithmetic} {n : Nat} {s : State} {fault : Fault}
    (h : s.run p A n = .error fault) : ∃ t, Reaches p A s t ∧ t.step p A = .error fault := by
  induction n generalizing s with
  | zero => cases h
  | succ n ih =>
    unfold State.run at h
    cases next : s.step p A with
    | error other =>
      rw [next] at h
      cases h
      exact ⟨s, .refl, next⟩
    | ok t =>
      rw [next] at h
      cases t with
      | none => cases h
      | some t =>
        obtain ⟨u, run, step⟩ := ih h
        exact ⟨u, .head next run, step⟩

/-- Whether a program, run from `main`, never reads or writes memory where no object is. -/
def Program.Safe (p : Program) : Prop :=
  ∀ A f, p.find? "main" = some f → ∀ s, Reaches p A (.start f) s → s.step p A ≠ .error .outside

/-- Whether a program, run from `main`, reads or writes memory where no object is, within its first
`n` instructions. -/
def Program.leaves (p : Program) (A : Arithmetic) (n : Nat) : Bool :=
  match p.find? "main" with
  | some f => match (State.start f).run p A n with
    | .error .outside => true
    | _ => false
  | none => false

theorem Program.not_safe_of_leaves {p : Program} {A : Arithmetic} {n : Nat}
    (h : p.leaves A n = true) : ¬ p.Safe := by
  unfold Program.leaves at h
  intro safe
  split at h
  · rename_i f found
    split at h
    · rename_i outside
      obtain ⟨t, run, step⟩ := State.run_error outside
      exact safe A f found t run step
    · cases h
  · cases h

end Cool.Bril
