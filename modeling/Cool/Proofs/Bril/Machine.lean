import Cool.Bril.Basic
import Mathlib.Logic.Relation

/-!
Running Bril code, one instruction at a time. What is left to run is an end of the code; a jump goes
on behind its label. Calls and memory are left out: code with them is stuck there.
-/
namespace Cool.Bril

def written (code : List Instr) : List String := code.filterMap Instr.dest?

@[simp] theorem written_nil : written [] = [] := rfl

@[simp] theorem written_append (a b : List Instr) : written (a ++ b) = written a ++ written b :=
  List.filterMap_append

theorem written_cons (i : Instr) (code : List Instr) :
    written (i :: code) = i.dest?.toList ++ written code := by
  cases i <;> rfl

def labels (code : List Instr) : List String :=
  code.filterMap fun i => match i with
    | .label name => some name
    | _ => none

@[simp] theorem labels_nil : labels [] = [] := rfl

@[simp] theorem labels_append (a b : List Instr) : labels (a ++ b) = labels a ++ labels b :=
  List.filterMap_append

theorem labels_perm {a b : List Instr} (h : a.Perm b) : (labels a).Perm (labels b) := h.filterMap _

section Labels

variable (code : List Instr) (reg name a b : String) (op : ValueOp) (effect : EffectOp) (ty : Ty)
  (args : List String) (v : Literal)

@[simp] theorem labels_cons_label : labels (.label name :: code) = name :: labels code := rfl

@[simp] theorem labels_cons_literal : labels (.literal reg v :: code) = labels code := rfl

@[simp] theorem labels_cons_compute : labels (.compute op reg ty args :: code) = labels code := rfl

@[simp] theorem labels_cons_call : labels (.call reg ty name args :: code) = labels code := rfl

@[simp] theorem labels_cons_perform : labels (.perform effect args :: code) = labels code := rfl

@[simp] theorem labels_cons_jmp : labels (.jmp name :: code) = labels code := rfl

@[simp] theorem labels_cons_br : labels (.br reg a b :: code) = labels code := rfl

@[simp] theorem labels_cons_ret (result : Option String) :
    labels (.ret result :: code) = labels code := rfl

end Labels

/-- What the operations on integers do; a division may have no result. -/
structure Arithmetic where
  add : Int → Int → Int
  sub : Int → Int → Int
  mul : Int → Int → Int
  div : Int → Int → Option Int
  neg : Int → Int
  neg_eq : ∀ i, neg i = sub 0 i

/-- Integers without bounds, and division towards zero. -/
def Arithmetic.exact : Arithmetic where
  add i j := i + j
  sub i j := i - j
  mul i j := i * j
  div i j := if j = 0 then none else some (i.tdiv j)
  neg i := -i
  neg_eq i := (Int.zero_sub i).symm

abbrev Registers := String → Option Literal

def Registers.set (regs : Registers) (reg : String) (v : Literal) : Registers :=
  fun r => if r = reg then some v else regs r

@[simp] theorem Registers.set_self (regs : Registers) (reg : String) (v : Literal) :
    regs.set reg v reg = some v := if_pos rfl

theorem Registers.set_of_ne (regs : Registers) {reg r : String} (v : Literal) (h : r ≠ reg) :
    regs.set reg v r = regs r := if_neg h

def ValueOp.apply (A : Arithmetic) : ValueOp → List Literal → Option Literal
  | .add, [.int i, .int j] => some (.int (A.add i j))
  | .sub, [.int i, .int j] => some (.int (A.sub i j))
  | .mul, [.int i, .int j] => some (.int (A.mul i j))
  | .div, [.int i, .int j] => (A.div i j).map .int
  | .lt, [.int i, .int j] => some (.bool (i < j))
  | .le, [.int i, .int j] => some (.bool (i ≤ j))
  | .eq, [.int i, .int j] => some (.bool (i = j))
  | .eq, [.bool a, .bool b] => some (.bool (a = b))
  | .not, [.bool b] => some (.bool (!b))
  | .id, [v] => some v
  | _, _ => none

/-- What stands behind a label. -/
def behind? (label : String) : List Instr → Option (List Instr)
  | [] => none
  | i :: rest => if i = .label label then some rest else behind? label rest

abbrev Config := List Instr × Registers

def step (A : Arithmetic) (code : List Instr) : Config → Option Config
  | ([], _) => none
  | (.label _ :: rest, regs) => some (rest, regs)
  | (.const dest _ v :: rest, regs) => some (rest, regs.set dest v)
  | (.value op dest _ args _ :: rest, regs) => do
    let vs ← args.mapM regs
    let v ← op.apply A vs
    some (rest, regs.set dest v)
  | (.effect .jmp _ _ [label] :: _, regs) => do
    let rest ← behind? label code
    some (rest, regs)
  | (.effect .br [cond] _ [yes, no] :: _, regs) =>
    match regs cond with
    | some (.bool b) => do
      let rest ← behind? (if b then yes else no) code
      some (rest, regs)
    | _ => none
  | (.effect _ _ _ _ :: _, _) => none

def Runs (A : Arithmetic) (code : List Instr) : Config → Config → Prop :=
  Relation.ReflTransGen fun c d => step A code c = some d

theorem behind?_append {label : String} {before rest : List Instr}
    (h : label ∉ labels before) : behind? label (before ++ .label label :: rest) = some rest := by
  induction before with
  | nil => exact if_pos rfl
  | cons i before ih =>
    have other : i ≠ .label label := by
      rintro rfl
      exact h List.mem_cons_self
    have later : label ∉ labels before := fun m => h ((List.sublist_cons_self i before).filterMap _
      |>.subset m)
    rw [List.cons_append, behind?, if_neg other, ih later]

theorem behind?_of_suffix {label : String} {code rest : List Instr} (hn : (labels code).Nodup)
    (hs : .label label :: rest <:+ code) : behind? label code = some rest := by
  obtain ⟨before, rfl⟩ := hs
  apply behind?_append
  intro h
  rw [labels_append] at hn
  exact (List.nodup_append.mp hn).2.2 label h label List.mem_cons_self rfl

theorem behind?_suffix {label : String} {code there : List Instr}
    (h : behind? label code = some there) : there <:+ code := by
  induction code with
  | nil => cases h
  | cons i code ih =>
    unfold behind? at h
    split at h
    · exact Option.some.inj h ▸ List.suffix_cons i code
    · exact (ih h).trans (List.suffix_cons i code)

namespace Runs

variable {A : Arithmetic} {code rest : List Instr} {regs : Registers}

theorem label (name : String) : Runs A code (.label name :: rest, regs) (rest, regs) :=
  .single rfl

theorem literal (dest : String) (v : Literal) :
    Runs A code (.literal dest v :: rest, regs) (rest, regs.set dest v) :=
  .single rfl

theorem compute {op : ValueOp} {dest : String} {ty : Ty} {args : List String} {vs : List Literal}
    {v : Literal} (hargs : args.mapM regs = some vs) (hv : op.apply A vs = some v) :
    Runs A code (.compute op dest ty args :: rest, regs) (rest, regs.set dest v) := by
  refine .single ?_
  simp only [step, Instr.compute, hargs, Option.bind_eq_bind, Option.bind_some, hv]

theorem jmp {label : String} {there : List Instr} (hl : behind? label code = some there) :
    Runs A code (.jmp label :: rest, regs) (there, regs) := by
  refine .single ?_
  simp only [step, Instr.jmp, hl, Option.bind_eq_bind, Option.bind_some]

theorem br {cond yes no : String} {b : Bool} {there : List Instr}
    (hc : regs cond = some (.bool b)) (hl : behind? (if b then yes else no) code = some there) :
    Runs A code (.br cond yes no :: rest, regs) (there, regs) := by
  refine .single ?_
  simp only [step, Instr.br, hc, hl, Option.bind_eq_bind, Option.bind_some]

end Runs

end Cool.Bril
