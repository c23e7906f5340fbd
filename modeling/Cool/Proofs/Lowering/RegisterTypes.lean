import Cool.Proofs.Lowering.Gaps
import Cool.Proofs.Lowering.Settles
import Cool.Proofs.Typing.Arguments
import Cool.Proofs.Typing.SelfType

/-!
The registers of generated code have types. A variable has that of its class, and a temporary that
of the class which the checker found for its expression, or it holds the object at hand. New
registers get their types one by one, so code that has some stays right whatever registers are given
out later.
-/
namespace Cool

open LowerEnv
open Bril (Instr Ty Kind Result Signature Under)
open FunctionState (tempName Keeps Extends)
open Relation (ReflTransGen)

section Signatures

/-- What a method with a result of a declared type returns: its receiver, where the type is
`SELF_TYPE` and descendants of the class have more attributes, and else an object of that type. -/
inductive Returns (t : ClassTable) (c type : ClassName) : Result ClassName → Prop where
  | receiver : type = .selfType → ¬ t.Unextended c → Returns t c type .receiver
  | value : (type = .selfType → t.Unextended c) →
      Returns t c type (.value (type.resolve c).kind)

inductive Signed (t : ClassTable) (classes : List ClassDecl) :
    String → Signature ClassName → Prop where
  | outInt : Signed t classes (ClassName.io.memberName (ascii "out_int")) ⟨none, [none], .receiver⟩
  | constructor {c} : c ∈ classes →
      Signed t classes c.className.constructorName ⟨c.className.kind, [], .receiver⟩
  | method {c m r} : c ∈ classes → m ∈ c.methods → Returns t c.className m.type.result r →
      Signed t classes (c.className.memberName m.name.text)
        ⟨c.className.kind, m.type.params.map fun p => (p.resolve c.className).kind, r⟩

variable {t : ClassTable} {classes : List ClassDecl} {c owner : ClassName} {m : MethodType}

theorem exists_returns (t : ClassTable) (c type : ClassName) : ∃ r, Returns t c type r := by
  by_cases h : type = .selfType → t.Unextended c
  · exact ⟨_, .value h⟩
  · rw [Classical.not_imp] at h
    exact ⟨_, .receiver h.1 h.2⟩

/-- A method that has code has a signature: it can be called on what has the method, and returns
what the type of its result says. -/
theorem exists_signed (h : t.Outlines classes) {name : Bytes}
    (found : t.findMethod? c name = some (owner, m)) (code : HasCode owner name) :
    ∃ r, Returns t owner m.result r ∧ Signed t classes (owner.memberName name)
      ⟨owner.kind, m.params.map fun p => (p.resolve owner).kind, r⟩ := by
  rcases (h.findMethod?_eq_some found).2 with ⟨o, outline, there⟩ | ⟨d, hd, rfl, k, hk, rfl, rfl⟩
  · have builtin := ClassTable.isBuiltin_of_outline? outline
    have isOutInt : owner = .io ∧ name = ascii "out_int" := by
      simpa [HasCode, builtin, hasFunction] using code
    obtain ⟨rfl, rfl⟩ := isOutInt
    cases outline
    cases there
    exact ⟨.receiver, .receiver rfl fun h => Bool.noConfusion h.notBuiltin, .outInt⟩
  · obtain ⟨r, returns⟩ := exists_returns t d.className k.type.result
    exact ⟨r, returns, .method hd hk returns⟩

end Signatures

section Registers

structure Role where
  here : Option ClassName
  result : Option (Result ClassName)
  self : Kind ClassName

abbrev Kinds := String → Kind ClassName

abbrev Role.kinds (role : Role) : Meaning (Kind ClassName) := ⟨role.self, fun c => .value c.kind⟩

end Registers

section Expressions

/-- Whether the types of arguments conform to those that a method of `owner` knows them under. -/
def LowerEnv.Passes (env : LowerEnv) (L : Scopes ClassName) (owner : ClassName) :
    List Expr → List ClassName → Prop :=
  List.Forall₂ fun a p => ∀ T, Typed (env.typing L) a T →
    env.table.conforms (T.resolve env.self) (p.resolve owner) owner = true

structure Setting where
  env : LowerEnv
  classes : List ClassDecl
  role : Role

namespace Setting

variable (w : Setting)

def Right (k : Kinds) (code : List Instr) : Prop :=
  ∀ i ∈ code, i.Typed w.env.table.layout (Signed w.env.table w.classes) w.role.here w.role.result k

def Fits (k : Kinds) (reg : String) (c : ClassName) : Prop :=
  Bril.Fits w.env.table.layout w.role.here (k reg) (.value c.kind)

/-- Whether the value of an expression is in a register of the kind of its type, or of that of the
object at hand if it is that object, and not any object of a class that is not extended. -/
structure Placed (k : Kinds) (L : Scopes ClassName) (e : Expr) (x : Lowered) : Prop where
  fits : ∀ T, Typed (w.env.typing L) e T → w.Fits k x.dest (T.resolve w.env.self)
  self : YieldsSelf w.env.table w.env.self e → ¬ w.env.table.Unextended w.env.self →
    k x.dest = w.role.self

/-- Whether the registers that are given out for an expression can get kinds with which its code is
right. -/
abbrev Settled (s t : FunctionState) (L : Scopes ClassName) (e : Expr) (x : Lowered) : Prop :=
  Settles w.role.kinds s t fun m => w.Right m x.code ∧ w.Placed m L e x

abbrev SettledAll (s t : FunctionState) (L : Scopes ClassName) (es : List Expr)
    (xs : List Lowered) : Prop :=
  Settles w.role.kinds s t fun m =>
    w.Right m (xs.flatMap (·.code)) ∧ List.Forall₂ (w.Placed m L) es xs

structure Fair : Prop where
  regular : w.env.table.Regular
  outlines : w.env.table.Outlines w.classes
  kept : w.env.table.SelfAttributesKept w.classes
  notBuiltin : w.env.self.isBuiltin = false
  notSelf : w.env.self ≠ .selfType
  self : Bril.Fits w.env.table.layout w.role.here w.role.self (.value w.env.self.kind)

variable {w} {k : Kinds} {code : List Instr} {i : Instr}

@[simp] theorem right_nil : w.Right k [] := List.forall_mem_nil _

@[simp] theorem right_cons : w.Right k (i :: code) ↔
    i.Typed w.env.table.layout (Signed w.env.table w.classes) w.role.here w.role.result k ∧
      w.Right k code := List.forall_mem_cons

@[simp] theorem right_append {more : List Instr} :
    w.Right k (code ++ more) ↔ w.Right k code ∧ w.Right k more := List.forall_mem_append

variable {s t u : FunctionState} {L : Scopes ClassName} {e : Expr} {x : Lowered}

theorem Fits.under {reg : String} {c d : ClassName} (h : w.Fits k reg c)
    (under : Under w.env.table.Stands c.kind d.kind) : w.Fits k reg d :=
  Bril.Fits.under h under

theorem Fits.of_kind {reg : String} {c : ClassName} {a : Kind ClassName} (h : k reg = a)
    (fits : Bril.Fits w.env.table.layout w.role.here a (.value c.kind)) : w.Fits k reg c := by
  unfold Fits
  rwa [h]

theorem Fits.of_eq {reg : String} {c : ClassName} (h : k reg = .value c.kind) : w.Fits k reg c :=
  .of_kind h (.refl _)

theorem Fits.any {reg : String} {c : ClassName} (h : c.kind = none) : w.Fits k reg c := by
  unfold Fits
  rw [h]
  exact .any _

theorem typed_operation {op : BinaryOp} {dest : String} {ty : Ty} {args : List String}
    (h : k dest = .value none) : (Instr.compute (operation op).1 dest ty args).Typed
      w.env.table.layout (Signed w.env.table w.classes) w.role.here w.role.result k := by
  cases op <;> exact .operation nofun nofun nofun h

theorem right_defaultCode {dest : String} {c : ClassName} (h : k dest = .value c.kind) :
    w.Right k (defaultCode dest c) := by
  unfold defaultCode
  cases value : c.default? with
  | none => exact right_nil
  | some v =>
    refine right_cons.mpr ⟨.literal ?_, right_nil⟩
    rw [h, ClassName.kind_of_default? value]

/-- A literal is of no class, so it fits where the expression is of a built-in type. -/
theorem literal_settles {v : Bril.Literal} {type : ClassName}
    (builtin : ∀ T, Typed (w.env.typing L) e T → (T.resolve w.env.self).kind = none)
    (other : ¬ YieldsSelf w.env.table w.env.self e) :
    w.Settled s (s.skip 1) L e ⟨[.literal (tempName s.next) v], tempName s.next, type⟩ :=
  (Settles.temp s (.value none)).imp fun _ _ dest =>
    ⟨right_cons.mpr ⟨.literal dest, right_nil⟩, fun T hT => .any (builtin T hT),
      fun yields => absurd yields other⟩

theorem right_condCode {id : Nat} {x y z : Lowered} (hx : w.Right k x.code) (hy : w.Right k y.code)
    (hz : w.Right k z.code)
    (yes : Bril.Fits w.env.table.layout w.role.here (k y.dest) (k (tempName (id + 1))))
    (no : Bril.Fits w.env.table.layout w.role.here (k z.dest) (k (tempName (id + 1)))) :
    w.Right k (condCode id x y z) := by
  simp only [condCode, right_append, right_cons, right_nil, and_true]
  exact ⟨⟨⟨⟨⟨⟨⟨⟨hx, .br⟩, .label⟩, hy⟩, .copy yes, .jmp⟩, .label⟩, hz⟩, .copy no, .jmp⟩, .label⟩

theorem right_loopCode {id : Nat} {x y : Lowered} (hx : w.Right k x.code)
    (hy : w.Right k y.code) : w.Right k (loopCode id x y).code := by
  simp only [loopCode, right_append, right_cons, right_nil, and_true]
  exact ⟨⟨⟨⟨.label, hx⟩, .br, .label⟩, hy⟩, .jmp, .label⟩

theorem layout_slot {slot : Nat} {name : Bytes} {type : ClassName}
    (h : w.env.table.slot? w.env.self name = some (slot, type)) :
    (w.env.table.layout.slots w.env.self)[slot]? = some (type.resolve w.env.self).kind := by
  change ((w.env.table.allAttributes w.env.self).map _)[slot]? = _
  rw [List.getElem?_map, ClassTable.slot?_eq_some h]
  rfl

theorem right_alloc {size dest : String} {c : ClassName} {ty : Ty}
    (hsize : k size = .number (w.env.table.objectSize c)) (hdest : k dest = .value c.kind) :
    w.Right k
      [.literal size (.int (w.env.table.objectSize c)), .compute .alloc dest ty [size]] := by
  have room : (w.env.table.layout.slots c).length ≤ w.env.table.objectSize c := by
    change ((w.env.table.allAttributes c).map _).length ≤ _
    rw [List.length_map]
    exact Nat.le_max_left _ _
  have object : Bril.Fits w.env.table.layout w.role.here (.value (some c)) (k dest) := by
    rw [hdest]
    cases builtin : c.isBuiltin with
    | true =>
      rw [ClassName.kind_of_builtin builtin]
      exact .any _
    | false =>
      rw [ClassName.kind_of_not_builtin builtin]
      exact .refl _
  exact right_cons.mpr ⟨.number hsize, right_cons.mpr ⟨.alloc hsize room object, right_nil⟩⟩

namespace Fair

variable (fair : w.Fair)
include fair

theorem fits_self (knows : Knows w.role.kinds k s) : w.Fits k selfReg w.env.self :=
  .of_kind knows.self fair.self

theorem address (s : FunctionState) (slot : Nat) :
    Settles w.role.kinds s (s.skip 2) fun m => w.Right m (addressCode s.next slot) ∧
      m (tempName (s.next + 1)) = .slot w.env.self slot := by
  refine (Settles.temp₂ s (.number slot) (.slot w.env.self slot)).imp ?_
  rintro m here ⟨number, address⟩
  refine ⟨?_, address⟩
  have known : m selfReg = w.role.self := here.self
  have self := fair.self
  rw [ClassName.kind_of_not_builtin fair.notBuiltin, ← known] at self
  simp only [addressCode, right_cons, right_nil, and_true]
  exact ⟨.number number, .address self number address⟩

/-- A call is right where the receiver and the arguments are what the method takes. -/
theorem call {d U owner : ClassName} {name : Bytes} {m : MethodType}
    (found : w.env.table.findMethod? d name = some (owner, m)) (hasCode : HasCode owner name)
    (inherits : owner ∈ w.env.table.lineage (U.resolve w.env.self)) {first dest : String}
    {regs : List String} {ty : Ty} (hfirst : w.Fits k first (U.resolve w.env.self))
    (hargs : List.Forall₂ (fun reg p => w.Fits k reg (p.resolve owner)) regs m.params)
    (hdest : k dest = .value ((Env.resultOf U m.result).resolve w.env.self).kind ∨
      m.result = .selfType ∧ ¬ w.env.table.Unextended owner ∧ k dest = k first) :
    w.Right k [.call dest ty (owner.memberName name) (first :: regs)] := by
  obtain ⟨r, returns, signed⟩ := exists_signed fair.outlines found hasCode
  rw [right_cons]
  refine ⟨.call signed (hfirst.under (fair.outlines.under fair.kept inherits))
    (List.forall₂_map_right_iff.mpr hargs) ?_, right_nil⟩
  cases returns with
  | receiver isSelf _ =>
    rcases hdest with hdest | ⟨_, _, same⟩
    · rw [hdest, isSelf]
      exact hfirst
    · rw [same]
      exact .refl _
  | value closed =>
    rcases hdest with hdest | ⟨isSelf, open_, _⟩
    · rw [hdest]
      refine .value ?_
      cases result : m.result with
      | selfType => exact fair.outlines.under_descendant (closed result) inherits
      | builtin _ | named _ => exact Under.refl _
    · exact absurd (closed isSelf) open_

theorem called {d U owner : ClassName} {name : Bytes} {m : MethodType} {result : ClassName}
    {r : Lowered} {xs : List Lowered}
    (found : w.env.table.findMethod? d name = some (owner, m)) (hasCode : HasCode owner name)
    (inherits : owner ∈ w.env.table.lineage (U.resolve w.env.self))
    (operands : Settles w.role.kinds s u fun l =>
      w.Right l ((r :: xs).flatMap (·.code)) ∧ w.Fits l r.dest (U.resolve w.env.self) ∧
        (YieldsSelf w.env.table w.env.self e → ¬ w.env.table.Unextended w.env.self →
          l r.dest = w.role.self) ∧
        List.Forall₂ (fun x p => w.Fits l x.dest (p.resolve owner)) xs m.params)
    (typed : ∀ T, Typed (w.env.typing L) e T → T = Env.resultOf U m.result)
    (yields : YieldsSelf w.env.table w.env.self e →
      m.result = .selfType ∧ U.resolve w.env.self = w.env.self) :
    w.Settled s (u.skip 1) L e (LowerEnv.called u.next owner name result (r :: xs)) := by
  have code {l : Kinds} (before : w.Right l ((r :: xs).flatMap (·.code)))
      (call : w.Right l [.call (tempName u.next) result.ty (owner.memberName name)
        (r.dest :: xs.map Lowered.dest)]) :
      w.Right l (LowerEnv.called u.next owner name result (r :: xs)).code :=
    right_append.mpr ⟨before, call⟩
  by_cases kept : YieldsSelf w.env.table w.env.self e ∧ ¬ w.env.table.Unextended w.env.self
  · obtain ⟨isSelf, receiver⟩ := yields kept.1
    have open_ : ¬ w.env.table.Unextended owner := fun closed =>
      kept.2 (receiver ▸ fair.outlines.unextended_descendant closed inherits)
    refine (operands.bind (.temp u w.role.self)).imp ?_
    rintro l knows ⟨⟨before, first, self, args⟩, dest⟩
    refine ⟨code before (fair.call found hasCode inherits first
      (List.forall₂_map_left_iff.mpr args) (.inr ⟨isSelf, open_, ?_⟩)),
      fun T hT => ?_, fun _ _ => dest⟩
    · exact dest.trans (self kept.1 kept.2).symm
    · rw [typed T hT, isSelf, show Env.resultOf U .selfType = U from rfl, receiver]
      exact .of_kind dest fair.self
  · refine (operands.bind
      (.temp u (.value ((Env.resultOf U m.result).resolve w.env.self).kind))).imp ?_
    rintro l knows ⟨⟨before, first, _, args⟩, dest⟩
    refine ⟨code before (fair.call found hasCode inherits first
      (List.forall₂_map_left_iff.mpr args) (.inl dest)), fun T hT => ?_,
      fun h h' => absurd ⟨h, h'⟩ kept⟩
    rw [typed T hT]
    exact .of_eq dest

theorem joined {test yes no : Expr} {span : Span} {x y z : Lowered} {type : ClassName}
    (parts : Settles w.role.kinds s u fun l => w.Right l x.code ∧
      (w.Right l y.code ∧ w.Placed l L yes y) ∧ (w.Right l z.code ∧ w.Placed l L no z))
    (typed : ∃ T, Typed (w.env.typing L) (.cond test yes no span) T) :
    w.Settled s (u.skip 2) L (.cond test yes no span)
      ⟨condCode u.next x y z, tempName (u.next + 1), type⟩ := by
  obtain ⟨T, hT⟩ := typed
  obtain ⟨_, Y, N, hY, hN, rfl⟩ := hT.cond
  have settles (a : Kind ClassName) := parts.bind (.temp₂ u (.value none) a)
  have copied {l : Kinds} {a : Kind ClassName} {reg : String} (dest : l (tempName (u.next + 1)) = a)
      (h : Bril.Fits w.env.table.layout w.role.here (l reg) a) :
      Bril.Fits w.env.table.layout w.role.here (l reg) (l (tempName (u.next + 1))) := by
    rwa [dest]
  by_cases kept : YieldsSelf w.env.table w.env.self (.cond test yes no span) ∧
      ¬ w.env.table.Unextended w.env.self
  · refine (settles w.role.self).imp ?_
    rintro l _ ⟨⟨codeTest, ⟨codeYes, placedYes⟩, codeNo, placedNo⟩, _, dest⟩
    cases kept.1 with | cond yieldsYes yieldsNo =>
    refine ⟨right_condCode codeTest codeYes codeNo
      (copied dest (placedYes.self yieldsYes kept.2 ▸ .refl _))
      (copied dest (placedNo.self yieldsNo kept.2 ▸ .refl _)), fun T hT' => ?_, fun _ _ => dest⟩
    rw [kept.1.type hT']
    exact .of_kind dest fair.self
  · refine (settles (.value (w.env.table.join Y N w.env.self).kind)).imp ?_
    rintro l _ ⟨⟨codeTest, ⟨codeYes, placedYes⟩, codeNo, placedNo⟩, _, dest⟩
    have under := fair.outlines.under_join fair.kept Y N w.env.self
    refine ⟨right_condCode codeTest codeYes codeNo
      (copied dest ((placedYes.fits Y hY).under under.1))
      (copied dest ((placedNo.fits N hN).under under.2)), fun T hT' => ?_,
      fun h h' => absurd ⟨h, h'⟩ kept⟩
    cases hT'.symm.trans hT
    have resolved : ((w.env.typing L).join Y N).resolve w.env.self = (w.env.typing L).join Y N :=
      ClassName.resolve_eq_self (ClassTable.join_ne_selfType fair.regular fair.notSelf Y N)
    rw [resolved]
    exact .of_eq dest

/-- An object may be set up, and stays where it is. -/
theorem construct {reg : String} {c : ClassName} {ty : Ty} (notBuiltin : c.isBuiltin = false)
    (known : w.env.table.contains c = true) (hreg : k reg = .value c.kind) :
    w.Right k [.call reg ty c.constructorName [reg]] := by
  obtain ⟨d, hd, rfl⟩ := (fair.outlines.contains_iff_mem notBuiltin).mp known
  refine right_cons.mpr ⟨.call (.constructor hd) ?_ .nil (.refl _), right_nil⟩
  rw [hreg]
  exact .refl _

theorem objectCode {id : Nat} {c : ClassName} (known : w.env.table.contains c = true)
    (size : k (tempName id) = .number (w.env.table.objectSize c))
    (dest : k (tempName (id + 1)) = .value c.kind) : w.Right k (w.env.objectCode id c) := by
  refine right_append.mpr ⟨right_alloc size dest, ?_⟩
  split
  · exact right_nil
  · rename_i notBuiltin
    exact fair.construct (Bool.eq_false_iff.mpr notBuiltin) known dest

/-- Arguments whose types conform to those of the parameters are what the method takes. -/
theorem passed {args : List Expr} {xs : List Lowered} {params : List ClassName} {owner : ClassName}
    (placed : List.Forall₂ (w.Placed k L) args xs)
    (typed : ∀ a ∈ args, ∃ T, Typed (w.env.typing L) a T)
    (passes : w.env.Passes L owner args params) :
    List.Forall₂ (fun x p => w.Fits k x.dest (p.resolve owner)) xs params := by
  induction placed generalizing params with
  | nil =>
    cases passes
    exact .nil
  | cons here _ ih =>
    cases passes with | cons pass passes =>
    rw [List.forall_mem_cons] at typed
    obtain ⟨⟨T, hT⟩, typed⟩ := typed
    have inherits := (ClassTable.conforms_resolve_iff fair.notSelf).mp (pass T hT)
    exact .cons ((here.fits T hT).under (fair.outlines.under fair.kept inherits)) (ih typed passes)

theorem operands {receiver : Expr} {U owner : ClassName} {args : List Expr} {r : Lowered}
    {xs : List Lowered} {params : List ClassName}
    (first : w.Settled s t L receiver r) (rest : w.SettledAll t u L args xs)
    (hU : Typed (w.env.typing L) receiver U)
    (typed : ∀ a ∈ args, ∃ T, Typed (w.env.typing L) a T)
    (passes : w.env.Passes L owner args params)
    (yields : YieldsSelf w.env.table w.env.self e → YieldsSelf w.env.table w.env.self receiver) :
    Settles w.role.kinds s u fun m =>
      w.Right m ((r :: xs).flatMap (·.code)) ∧ w.Fits m r.dest (U.resolve w.env.self) ∧
        (YieldsSelf w.env.table w.env.self e → ¬ w.env.table.Unextended w.env.self →
          m r.dest = w.role.self) ∧
        List.Forall₂ (fun x p => w.Fits m x.dest (p.resolve owner)) xs params :=
  (first.bind rest).imp fun _ _ ⟨⟨codeFirst, placedFirst⟩, codes, placed⟩ =>
    ⟨right_append.mpr ⟨codeFirst, codes⟩, placedFirst.fits U hU,
      fun h => placedFirst.self (yields h), fair.passed placed typed passes⟩

end Fair

end Setting

end Expressions

end Cool
