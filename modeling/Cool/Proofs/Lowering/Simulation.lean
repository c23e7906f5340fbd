import Cool.Proofs.Lowering.Labels
import Cool.Proofs.Lowering.Variables

/-!
Running the code of a local expression does what evaluating the expression does: the registers of
the variables hold their new values, and the register of the expression holds its value.
-/
namespace Cool

open Bril (Arithmetic Literal Registers Triple Instr written labels)
open FunctionState (Keeps tempName)
open LowerEnv

structure Ready (env : LowerEnv) (site : Site) : Prop where
  fits : Fits env [] site
  isLocal : site.expr.isLocal site.locals = true

theorem Ready.child {env : LowerEnv} {a b : Site} (h : Ready env a) (hc : Child env a b) :
    Ready env b :=
  ⟨h.fits.child hc, isLocal_child h.isLocal hc⟩

structure Leaves (s : FunctionState) (ρ : Store) (value : Option Literal) (reg : String)
    (regs : Registers) : Prop where
  stored : Stored s ρ regs
  value : ∃ w, regs reg = some w ∧ ∀ v ∈ value, v = w

namespace Leaves

variable {A : Arithmetic} {s t : FunctionState} {ρ : Store} {value : Option Literal} {v : Literal}
  {reg dest : String} {regs : Registers} {ty : Bril.Ty}

theorem holds (h : Leaves s ρ (some v) reg regs) : regs reg = some v := by
  obtain ⟨w, hw, same⟩ := h.value
  rw [hw, same v rfl]

theorem of_holds (h : Stored s ρ regs) (hv : regs reg = some v) : Leaves s ρ (some v) reg regs :=
  ⟨h, v, hv, fun _ h => (Option.some.inj h).symm⟩

theorem forget (h : Leaves s ρ (some v) reg regs) : Leaves s ρ none reg regs :=
  ⟨h.stored, v, h.holds, fun _ h => (Option.not_mem_none _ h).elim⟩

/-- A value in a new register. -/
theorem set (h : Stored s ρ regs) (sound : s.Sound) (new : ¬ s.Given dest) :
    Leaves s ρ (some v) dest (regs.set dest v) :=
  of_holds (h.set sound new) (Registers.set_self _ _ _)

theorem of_keeps (h : Leaves t ρ value reg regs) (keeps : s.Keeps t) : Leaves s ρ value reg regs :=
  ⟨h.stored.of_keeps keeps, h.value⟩

theorem copy (sound : s.Sound) (new : ¬ s.Given dest) :
    Triple A (Leaves s ρ value reg) [.compute .id dest ty [reg]] (Leaves s ρ value dest) := by
  refine Triple.id.imp (fun regs h => ?_) fun _ h => h
  obtain ⟨w, hw, same⟩ := h.value
  exact ⟨w, hw, h.stored.set sound new, w, Registers.set_self _ _ _, same⟩

end Leaves

theorem operation_apply (A : Arithmetic) (op : BinaryOp) (v w : Literal) :
    (operation op).1.apply A [v, w] = op.eval A v w := by
  cases op <;> cases v <;> cases w <;> rfl

theorem defaultCode_of_startValue {c : ClassName} {v : Literal} {dest : String}
    (h : c.startValue? = some v) : defaultCode dest c = [.literal dest v] := by
  have same : c.default? = c.startValue? := by
    cases c with
    | builtin b => cases b <;> rfl
    | named _ | selfType => rfl
  rw [defaultCode, same, h]
  rfl

section Cases

variable {A : Arithmetic} {env : LowerEnv} {L : Scopes ClassName} {s t u : FunctionState}
  {ρ ρ₁ ρ' : Store} {x y : Lowered} {v w r : Literal} {value : Option Literal}

theorem triple_assign {name : Name} {e : Expr} {span : Span} {z : Local}
    (ready : Ready env ⟨L, s, .assign name e span⟩) (found : s.find? name.text = some z)
    (h : Triple A (Stored s ρ) x.code (Leaves s ρ' (some v) x.dest)) :
    Triple A (Stored s ρ) (x.code ++ [.compute .id z.reg z.type.ty [x.dest]])
      (Leaves s (Store.assign name.text v ρ') (some v) z.reg) := by
  have isLocal := ready.isLocal
  simp only [Expr.isLocal, Bool.and_eq_true] at isLocal
  obtain ⟨z', found', scalar⟩ := ready.fits.agree.find?_of_isScalar isLocal.1
  cases found.symm.trans found'
  refine h.seq (Triple.id.imp (fun regs hx => ?_) fun _ h => h)
  exact ⟨v, hx.holds, .of_holds (hx.stored.assign ready.fits.sound found scalar)
    (Registers.set_self _ _ _)⟩

theorem triple_name {name : Name} {z : Local} (ready : Ready env ⟨L, s, .name name⟩)
    (found : s.find? name.text = some z) (hv : ρ.lookup name.text = some v) :
    Triple A (Stored s ρ) [] (Leaves s ρ (some v) z.reg) := by
  have isLocal := ready.isLocal
  simp only [Expr.isLocal, Bool.and_eq_true] at isLocal
  obtain ⟨z', found', scalar⟩ := ready.fits.agree.find?_of_isScalar isLocal.2
  cases found.symm.trans found'
  refine Triple.nil.imp (fun _ h => h) fun regs stored => ?_
  obtain ⟨w, hw, hr⟩ := stored.find? found scalar
  cases hw.symm.trans hv
  exact .of_holds stored hr

theorem triple_binary {op : BinaryOp} {left right : Expr} {span : Span} {ty : Bril.Ty}
    (ready : Ready env ⟨L, s, .binary op left right span⟩) (hl : Lowers env s left x t)
    (hr : Lowers env t right y u) (hx : Triple A (Stored s ρ) x.code (Leaves s ρ₁ (some v) x.dest))
    (hy : Triple A (Stored t ρ₁) y.code (Leaves t ρ' (some w) y.dest))
    (result : op.eval A v w = some r) :
    Triple A (Stored s ρ) (x.code ++ y.code ++
        [.compute (operation op).1 (tempName u.next) ty [x.dest, y.dest]])
      (Leaves s ρ' (some r) (tempName u.next)) := by
  have isLocal := ready.isLocal
  simp only [Expr.isLocal, Bool.and_eq_true] at isLocal
  cases ready.fits.wellFormed with | binary hwl hwr =>
  have sound := ready.fits.sound
  have first := hl.keeps hwl
  have both := first.trans (hr.keeps hwr)
  -- the right operand assigns nothing, so the register of the left one is safe
  have kept : x.dest ∉ written y.code := by
    intro hd
    obtain ⟨n, hn, _⟩ := ((hr.confined (first.sound sound) hwr).2 _ hd).2 (hl.confined sound hwl).1
    rw [List.isEmpty_iff.mp isLocal.2] at hn
    cases hn
  have left := hx.imp (fun _ h => h) fun regs h =>
    And.intro (h.stored.keeps first) h.holds
  refine (left.seq (hy.keep kept v)).seq (Triple.compute.imp ?_ fun _ h => h)
  rintro regs ⟨h, hv⟩
  refine ⟨[v, w], r, by simp [hv, h.holds], (operation_apply A op v w).trans result, ?_⟩
  exact .set (h.stored.of_keeps first) sound (sound.temp_not_given both.next)

theorem triple_complement {operand : Expr} {i : Int} (hw : operand.WellFormed) (sound : s.Sound)
    (hl : Lowers env s operand x t)
    (hx : Triple A (Stored s ρ) x.code (Leaves s ρ' (some (.int i)) x.dest)) :
    Triple A (Stored s ρ) (x.code ++ [.literal (tempName t.next) (.int 0),
        .compute .sub (tempName (t.next + 1)) .int [tempName t.next, x.dest]])
      (Leaves s ρ' (some (.int (A.neg i))) (tempName (t.next + 1))) := by
  have keeps := hl.keeps hw
  have apart : x.dest ≠ tempName t.next := fun same =>
    (keeps.sound sound).temp_not_given (Nat.le_refl _) (same ▸ (hl.confined sound hw).1)
  have zero : Triple A (Leaves s ρ' (some (.int i)) x.dest) [.literal (tempName t.next) (.int 0)]
      fun regs => Leaves s ρ' (some (.int i)) x.dest regs ∧
        regs (tempName t.next) = some (.int 0) := by
    refine (Triple.literal _).imp (fun regs h => ?_) fun _ h => h
    have stored := h.stored.set (v := .int 0) sound (sound.temp_not_given keeps.next)
    exact ⟨.of_holds stored ((Registers.set_of_ne _ _ apart).trans h.holds),
      Registers.set_self _ _ _⟩
  refine hx.seq (zero.seq (Triple.compute.imp ?_ fun _ h => h))
  rintro regs ⟨h, hz⟩
  refine ⟨[.int 0, .int i], .int (A.neg i), by simp [hz, h.holds], ?_, ?_⟩
  · rw [A.neg_eq]
    rfl
  · exact .set h.stored sound (sound.temp_not_given (Nat.le_succ_of_le keeps.next))

theorem triple_not {operand : Expr} {b : Bool} (hw : operand.WellFormed) (sound : s.Sound)
    (hl : Lowers env s operand x t)
    (hx : Triple A (Stored s ρ) x.code (Leaves s ρ' (some (.bool b)) x.dest)) :
    Triple A (Stored s ρ) (x.code ++ [.compute .not (tempName t.next) .bool [x.dest]])
      (Leaves s ρ' (some (.bool (!b))) (tempName t.next)) := by
  refine hx.seq (Triple.compute.imp (fun regs h => ?_) fun _ h => h)
  exact ⟨[.bool b], .bool (!b), by simp [h.holds], rfl,
    .set h.stored sound (sound.temp_not_given (hl.keeps hw).next)⟩

end Cases

/-- The code of a local expression does what evaluating the expression does. -/
theorem Eval.triple {A : Arithmetic} {env : LowerEnv} {ρ ρ' : Store} {e : Expr}
    {value : Option Literal} (h : Eval A ρ e value ρ') {L : Scopes ClassName} {s t : FunctionState}
    {x : Lowered} (lowers : Lowers env s e x t) (ready : Ready env ⟨L, s, e⟩) :
    Triple A (Stored s ρ) x.code (Leaves s ρ' value x.dest) := by
  -- On the evaluation and not on the expression, since a loop that goes on evaluates itself again.
  induction h using Eval.rec
    (motive_2 := fun ρ es value ρ' _ => ∀ L s xs t y, LowersAll env s es xs t → s.Sound →
      (∀ e ∈ es, e.WellFormed) → (∀ before e after ys u, es = before ++ e :: after →
        LowersAll env s before ys u → Ready env ⟨L, u, e⟩) →
      Triple A (Stored s ρ) (xs.flatMap (·.code)) (Leaves s ρ' value (xs.getLast?.getD y).dest))
    (motive_3 := fun ρ bs ρ' _ => ∀ L s code t, LowersBindings env s bs code t → s.Sound →
      (∀ b ∈ bs, Binding.WellFormed b) → bindingsLocal L bs = true →
      (∀ before name type e span after code u, bs = before ++ ⟨name, type, some e, span⟩ :: after →
        LowersBindings env s before code u → Ready env ⟨L.bindAll before, u, e⟩) →
      Triple A (Stored s ρ) code (Stored t ρ')) generalizing L s t x with
  | assign _ ih =>
    cases lowers with
    | assignLocal hv found =>
      cases ready.fits.wellFormed with | assign _ hw =>
      rw [(hv.keeps hw).find?] at found
      exact triple_assign ready found (ih hv (ready.child .value))
    | assignAttribute hv absent _ =>
      cases ready.fits.wellFormed with | assign _ hw =>
      have isLocal := ready.isLocal
      simp only [Expr.isLocal, Bool.and_eq_true] at isLocal
      obtain ⟨y, found, _⟩ := ready.fits.agree.find?_of_isScalar isLocal.1
      rw [(hv.keeps hw).find?] at absent
      cases found.symm.trans absent
  | @cond _ _ _ _ _ _ _ b _ _ _ iht ih =>
    cases lowers with | @cond _ t u w _ _ _ _ x y z hx hy hz =>
    cases ready.fits.wellFormed with | cond hwt hwy hwn =>
    have sound := ready.fits.sound
    have first := hx.keeps hwt
    have second := first.trans (hy.keeps hwy).branch
    have third := second.trans (hz.keeps hwn).branch
    have new := sound.temp_not_given (Nat.le_succ_of_le third.next)
    have test := (iht hx (ready.child .test)).imp (fun _ h => h) fun regs h =>
      And.intro h.stored h.holds
    rw [condCode_eq]
    refine test.branch ?_
    cases b with
    | true =>
      have keeps := first.trans (.enterBranch t)
      have arm := ih hy (ready.child (.yes hx))
      exact (arm.imp (fun _ h => h.keeps keeps) fun _ h => h.of_keeps keeps).seq
        (Leaves.copy sound new)
    | false =>
      have keeps := second.trans (.enterBranch _)
      have arm := ih hz (ready.child (.no hx hy))
      exact (arm.imp (fun _ h => h.keeps keeps) fun _ h => h.of_keeps keeps).seq
        (Leaves.copy sound new)
  | leave _ iht =>
    cases lowers with | loop hx hy =>
    have keeps := (Keeps.skip s 1).trans (.enterBranch _)
    have test := iht hx (ready.child .loopTest)
    refine Triple.leave (test.imp (fun _ h => h.keeps keeps) fun regs h => ?_)
    have here := h.of_keeps keeps
    exact ⟨here.forget, here.holds⟩
  | again _ _ _ iht ihb ihl =>
    have next := ihl lowers ready
    cases lowers with | loop hx hy =>
    cases ready.fits.wellFormed with | loop hwt hwb =>
    have keeps := (Keeps.skip s 1).trans (.enterBranch _)
    have inside := ((Keeps.skip s 1).trans (hx.keeps hwt).branch).trans (.enterBranch _)
    have test := (iht hx (ready.child .loopTest)).imp (fun _ h => Stored.keeps h keeps)
      fun regs h => And.intro (h.of_keeps keeps).stored h.holds
    have body := ihb hy (ready.child (.loopBody hx))
    refine test.again (body.imp (fun _ h => Stored.keeps h inside) fun _ h => ?_) next
    exact (h.of_keeps inside).stored
  | block _ ih =>
    cases lowers with | block ha =>
    cases ready.fits.wellFormed with | block _ hw =>
    refine (ih L.push s.push _ _ env.receiver ha ready.fits.sound.push hw ?_).imp
      (fun _ h => h.push) fun _ h => ⟨h.stored.of_push, h.value⟩
    rintro before e after ys u rfl hb
    exact ready.child (.item hb)
  | letIn _ _ ihb ih =>
    cases lowers with | letIn hb hx =>
    cases ready.fits.wellFormed with | letIn hwn hwi hw =>
    have hwb : ∀ b ∈ _, Binding.WellFormed b := fun b m => ⟨hwn b m, hwi b m⟩
    have isLocal := ready.isLocal
    simp only [Expr.isLocal, Bool.and_eq_true] at isLocal
    have first := ihb L.push s.push _ _ hb ready.fits.sound.push hwb isLocal.1 ?_
    · refine (first.imp (fun _ h => h.push) fun _ h => h).seq
        ((ih hx (ready.child (.body hb))).imp (fun _ h => h) fun regs h => ?_)
      exact ⟨(h.stored.drop hb hwb isLocal.1).of_push, h.value⟩
    · rintro before name type e span after code u rfl hb
      exact ready.child (.init hb)
  | binary _ _ result ihl ihr =>
    cases lowers with | binary hl hr =>
    exact triple_binary ready hl hr (ihl hl (ready.child .left)) (ihr hr (ready.child (.right hl)))
      result
  | @unary _ _ op _ _ v _ _ result ih =>
    cases ready.fits.wellFormed with | unary hw =>
    cases lowers with
    | not hx =>
      have operand := ih hx (ready.child (.operand (by decide)))
      cases v <;> cases result
      exact triple_not hw ready.fits.sound hx operand
    | complement hx =>
      have operand := ih hx (ready.child (.operand (by decide)))
      cases v <;> cases result
      exact triple_complement hw ready.fits.sound hx operand
  | name hv =>
    cases lowers with
    | self isSelf =>
      have isLocal := ready.isLocal
      simp [Expr.isLocal, isSelf] at isLocal
    | «local» _ found => exact triple_name ready found hv
    | «attribute» _ absent _ =>
      have isLocal := ready.isLocal
      simp only [Expr.isLocal, Bool.and_eq_true] at isLocal
      obtain ⟨y, found, _⟩ := ready.fits.agree.find?_of_isScalar isLocal.2
      cases found.symm.trans absent
  | group _ ih =>
    cases lowers with | group hx =>
    exact ih hx (ready.child .inner)
  | int =>
    cases lowers
    exact (Triple.literal _).imp (fun _ h => .set h ready.fits.sound
      (ready.fits.sound.temp_not_given (Nat.le_refl _))) fun _ h => h
  | bool =>
    cases lowers
    exact (Triple.literal _).imp (fun _ h => .set h ready.fits.sound
      (ready.fits.sound.temp_not_given (Nat.le_refl _))) fun _ h => h
  | last _ ih L s xs t y ha hs hw parts =>
    cases ha with | cons hx hrest =>
    cases hrest
    rw [List.flatMap_singleton]
    exact ih hx (parts [] _ [] [] s rfl .nil)
  | cons _ rest ih ihs L s xs t y ha hs hw parts =>
    cases ha with | @cons _ u _ _ _ x xs hx hrest =>
    rw [List.forall_mem_cons] at hw
    have keeps := hx.keeps hw.1
    have first := ih hx (parts [] _ _ [] s rfl .nil)
    have later := ihs L u xs t x hrest (keeps.sound hs) hw.2 fun before e after ys v split hb =>
      parts (_ :: before) e after (_ :: ys) v (split ▸ rfl) (.cons hx hb)
    rw [List.flatMap_cons, List.getLast?_cons, Option.getD_some]
    exact (first.imp (fun _ h => h) fun _ h => h.stored.keeps keeps).seq
      (later.imp (fun _ h => h) fun _ h => h.of_keeps keeps)
  | empty L s code t hb =>
    cases hb
    exact .nil
  | @init ρ ρ₁ ρ' name type e span rest v _ _ ihv ih L s code t hb hs hw scalar parts =>
    cases hb with | @init _ u _ _ _ _ _ _ x _ hx hrest =>
    rw [List.forall_mem_cons] at hw
    simp only [bindingsLocal, Bool.and_eq_true] at scalar
    have keeps := hx.keeps (hw.1.2 _ rfl)
    have sound := keeps.sound hs
    have value := ihv hx (parts [] name type e span _ [] s rfl .empty)
    have resolved : type.className.resolve env.self = type.className :=
      resolve_of_isScalar scalar.1.1
    rw [resolved] at hrest ⊢
    have later := ih (L.bind name.text type.className) _ _ _ hrest
      (sound.bind hw.1.1.dotFree _) hw.2 scalar.2 fun before n c e' sp after code v split hb =>
        parts (_ :: before) n c e' sp after _ v (congrArg _ split) (.init hx (by rwa [resolved]))
    refine (value.seq (Triple.id.imp (fun regs h => ?_) fun _ h => h)).seq later
    exact ⟨v, h.holds, (h.stored.keeps keeps).bind sound hw.1.1 scalar.1.1⟩
  | @start ρ ρ' name type span rest v hv _ ih L s code t hb hs hw scalar parts =>
    cases hb with | default hrest =>
    rw [List.forall_mem_cons] at hw
    simp only [bindingsLocal, Bool.and_eq_true] at scalar
    have resolved : type.className.resolve env.self = type.className :=
      resolve_of_isScalar scalar.1
    rw [resolved] at hrest ⊢
    have later := ih (L.bind name.text type.className) _ _ _ hrest (hs.bind hw.1.1.dotFree _) hw.2
      scalar.2 fun before n c e' sp after code v split hb =>
        parts (_ :: before) n c e' sp after _ v (congrArg _ split) (.default (by rwa [resolved]))
    rw [defaultCode_of_startValue hv]
    refine Triple.seq ((Triple.literal v).imp (fun regs h => ?_) fun _ h => h) later
    exact h.bind hs hw.1.1 scalar.1

/-- The code of a local method body of an accepted program takes registers with the values of the
variables to ones with the values that evaluation gives them, and to that of the body if it is an
integer or a boolean. -/
theorem lower_preserves_eval {files : SourceFiles} {classes : List ClassDecl} {t : ClassTable}
    (h : Accepted files classes t) {e : Entry} {c : ClassDecl} (hc : c ∈ classes) {m : Method}
    (hm : m ∈ c.methods) (notEntry : (c.lowerEnv t).isEntry e m = false) {params : List Bril.Param}
    {s : FunctionState} (bound : ((c.lowerEnv t).bindParams m.params).run .initial = .ok params s)
    (isLocal : m.body.isLocal m.locals = true) (A : Arithmetic) {ρ ρ' : Store}
    {value : Option Literal} (eval : Eval A ρ m.body value ρ') :
    ∃ x u T, (m.body.lower (c.lowerEnv t)).run s = .ok x u ∧
      Typed ((c.lowerEnv t).typing m.locals) m.body T ∧
      ∀ regs, Stored s ρ regs → ∃ regs', Bril.Runs A x.code (x.code, regs) ([], regs') ∧
        Stored s ρ' regs' ∧
        (T = .int ∨ T = .bool → ∃ v, value = some v ∧ regs' x.dest = some v) := by
  have fits : Fits (c.lowerEnv t) [] ⟨m.locals, s, m.body⟩ :=
    h.fits_root hc (.method hm notEntry bound)
  obtain ⟨x, u, lowers⟩ := isLocal_lowers fits isLocal
  obtain ⟨T, typed⟩ := fits.typed
  refine ⟨x, u, T, lowers.run, typed, fun regs stored => ?_⟩
  have distinct := lowers.numbered.nodup
  have whole : x.code ++ [] <:+ x.code := ⟨[], by simp⟩
  obtain ⟨regs', runs, leaves, _⟩ :=
    eval.triple lowers ⟨fits, isLocal⟩ x.code [] regs distinct whole stored
  rw [List.append_nil] at runs
  refine ⟨regs', runs, leaves.stored, fun scalar => ?_⟩
  cases value with
  | none =>
    have object := eval.type_of_none typed
    rcases scalar with isInt | isBool
    · cases object.symm.trans isInt
    · cases object.symm.trans isBool
  | some v => exact ⟨v, rfl, leaves.holds⟩

/-- A program with a method that adds up the numbers to its parameter. -/
def counting : SourceFiles := .ofLines [
  "class Main \x7b",
  "  sum(n : Int, up : Bool) : Int \x7b",
  "    let i : Int, s : Int in \x7b",
  "      while i < n loop { i <- i + 1; s <- s + i; } pool;",
  "      if up then s else ~s fi;",
  "    \x7d",
  "  \x7d;",
  "  main() : Int { sum(3, true) };",
  "\x7d;"]

theorem counting_accepted :
    Accepted counting (SourceFiles.classes counting) (SourceFiles.table counting) :=
  SourceFiles.accepted (by decide +kernel)

def Method.formals (t : ClassTable) (c : ClassDecl) (m : Method) : List (Bytes × Local) :=
  match ((c.lowerEnv t).bindParams m.params).run .initial with
  | .ok _ s => s.scalars
  | .error _ _ => []

/-- Whether a method has a local body of type `Int` that leaves its parameters alone and has this
value. -/
def Method.yields (t : ClassTable) (c : ClassDecl) (m : Method) (xs : List (Bytes × Local))
    (ρ : Store) (v : Literal) : Bool :=
  !(c.lowerEnv t).isEntry .default m && m.formals t c = xs && m.body.isLocal m.locals &&
    (m.body.check ((c.lowerEnv t).typing m.locals)).toOption = some .int &&
    m.body.eval? .exact 20 ρ = some (some v, ρ)

theorem lower_preserves_eval_counting :
    ∃ c ∈ SourceFiles.classes counting, ∃ m ∈ c.methods, ∃ s x u regs regs',
      (m.body.lower (c.lowerEnv (SourceFiles.table counting))).run s = .ok x u ∧
      Stored s [(ascii "up", .bool true), (ascii "n", .int 3)] regs ∧
      Bril.Runs .exact x.code (x.code, regs) ([], regs') ∧ regs' x.dest = some (.int 6) := by
  have sum : ∃ c ∈ SourceFiles.classes counting, ∃ m ∈ c.methods,
      m.yields (SourceFiles.table counting) c
        [(ascii "up", ⟨"up", .bool⟩), (ascii "n", ⟨"n", .int⟩)]
        [(ascii "up", .bool true), (ascii "n", .int 3)] (.int 6) = true := by
    decide +kernel
  obtain ⟨c, hc, m, hm, yields⟩ := sum
  simp only [Method.yields, Bool.and_eq_true, Bool.not_eq_true', decide_eq_true_eq] at yields
  obtain ⟨⟨⟨⟨notEntry, formals⟩, isLocal⟩, checked⟩, eval⟩ := yields
  unfold Method.formals at formals
  split at formals
  · rename_i params s bound
    obtain ⟨x, u, T, lowers, typed, runs⟩ := lower_preserves_eval counting_accepted hc hm notEntry
      bound isLocal .exact ((Expr.eval?_sound 20).1 eval)
    have isInt : T = .int := by
      rw [show m.body.check _ = .ok T from typed] at checked
      exact Option.some.inj checked
    let regs : Registers := fun r => if r = "n" then some (.int 3) else some (.bool true)
    have stored : Stored s [(ascii "up", .bool true), (ascii "n", .int 3)] regs := by
      unfold Stored
      rw [formals]
      exact .cons ⟨rfl, rfl⟩ (.cons ⟨rfl, rfl⟩ .nil)
    obtain ⟨regs', runs, _, result⟩ := runs regs stored
    obtain ⟨v, hv, held⟩ := result (.inl isInt)
    cases hv
    exact ⟨c, hc, m, hm, s, x, u, regs, regs', lowers, stored, runs, held⟩
  · cases formals

end Cool
