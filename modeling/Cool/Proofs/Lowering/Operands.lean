import Cool.Proofs.Lowering.Occurrence
import Cool.Proofs.Lowering.Writes

/-!
The operands of operations and calls. A variable is read where the operation reads its operands,
not where it stands, so an operand that is a variable loses its value to a later operand that
assigns the variable, and to nothing else.
-/
namespace Cool

open Bril (written)
open FunctionState (Keeps)

/-- The operands of an operation or a call in the order they are computed in, behind the registers
that it reads besides. -/
def Expr.operands? : Expr → Option (List String × List Expr)
  | .binary _ left right _ => some ([], [left, right])
  | .selfCall _ args _ => some ([selfReg], args)
  | .call receiver _ args _ | .staticCall receiver _ _ args _ => some ([], receiver :: args)
  | _ => none

mutual

/-- The variable whose register is left with the value of an expression, of the variables that are
visible around it. -/
def Expr.holder? (visible : Bytes → Bool) : Expr → Option Bytes
  | .assign name value _ =>
    if visible name.text then some name.text else value.holder? visible
  | .loop test _ _ => test.holder? visible
  | .block body _ => lastHolder? visible none body
  | .letIn bindings body _ =>
    let names := bindings.map (·.name.text)
    (body.holder? fun n => visible n || names.contains n).filter (!names.contains ·)
  | .name name => if !name.isSelf && visible name.text then some name.text else none
  | .group inner _ => inner.holder? visible
  | _ => none

/-- The variable that holds the value of the last of some expressions, or `last` if there is
none. -/
def lastHolder? (visible : Bytes → Bool) (last : Option Bytes) : List Expr → Option Bytes
  | [] => last
  | e :: es => lastHolder? visible (e.holder? visible) es

end

namespace FunctionState

def visible (s : FunctionState) (name : Bytes) : Bool := (s.find? name).isSome

structure Holds (s : FunctionState) (holder : Option Bytes) (reg : String) : Prop where
  of_holder : ∀ n ∈ holder, ∃ y, s.find? n = some y ∧ y.reg = reg
  of_given : s.Given reg → reg = selfReg ∨ ∃ n ∈ holder, ∃ y, s.find? n = some y ∧ y.reg = reg

variable {s t u : FunctionState}

theorem Keeps.visible (h : s.Keeps t) : t.visible = s.visible := by
  funext n
  unfold FunctionState.visible
  rw [h.find?]

theorem Holds.keeps {holder : Option Bytes} {reg : String} (h : t.Holds holder reg)
    (keeps : s.Keeps t) : s.Holds holder reg := by
  obtain ⟨of_holder, of_given⟩ := h
  simp only [keeps.find?] at of_holder of_given
  exact ⟨of_holder, fun hg => of_given (keeps.given hg)⟩

/-- A value that a variable of an inner scope holds is in a new register. -/
theorem Holds.outside {names : List Bytes} {holder : Option Bytes} {reg : String}
    (h : t.Holds holder reg) (same : ∀ n ∉ names, s.find? n = t.find? n)
    (new : ∀ n ∈ names, ∃ y, t.find? n = some y ∧ ¬ s.Given y.reg)
    (given : ∀ {r}, s.Given r → t.Given r) : s.Holds (holder.filter (!names.contains ·)) reg := by
  constructor
  · intro n hn
    obtain ⟨hn, outer⟩ := Option.mem_filter_iff.mp hn
    rw [same n (by simpa using outer)]
    exact h.of_holder n hn
  · intro hg
    refine (h.of_given (given hg)).imp_right fun ⟨n, hn, y, hy, hreg⟩ => ?_
    have outer : n ∉ names := by
      intro inner
      obtain ⟨z, hz, fresh⟩ := new n inner
      cases hz.symm.trans hy
      exact fresh (hreg ▸ hg)
    refine ⟨n, ?_, y, (same n outer).trans hy, hreg⟩
    exact Option.mem_filter_iff.mpr ⟨hn, by simpa using outer⟩

theorem visible_of_find? {n : Bytes} {y : Local} (h : s.find? n = some y) : s.visible n = true :=
  Option.isSome_of_eq_some h

theorem not_visible_of_find? {n : Bytes} (h : s.find? n = none) : ¬ s.visible n = true := by
  simp [visible, h]

theorem Holds.local {n : Bytes} {y : Local} (h : s.find? n = some y) : s.Holds (some n) y.reg := by
  refine ⟨?_, fun _ => .inr ⟨n, rfl, y, h, rfl⟩⟩
  rintro _ ⟨⟩
  exact ⟨y, h, rfl⟩

theorem visible_push (s : FunctionState) : s.push.visible = s.visible := rfl

theorem Holds.of_push {holder : Option Bytes} {reg : String} (h : s.push.Holds holder reg) :
    s.Holds holder reg := ⟨h.of_holder, h.of_given⟩

theorem Holds.self : s.Holds none selfReg := ⟨fun _ h => (nomatch h), fun _ => .inl rfl⟩

theorem Holds.new {reg : String} (h : ¬ s.Given reg) : s.Holds none reg :=
  ⟨fun _ h => (nomatch h), fun hg => absurd hg h⟩

end FunctionState

/-- The names that are visible in a `let` are those around it and its own. -/
theorem LowersBindings.visible {env : LowerEnv} {s t : FunctionState} {bs : List (Binding Expr)}
    {code : List Bril.Instr} (h : LowersBindings env s bs code t)
    (hw : ∀ b ∈ bs, Binding.WellFormed b) (hs : s.Sound) :
    t.visible = fun n => s.visible n || (bs.map (·.name.text)).contains n := by
  funext n
  unfold FunctionState.visible
  by_cases hn : n ∈ bs.map (·.name.text)
  · obtain ⟨y, hy, _⟩ := h.new_of_mem hw hs hn
    rw [hy, List.contains_iff_mem.mpr hn, Bool.or_true, Option.isSome_some]
  · have other : (bs.map (·.name.text)).contains n = false := by simpa using hn
    rw [h.find?_of_not_mem hw hn, other, Bool.or_false]

section Operands

variable {env : LowerEnv} {s t : FunctionState}

/-- The value of an expression is left in the register of the variable that holds it, in a new one
or in that of the object at hand. -/
theorem Lowers.holds {e : Expr} {x : Lowered} (h : Lowers env s e x t) (hs : s.Sound)
    (hw : e.WellFormed) : s.Holds (e.holder? s.visible) x.dest := by
  have temp {s t : FunctionState} (hs : s.Sound) (keeps : s.Keeps t) (n : Nat) :
      s.Holds none (FunctionState.tempName (t.next + n)) :=
    .new fun hg => hs.temp_not_given (Nat.le_trans keeps.next (Nat.le_add_right _ _)) hg
  induction h using Lowers.rec
    (motive_2 := fun s es xs _ _ => (∀ e ∈ es, e.WellFormed) → ∀ s₀ : FunctionState, s₀.Sound →
      s₀.Keeps s → ∀ last y, s₀.Holds last (Lowered.dest y) →
      s₀.Holds (lastHolder? s₀.visible last es) (xs.getLast?.getD y).dest)
    (motive_3 := fun _ _ _ _ _ => True) with
  | assignLocal hv found ih =>
    cases hw with | assign _ hwv =>
    rw [(hv.keeps hwv).find?] at found
    unfold Expr.holder?
    rw [if_pos (FunctionState.visible_of_find? found)]
    exact .local found
  | assignAttribute hv absent _ ih =>
    cases hw with | assign _ hwv =>
    rw [(hv.keeps hwv).find?] at absent
    unfold Expr.holder?
    rw [if_neg (FunctionState.not_visible_of_find? absent)]
    exact ih hs hwv
  | selfCall _ _ ha =>
    cases hw with | selfCall hwa =>
    exact temp hs (ha.keeps hwa) 0
  | call hr _ _ ha | staticCall hr _ _ ha =>
    cases hw
    rename_i hwr hwa
    exact temp hs ((hr.keeps hwr).trans (ha.keeps hwa)) 0
  | cond ht hy hn =>
    cases hw with | cond hwt hwy hwn =>
    exact temp hs (((ht.keeps hwt).trans (hy.keeps hwy).branch).trans (hn.keeps hwn).branch) 1
  | @loop s t u test body span x y ht _ iht _ =>
    cases hw with | loop hwt _ =>
    have before := (Keeps.skip s 1).trans (.enterBranch _)
    have test := (iht (before.sound hs) hwt).keeps before
    rwa [before.visible] at test
  | @block s t body span xs _ ih =>
    cases hw with | block _ hwb =>
    have last := ih hwb s.push hs.push (.refl _) none env.receiver .self
    rw [FunctionState.visible_push] at last
    exact last.of_push
  | @letIn s t u bindings body span code x hb hx _ ih =>
    cases hw with | letIn hwn hwi hwb =>
    have hwbs : ∀ b ∈ bindings, Binding.WellFormed b := fun b hb => ⟨hwn b hb, hwi b hb⟩
    have before := hb.extends hwbs
    have value := ih (before.sound hs.push) hwb
    rw [hb.visible hwbs hs.push] at value
    refine .of_push (value.outside (fun n hn => (hb.find?_of_not_mem hwbs hn).symm)
      (fun n hn => hb.new_of_mem hwbs hs.push hn) before.given)
  | newInt | newBool | int | bool => exact temp hs (.refl _) 0
  | newObject => exact temp hs (.refl _) 1
  | binary hl hr =>
    cases hw with | binary hwl hwr =>
    exact temp hs ((hl.keeps hwl).trans (hr.keeps hwr)) 0
  | not hx =>
    cases hw with | unary hwo =>
    exact temp hs (hx.keeps hwo) 0
  | complement hx =>
    cases hw with | unary hwo =>
    exact temp hs (hx.keeps hwo) 1
  | self isSelf =>
    unfold Expr.holder?
    rw [if_neg (by simp [isSelf])]
    exact .self
  | «local» notSelf found =>
    unfold Expr.holder?
    rw [if_pos (by simp [notSelf, FunctionState.visible_of_find? found])]
    exact .local found
  | «attribute» _ absent _ =>
    unfold Expr.holder?
    rw [if_neg (by simp [FunctionState.not_visible_of_find? absent])]
    exact temp hs (.refl _) 2
  | group _ ih =>
    cases hw with | group hwi =>
    exact ih hs hwi
  | nil _ s₀ _ _ last y hy => exact hy
  | cons hx _ ih ihs hw s₀ hs₀ keeps last y hy =>
    rw [List.forall_mem_cons] at hw
    rw [List.getLast?_cons, Option.getD_some]
    have value := (ih (keeps.sound hs₀) hw.1).keeps keeps
    rw [keeps.visible] at value
    exact ihs hw.2 s₀ hs₀ (keeps.trans (hx.keeps hw.1)) _ _ value
  | empty | init | default => trivial

/-- Registers given out before are written for assignments alone. -/
theorem Lowers.written_iff {e : Expr} {x : Lowered} (h : Lowers env s e x t) (hs : s.Sound)
    (hw : e.WellFormed) {reg : String} (given : s.Given reg) :
    reg ∈ written x.code ↔ ∃ n ∈ e.assigned, ∃ y, s.find? n = some y ∧ y.reg = reg := by
  constructor
  · intro hr
    exact ((h.confined hs hw).2 reg hr).2 given
  · rintro ⟨n, hn, y, hy, rfl⟩
    exact h.writes_assigned hw hn hy

theorem Lowers.self_not_written {e : Expr} {x : Lowered} (h : Lowers env s e x t) (hs : s.Sound)
    (hw : e.WellFormed) : selfReg ∉ written x.code := by
  rw [h.written_iff hs hw (.inl hs.self)]
  rintro ⟨n, _, y, hy, hreg⟩
  exact (hs.used _ (FunctionState.mem_locals hy)).2 hreg

theorem LowersAll.each {es : List Expr} {xs : List Lowered} (h : LowersAll env s es xs t)
    (hw : ∀ e ∈ es, e.WellFormed) :
    ∀ p ∈ es.zip xs, ∃ u v, s.Keeps u ∧ p.1.WellFormed ∧ Lowers env u p.1 p.2 v := by
  induction es generalizing s xs with
  | nil => exact fun _ h => nomatch h
  | cons e es ih =>
    rw [List.forall_mem_cons] at hw
    cases h with | cons hx hxs =>
    rw [List.zip_cons_cons, List.forall_mem_cons]
    refine ⟨⟨_, _, .refl _, hw.1, hx⟩, fun p hp => ?_⟩
    obtain ⟨u, v, keeps, hwp, hl⟩ := ih hxs hw.2 p hp
    exact ⟨u, v, (hx.keeps hw.1).trans keeps, hwp, hl⟩

theorem LowersAll.map_zip {es : List Expr} {xs : List Lowered} (h : LowersAll env s es xs t) :
    (es.zip xs).map Prod.snd = xs :=
  List.map_snd_zip (Nat.le_of_eq h.length_eq.symm)

theorem LowersAll.self_not_written {es : List Expr} {xs : List Lowered}
    (h : LowersAll env s es xs t) (hs : s.Sound) (hw : ∀ e ∈ es, e.WellFormed) :
    ∀ y ∈ xs, selfReg ∉ written y.code := by
  intro y hy
  rw [← h.map_zip] at hy
  obtain ⟨p, hp, rfl⟩ := List.mem_map.mp hy
  obtain ⟨u, v, keeps, hwp, hl⟩ := h.each hw p hp
  exact hl.self_not_written (keeps.sound hs) hwp

/-- Code that is made later writes the register of an earlier value exactly if it assigns the
variable that holds the value. -/
theorem Lowers.written_iff_holder {e : Expr} {y : Lowered} (h : Lowers env s e y t) (hs : s.Sound)
    (hw : e.WellFormed) {holder : Option Bytes} {reg : String} (given : s.Given reg)
    {first : FunctionState} (holds : first.Holds holder reg) (sound : first.Sound)
    (keeps : first.Keeps s) : reg ∈ written y.code ↔ ∃ n ∈ holder, n ∈ e.assigned := by
  rw [h.written_iff hs hw given]
  simp only [keeps.find?]
  constructor
  · rintro ⟨n, hn, z, hz, rfl⟩
    rcases holds.of_given (sound.given_local hz) with self | ⟨m, hm, z', hz', same⟩
    · exact absurd self (sound.used _ (FunctionState.mem_locals hz)).2
    · exact ⟨m, hm, sound.find?_inj hz' hz same ▸ hn⟩
  · rintro ⟨n, hn, assigned⟩
    exact ⟨n, assigned, holds.of_holder n hn⟩

/-- The code of a later operand writes the register of an earlier one exactly if it assigns the
variable whose register that is. -/
theorem LowersAll.written_iff {es : List Expr} {xs : List Lowered} (h : LowersAll env s es xs t)
    (hs : s.Sound) (hw : ∀ e ∈ es, e.WellFormed) :
    (es.zip xs).Pairwise fun p q =>
      p.2.dest ∈ written q.2.code ↔ ∃ n ∈ p.1.holder? s.visible, n ∈ q.1.assigned := by
  induction es generalizing s xs with
  | nil => exact .nil
  | cons e es ih =>
    rw [List.forall_mem_cons] at hw
    cases h with | cons hx hxs =>
    have keeps := hx.keeps hw.1
    have rest := ih hxs (keeps.sound hs) hw.2
    rw [keeps.visible] at rest
    refine .cons (fun q hq => ?_) rest
    obtain ⟨v, w, later, hwq, hq⟩ := hxs.each hw.2 q hq
    have given := later.given (hx.confined hs hw.1).1
    have before := keeps.trans later
    exact hq.written_iff_holder (before.sound hs) hwq given (hx.holds hs hw.1) hs before

theorem Lowers.reads_operands {e : Expr} {x : Lowered} (h : Lowers env s e x t)
    {regs : List String} {es : List Expr} (ho : e.operands? = some (regs, es)) :
    ∃ xs u op dest ty funcs, LowersAll env s es xs u ∧
      x.code = xs.flatMap (·.code) ++ [.value op dest ty (regs ++ xs.map (·.dest)) funcs] := by
  cases h with
  | binary hl hr =>
    rename_i x y
    cases ho
    have code : x.code ++ y.code = [x, y].flatMap (·.code) := by simp
    exact ⟨_, _, _, _, _, _, .cons hl (.cons hr .nil), congrArg (· ++ _) code⟩
  | selfCall _ _ ha =>
    cases ho
    exact ⟨_, _, _, _, _, _, ha, rfl⟩
  | call hr _ _ ha | staticCall hr _ _ ha =>
    cases ho
    exact ⟨_, _, _, _, _, _, .cons hr ha, rfl⟩
  | _ => cases ho

theorem Expr.operands?_self {e : Expr} {regs : List String} {es : List Expr}
    (ho : e.operands? = some (regs, es)) : ∀ r ∈ regs, r = selfReg := by
  cases e with
  | selfCall =>
    cases ho
    exact fun r hr => List.mem_singleton.mp hr
  | binary | call | staticCall =>
    cases ho
    exact fun _ h => nomatch h
  | _ => cases ho

theorem Expr.WellFormed.operands {e : Expr} (hw : e.WellFormed) {regs : List String}
    {es : List Expr} (ho : e.operands? = some (regs, es)) : ∀ e ∈ es, e.WellFormed := by
  cases hw with
  | binary hl hr =>
    cases ho
    simp [hl, hr]
  | selfCall ha =>
    cases ho
    exact ha
  | call hr ha | staticCall hr ha =>
    cases ho
    exact List.forall_mem_cons.mpr ⟨hr, ha⟩
  | _ => cases ho

/-- Whether none of some expressions assigns the variable that holds the value of an earlier one. -/
def Unassigned (visible : Bytes → Bool) (es : List Expr) : Prop :=
  es.Pairwise fun e e' => ∀ n ∈ e.holder? visible, n ∉ e'.assigned

/-- No later operand writes the register of an earlier one exactly if none assigns the variable
whose register that is. -/
theorem LowersAll.pairwise_iff {es : List Expr} {xs : List Lowered} (h : LowersAll env s es xs t)
    (hs : s.Sound) (hw : ∀ e ∈ es, e.WellFormed) :
    (xs.Pairwise fun x y => x.dest ∉ written y.code) ↔ Unassigned s.visible es := by
  have each := h.written_iff hs hw
  have first : (es.zip xs).map Prod.fst = es := List.map_fst_zip (Nat.le_of_eq h.length_eq)
  unfold Unassigned
  conv_lhs => rw [← h.map_zip, List.pairwise_map]
  conv_rhs => rw [← first, List.pairwise_map]
  constructor
  · exact each.imp₂ fun _ _ same kept n hn assigned => kept (same.mpr ⟨n, hn, assigned⟩)
  · exact each.imp₂ fun _ _ same unassigned written =>
      have ⟨n, hn, assigned⟩ := same.mp written
      unassigned n hn assigned

end Operands

/-- Whether the operation at a site reads its operands as they were computed: behind the code of all
of them, none of which writes a register that was to be read. -/
def ReadsOperands (env : LowerEnv) (site : Site) : Prop :=
  ∀ {regs es x t}, site.expr.operands? = some (regs, es) →
    Lowers env site.state site.expr x t → ∃ xs u op dest ty funcs,
      LowersAll env site.state es xs u ∧
      x.code = xs.flatMap (·.code) ++ [.value op dest ty (regs ++ xs.map (·.dest)) funcs] ∧
      (∀ r ∈ regs, ∀ y ∈ xs, r ∉ written y.code) ∧
      xs.Pairwise fun x y => x.dest ∉ written y.code

def OperandsApart (env : LowerEnv) (site : Site) : Prop :=
  ∀ {regs es x t}, site.expr.operands? = some (regs, es) →
    Lowers env site.state site.expr x t → Unassigned site.state.visible es

theorem readsOperands_iff {env : LowerEnv} {hidden : List Bytes} {site : Site}
    (fits : Fits env hidden site) : ReadsOperands env site ↔ OperandsApart env site := by
  constructor
  · intro reads regs es x t ho hx
    obtain ⟨xs, u, _, _, _, _, hxs, _, _, kept⟩ := reads ho hx
    exact (hxs.pairwise_iff fits.sound (fits.wellFormed.operands ho)).mp kept
  · intro apart regs es x t ho hx
    have hw := fits.wellFormed.operands ho
    obtain ⟨xs, u, op, dest, ty, funcs, hxs, hcode⟩ := hx.reads_operands ho
    refine ⟨xs, u, op, dest, ty, funcs, hxs, hcode, fun r hr y hy => ?_,
      (hxs.pairwise_iff fits.sound hw).mpr (apart ho hx)⟩
    exact Expr.operands?_self ho r hr ▸ hxs.self_not_written fits.sound hw y hy

section Program

variable (t : ClassTable) (e : Entry) (classes : List ClassDecl)

def OperandsKept : Prop :=
  ∀ c ∈ classes, ∀ entry site, Occurs t e c entry site → ReadsOperands (c.lowerEnv t) site

def OperandsUnassigned : Prop :=
  ∀ c ∈ classes, ∀ entry site, Occurs t e c entry site → OperandsApart (c.lowerEnv t) site

end Program

/-- The operands of an accepted program keep their values if and only if none is held by a variable
that a later one assigns. -/
theorem operands_kept_iff {files : SourceFiles} {classes : List ClassDecl} {t : ClassTable}
    (h : Accepted files classes t) (e : Entry) :
    OperandsKept t e classes ↔ OperandsUnassigned t e classes := by
  unfold OperandsKept OperandsUnassigned
  constructor
  · intro kept c hc entry site occurs
    exact (readsOperands_iff (h.fits hc occurs)).mp (kept c hc entry site occurs)
  · intro apart c hc entry site occurs
    exact (readsOperands_iff (h.fits hc occurs)).mpr (apart c hc entry site occurs)

/-- A program that assigns a variable in an operand behind the variable. -/
def overwritten : SourceFiles := .ofLines [
  "class Main \x7b",
  "  f(x : Int) : Int { x + (x <- 5) };",
  "  main() : Int { f(1) };",
  "\x7d;"]

theorem overwritten_accepted :
    Accepted overwritten (SourceFiles.classes overwritten) (SourceFiles.table overwritten) :=
  SourceFiles.accepted (by decide +kernel)

theorem operands_kept_iff_overwritten :
    Accepted overwritten (SourceFiles.classes overwritten) (SourceFiles.table overwritten) ∧
    (OperandsKept (SourceFiles.table overwritten) .default (SourceFiles.classes overwritten) ↔
      OperandsUnassigned (SourceFiles.table overwritten) .default
        (SourceFiles.classes overwritten)) :=
  ⟨overwritten_accepted, operands_kept_iff overwritten_accepted .default⟩

/-- Whether a method is a binary operation of which the right operand writes the register of the
left one. -/
def Method.overwrites (t : ClassTable) (c : ClassDecl) (m : Method) : Bool :=
  let env := c.lowerEnv t
  match m.body, (env.bindParams m.params).run .initial with
  | .binary _ left right _, .ok _ s => match (left.lower env).run s with
    | .ok x u => match (right.lower env).run u with
      | .ok y _ => x.dest ∈ written y.code
      | .error _ _ => false
    | .error _ _ => false
  | _, _ => false

theorem Method.not_readsOperands {t : ClassTable} {e : Entry} {c : ClassDecl} {m : Method}
    (hm : m ∈ c.methods) (notEntry : (c.lowerEnv t).isEntry e m = false)
    (h : m.overwrites t c = true) :
    ∃ site, Root t e c none site ∧ ¬ ReadsOperands (c.lowerEnv t) site := by
  unfold Method.overwrites at h
  dsimp only at h
  split at h
  · rename_i op left right span _ s isBinary bound
    split at h
    · rename_i x u hx
      split at h
      · rename_i y v hy
        refine ⟨_, .method hm notEntry bound, fun reads => ?_⟩
        have hl := Lowers.of_run left hx
        have hr := Lowers.of_run right hy
        have operands : m.body.operands? = some ([], [left, right]) := isBinary ▸ rfl
        have lowers : Lowers (c.lowerEnv t) s (.binary op left right span) _ _ := .binary hl hr
        rw [← isBinary] at lowers
        obtain ⟨xs, _, _, _, _, _, hxs, _, _, kept⟩ := reads operands lowers
        obtain ⟨rfl, _⟩ := hxs.unique (.cons hl (.cons hr .nil))
        exact (List.pairwise_cons.mp kept).1 y List.mem_cons_self (of_decide_eq_true h)
      · cases h
    · cases h
  · cases h

theorem overwritten_refutes :
    Accepted overwritten (SourceFiles.classes overwritten) (SourceFiles.table overwritten) ∧
    (∃ p, generate (SourceFiles.table overwritten) .default (SourceFiles.classes overwritten)
      = .ok p) ∧
    ¬ OperandsKept (SourceFiles.table overwritten) .default (SourceFiles.classes overwritten) := by
  have generated : (generate (SourceFiles.table overwritten) .default
      (SourceFiles.classes overwritten)).toOption.isSome = true := by
    decide +kernel
  have overwrites : ∃ c ∈ SourceFiles.classes overwritten, ∃ m ∈ c.methods,
      (c.lowerEnv (SourceFiles.table overwritten)).isEntry .default m = false ∧
        m.overwrites (SourceFiles.table overwritten) c = true := by
    decide +kernel
  obtain ⟨c, hc, m, hm, notEntry, h⟩ := overwrites
  obtain ⟨site, root, differs⟩ := Method.not_readsOperands hm notEntry h
  refine ⟨overwritten_accepted, ?_, fun kept => ?_⟩
  · cases made : generate (SourceFiles.table overwritten) .default
        (SourceFiles.classes overwritten) with
    | ok p => exact ⟨p, rfl⟩
    | error e =>
      rw [made] at generated
      cases generated
  · exact differs (kept c hc none site ⟨site, root, .refl⟩)

end Cool
