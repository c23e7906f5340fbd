import Cool.Proofs.Lowering.FunctionTypes
import Cool.Proofs.Tree.Literals

/-!
What becomes of the integers of a program. Where a program gets code, so does every expression of
it, and the code of an integer is one constant. So an integer keeps the value that its digits write,
from the text through the range that the checker allows up to the constant.
-/
namespace Cool

open Bril (Instr)
open FunctionState (tempName)
open LowerEnv

section Sites

variable {env : LowerEnv} {s t : FunctionState}

theorem LowersAll.front {before after : List Expr} {xs : List Lowered}
    (h : LowersAll env s (before ++ after) xs t) : ∃ ys u, LowersAll env s before ys u := by
  induction before generalizing s xs with
  | nil => exact ⟨[], s, .nil⟩
  | cons e before ih =>
    cases h with | cons hx hxs =>
    obtain ⟨ys, u, hys⟩ := ih hxs
    exact ⟨_, u, .cons hx hys⟩

theorem LowersBindings.front {before after : List (Binding Expr)} {code : List Instr}
    (h : LowersBindings env s (before ++ after) code t) :
    ∃ code' u, LowersBindings env s before code' u := by
  induction before generalizing s code with
  | nil => exact ⟨[], s, .empty⟩
  | cons b before ih =>
    cases h with
    | init hx hbs =>
      obtain ⟨_, u, hbs⟩ := ih hbs
      exact ⟨_, u, .init hx hbs⟩
    | default hbs =>
      obtain ⟨_, u, hbs⟩ := ih hbs
      exact ⟨_, u, .default hbs⟩

/-- Where an expression gets code, so do its parts. -/
theorem Lowers.part {a b : Place} {x : Lowered} (h : Lowers env s a.expr x t) (part : Part a b) :
    ∃ u, Child env ⟨a.locals, s, a.expr⟩ ⟨b.locals, u, b.expr⟩ := by
  cases part with
  | value => exact ⟨_, .value⟩
  | selfArgument ha =>
    obtain ⟨before, after, rfl⟩ := List.append_of_mem ha
    cases h with | selfCall _ _ hs =>
    obtain ⟨_, u, hb⟩ := hs.front
    exact ⟨u, .selfArgument hb⟩
  | receiver => exact ⟨_, .receiver⟩
  | argument ha =>
    obtain ⟨before, after, rfl⟩ := List.append_of_mem ha
    cases h with | call hr _ _ hs =>
    obtain ⟨_, u, hb⟩ := hs.front
    exact ⟨u, .argument hr hb⟩
  | staticReceiver => exact ⟨_, .staticReceiver⟩
  | staticArgument ha =>
    obtain ⟨before, after, rfl⟩ := List.append_of_mem ha
    cases h with | staticCall hr _ _ hs =>
    obtain ⟨_, u, hb⟩ := hs.front
    exact ⟨u, .staticArgument hr hb⟩
  | test => exact ⟨_, .test⟩
  | yes =>
    cases h with | cond ht =>
    exact ⟨_, .yes ht⟩
  | no =>
    cases h with | cond ht hy =>
    exact ⟨_, .no ht hy⟩
  | loopTest => exact ⟨_, .loopTest⟩
  | loopBody =>
    cases h with | loop ht =>
    exact ⟨_, .loopBody ht⟩
  | item he =>
    obtain ⟨before, after, rfl⟩ := List.append_of_mem he
    cases h with | block hs =>
    obtain ⟨_, u, hb⟩ := hs.front
    exact ⟨u, .item hb⟩
  | init =>
    cases h with | letIn hbs =>
    obtain ⟨_, u, hb⟩ := hbs.front
    exact ⟨u, .init hb⟩
  | body =>
    cases h with | letIn hbs =>
    exact ⟨_, .body hbs⟩
  | scrutinee | arm => cases h
  | left => exact ⟨_, .left⟩
  | right =>
    cases h with | binary hl =>
    exact ⟨_, .right hl⟩
  | operand =>
    cases h with
    | not | complement => exact ⟨_, .operand nofun⟩
  | inner => exact ⟨_, .inner⟩

theorem setFrom_of_mem {as : List Attribute} {a : Attribute} {code : List Instr}
    (h : (env.setAttributes as).run s = .ok code t) (ha : a ∈ as) : ∃ u, SetFrom env s as a u := by
  induction as generalizing s code with
  | nil => cases ha
  | cons b as ih =>
    obtain ⟨_, _, _, now, later, _⟩ := run_setAttributes_cons_eq_ok.mp h
    rcases List.mem_cons.mp ha with rfl | ha
    · exact ⟨s, .head⟩
    · obtain ⟨u, from_⟩ := ih later ha
      exact ⟨u, from_.tail now⟩

end Sites

section Programs

variable {t : ClassTable} {e : Entry} {c : ClassDecl} {fs : List Bril.Function}

theorem Occurs.lowers (h : c.functions t e = .ok fs) {entry : Option Method} {site : Site}
    (occurs : Occurs t e c entry site) : ∃ x u, Lowers (c.lowerEnv t) site.state site.expr x u ∧
      ∃ f ∈ fs, x.code ⊆ f.instrs := by
  obtain ⟨root, hr, descends⟩ := occurs
  obtain ⟨_, _, lowers, f, hf, sub⟩ := hr.lowers h
  obtain ⟨x, u, lowers, sub'⟩ := lowers.descendant descends
  exact ⟨x, u, lowers, f, hf, List.Subset.trans sub' sub⟩

/-- Where a class gets code, so does every expression of it. -/
theorem Stands.occurs (h : c.functions t e = .ok fs) {place : Place} (stands : Stands c place) :
    ∃ entry s, Occurs t e c entry ⟨place.locals, s, place.expr⟩ := by
  induction stands with
  | @method m hm =>
    obtain ⟨_, _, makes⟩ := Member.exists_makes (.method c m) hm h
    cases makes with
    | entry isEntry => exact ⟨some m, _, _, .entry hm isEntry, .refl⟩
    | method notEntry bound => exact ⟨none, _, _, .method hm notEntry bound, .refl⟩
  | «attribute» ha init =>
    obtain ⟨_, _, makes⟩ := Member.exists_makes (.constructor c) trivial h
    cases makes with | constructor found called set =>
    obtain ⟨u, _, _, _, split, ran⟩ := setFrom_of_mem set ha
    exact ⟨none, u, _, .attribute found called split ran init, .refl⟩
  | part _ hp ih =>
    obtain ⟨entry, s, occurs⟩ := ih
    obtain ⟨_, _, lowers, _⟩ := occurs.lowers h
    obtain ⟨u, child⟩ := lowers.part hp
    obtain ⟨root, hr, descends⟩ := occurs
    exact ⟨entry, u, root, hr, descends.tail child⟩

end Programs

/-- What becomes of an integer of a class. It is the number that is written at its place in one of
the files, it has no more than 31 bits, and its code is one constant with just that value. In a
program that is generated, this constant is in the functions of the class wherever they come to the
integer, and they come to it. -/
structure IntegerKept (files : SourceFiles) (classes : List ClassDecl) (t : ClassTable)
    (c : ClassDecl) (L : Scopes ClassName) (value : Int) (span : Span) : Prop where
  written : ∃ number file, (number, file) ∈ files.numbered ∧ span.start.file = some number ∧
    WrittenAt file.text value span
  range : 0 ≤ value ∧ value ≤ 2 ^ 31 - 1
  code : ∀ s, ((Expr.int value span).lower (c.lowerEnv t)).run s =
    .ok ⟨[.literal (tempName s.next) (.int value)], tempName s.next, .int⟩ (s.skip 1)
  emitted : ∀ e p, generate t e classes = .ok p → ∃ fs, c.functions t e = .ok fs ∧
    fs ⊆ p.functions ∧ (∃ entry s, Occurs t e c entry ⟨L, s, .int value span⟩) ∧
    ∀ entry s, Occurs t e c entry ⟨L, s, .int value span⟩ →
      ∃ f ∈ fs, Instr.literal (tempName s.next) (.int value) ∈ f.instrs

theorem Accepted.int_range {files : SourceFiles} {classes : List ClassDecl} {t : ClassTable}
    (h : Accepted files classes t) {c : ClassDecl} (hc : c ∈ classes) {L : Scopes ClassName}
    {value : Int} {span : Span} (stands : Stands c ⟨L, .int value span⟩) :
    value ≤ 2 ^ 31 - 1 := by
  obtain ⟨T, typed⟩ := h.typed_at hc stands
  unfold Typed at typed
  rw [Expr.check] at typed
  split at typed
  · rename_i inside
    simp only [Bool.and_eq_true, decide_eq_true_eq] at inside
    omega
  · cases typed

/-- Digits are read as the number that they write, or refused at the last of them if this has more
than 63 bits, however many there are. The integers of accepted files keep their numbers. -/
theorem integers_exact :
    (∀ (c : Cursor) (digits : Bytes), LeadingDigits c.rest digits →
      let span : Span := ⟨c.pos, (c.advance (digits.length - 1)).pos⟩
      scan c =
        if decimalValue digits ≤ 2 ^ 63 - 1 then
          .ok ⟨.int (decimalValue digits), span⟩ :: scan (c.advance digits.length)
        else [.error ⟨.numberTooLarge, span⟩]) ∧
    ∀ files classes t, Accepted files classes t → ∀ c ∈ classes, ∀ L value span,
      Stands c ⟨L, .int value span⟩ → IntegerKept files classes t c L value span := by
  refine ⟨fun c digits => scan_digits, fun files classes t accepted c hc L value span stands => ?_⟩
  have written := writtenAt_of_parseFiles accepted.parsed hc stands
  refine ⟨written, ⟨?_, accepted.int_range hc stands⟩, fun s => rfl, fun e p made => ?_⟩
  · obtain ⟨_, _, _, _, digits, _, _, same⟩ := written
    rw [same]
    exact Int.natCast_nonneg _
  · obtain ⟨fs, hfs, sub⟩ := class_functions made hc
    refine ⟨fs, hfs, sub, stands.occurs hfs, fun entry s occurs => ?_⟩
    obtain ⟨x, u, lowers, f, hf, inside⟩ := occurs.lowers hfs
    cases lowers
    exact ⟨f, hf, inside (.head _)⟩

def Expr.isInt (value : Int) : Expr → Bool
  | .int v _ => v = value
  | _ => false

theorem Expr.eq_int_of_isInt {value : Int} {e : Expr} (h : e.isInt value = true) :
    ∃ span, e = .int value span := by
  unfold isInt at h
  split at h
  · exact ⟨_, congrArg (Expr.int · _) (of_decide_eq_true h)⟩
  · cases h

/-- A program with integers at the end of their range and behind leading zeros. -/
def padded : SourceFiles := .ofLines [
  "class Main \x7b limit : Int <- 2147483647; main() : Int \x7b 0012 \x7d; \x7d;"]

theorem padded_compiled :
    Accepted padded (SourceFiles.classes padded) (SourceFiles.tableInOrder padded) ∧
    generate (SourceFiles.tableInOrder padded) .default (SourceFiles.classes padded) =
      .ok (SourceFiles.codeInOrder padded .default) :=
  SourceFiles.compiled_inOrder (by decide +kernel)

def oversized : Bytes := ascii "009223372036854775808"

theorem integers_exact_padded :
    (LeadingDigits (oversized ++ ascii "+1") oversized ∧
      scan (.ofText none (oversized ++ ascii "+1")) =
        [.error ⟨.numberTooLarge, ⟨⟨none, 0, 1, 1⟩, ⟨none, 20, 1, 21⟩⟩⟩]) ∧
    generate (SourceFiles.tableInOrder padded) .default (SourceFiles.classes padded) =
      .ok (SourceFiles.codeInOrder padded .default) ∧
    ∃ c ∈ SourceFiles.classes padded, ∃ m ∈ c.methods, ∃ span, m.body = .int 12 span ∧
      IntegerKept padded (SourceFiles.classes padded) (SourceFiles.tableInOrder padded) c m.locals
        12 span := by
  obtain ⟨accepted, made⟩ := padded_compiled
  have leads : LeadingDigits (oversized ++ ascii "+1") oversized :=
    ⟨by decide +kernel, by decide +kernel, ascii "+1", rfl, by decide +kernel⟩
  have large : ¬ decimalValue oversized ≤ 2 ^ 63 - 1 := by decide +kernel
  have refused := integers_exact.1 (.ofText none (oversized ++ ascii "+1")) oversized leads
  dsimp only at refused
  rw [if_neg large] at refused
  have twelve : ∃ c ∈ SourceFiles.classes padded, ∃ m ∈ c.methods, m.body.isInt 12 = true := by
    decide +kernel
  obtain ⟨c, hc, m, hm, twelve⟩ := twelve
  obtain ⟨span, body⟩ := Expr.eq_int_of_isInt twelve
  have stands : Stands c ⟨m.locals, .int 12 span⟩ := body ▸ .method hm
  refine ⟨⟨leads, refused.trans (by decide +kernel)⟩, made, c, hc, m, hm, span, body, ?_⟩
  exact integers_exact.2 padded _ _ accepted c hc m.locals 12 span stands

end Cool
