import Cool.Proofs.Token.Spacing
import Cool.Proofs.Tree.Complete
import Cool.Proofs.Tree.Spans
import Mathlib.Data.Nat.SuccPred

/-!
How high trees are. The limit on nesting bounds how often a way down a tree leaves the chain it is
on, a chain being operators or calls of which each has the one before for its left operand or its
receiver. Chains themselves are as long as the text makes them.
-/
namespace Cool

mutual

/-- How far it is at most from an expression to one below it. A step to a left operand or a receiver
counts `chain`, all others count one. -/
def Expr.depth (chain : Nat) : Expr → Nat
  | .assign _ value _ => value.depth chain + 1
  | .selfCall _ args _ => depthOf chain args
  | .call receiver _ args _ => max (receiver.depth chain + chain) (depthOf chain args)
  | .staticCall receiver _ _ args _ => max (receiver.depth chain + chain) (depthOf chain args)
  | .cond test yes no _ =>
    max (test.depth chain) (max (yes.depth chain) (no.depth chain)) + 1
  | .loop test body _ => max (test.depth chain) (body.depth chain) + 1
  | .block body _ => depthOf chain body
  | .letIn bindings body _ => max (depthOfBindings chain bindings) (body.depth chain + 1)
  | .case scrutinee arms _ => max (scrutinee.depth chain + 1) (depthOfArms chain arms)
  | .binary _ left right _ => max (left.depth chain + chain) (right.depth chain + 1)
  | .unary _ operand _ => operand.depth chain + 1
  | .group inner _ => inner.depth chain + 1
  | .new .. | .name _ | .int .. | .string .. | .bool .. => 0

def depthOf (chain : Nat) : List Expr → Nat
  | [] => 0
  | e :: es => max (e.depth chain + 1) (depthOf chain es)

def depthOfBindings (chain : Nat) : List (Binding Expr) → Nat
  | [] => 0
  | ⟨_, _, some e, _⟩ :: rest => max (e.depth chain + 1) (depthOfBindings chain rest)
  | ⟨_, _, none, _⟩ :: rest => depthOfBindings chain rest

def depthOfArms (chain : Nat) : List (CaseArm Expr) → Nat
  | [] => 0
  | ⟨_, _, e, _⟩ :: rest => max (e.depth chain + 1) (depthOfArms chain rest)

end

def Expr.height (e : Expr) : Nat := e.depth 1

/-- What a chain goes on from: a left operand, or the receiver of a call. -/
def Expr.base? : Expr → Option Expr
  | .call receiver _ _ _ | .staticCall receiver _ _ _ _ => some receiver
  | .binary _ left _ _ => some left
  | _ => none

def Expr.branches : Expr → List Expr
  | .call _ _ args _ | .staticCall _ _ _ args _ => args
  | .binary _ _ right _ => [right]
  | e => e.parts

/-- How long the chain is that an expression ends. -/
def Expr.spine : Expr → Nat
  | .call receiver _ _ _ => receiver.spine + 1
  | .staticCall receiver _ _ _ _ => receiver.spine + 1
  | .binary _ left _ _ => left.spine + 1
  | _ => 0

/-- How many right operands of one level can lie in each other, each binding tighter. -/
def Expr.rises : Expr → Nat
  | .binary op _ _ _ => op.strength.tighter + 1
  | _ => 0

section

variable {chain n : Nat}

theorem depthOf_le {es : List Expr} : depthOf chain es ≤ n ↔ ∀ e ∈ es, e.depth chain < n := by
  induction es with
  | nil => simp [depthOf]
  | cons e es ih => rw [depthOf, Nat.max_le, ih, Nat.succ_le_iff, List.forall_mem_cons]

theorem depthOfBindings_le {bindings : List (Binding Expr)} :
    depthOfBindings chain bindings ≤ n ↔ ∀ b ∈ bindings, ∀ e ∈ b.init, e.depth chain < n := by
  induction bindings with
  | nil => simp [depthOfBindings]
  | cons b bindings ih =>
    obtain ⟨_, _, init, _⟩ := b
    cases init with
    | none => simp [depthOfBindings, ih]
    | some e =>
      rw [depthOfBindings, Nat.max_le, ih, Nat.succ_le_iff, List.forall_mem_cons]
      simp

theorem depthOfArms_le {arms : List (CaseArm Expr)} :
    depthOfArms chain arms ≤ n ↔ ∀ a ∈ arms, a.body.depth chain < n := by
  induction arms with
  | nil => simp [depthOfArms]
  | cons a arms ih => rw [depthOfArms, Nat.max_le, ih, Nat.succ_le_iff, List.forall_mem_cons]

theorem forall_mem_inits {P : Expr → Prop} {bindings : List (Binding Expr)} :
    (∀ e ∈ bindings.filterMap (·.init), P e) ↔ ∀ b ∈ bindings, ∀ e ∈ b.init, P e := by
  simp only [List.mem_filterMap]
  constructor
  · exact fun h b hb e he => h e ⟨b, hb, he⟩
  · rintro h e ⟨b, hb, he⟩
    exact h b hb e he

/-- Below an expression lie what its chain goes on from and its branches. -/
theorem Expr.depth_le {e : Expr} : e.depth chain ≤ n ↔
    (∀ b ∈ e.base?, b.depth chain + chain ≤ n) ∧ ∀ p ∈ e.branches, p.depth chain < n := by
  cases e with
  | letIn bindings body span =>
    simp only [depth, base?, branches, parts, Nat.max_le, Nat.add_one_le_iff, depthOfBindings_le,
      List.forall_mem_append, List.forall_mem_singleton, forall_mem_inits]
    simp
  | call | staticCall => simp [depth, base?, branches, depthOf_le]
  | binary => simp [depth, base?, branches]
  | selfCall | block => simp [depth, base?, branches, parts, depthOf_le]
  | case => simp [depth, base?, branches, parts, depthOfArms_le]
  | cond | loop => simp [depth, base?, branches, parts]
  | assign | unary | group => simp [depth, base?, branches, parts]
  | new | name | int | string | bool => simp [depth, base?, branches, parts]

end

namespace Expr

variable {e p : Expr}

theorem mem_parts : p ∈ e.parts ↔ p ∈ e.base? ∨ p ∈ e.branches := by
  cases e <;> simp [parts, base?, branches, eq_comm]

/-- Induction over expressions, with the hypothesis for all parts at once. -/
theorem parts_induction {P : Expr → Prop} (h : ∀ e : Expr, (∀ p ∈ e.parts, P p) → P e) (e : Expr) :
    P e := by
  have one {a : Expr} (ha : P a) : ∀ p ∈ [a], P p := List.forall_mem_singleton.mpr ha
  have cons {a : Expr} {es : List Expr} (ha : P a) (hes : ∀ p ∈ es, P p) : ∀ p ∈ a :: es, P p :=
    List.forall_mem_cons.mpr ⟨ha, hes⟩
  induction e with
  | assign _ _ _ ih | unary _ _ _ ih | group _ _ ih => exact h _ (one ih)
  | selfCall _ _ _ ih | block _ _ ih => exact h _ ih
  | call _ _ _ _ ih ih' | staticCall _ _ _ _ _ ih ih' => exact h _ (cons ih ih')
  | cond _ _ _ _ iht ihy ihn => exact h _ (cons iht (cons ihy (one ihn)))
  | loop _ _ _ ih ih' | binary _ _ _ _ ih ih' => exact h _ (cons ih (one ih'))
  | letIn _ _ _ ih ih' =>
    exact h _ (List.forall_mem_append.mpr ⟨forall_mem_inits.mpr ih, one ih'⟩)
  | case _ _ _ ih ih' => exact h _ (cons ih (List.forall_mem_map.mpr ih'))
  | _ => exact h _ (List.forall_mem_nil _)

theorem spine_of_base (h : p ∈ e.base?) : e.spine = p.spine + 1 := by
  cases e with
  | call | staticCall | binary =>
    cases Option.some.inj h
    rfl
  | _ => cases h

theorem levels_of_base (h : p ∈ e.base?) : p.levels ≤ e.levels := by
  cases e with
  | call | staticCall | binary =>
    cases Option.some.inj h
    exact Nat.le_max_left ..
  | _ => cases h

theorem rises_le (e : Expr) : e.rises ≤ 3 := by
  cases e with
  | binary op =>
    have low := op.rank_pos
    simp only [rises, Strength.tighter_eq, Strength.rank] at low ⊢
    omega
  | _ => exact Nat.zero_le _

/-- What a chain goes on from binds as tightly. -/
theorem rises_of_base (grouped : e.grouped = true) (h : p ∈ e.base?) : p.rises ≤ e.rises := by
  cases e with
  | call | staticCall =>
    cases Option.some.inj h
    cases p with
    | binary => cases grouped
    | _ => exact Nat.zero_le _
  | binary op left right span =>
    cases Option.some.inj h
    have yields := (grouped_binary.mp grouped).1.1
    cases p with
    | binary o =>
      have tight : op.strength.rank ≤ o.strength.rank := of_decide_eq_true yields
      simp only [rises, Strength.tighter_eq]
      omega
    | _ => exact Nat.zero_le _
  | _ => cases h

/-- A branch lies one level further in, unless it is a right operand, which binds tighter. -/
theorem levels_of_branch (grouped : e.grouped = true) (h : p ∈ e.branches) :
    p.levels < e.levels ∨ p.levels ≤ e.levels ∧ p.rises < e.rises := by
  cases e with
  | binary op left right span =>
    cases List.mem_singleton.mp h
    refine .inr ⟨Nat.le_max_right .., ?_⟩
    have fits := (grouped_binary.mp grouped).2
    cases p with
    | binary o => exact Nat.succ_lt_succ (BinaryOp.tighter_lt (of_decide_eq_true fits))
    | _ => exact Nat.succ_pos _
  | selfCall | block => exact .inl (levelsOf_le.mp (Nat.le_refl _) p h)
  | call | staticCall =>
    exact .inl (Nat.lt_of_lt_of_le (levelsOf_le.mp (Nat.le_refl _) p h) (Nat.le_max_right ..))
  | letIn bindings body span =>
    refine .inl ?_
    rcases List.mem_append.mp h with h | h
    · have all := forall_mem_inits.mpr
        (levelsOfBindings_le.mp (Nat.le_refl (levelsOfBindings bindings)))
      exact Nat.lt_of_lt_of_le (all p h) (Nat.le_max_left ..)
    · cases List.mem_singleton.mp h
      exact Nat.le_max_right ..
  | case scrutinee arms span =>
    refine .inl ?_
    rcases List.mem_cons.mp h with rfl | h
    · exact Nat.le_max_left ..
    · obtain ⟨a, ha, rfl⟩ := List.mem_map.mp h
      exact Nat.lt_of_lt_of_le (levelsOfArms_le.mp (Nat.le_refl _) a ha) (Nat.le_max_right ..)
  | assign | unary | group =>
    cases List.mem_singleton.mp h
    exact .inl (Nat.lt_succ_self _)
  | cond test yes no span =>
    simp only [branches, parts, List.mem_cons, List.not_mem_nil, or_false] at h
    rw [levels]
    rcases h with rfl | rfl | rfl <;> omega
  | loop test body span =>
    simp only [branches, parts, List.mem_cons, List.not_mem_nil, or_false] at h
    rw [levels]
    rcases h with rfl | rfl <;> omega
  | _ => cases h

theorem levels_of_part (grouped : e.grouped = true) (h : p ∈ e.parts) : p.levels ≤ e.levels := by
  rcases mem_parts.mp h with h | h
  · exact levels_of_base h
  · rcases levels_of_branch grouped h with inside | ⟨beside, _⟩
    · exact Nat.le_of_lt inside
    · exact beside

/-- Off the chains, a way down takes three steps to right operands at most on each level, and one to
the next. -/
theorem depth_le_levels (h : ∀ x ∈ e.subterms, x.grouped = true) :
    e.depth 0 ≤ 4 * e.levels + e.rises := by
  induction e using parts_induction with | h e ih =>
  have grouped := h e e.mem_subterms_self
  have below {p : Expr} (hp : p ∈ e.parts) : p.depth 0 ≤ 4 * p.levels + p.rises :=
    ih p hp fun x hx => h x (mem_subterms.mpr (.inr ⟨p, hp, hx⟩))
  refine depth_le.mpr ⟨fun b hb => ?_, fun p hp => ?_⟩
  · have := below (mem_parts.mpr (.inl hb))
    have := levels_of_base hb
    have := rises_of_base grouped hb
    omega
  · have := below (mem_parts.mpr (.inr hp))
    have := p.rises_le
    rcases levels_of_branch grouped hp with inside | ⟨beside, tighter⟩ <;> omega

/-- Where no chain is longer than `k`, a way down takes `k` steps along a chain at most before it
leaves it. -/
theorem height_le_depth {k m : Nat} (h : ∀ x ∈ e.subterms, x.spine ≤ k) (deep : e.depth 0 ≤ m) :
    e.height ≤ m * (k + 1) + e.spine := by
  induction e using parts_induction generalizing m with | h e ih =>
  have inner {p : Expr} (hp : p ∈ e.parts) : ∀ x ∈ p.subterms, x.spine ≤ k :=
    fun x hx => h x (mem_subterms.mpr (.inr ⟨p, hp, hx⟩))
  obtain ⟨base, branches⟩ := depth_le.mp deep
  refine depth_le.mpr ⟨fun b hb => ?_, fun p hp => ?_⟩
  · have part := mem_parts.mpr (.inl hb)
    have : b.height ≤ m * (k + 1) + b.spine := ih b part (inner part) (base b hb)
    rw [spine_of_base hb]
    exact Nat.succ_le_succ this
  · have part := mem_parts.mpr (.inr hp)
    obtain ⟨m, rfl⟩ := Nat.exists_eq_add_one_of_ne_zero (Nat.ne_zero_of_lt (branches p hp))
    have : p.height ≤ m * (k + 1) + p.spine :=
      ih p part (inner part) (Nat.le_of_lt_succ (branches p hp))
    have short : p.spine ≤ k := inner part p p.mem_subterms_self
    rw [Nat.succ_mul]
    exact Nat.lt_of_le_of_lt this (by omega)

theorem subterms_of_subterm {x : Expr} (hp : p ∈ e.subterms) (hx : x ∈ p.subterms) :
    x ∈ e.subterms := by
  induction e using parts_induction with | h e ih =>
  rcases mem_subterms.mp hp with rfl | ⟨q, hq, hp⟩
  · exact hx
  · exact mem_subterms.mpr (.inr ⟨q, hq, ih q hq hp⟩)

theorem levels_of_subterm (h : ∀ x ∈ e.subterms, x.grouped = true) (hp : p ∈ e.subterms) :
    p.levels ≤ e.levels := by
  induction e using parts_induction with | h e ih =>
  rcases mem_subterms.mp hp with rfl | ⟨q, hq, hp⟩
  · exact Nat.le_refl _
  · have inner := ih q hq (fun x hx => h x (mem_subterms.mpr (.inr ⟨q, hq, hx⟩))) hp
    exact Nat.le_trans inner (levels_of_part (h e e.mem_subterms_self) hq)

end Expr

/-- In a program that was read, a way down an expression leaves the chain it is on less than four
times for each level there may be. So an expression is no higher than that many chains of the
greatest length, with a step behind each. -/
theorem parse_bounds_height {c : Cursor} {p : Program} (h : parse (scan c) = .ok p) :
    ∀ d ∈ p.classes, ∀ e ∈ d.subterms, e.depth 0 < 4 * nestingLimit ∧
      ∀ k, (∀ x ∈ e.subterms, x.spine ≤ k) → e.height < 4 * nestingLimit * (k + 1) := by
  intro d hd e he
  obtain ⟨f, hf, root, hr, hx⟩ := ClassDecl.mem_subterms.mp he
  have grouped : ∀ x ∈ root.subterms, x.grouped = true := fun x hx =>
    parse_grouped h d hd x (ClassDecl.mem_subterms.mpr ⟨f, hf, root, hr, hx⟩)
  have shallow : e.levels < nestingLimit :=
    Nat.lt_of_le_of_lt (Expr.levels_of_subterm grouped hx)
      (Program.levels_le.mp (levels_of_parse h) d hd f hf root hr)
  have off : e.depth 0 < 4 * nestingLimit := by
    have := Expr.depth_le_levels fun x hx' => grouped x (Expr.subterms_of_subterm hx hx')
    have := e.rises_le
    omega
  refine ⟨off, fun k short => ?_⟩
  have high := Expr.height_le_depth short (Nat.le_refl (e.depth 0))
  have last := short e e.mem_subterms_self
  have all := Nat.mul_le_mul_right (k + 1) (Nat.succ_le_of_lt off)
  rw [Nat.succ_mul] at all
  omega

theorem parse_bounds_height_assorted : ∃ p, parse (scan assorted) = .ok p ∧
    ∀ d ∈ p.classes, ∀ e ∈ d.subterms, e.depth 0 < 4 * nestingLimit ∧
      ∀ k, (∀ x ∈ e.subterms, x.spine ≤ k) → e.height < 4 * nestingLimit * (k + 1) :=
  have ⟨p, parsed⟩ := assorted_parsed
  ⟨p, parsed, parse_bounds_height parsed⟩

/-! ## A chain of any length -/

def ones : Nat → Expr
  | 0 => .int 1 .unknown
  | n + 1 => .binary .add (ones n) (.int 1 .unknown) .unknown

def summing (n : Nat) : Program :=
  ⟨[⟨⟨ascii "Main", .unknown⟩, none, [.method ⟨⟨ascii "main", .unknown⟩, [],
    ⟨ascii "Int", .unknown⟩, ones n, .unknown⟩], .unknown⟩], .unknown⟩

def TokenValue.written : TokenValue → Bytes
  | .symbol s => s.bytes
  | .ident name => name
  | _ => ascii "1"

def sumText (n : Nat) : Bytes := (summing n).spelling.flatMap fun v => v.written ++ ascii " "

theorem ones_spelling (n : Nat) : ∀ v ∈ (ones n).spelling, v ∈ [.int 1, .symbol .plus] := by
  induction n with
  | zero => decide
  | succ n ih =>
    have text : (ones (n + 1)).spelling = (ones n).spelling ++ [.symbol .plus, .int 1] := rfl
    rw [text]
    exact List.forall_mem_append.mpr ⟨ih, by decide⟩

theorem ones_subterms {n : Nat} {x : Expr} (h : x ∈ (ones n).subterms) : ∃ m, x = ones m := by
  induction n with
  | zero => exact ⟨0, List.mem_singleton.mp h⟩
  | succ n ih =>
    rcases Expr.mem_subterms.mp h with rfl | ⟨p, hp, hx⟩
    · exact ⟨n + 1, rfl⟩
    · rcases List.mem_cons.mp hp with rfl | hp
      · exact ih hx
      · obtain rfl := List.mem_singleton.mp hp
        exact ⟨0, List.mem_singleton.mp hx⟩

theorem ones_canonical (n : Nat) : (ones n).canonical = true := by
  cases n with
  | zero => rfl
  | succ n => cases n <;> rfl

theorem ones_levels (n : Nat) : (ones n).levels = 0 := by
  induction n with
  | zero => rfl
  | succ n ih =>
    rw [ones, Expr.levels, ih]
    rfl

theorem le_height {n : Nat} {e : Expr} (h : e.unplaced = (ones n).unplaced) : n ≤ e.height := by
  induction n generalizing e with
  | zero => exact Nat.zero_le _
  | succ n ih =>
    cases e with
    | binary op left right span =>
      have same : left.unplaced = (ones n).unplaced := (Expr.binary.inj h).2.1
      exact Nat.le_trans (Nat.succ_le_succ (ih same)) (Nat.le_max_left ..)
    | _ => cases h

theorem summing_canonical (n : Nat) : (summing n).Canonical := by
  refine ⟨List.cons_ne_nil _ _, fun c hc => ?_, fun c hc x hx => ?_⟩
  · obtain rfl := List.mem_singleton.mp hc
    rfl
  · obtain rfl := List.mem_singleton.mp hc
    obtain ⟨f, hf, e, he, hx⟩ := ClassDecl.mem_subterms.mp hx
    obtain rfl := List.mem_singleton.mp hf
    obtain rfl := List.mem_singleton.mp he
    obtain ⟨m, rfl⟩ := ones_subterms hx
    exact ones_canonical m

theorem summing_levels (n : Nat) : (summing n).levels = 1 := by
  have levels : (summing n).levels = max ((ones n).levels + 1) 0 := rfl
  rw [levels, ones_levels]
  rfl

/-- Each token of `summing` is read as such. -/
theorem summing_lexemes (n : Nat) : ∀ v ∈ (summing n).spelling, Scan.Lexeme v v.written := by
  have text : (summing n).spelling =
      [.symbol .kwClass, .ident (ascii "Main"), .symbol .braceLeft, .ident (ascii "main"),
        .symbol .parenLeft, .symbol .parenRight, .symbol .colon, .ident (ascii "Int"),
        .symbol .braceLeft] ++ ((ones n).spelling ++
      [.symbol .braceRight, .symbol .semicolon, .symbol .braceRight, .symbol .semicolon]) := by
    simp [summing, Program.spelling, ClassDecl.spelling, Feature.spelling, Method.spelling,
      TypeName.word, Name.word, separated]
  have alone {vs : List TokenValue}
      (h : ∀ v ∈ vs, Scan.piece v.written = .token v v.written.length) :
      ∀ v ∈ vs, Scan.Lexeme v v.written := fun v hv => by
    have lexeme := Scan.lexeme_of_piece (h v hv) (Nat.le_refl _)
    rwa [List.take_length] at lexeme
  rw [text, List.forall_mem_append, List.forall_mem_append]
  refine ⟨alone (by decide +kernel), fun v hv => ?_, alone (by decide +kernel)⟩
  exact alone (by decide +kernel) v (ones_spelling n v hv)

theorem sumText_scanned (n : Nat) : ∃ tokens : List Token,
    scan (.ofText none (sumText n)) = tokens.map .ok ∧
      tokens.map Token.value = (summing n).spelling ++ [.eof] := by
  let rows := (summing n).spelling.map fun v => (v, v.written)
  have joins : Joins (rows.map (·.2)) (sumText n) := by
    have text : sumText n = (rows.map (·.2)).flatMap (· ++ ascii " ") := by
      simp [sumText, rows, List.flatMap_map]
    rw [text]
    exact joins_spaces _
  have lexemes : ∀ row ∈ rows, Scan.Lexeme row.1 row.2 := by
    rintro row hr
    obtain ⟨v, hv, rfl⟩ := List.mem_map.mp hr
    exact summing_lexemes n v hv
  obtain ⟨tokens, scanned, values⟩ := Scan.scan_joins (c := .ofText none (sumText n)) joins lexemes
  refine ⟨tokens, scanned, ?_⟩
  simpa [rows, Function.comp_def] using values

theorem sumText_parsed (n : Nat) : ∃ p, parse (scan (.ofText none (sumText n))) = .ok p ∧
    ∃ d ∈ p.classes, ∃ e ∈ d.subterms, n ≤ e.height := by
  obtain ⟨tokens, scanned, values⟩ := sumText_scanned n
  have fits : (summing n).levels ≤ nestingLimit := by
    rw [summing_levels]
    decide
  obtain ⟨p, parsed, same⟩ := (parse_spelling (summing_canonical n) values).1 fits
  obtain ⟨d, classes, same⟩ := List.map_eq_singleton_iff.mp (Program.mk.inj same).1
  obtain ⟨f, features, same⟩ := List.map_eq_singleton_iff.mp (ClassDecl.mk.inj same).2.2.1
  cases f with
  | «attribute» a => cases same
  | method m =>
    have body : m.body.unplaced = (ones n).unplaced :=
      (Method.mk.inj (Feature.method.inj same)).2.2.2.1
    have inside : m.body ∈ d.subterms := ClassDecl.mem_subterms.mpr
      ⟨.method m, by simp [features], m.body, .head _, m.body.mem_subterms_self⟩
    exact ⟨p, scanned ▸ parsed, d, by simp [classes], m.body, inside, le_height body⟩

/-- No bound holds for the heights of all expressions. -/
theorem summing_refutes : ¬ ∃ bound, ∀ (file : Option Nat) (text : Bytes) (p : Program),
    parse (scan (.ofText file text)) = .ok p →
      ∀ d ∈ p.classes, ∀ e ∈ d.subterms, e.height ≤ bound := by
  rintro ⟨bound, all⟩
  obtain ⟨p, parsed, d, hd, e, he, high⟩ := sumText_parsed (bound + 1)
  exact Nat.not_succ_le_self bound (Nat.le_trans high (all _ _ p parsed d hd e he))

end Cool
