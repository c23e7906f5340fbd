import Cool.Proofs.Bril.Triple
import Cool.Proofs.Lowering.States

/-!
The labels in the code of an expression. Each has the number of its construct, so no label stands
twice in a function.
-/
namespace Cool

open Bril (Instr labels labels_append)
open FunctionState (labelName tempName)
open LowerEnv

theorem labelName_inj {construct construct' part part' : String} {id id' : Nat}
    (hc : DotFree construct) (hc' : DotFree construct') (hp : DotFree part) (hp' : DotFree part')
    (h : labelName construct part id = labelName construct' part' id') :
    construct = construct' ∧ part = part' ∧ id = id' := by
  unfold labelName at h
  rw [String.append_assoc, String.append_assoc, String.append_assoc, String.append_assoc] at h
  have h : construct ++ "." ++ (part ++ "." ++ toString id) =
      construct' ++ "." ++ (part' ++ "." ++ toString id') := by
    simpa only [String.append_assoc] using h
  obtain ⟨construct, h⟩ := hc.append_inj hc' h
  obtain ⟨part, h⟩ := hp.append_inj hp' h
  exact ⟨construct, part, toString_inj h⟩

theorem labelName_eq_iff {construct construct' part part' : String} {id id' : Nat}
    (hc : DotFree construct) (hc' : DotFree construct') (hp : DotFree part)
    (hp' : DotFree part') : labelName construct part id = labelName construct' part' id' ↔
      construct = construct' ∧ part = part' ∧ id = id' :=
  ⟨labelName_inj hc hc' hp hp', by rintro ⟨rfl, rfl, rfl⟩; rfl⟩

structure Numbered (low high : Nat) (names : List String) : Prop where
  nodup : names.Nodup
  within : ∀ l ∈ names, ∃ construct part id, DotFree construct ∧ DotFree part ∧
    l = labelName construct part id ∧ low ≤ id ∧ id < high

namespace Numbered

variable {low mid high : Nat} {names more : List String}

theorem nil : Numbered low high [] := ⟨List.nodup_nil, fun _ h => nomatch h⟩

theorem append (h : Numbered low mid names) (h' : Numbered mid high more) (hl : low ≤ mid)
    (hh : mid ≤ high) : Numbered low high (names ++ more) := by
  constructor
  · refine List.nodup_append.mpr ⟨h.nodup, h'.nodup, ?_⟩
    rintro a ha b hb rfl
    obtain ⟨_, _, id, hc, hp, ha, _, below⟩ := h.within a ha
    obtain ⟨_, _, id', hc', hp', hb, above, _⟩ := h'.within a hb
    have same := (labelName_inj hc hc' hp hp' (ha.symm.trans hb)).2.2
    omega
  · intro l hl'
    rcases List.mem_append.mp hl' with hm | hm
    · obtain ⟨c, p, id, hc, hp, rfl, above, below⟩ := h.within l hm
      exact ⟨c, p, id, hc, hp, rfl, above, by omega⟩
    · obtain ⟨c, p, id, hc, hp, rfl, above, below⟩ := h'.within l hm
      exact ⟨c, p, id, hc, hp, rfl, by omega, below⟩

theorem perm (h : Numbered low high names) (hp : more.Perm names) : Numbered low high more :=
  ⟨hp.nodup_iff.mpr h.nodup, fun l hl => h.within l (hp.subset hl)⟩

theorem of_le (h : Numbered low mid names) (hh : mid ≤ high) : Numbered low high names :=
  ⟨h.nodup, fun l hl => by
    obtain ⟨c, p, id, hc, hp, rfl, above, below⟩ := h.within l hl
    exact ⟨c, p, id, hc, hp, rfl, above, by omega⟩⟩

theorem skip {s : FunctionState} (h : Numbered low s.next names) (n : Nat) :
    Numbered low (s.skip n).next names :=
  h.of_le (Nat.le_add_right _ n)

/-- The labels of one construct. -/
theorem parts {construct : String} {ps : List String} (id : Nat) (hc : DotFree construct)
    (hp : ∀ p ∈ ps, DotFree p) (distinct : ps.Nodup) :
    Numbered id (id + 1) (ps.map (labelName construct · id)) := by
  constructor
  · refine distinct.map_on fun p hpm q hqm same => ?_
    exact (labelName_inj hc hc (hp p hpm) (hp q hqm) same).2.1
  · intro l hl
    obtain ⟨p, hpm, rfl⟩ := List.mem_map.mp hl
    exact ⟨construct, p, id, hc, hp p hpm, rfl, Nat.le_refl _, Nat.lt_succ_self _⟩

end Numbered

open Numbered

theorem condCode_eq (id : Nat) (x y z : Lowered) : condCode id x y z =
    Bril.conditional x.code x.dest (labelName "if" "then" id)
      (labelName "if" "else" id) (labelName "if" "exit" id)
      (y.code ++ [Instr.compute .id (tempName (id + 1)) y.type.ty [y.dest]])
      (z.code ++ [Instr.compute .id (tempName (id + 1)) z.type.ty [z.dest]]) := by
  simp [condCode, Bril.conditional]

/-- The parts of a conditional, and the instructions that put them together. -/
theorem condCode_perm (id : Nat) (x y z : Lowered) : (condCode id x y z).Perm
    (x.code ++ y.code ++ z.code ++
      [Instr.br x.dest (labelName "if" "then" id) (labelName "if" "else" id),
      .label (labelName "if" "then" id), .label (labelName "if" "else" id),
      .label (labelName "if" "exit" id), .jmp (labelName "if" "exit" id),
      .jmp (labelName "if" "exit" id), .compute .id (tempName (id + 1)) y.type.ty [y.dest],
      .compute .id (tempName (id + 1)) z.type.ty [z.dest]]) := by
  refine List.perm_iff_count.mpr fun i => ?_
  simp [condCode, List.count_cons]
  omega

/-- The parts of a loop, behind the instructions that put them together. -/
theorem loopCode_perm (id : Nat) (x y : Lowered) : (loopCode id x y).code.Perm
    ([Instr.label (labelName "loop" "cond" id), .label (labelName "loop" "body" id),
      .label (labelName "loop" "end" id), .jmp (labelName "loop" "cond" id),
      .br x.dest (labelName "loop" "body" id) (labelName "loop" "end" id)]
      ++ (x.code ++ y.code)) := by
  refine List.perm_iff_count.mpr fun i => ?_
  simp [loopCode, List.count_cons]
  omega

theorem labels_condCode_perm (id : Nat) (x y z : Lowered) : (labels (condCode id x y z)).Perm
    (labels x.code ++ labels y.code ++ labels z.code ++
      ["then", "else", "exit"].map (labelName "if" · id)) := by
  simpa using Bril.labels_perm (condCode_perm id x y z)

theorem labels_loopCode_perm (id : Nat) (x y : Lowered) : (labels (loopCode id x y).code).Perm
    (["cond", "body", "end"].map (labelName "loop" · id) ++ (labels x.code ++ labels y.code)) := by
  simpa using Bril.labels_perm (loopCode_perm id x y)

theorem labels_objectCode (env : LowerEnv) (id : Nat) (c : ClassName) :
    labels (env.objectCode id c) = [] := by
  unfold objectCode
  split <;> simp

theorem labels_defaultCode (dest : String) (c : ClassName) : labels (defaultCode dest c) = [] := by
  unfold defaultCode
  cases c.default? <;> simp

/-- The labels in the code of an expression have the numbers given out for it, each once. -/
theorem Lowers.numbered {env : LowerEnv} {s t : FunctionState} {e : Expr} {x : Lowered}
    (h : Lowers env s e x t) : Numbered s.next t.next (labels x.code) := by
  induction h using Lowers.rec
    (motive_2 := fun s _ xs t _ => Numbered s.next t.next (labels (xs.flatMap (·.code))))
    (motive_3 := fun s _ code t _ => Numbered s.next t.next (labels code)) with
  | assignLocal _ _ ih => simpa using ih
  | assignAttribute _ _ _ ih => simpa [addressCode] using ih.skip 2
  | selfCall _ _ _ ih => simpa [called, receiver] using ih.skip 1
  | call hr _ _ ha ihr ih | staticCall hr _ _ ha ihr ih =>
    have operands := ihr.append ih hr.restores.next ha.restores.next
    simpa [called] using operands.skip 1
  | @cond s t u w _ _ _ _ x y z ht hy hn iht ihy ihn =>
    have test := ht.restores.next
    have yes := hy.restores.branch.next
    have no := hn.restores.branch.next
    have first := (iht.append ihy test yes).append ihn (Nat.le_trans test yes) no
    have own := Numbered.parts w.next (by decide : DotFree "if")
      (by decide : ∀ p ∈ ["then", "else", "exit"], DotFree p) (by decide)
    have all := first.append own (Nat.le_trans (Nat.le_trans test yes) no) (Nat.le_succ _)
    exact (all.perm (labels_condCode_perm w.next x y z)).of_le (Nat.le_succ _)
  | @loop s t u _ _ _ x y ht hb iht ihb =>
    have test := ht.restores.next
    have body := hb.restores.next
    have own := Numbered.parts s.next (by decide : DotFree "loop")
      (by decide : ∀ p ∈ ["cond", "body", "end"], DotFree p) (by decide)
    have all := own.append (iht.append ihb test body) (Nat.le_succ _) (Nat.le_trans test body)
    exact all.perm (labels_loopCode_perm s.next x y)
  | block _ ih => exact ih
  | letIn hb hx ihb ih =>
    rw [labels_append]
    exact ihb.append ih hb.proceeds.next hx.restores.next
  | newInt | newBool | int | bool => exact .nil
  | newObject =>
    rw [labels_objectCode]
    exact .nil
  | binary hl hr ihl ihr =>
    have operands := ihl.append ihr hl.restores.next hr.restores.next
    simpa using operands.skip 1
  | not _ ih => simpa using ih.skip 1
  | complement _ ih => simpa using ih.skip 2
  | self | «local» | «attribute» => exact .nil
  | group _ ih => exact ih
  | nil => exact .nil
  | cons hx hxs ih ihs =>
    rw [List.flatMap_cons, labels_append]
    exact ih.append ihs hx.restores.next hxs.restores.next
  | empty => exact .nil
  | @init _ t _ name type _ _ _ _ _ hv hrest ihv ih =>
    have bound := (FunctionState.Proceeds.bind t name.text (type.className.resolve env.self)).next
    have all := (ihv.of_le bound).append ih (Nat.le_trans hv.restores.next bound)
      hrest.proceeds.next
    simpa using all
  | @default s _ name type _ _ _ hrest ih =>
    have bound := (FunctionState.Proceeds.bind s name.text (type.className.resolve env.self)).next
    rw [labels_append, labels_defaultCode]
    exact (Numbered.nil).append ih bound hrest.proceeds.next

end Cool
