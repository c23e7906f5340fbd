import Cool.Bril.Json
import Cool.Proofs.Json

/-!
The JSON of a program loses nothing. An operand list that is left out is empty, since the next field
has another key.
-/
namespace Cool

theorem Json.strings_injective : Function.Injective Json.strings := by
  intro as bs h
  have string : Function.Injective Json.string := fun _ _ h => Json.string.inj h
  exact string.list_map (Json.list.inj h)

namespace Bril

section Words

theorem ValueOp.text_injective : Function.Injective ValueOp.text := by
  intro a b h
  cases a <;> cases b <;> first | rfl | exact absurd h (by decide)

theorem EffectOp.text_injective : Function.Injective EffectOp.text := by
  intro a b h
  cases a <;> cases b <;> first | rfl | exact absurd h (by decide)

theorem ValueOp.text_ne_const (op : ValueOp) : op.text ≠ "const" := by
  cases op <;> decide

theorem EffectOp.text_ne_const (op : EffectOp) : op.text ≠ "const" := by
  cases op <;> decide

end Words

theorem Ty.json_injective : Function.Injective Ty.json := by
  intro a b h
  induction a generalizing b with
  | int => cases b <;> simp_all [Ty.json]
  | bool => cases b <;> simp_all [Ty.json]
  | ptr a ih =>
    cases b with
    | ptr b =>
      simp only [Ty.json, Json.object.injEq, List.cons.injEq, Prod.mk.injEq, true_and,
        and_true] at h
      rw [ih h]
    | int => cases h
    | bool => cases h

theorem Literal.json_injective : Function.Injective Literal.json := by
  intro a b h
  cases a <;> cases b <;> simp_all [Literal.json]

section Operands

def keyed (key : String) (field : String × Json) : Bool := decide (field.1 = key)

theorem stops_operandField {key other : String} (h : other ≠ key) (names : List String)
    {r : List (String × Json)} (hr : Stops (keyed key) r) :
    Stops (keyed key) (operandField other names ++ r) := by
  unfold operandField
  split
  · exact hr
  · exact stops_cons_iff.mpr (decide_eq_false h)

/-- A list of operands is told apart in front of fields with other keys. -/
theorem apart_operandField (key : String) (as bs : List String) :
    Apart (keyed key) (operandField key) as bs := by
  intro r s hr hs h
  have listed {names : List String} (h : names ≠ []) :
      operandField key names = [(key, .strings names)] :=
    if_neg (by simpa using h)
  by_cases ha : as = []
  · subst ha
    by_cases hb : bs = []
    · subst hb
      exact ⟨rfl, h⟩
    · rw [listed hb] at h
      exact absurd h (hr.ne_cons (decide_eq_true rfl) s)
  · rw [listed ha] at h
    by_cases hb : bs = []
    · subst hb
      exact absurd h.symm (hs.ne_cons (decide_eq_true rfl) r)
    · rw [listed hb] at h
      obtain ⟨same, rest⟩ := List.cons.inj h
      exact ⟨Json.strings_injective (Prod.ext_iff.mp same).2, rest⟩

end Operands

theorem operandFields_inj {args args' funcs funcs' labels labels' : List String}
    (h : operandField "args" args ++ operandField "funcs" funcs ++ operandField "labels" labels =
      operandField "args" args' ++ operandField "funcs" funcs' ++ operandField "labels" labels') :
    args = args' ∧ funcs = funcs' ∧ labels = labels' := by
  have noArgs (funcs labels : List String) : Stops (keyed "args")
      (operandField "funcs" funcs ++ (operandField "labels" labels ++ [])) :=
    stops_operandField (by decide) funcs (stops_operandField (by decide) labels (.nil _))
  have noFuncs (labels : List String) :
      Stops (keyed "funcs") (operandField "labels" labels ++ []) :=
    stops_operandField (by decide) labels (.nil _)
  have h := congrArg (· ++ []) h
  simp only [List.append_assoc] at h
  obtain ⟨sameArgs, h⟩ := apart_operandField "args" args args' _ _ (noArgs funcs labels)
    (noArgs funcs' labels') h
  obtain ⟨sameFuncs, h⟩ := apart_operandField "funcs" funcs funcs' _ _ (noFuncs labels)
    (noFuncs labels') h
  exact ⟨sameArgs, sameFuncs,
    (apart_operandField "labels" labels labels' [] [] (.nil _) (.nil _) h).1⟩

theorem dest_ne_operandFields (dest : Json) (r : List (String × Json))
    (args funcs labels : List String) : ("dest", dest) :: r ≠
      operandField "args" args ++ operandField "funcs" funcs ++ operandField "labels" labels := by
  intro h
  have noDest : Stops (keyed "dest") (operandField "args" args ++ (operandField "funcs" funcs ++
      (operandField "labels" labels ++ []))) :=
    stops_operandField (by decide) args (stops_operandField (by decide) funcs
      (stops_operandField (by decide) labels (.nil _)))
  rw [List.append_nil, ← List.append_assoc] at noDest
  exact noDest.ne_cons (decide_eq_true rfl) r h.symm

theorem Instr.json_injective : Function.Injective Instr.json := by
  intro i j h
  cases i with
  | label name =>
    cases j with
    | label name' => simp_all [Instr.json]
    | const _ _ _ | value _ _ _ _ _ | effect _ _ _ _ => simp [Instr.json] at h
  | const dest ty v =>
    cases j with
    | const dest' ty' v' =>
      simp only [Instr.json, Json.object.injEq, List.cons.injEq, Prod.mk.injEq, Json.string.injEq,
        true_and, and_true] at h
      obtain ⟨rfl, tys, vs⟩ := h
      rw [Ty.json_injective tys, Literal.json_injective vs]
    | value op _ _ _ _ => simp [Instr.json, op.text_ne_const.symm] at h
    | effect op _ _ _ => simp [Instr.json, op.text_ne_const.symm] at h
    | label _ => simp [Instr.json] at h
  | value op dest ty args funcs =>
    cases j with
    | value op' dest' ty' args' funcs' =>
      simp only [Instr.json, List.cons_append, List.nil_append, Json.object.injEq, List.cons.injEq,
        Prod.mk.injEq, Json.string.injEq, true_and] at h
      obtain ⟨ops, rfl, tys, operands⟩ := h
      obtain ⟨rfl, rfl, -⟩ := operandFields_inj (congrArg (· ++ operandField "labels" []) operands)
      rw [ValueOp.text_injective ops, Ty.json_injective tys]
    | effect op' args' funcs' labels' =>
      simp only [Instr.json, List.cons_append, List.nil_append, Json.object.injEq,
        List.cons.injEq] at h
      exact absurd h.2 (dest_ne_operandFields _ _ _ _ _)
    | const _ _ _ => simp [Instr.json, op.text_ne_const] at h
    | label _ => simp [Instr.json] at h
  | effect op args funcs labels =>
    cases j with
    | effect op' args' funcs' labels' =>
      simp only [Instr.json, List.cons_append, List.nil_append, Json.object.injEq, List.cons.injEq,
        Prod.mk.injEq, Json.string.injEq, true_and] at h
      obtain ⟨ops, operands⟩ := h
      obtain ⟨rfl, rfl, rfl⟩ := operandFields_inj operands
      rw [EffectOp.text_injective ops]
    | value op' dest' ty' args' funcs' =>
      simp only [Instr.json, List.cons_append, List.nil_append, Json.object.injEq,
        List.cons.injEq] at h
      exact absurd h.2.symm (dest_ne_operandFields _ _ _ _ _)
    | const _ _ _ => simp [Instr.json, op.text_ne_const] at h
    | label _ => simp [Instr.json] at h

theorem Param.json_injective : Function.Injective Param.json := by
  rintro ⟨name, ty⟩ ⟨name', ty'⟩ h
  simp only [Param.json, Json.object.injEq, List.cons.injEq, Prod.mk.injEq, Json.string.injEq,
    true_and, and_true] at h
  obtain ⟨rfl, tys⟩ := h
  rw [Ty.json_injective tys]

theorem Function.json_injective : Function.Injective Function.json := by
  rintro ⟨name, params, result, instrs⟩ ⟨name', params', result', instrs'⟩ h
  simp only [Function.json, List.cons_append, List.nil_append, Json.object.injEq, List.cons.injEq,
    Prod.mk.injEq, Json.string.injEq, Json.list.injEq, true_and] at h
  obtain ⟨rfl, ps, rest⟩ := h
  obtain rfl := Param.json_injective.list_map ps
  cases result with
  | none =>
    cases result' with
    | none =>
      obtain rfl := Instr.json_injective.list_map (by simpa using rest)
      rfl
    | some ty' => simp at rest
  | some ty =>
    cases result' with
    | none => simp at rest
    | some ty' =>
      simp only [List.cons_append, List.nil_append, List.cons.injEq, Prod.mk.injEq, true_and,
        Json.list.injEq, and_true] at rest
      rw [Ty.json_injective rest.1, Instr.json_injective.list_map rest.2]

/-- Programs with the same JSON are the same. -/
theorem Program.json_injective : Function.Injective Program.json := by
  rintro ⟨functions⟩ ⟨functions'⟩ h
  simp only [Program.json, Json.object.injEq, List.cons.injEq, Prod.mk.injEq, true_and,
    Json.list.injEq, and_true] at h
  rw [Function.json_injective.list_map h]

end Bril
end Cool
