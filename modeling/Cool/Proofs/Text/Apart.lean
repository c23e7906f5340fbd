import Mathlib.Data.List.Basic

/-!
Telling values apart by their texts, when other text stands behind them. A text that could go on is
told apart only if what stands behind it does not go on with a character of its own kind: digits
behind a number, or letters behind a name. A text is a list of characters or of what else is written
in a row, such as the fields of an object.
-/
namespace Cool

variable {σ : Type}

def Stops (p : σ → Bool) (r : List σ) : Prop := ∀ c ∈ r.head?, p c = false

theorem Stops.nil (p : σ → Bool) : Stops p [] := fun _ h => nomatch h

theorem Stops.cons {p : σ → Bool} {c : σ} (h : p c = false) (r : List σ) : Stops p (c :: r) := by
  intro d hd
  cases hd
  exact h

theorem stops_cons_iff {p : σ → Bool} {c : σ} {r : List σ} : Stops p (c :: r) ↔ p c = false :=
  ⟨fun h => h c rfl, fun h => .cons h r⟩

theorem Stops.ne_cons {p : σ → Bool} {c : σ} {r : List σ} (hr : Stops p r) (h : p c = true)
    (t : List σ) : r ≠ c :: t := by
  rintro rfl
  exact Bool.false_ne_true ((stops_cons_iff.mp hr).symm.trans h)

def nothing : σ → Bool := fun _ => false

theorem Stops.nothing (r : List σ) : Stops nothing r := fun _ _ => rfl

/-- Whether two values are the same if their texts are, and so is what stands behind them, as long
as this does not begin with a character of a kind. -/
def Apart {α : Type} (p : σ → Bool) (text : α → List σ) (a b : α) : Prop :=
  ∀ r s, Stops p r → Stops p s → text a ++ r = text b ++ s → a = b ∧ r = s

section Rows

variable {α : Type} {p q : σ → Bool} {text : α → List σ}

/-- A word ends where its kind of characters does. -/
theorem apart_span {a b : List σ} (ha : ∀ c ∈ a, p c = true) (hb : ∀ c ∈ b, p c = true) :
    Apart p id a b := by
  intro r s hr hs h
  simp only [id] at h
  induction a generalizing b with
  | nil =>
    cases b with
    | nil => exact ⟨rfl, h⟩
    | cons c b => exact absurd h (hr.ne_cons (hb c List.mem_cons_self) _)
  | cons c a ih =>
    cases b with
    | nil => exact absurd h.symm (hs.ne_cons (ha c List.mem_cons_self) _)
    | cons d b =>
      rw [List.forall_mem_cons] at ha hb
      obtain ⟨rfl, tail⟩ := List.cons.inj h
      obtain ⟨rfl, rest⟩ := ih ha.2 hb.2 tail
      exact ⟨rfl, rest⟩

/-- A row ends where none of its items begins, if an item is told apart in front of another. -/
theorem apart_flatMap {as bs : List α} (items : ∀ a ∈ as, ∀ b ∈ bs, Apart p text a b)
    (begins : ∀ a, a ∈ as ∨ a ∈ bs → ∃ c r, text a = c :: r ∧ q c = true)
    (parted : ∀ c, q c = true → p c = false) :
    Apart (fun c => p c || q c) (·.flatMap text) as bs := by
  intro r s hr hs h
  have stops {r : List σ} (hr : Stops (fun c => p c || q c) r) : Stops p r ∧ Stops q r := by
    have both (c : σ) (hc : c ∈ r.head?) := Bool.or_eq_false_iff.mp (hr c hc)
    exact ⟨fun c hc => (both c hc).1, fun c hc => (both c hc).2⟩
  have more {as : List α} (begins : ∀ a ∈ as, ∃ c r, text a = c :: r ∧ q c = true)
      {r : List σ} (hr : Stops p r) : Stops p (as.flatMap text ++ r) := by
    cases as with
    | nil => exact hr
    | cons a as =>
      obtain ⟨c, t, eq, hc⟩ := begins a List.mem_cons_self
      rw [List.flatMap_cons, eq]
      exact .cons (parted c hc) _
  have ended {b : α} {r t : List σ} (hb : ∃ c r, text b = c :: r ∧ q c = true)
      (hr : Stops q r) (h : r = text b ++ t) : False := by
    obtain ⟨c, u, eq, hc⟩ := hb
    rw [eq, List.cons_append] at h
    exact hr.ne_cons hc _ h
  dsimp only at h
  induction as generalizing bs with
  | nil =>
    cases bs with
    | nil => exact ⟨rfl, h⟩
    | cons b bs =>
      rw [List.flatMap_nil, List.nil_append, List.flatMap_cons, List.append_assoc] at h
      exact (ended (begins b (.inr List.mem_cons_self)) (stops hr).2 h).elim
  | cons a as ih =>
    cases bs with
    | nil =>
      rw [List.flatMap_nil, List.nil_append, List.flatMap_cons, List.append_assoc] at h
      exact (ended (begins a (.inl List.mem_cons_self)) (stops hs).2 h.symm).elim
    | cons b bs =>
      rw [List.flatMap_cons, List.flatMap_cons, List.append_assoc, List.append_assoc] at h
      have first := items a List.mem_cons_self b List.mem_cons_self _ _
        (more (fun x hx => begins x (.inl (List.mem_cons_of_mem a hx))) (stops hr).1)
        (more (fun x hx => begins x (.inr (List.mem_cons_of_mem b hx))) (stops hs).1) h
      obtain ⟨rfl, tail⟩ := first
      obtain ⟨rfl, rest⟩ := ih
        (fun x hx y hy => items x (List.mem_cons_of_mem a hx) y (List.mem_cons_of_mem a hy))
        (fun x hx => begins x (hx.imp (List.mem_cons_of_mem a) (List.mem_cons_of_mem a))) tail
      exact ⟨rfl, rest⟩

theorem intercalate_cons (sep x : List σ) (xs : List (List σ)) :
    sep.intercalate (x :: xs) = x ++ xs.flatMap (sep ++ ·) := by
  induction xs generalizing x with
  | nil => simp
  | cons y ys ih =>
    rw [List.intercalate_cons_cons, ih, List.flatMap_cons, List.append_assoc, List.append_assoc]

end Rows

section Numbers

theorem toString_inj {m n : Nat} (h : toString m = toString n) : m = n := by
  have h := congrArg (fun s => Nat.ofDigitChars 10 s.toList 0) h
  simpa [Nat.toString_eq_ofList_toDigits] using h

theorem digits_of_nat (n : Nat) : ∀ c ∈ n.repr.toList, c.isDigit = true := by
  rw [Nat.toList_repr]
  exact fun c => Nat.isDigit_of_mem_toDigits (by decide) (by decide)

theorem apart_nat (m n : Nat) : Apart Char.isDigit (fun n : Nat => n.repr.toList) m n := by
  intro r s hr hs h
  obtain ⟨same, rest⟩ := apart_span (digits_of_nat m) (digits_of_nat n) r s hr hs h
  exact ⟨toString_inj (String.toList_inj.mp same), rest⟩

/-- A number is told apart in front of text without digits. -/
theorem apart_int (m n : Int) : Apart Char.isDigit (fun n : Int => (toString n).toList) m n := by
  intro r s hr hs h
  have negative (n : Nat) : (toString (Int.negSucc n)).toList = '-' :: (n + 1).repr.toList :=
    String.toList_append
  have positive (n : Nat) : toString (Int.ofNat n) = n.repr := rfl
  have signs (m n : Nat) {r s : List Char} : m.repr.toList ++ r ≠ '-' :: n.repr.toList ++ s := by
    intro h
    cases digits : m.repr.toList with
    | nil => exact Nat.toDigits_ne_nil (Nat.toList_repr.symm.trans digits)
    | cons c cs =>
      rw [digits] at h
      have first : c = '-' := (List.cons.inj h).1
      have isDigit := digits_of_nat m c (digits ▸ List.mem_cons_self)
      rw [first] at isDigit
      cases isDigit
  dsimp only at h
  cases m with
  | ofNat m =>
    rw [positive] at h
    cases n with
    | ofNat n =>
      rw [positive] at h
      obtain ⟨rfl, rest⟩ := apart_nat m n r s hr hs h
      exact ⟨rfl, rest⟩
    | negSucc n =>
      rw [negative] at h
      exact absurd h (signs m _)
  | negSucc m =>
    rw [negative] at h
    cases n with
    | ofNat n =>
      rw [positive] at h
      exact absurd h.symm (signs n _)
    | negSucc n =>
      rw [negative] at h
      obtain ⟨same, rest⟩ := apart_nat (m + 1) (n + 1) r s hr hs (List.cons.inj h).2
      exact ⟨congrArg Int.negSucc (Nat.succ.inj same), rest⟩

end Numbers

end Cool
