import Cool.Proofs.Token.Spacing
import Cool.Proofs.Token.Strings
import Mathlib.Data.List.Induction
import Mathlib.Data.Nat.Digits.Defs

/-!
What numbers mean. The scanner adds one digit after another and gives up at the first step that is
too large. Such a step is never taken back, so it gives up just when the whole number is too large,
however many digits and leading zeros there are.
-/
namespace Cool

def digitValue (d : UInt8) : Nat := (d - byte '0').toNat

/-- The number that some digits write, the highest in front. -/
def decimalValue (digits : Bytes) : Nat := Nat.ofDigits 10 (digits.reverse.map digitValue)

structure LeadingDigits (text digits : Bytes) : Prop where
  nonempty : digits ≠ []
  all : ∀ d ∈ digits, isDigit d = true
  longest : ∃ rest, text = digits ++ rest ∧ ∀ d ∈ rest.head?, isDigit d = false

namespace LeadingDigits

variable {text digits : Bytes}

theorem length_pos (h : LeadingDigits text digits) : 0 < digits.length :=
  List.length_pos_iff.mpr h.nonempty

theorem length_le (h : LeadingDigits text digits) : digits.length ≤ text.length := by
  obtain ⟨rest, rfl, -⟩ := h.longest
  rw [List.length_append]
  exact Nat.le_add_right _ _

end LeadingDigits

theorem decimalValue_concat (digits : Bytes) (d : UInt8) :
    decimalValue (digits ++ [d]) = decimalValue digits * 10 + digitValue d := by
  unfold decimalValue
  rw [List.reverse_append, List.reverse_singleton, List.singleton_append, List.map_cons,
    Nat.ofDigits_cons, Nat.add_comm, Nat.mul_comm]

namespace Scan

variable {text digits : Bytes} {c : Cursor} {v : TokenValue} {n : Nat}

theorem fitting?_bind {m n : Nat} (h : m ≤ n) :
    ((fitting? m).bind fun _ => fitting? n) = fitting? n := by
  unfold fitting?
  by_cases fits : m ≤ maxInt
  · rw [if_pos fits, Option.bind_some]
  · rw [if_neg fits, if_neg fun fits' => fits (Nat.le_trans h fits')]
    rfl

theorem addDigit?_eq (n : Nat) (d : UInt8) : addDigit? n d = fitting? (n * 10 + digitValue d) := by
  have step : addDigit? n d =
      (fitting? (n * 10)).bind fun _ => fitting? (n * 10 + digitValue d) := by
    unfold addDigit? fitting?
    by_cases fits : n * 10 ≤ maxInt
    · simp only [if_pos fits]
      rfl
    · simp only [if_neg fits]
      rfl
  rw [step, fitting?_bind (Nat.le_add_right _ _)]

theorem foldlM_addDigit? (digits : Bytes) :
    digits.foldlM addDigit? 0 = fitting? (decimalValue digits) := by
  -- From the back: the value of the digits in front is what the fold has reached at the last one.
  induction digits using List.reverseRecOn with
  | nil => rfl
  | append_singleton digits d ih =>
    have smaller : decimalValue digits ≤ decimalValue digits * 10 + digitValue d := by omega
    have last (n : Nat) : [d].foldlM addDigit? n = fitting? (n * 10 + digitValue d) := by
      rw [List.foldlM_cons, addDigit?_eq]
      exact bind_pure _
    -- The digits in front are tested too, but a test that fails there fails for all of them.
    rw [List.foldlM_append, ih, decimalValue_concat, ← fitting?_bind smaller]
    unfold fitting?
    by_cases fits : decimalValue digits ≤ maxInt
    · rw [if_pos fits]
      exact last _
    · rw [if_neg fits]
      rfl

theorem takeWhile_of_leadingDigits (h : LeadingDigits text digits) :
    text.takeWhile isDigit = digits := by
  obtain ⟨rest, rfl, stops⟩ := h.longest
  rw [List.takeWhile_append_of_pos h.all]
  cases rest with
  | nil => simp
  | cons d rest => simp [stops d rfl]

theorem leadingDigits_takeWhile {b : UInt8} (h : isDigit b = true) (rest : Bytes) :
    LeadingDigits (b :: rest) ((b :: rest).takeWhile isDigit) where
  nonempty := by simp [h]
  all := List.all_eq_true.mp List.all_takeWhile
  longest := by
    refine ⟨(b :: rest).dropWhile isDigit, List.takeWhile_append_dropWhile.symm, fun d hd => ?_⟩
    have stops := List.head?_dropWhile_not isDigit (b :: rest)
    rwa [hd] at stops

theorem piece_of_isDigit {b : UInt8} (h : isDigit b = true) (rest : Bytes) :
    piece (b :: rest) = number (b :: rest) := by
  have ne {other : UInt8} (no : isDigit other = false) : b ≠ other := by
    rintro rfl
    cases h.symm.trans no
  have dashes : (ascii "--").isPrefixOf (b :: rest) = false := by
    have first : (byte '-' == b) = false := beq_false_of_ne (ne rfl).symm
    change (byte '-' == b && _) = false
    rw [first, Bool.false_and]
  have opening : (ascii "(*").isPrefixOf (b :: rest) = false := by
    have first : (byte '(' == b) = false := beq_false_of_ne (ne rfl).symm
    change (byte '(' == b && _) = false
    rw [first, Bool.false_and]
  have dark : isBlank b = false := by
    by_contra blank
    have no := not_isDigit_of_isBlank (Bool.not_eq_false _ ▸ blank)
    cases h.symm.trans no
  have quote : b ≠ byte '"' := ne rfl
  simp only [piece, dashes, opening, dark, h, if_neg quote, Bool.false_eq_true, if_false, if_true]

theorem piece_of_leadingDigits (h : LeadingDigits text digits) : piece text =
    if decimalValue digits ≤ maxInt then .token (.int (decimalValue digits)) digits.length
    else .fault .numberTooLarge (digits.length - 1) digits.length := by
  have read : piece text = number text := by
    obtain ⟨rest, rfl, -⟩ := h.longest
    obtain ⟨b, bs, rfl⟩ := List.exists_cons_of_ne_nil h.nonempty
    exact piece_of_isDigit (h.all b (.head _)) (bs ++ rest)
  rw [read, number, takeWhile_of_leadingDigits h, foldlM_addDigit?, fitting?]
  by_cases fits : decimalValue digits ≤ maxInt
  · rw [if_pos fits, if_pos fits]
  · rw [if_neg fits, if_neg fits]

/-- An integer is read from all the digits at its place, and it is what they write. -/
theorem of_piece_int {value : Int} (h : piece text = .token (.int value) n) :
    ∃ digits, LeadingDigits text digits ∧ digits.length = n ∧ value = decimalValue digits := by
  cases text with
  | nil => cases h
  | cons b rest =>
    have read := (piece_eq_token.mp h).2
    have digit : isDigit b = true := by
      unfold tokenPiece at read
      split at read
      · obtain ⟨_, same⟩ := string_of_stringFrom read
        cases same
      split at read
      · assumption
      split at read
      · unfold word at read
        dsimp only at read
        split at read <;> cases read
      · obtain ⟨_, _, same, _⟩ := leading?_of_symbol read
        cases same
    have leads := leadingDigits_takeWhile digit rest
    have decided := piece_of_leadingDigits leads
    rw [h] at decided
    split at decided
    · obtain ⟨same, length⟩ := Piece.token.inj decided
      exact ⟨_, leads, length.symm, TokenValue.int.inj same⟩
    · cases decided

/-- Every token but the end of the text is a piece of it at the place of the token. -/
theorem piece_of_scan {t : Token} (h : .ok t ∈ scan c) (ahead : c.rest = text.drop c.pos.byte) :
    t.value = .eof ∨ ∃ (d : Cursor) (n : Nat), piece d.rest = .token t.value n ∧
      n ≤ d.rest.length ∧ d.rest = text.drop d.pos.byte ∧
      t.span = ⟨d.pos, (d.advance n).last⟩ := by
  induction c using scan_induction with
  | done c empty =>
    rw [scan_done empty, List.mem_singleton] at h
    cases h
    exact .inl rfl
  | fault c f upto n hp =>
    rw [scan_fault hp, List.mem_singleton] at h
    cases h
  | trivia c n hp within ih =>
    rw [scan_trivia hp] at h
    exact ih h (rest_of_text ahead within)
  | token c v n hp within ih =>
    rw [scan_token hp] at h
    rcases List.mem_cons.mp h with here | later
    · cases here
      exact .inr ⟨c, n, hp, within, ahead, rfl⟩
    · exact ih later (rest_of_text ahead within)

end Scan

open Scan

/-- Whether an integer is written at a place of a text: there stand the digits that write it, and
they go on to the end of the place and no further. -/
def WrittenAt (text : Bytes) (value : Int) (span : Span) : Prop :=
  ∃ digits, LeadingDigits (text.drop span.start.byte) digits ∧
    span.stop.byte + 1 = span.start.byte + digits.length ∧ value = decimalValue digits

/-- An integer that is scanned from a text is written there. -/
theorem writtenAt_of_scan {file : Option Nat} {text : Bytes} {value : Int} {span : Span}
    (h : .ok ⟨.int value, span⟩ ∈ scan (.ofText file text)) : WrittenAt text value span := by
  rcases piece_of_scan h rfl with eof | ⟨d, n, hp, within, ahead, place⟩
  · cases eof
  · obtain ⟨digits, leads, rfl, same⟩ := of_piece_int hp
    cases place
    rw [ahead] at leads
    exact ⟨digits, leads, last_advance (pos_of_token hp) within, same⟩

/-- Digits are read as the number that they write if it fits into 63 bits, and otherwise as a fault
that ends at the last of them, however many there are. -/
theorem scan_digits {c : Cursor} {digits : Bytes} (h : LeadingDigits c.rest digits) :
    let span : Span := ⟨c.pos, (c.advance (digits.length - 1)).pos⟩
    scan c =
      if decimalValue digits ≤ 2 ^ 63 - 1 then
        .ok ⟨.int (decimalValue digits), span⟩ :: scan (c.advance digits.length)
      else [.error ⟨.numberTooLarge, span⟩] := by
  have read := piece_of_leadingDigits h
  have limit : maxInt = 2 ^ 63 - 1 := rfl
  rw [limit] at read
  dsimp only
  split
  · rename_i fits
    rw [if_pos fits] at read
    have before : digits.length - 1 < c.rest.length := by
      have := h.length_pos
      have := h.length_le
      omega
    have last := last_advance_succ before
    rw [Nat.sub_add_cancel h.length_pos] at last
    rw [scan_token read, last]
  · rename_i large
    rw [if_neg large] at read
    exact scan_fault read

end Cool
