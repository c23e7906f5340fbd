import Cool.Proofs.Token.Spacing

/-!
Block comments. Behind an opening stand bytes and other comments, as the grammar of comments says,
up to the first end that belongs to the opening. No comment begins another one, so a text begins
with one comment at most; a scanner skips just that, or comes to the end of the text.
-/
namespace Cool

inductive BlockComment : Bytes → Prop where
  | mk {body : Bytes} : Commented body → BlockComment (ascii "(*" ++ body)

namespace Scan

variable {bs : Bytes}

theorem piece_of_opening (opens : ascii "(*" <+: bs) : piece bs = comment bs := by
  obtain ⟨text, rfl⟩ := opens
  rfl

theorem comment_of_blockComment (h : BlockComment bs) (rest : Bytes) :
    comment (bs ++ rest) = .trivia bs.length := by
  obtain ⟨body⟩ := h
  rw [← piece_block body rest]
  exact (piece_of_opening ⟨_, (List.append_assoc ..).symm⟩).symm

theorem eq_of_blockComment {text a b : Bytes} (ha : BlockComment a) (hb : BlockComment b)
    (first : a <+: text) (second : b <+: text) : a = b := by
  obtain ⟨rest, rfl⟩ := first
  obtain ⟨rest', same⟩ := second
  have read := comment_of_blockComment ha rest
  rw [← same, comment_of_blockComment hb rest'] at read
  exact (List.append_inj same (Piece.trivia.inj read)).1.symm

theorem comment_eq_elim (text : Bytes) : comment (ascii "(*" ++ text) =
    (commentFrom 2 0 text).elim (.fault .unterminatedComment (ascii "(*" ++ text).length
      (ascii "(*" ++ text).length) .trivia := by
  rw [comment, List.drop_left' (by rfl)]
  cases commentFrom 2 0 text <;> rfl

/-- A text that begins with an opening begins with a comment, or ends within one. -/
theorem comment_of_opening (opens : ascii "(*" <+: bs) :
    (∃ p, p <+: bs ∧ BlockComment p ∧ comment bs = .trivia p.length) ∨
    (∀ p, p <+: bs → ¬ BlockComment p) ∧
      comment bs = .fault .unterminatedComment bs.length bs.length := by
  obtain ⟨text, rfl⟩ := opens
  have read := comment_eq_elim text
  cases found : commentFrom 2 0 text with
  | some n =>
    rw [found] at read
    obtain ⟨bodies, rest, rfl, length, all, rfl⟩ := commentFrom_eq_some found
    obtain ⟨body, rfl⟩ := List.length_eq_one_iff.mp length
    refine .inl ⟨ascii "(*" ++ body, ?_, .mk (all body (.head _)), read.trans ?_⟩
    · simp
    · simp [ascii, Nat.add_comm 2]
  | none =>
    rw [found] at read
    refine .inr ⟨fun p front isComment => ?_, read⟩
    obtain ⟨rest, split⟩ := front
    have skipped := comment_of_blockComment isComment rest
    rw [split, read] at skipped
    cases skipped

end Scan

/-- A text that begins with an opening begins with exactly one comment, which is skipped, or with
none, which is found out at the end of the text. -/
theorem scan_comment {c : Cursor} (opens : ascii "(*" <+: c.rest) :
    (∃ p, (∀ q, q <+: c.rest ∧ BlockComment q ↔ q = p) ∧
      Scan.comment c.rest = .trivia p.length ∧ c.rest = p ++ (c.advance p.length).rest ∧
      scan c = scan (c.advance p.length)) ∨
    (∀ q, ¬ (q <+: c.rest ∧ BlockComment q)) ∧ (c.advance c.rest.length).rest = [] ∧
      scan c = [.error ⟨.unterminatedComment, ⟨c.pos, (c.advance c.rest.length).pos⟩⟩] := by
  have whole := Scan.piece_of_opening opens
  rcases Scan.comment_of_opening opens with ⟨p, front, isComment, read⟩ | ⟨none, read⟩
  · refine .inl ⟨p, fun q => ⟨fun h => ?_, ?_⟩, read, ?_, Scan.scan_trivia (whole.trans read)⟩
    · exact Scan.eq_of_blockComment h.2 isComment h.1 front
    · rintro rfl
      exact ⟨front, isComment⟩
    · obtain ⟨rest, split⟩ := front
      rw [Scan.rest_advance, ← split, List.drop_left]
  · refine .inr ⟨fun q h => none q h.1 h.2, ?_, Scan.scan_fault (whole.trans read)⟩
    rw [Scan.rest_advance, List.drop_length]

/-- A comment with another in it, their delimiters next to each other. -/
def overlapping : Bytes := ascii "(*)(**)*)x"

theorem overlapping_blockComment : BlockComment (ascii "(*)(**)*)") := by
  have inner : Commented (ascii "*)") := .close
  have body : Commented (ascii ")(**)*)") := .byte (by decide) (by decide) (.nested inner .close)
  exact .mk body

theorem scan_comment_overlapping : ascii "(*" <+: (Cursor.ofText none overlapping).rest ∧
    (∀ q, q <+: overlapping ∧ BlockComment q ↔ q = ascii "(*)(**)*)") ∧
    scan (.ofText none overlapping) = scan ((Cursor.ofText none overlapping).advance 9) := by
  have opens : ascii "(*" <+: (Cursor.ofText none overlapping).rest := ⟨ascii ")(**)*)x", rfl⟩
  have front : ascii "(*)(**)*)" <+: overlapping := ⟨ascii "x", rfl⟩
  rcases scan_comment opens with ⟨p, only, _, _, skipped⟩ | ⟨none, _⟩
  · cases (only _).mp ⟨front, overlapping_blockComment⟩
    exact ⟨opens, only, skipped⟩
  · exact absurd ⟨front, overlapping_blockComment⟩ (none _)

/-- The star of an opening does not also end the comment. -/
example : Scan.piece (ascii "(*)") = .fault .unterminatedComment 3 3 := by decide

end Cool
