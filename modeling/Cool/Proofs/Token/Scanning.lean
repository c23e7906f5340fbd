import Cool.Proofs.Token.Tiling

/-!
Scanning one piece at a time. What is scanned ahead of a reader is what its first piece yields,
followed by what is scanned behind that piece; how many rounds the scanner is given does not show.
-/
namespace Cool

namespace Scan

variable {c : Cursor} {n : Nat}

theorem advance_of_rest_nil (h : c.rest = []) : c.advance n = c := by
  cases n with
  | zero => rfl
  | succ n => simp [Cursor.advance, Cursor.next?, h]

theorem advance_add (c : Cursor) (m n : Nat) : (c.advance m).advance n = c.advance (m + n) := by
  induction m generalizing c with
  | zero => rw [Nat.zero_add]; rfl
  | succ m ih =>
    cases h : c.rest with
    | nil => simp only [advance_of_rest_nil h]
    | cons b bs =>
      rw [Nat.succ_add]
      simp only [Cursor.advance, Cursor.next?, h]
      exact ih _

theorem scan_done (h : c.rest = []) : scan c = [.ok ⟨.eof, ⟨c.pos, c.pos⟩⟩] := by
  simp [scan, pieces, piecesFrom, h, piece, item?]

theorem scan_fault {f : LexFault} {upto : Nat} (h : piece c.rest = .fault f upto n) :
    scan c = [.error ⟨f, ⟨c.pos, (c.advance upto).pos⟩⟩] := by
  simp [scan, pieces, piecesFrom, h, item?]

/-- Behind a piece that takes up a byte, the rounds that are left are enough. -/
theorem piecesFrom_behind (ahead : piece c.rest ≠ .done) (pos : 0 < n) :
    piecesFrom c.rest.length (c.advance n) = pieces (c.advance n) := by
  have shorter := length_advance ahead pos
  obtain ⟨more, enough⟩ := Nat.exists_eq_add_of_le shorter
  rw [enough]
  exact piecesFrom_steady (Nat.lt_succ_self _)

theorem pos_of_token {bs : Bytes} {v : TokenValue} (h : piece bs = .token v n) : 0 < n := by
  have goes : (piece bs).Goes := piece_goes
  rw [h] at goes
  exact goes.1

theorem pieces_trivia (h : piece c.rest = .trivia n) :
    pieces c = (c, .trivia n) :: pieces (c.advance n) := by
  have goes : (piece c.rest).Goes := piece_goes
  have ahead : piece c.rest ≠ .done := by simp [h]
  rw [h] at goes
  rw [← piecesFrom_behind ahead goes, pieces, piecesFrom, h]

theorem pieces_token {v : TokenValue} (h : piece c.rest = .token v n) :
    pieces c = (c, .token v n) :: pieces (c.advance n) := by
  have ahead : piece c.rest ≠ .done := by simp [h]
  rw [← piecesFrom_behind ahead (pos_of_token h), pieces, piecesFrom, h]

theorem scan_trivia (h : piece c.rest = .trivia n) : scan c = scan (c.advance n) := by
  rw [scan, pieces_trivia h]
  rfl

theorem scan_token {v : TokenValue} (h : piece c.rest = .token v n) :
    scan c = .ok ⟨v, ⟨c.pos, (c.advance n).last⟩⟩ :: scan (c.advance n) := by
  rw [scan, pieces_token h]
  rfl

/-- Induction over what is ahead of a reader, piece by piece. -/
@[elab_as_elim]
theorem scan_induction {P : Cursor → Prop} (c : Cursor) (done : ∀ c : Cursor, c.rest = [] → P c)
    (fault : ∀ (c : Cursor) f upto n, piece c.rest = .fault f upto n → P c)
    (trivia : ∀ (c : Cursor) n, piece c.rest = .trivia n → n ≤ c.rest.length →
      P (c.advance n) → P c)
    (token : ∀ (c : Cursor) v n, piece c.rest = .token v n → n ≤ c.rest.length →
      P (c.advance n) → P c) : P c := by
  induction hn : c.rest.length using Nat.strongRecOn generalizing c with | ind k ih =>
  subst hn
  have goes : (piece c.rest).Goes := piece_goes
  have covers : (piece c.rest).Covers c.rest := piece_covers
  cases hp : piece c.rest with
  | done =>
    rw [hp] at covers
    exact done c covers
  | fault f upto n => exact fault c f upto n hp
  | trivia n =>
    rw [hp] at goes covers
    have shorter : (c.advance n).rest.length < c.rest.length :=
      length_advance (by simp [hp]) goes
    exact trivia c n hp covers.1 (ih _ shorter _ rfl)
  | token v n =>
    rw [hp] at covers
    have shorter : (c.advance n).rest.length < c.rest.length :=
      length_advance (by simp [hp]) (pos_of_token hp)
    exact token c v n hp covers (ih _ shorter _ rfl)

theorem rest_of_text {text : Bytes} (h : c.rest = text.drop c.pos.byte)
    (within : n ≤ c.rest.length) :
    (c.advance n).rest = text.drop (c.advance n).pos.byte := by
  rw [rest_advance, byte_advance within, h, List.drop_drop]

theorem after_return (p : Position) :
    p.after (byte '\r') (some (byte '\n')) = { p with byte := p.byte + 1 } := rfl

theorem after_feed (p : Position) (following : Option UInt8) :
    p.after (byte '\n') following = ⟨p.file, p.byte + 1, p.line + 1, 1⟩ := rfl

theorem after_lone_return {following : Option UInt8} (alone : following ≠ some (byte '\n'))
    (p : Position) : p.after (byte '\r') following = ⟨p.file, p.byte + 1, p.line + 1, 1⟩ := by
  unfold Position.after
  rw [if_neg (by simpa using alone), if_pos (by simp)]

theorem after_other {b : UInt8} (feed : b ≠ byte '\n') (other : b ≠ byte '\r') (p : Position)
    (following : Option UInt8) : p.after b following =
      ⟨p.file, p.byte + 1, p.line, if Position.isContinuation b then p.col else p.col + 1⟩ := by
  unfold Position.after
  rw [if_neg (by simp [other]), if_neg (by simp [other, feed])]
  split <;> rfl

theorem file_after (p : Position) (b : UInt8) (following : Option UInt8) :
    (p.after b following).file = p.file := by
  unfold Position.after
  split <;> (try split) <;> (try split) <;> rfl

theorem file_advance (c : Cursor) (n : Nat) : (c.advance n).pos.file = c.pos.file := by
  induction n generalizing c with
  | zero => rfl
  | succ n ih =>
    unfold Cursor.advance Cursor.next?
    cases hr : c.rest with
    | nil => rfl
    | cons b bs => exact (ih _).trans (file_after ..)

theorem scan_file {c : Cursor} {t : Token} (h : .ok t ∈ scan c) :
    t.span.start.file = c.pos.file := by
  induction c using scan_induction with
  | done c empty =>
    rw [scan_done empty, List.mem_singleton] at h
    cases h
    rfl
  | fault c f upto n hp =>
    rw [scan_fault hp, List.mem_singleton] at h
    cases h
  | trivia c n hp within ih =>
    rw [scan_trivia hp] at h
    exact (ih h).trans (file_advance c n)
  | token c v n hp within ih =>
    rw [scan_token hp] at h
    rcases List.mem_cons.mp h with same | h
    · cases same
      rfl
    · exact (ih h).trans (file_advance c n)

end Scan

end Cool
