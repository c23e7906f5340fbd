import Cool.Token.Scan

/-!
A scanned text ends: behind tokens comes either the end of the text or a fault, and then nothing.
Every piece but the last takes up a byte, so no text is left when the rounds of the scanner are.
-/
namespace Cool

inductive Ended : List ScanItem → Prop where
  | fault (e : LexError) : Ended [.error e]
  | eof {t : Token} : t.value = .eof → Ended [.ok t]
  | token {t : Token} {items : List ScanItem} : t.value ≠ .eof → Ended items →
      Ended (.ok t :: items)

namespace Ended

variable {t : Token} {items : List ScanItem}

theorem ne_nil (h : Ended items) : items ≠ [] := by
  cases h <;> simp

theorem tail (h : Ended (.ok t :: items)) (ht : t.value ≠ .eof) : Ended items := by
  cases h with
  | eof he => exact absurd he ht
  | token _ h => exact h

end Ended

namespace Scan

variable {bs : Bytes} {v : TokenValue} {n : Nat}

def Piece.Goes : Piece → Prop
  | .trivia n => 0 < n
  | .token v n => 0 < n ∧ v ≠ .eof
  | .done | .fault .. => True

theorem takeWhile_pos {p : UInt8 → Bool} {c : UInt8} {rest : Bytes} (h : p c = true) :
    0 < ((c :: rest).takeWhile p).length := by
  simp [List.takeWhile_cons_of_pos h]

theorem lineComment_goes {c : UInt8} {rest : Bytes} : (lineComment (c :: rest)).Goes := by
  simp [lineComment, Piece.Goes]

theorem le_of_commentFrom {offset depth : Nat} (h : commentFrom offset depth bs = some n) :
    offset ≤ n := by
  fun_induction commentFrom offset depth bs with
  | case1 _ _ _ _ _ _ ih => exact Nat.le_of_add_right_le (ih h)
  | case2 => cases h; exact Nat.le_add_right _ 2
  | case3 _ _ _ _ _ _ _ ih => exact Nat.le_of_add_right_le (ih h)
  | case4 _ _ _ _ _ _ _ ih => exact Nat.le_of_add_right_le (ih h)
  | case5 => cases h

theorem comment_goes : (comment bs).Goes := by
  unfold comment
  split
  · have := le_of_commentFrom ‹_›
    exact Nat.lt_of_lt_of_le (by omega) this
  · trivial

theorem stringFrom_goes {raw : Bytes} {offset : Nat} {copy : Option Bytes} {nul : Option Nat} :
    (stringFrom raw offset copy nul bs).Goes := by
  fun_induction stringFrom raw offset copy nul bs <;> simp_all [Piece.Goes]

theorem string_of_stringFrom {raw : Bytes} {offset : Nat} {copy : Option Bytes} {nul : Option Nat}
    (h : stringFrom raw offset copy nul bs = .token v n) : ∃ value, v = .string value := by
  fun_induction stringFrom raw offset copy nul bs with
  | case1 | case2 | case4 | case5 => cases h
  | case3 => exact ⟨_, (Piece.token.inj h).1.symm⟩
  | case6 _ _ _ _ _ _ _ ih | case7 _ _ _ _ _ _ _ _ ih => exact ih h

theorem lt_of_stringFrom {raw : Bytes} {offset : Nat} {copy : Option Bytes} {nul : Option Nat}
    (h : stringFrom raw offset copy nul bs = .token v n) : offset + 1 < n := by
  fun_induction stringFrom raw offset copy nul bs with
  | case1 | case2 | case4 | case5 => cases h
  | case3 => cases h; exact Nat.lt_succ_self _
  | case6 _ _ _ _ _ _ _ ih => exact Nat.lt_trans (by omega) (ih h)
  | case7 _ _ _ _ _ _ _ _ ih => exact Nat.lt_trans (by omega) (ih h)

theorem number_goes {c : UInt8} {rest : Bytes} (h : isDigit c = true) :
    (number (c :: rest)).Goes := by
  unfold number
  dsimp only
  split
  · exact ⟨takeWhile_pos h, nofun⟩
  · trivial

theorem word_goes {c : UInt8} {rest : Bytes} (h : isLetter c = true) :
    (word (c :: rest)).Goes := by
  have pos : 0 < ((c :: rest).takeWhile isNameByte).length :=
    takeWhile_pos (by simp [isNameByte, h])
  unfold word
  dsimp only
  split
  · exact ⟨pos, nofun⟩
  · exact ⟨pos, nofun⟩

theorem symbol_goes {c : UInt8} : (symbol c bs).Goes := by
  unfold symbol
  split
  · rename_i s _
    exact ⟨by cases s <;> decide, nofun⟩
  · trivial

theorem piece_goes : (piece bs).Goes := by
  cases bs with
  | nil => trivial
  | cons c rest =>
    simp only [piece]
    split
    · exact lineComment_goes
    split
    · exact comment_goes
    split
    · exact takeWhile_pos ‹_›
    split
    · exact stringFrom_goes
    split
    · exact number_goes ‹_›
    split
    · exact word_goes ‹_›
    · exact symbol_goes

theorem rest_advance (c : Cursor) : (c.advance n).rest = c.rest.drop n := by
  induction n generalizing c with
  | zero => rfl
  | succ n ih =>
    unfold Cursor.advance Cursor.next?
    cases h : c.rest with
    | nil => simp [h]
    | cons b bs => simp [ih]

theorem length_advance {c : Cursor} (h : piece c.rest ≠ .done) (hn : 0 < n) :
    (c.advance n).rest.length < c.rest.length := by
  have ahead : c.rest ≠ [] := fun empty => h (by rw [empty]; rfl)
  rw [rest_advance, List.length_drop]
  have := List.length_pos_iff.mpr ahead
  omega

theorem piecesFrom_ended {rounds : Nat} {c : Cursor} (h : c.rest.length < rounds) :
    Ended ((piecesFrom rounds c).filterMap item?) := by
  induction rounds generalizing c with
  | zero => omega
  | succ rounds ih =>
    have goes : (piece c.rest).Goes := piece_goes
    unfold piecesFrom
    cases hp : piece c.rest with
    | done => exact .eof rfl
    | fault f upto n => exact .fault _
    | trivia n =>
      rw [hp] at goes
      have shorter := length_advance (by rw [hp]; nofun) goes
      exact ih (Nat.lt_of_lt_of_le shorter (Nat.le_of_lt_succ h))
    | token v n =>
      rw [hp] at goes
      have shorter := length_advance (by rw [hp]; nofun) goes.1
      exact .token goes.2 (ih (Nat.lt_of_lt_of_le shorter (Nat.le_of_lt_succ h)))

/-- Scanning comes to the end of the text or to a fault, and yields nothing behind that. -/
theorem scan_ended (c : Cursor) : Ended (scan c) := piecesFrom_ended (Nat.lt_succ_self _)

end Scan

end Cool
