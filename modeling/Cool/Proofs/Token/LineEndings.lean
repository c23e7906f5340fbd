import Cool.Proofs.Token.Spacing

/-!
Line endings. Where a carriage return stands before every line feed, a text has the tokens it had
before at the lines and columns it had them, unless a token has a line feed in it. This is a string
with an escaped one: the backslash then escapes the carriage return, and the line feed ends the text
of the string too early.
-/
namespace Cool

/-- A text with a carriage return before every line feed. -/
def crlf (bs : Bytes) : Bytes :=
  bs.flatMap fun b => if b = byte '\n' then [byte '\r', byte '\n'] else [b]

@[simp] theorem crlf_nil : crlf [] = [] := rfl

theorem crlf_cons (b : UInt8) (bs : Bytes) :
    crlf (b :: bs) = (if b = byte '\n' then [byte '\r', byte '\n'] else [b]) ++ crlf bs :=
  List.flatMap_cons

theorem crlf_append (front back : Bytes) : crlf (front ++ back) = crlf front ++ crlf back :=
  List.flatMap_append

theorem crlf_feed (bs : Bytes) : crlf (byte '\n' :: bs) = byte '\r' :: byte '\n' :: crlf bs := by
  rw [crlf_cons, if_pos rfl]
  rfl

theorem crlf_other {b : UInt8} (h : b ≠ byte '\n') (bs : Bytes) :
    crlf (b :: bs) = b :: crlf bs := by
  rw [crlf_cons, if_neg h]
  rfl

theorem crlf_of_not_mem {bs : Bytes} (h : byte '\n' ∉ bs) : crlf bs = bs := by
  induction bs with
  | nil => rfl
  | cons b bs ih =>
    rw [List.mem_cons, not_or] at h
    rw [crlf_other (Ne.symm h.1), ih h.2]

/-- What comes first is a new carriage return or what came first. -/
theorem head?_of_crlf {b : UInt8} {bs : Bytes} (h : (crlf bs).head? = some b) :
    b = byte '\r' ∨ bs.head? = some b := by
  cases bs with
  | nil => exact .inr h
  | cons c bs =>
    by_cases feed : c = byte '\n'
    · rw [feed, crlf_feed] at h
      exact .inl (Option.some.inj h).symm
    · rw [crlf_other feed] at h
      exact .inr h

/-- What a token is and where it starts, as line and column. -/
def Token.mark (t : Token) : TokenValue × Nat × Nat :=
  (t.value, t.span.start.line, t.span.start.col)

/-! ## Comments and blanks -/

/-- A pair without line breaks starts the new text only where it started the old one. -/
theorem pair_of_crlf {a b : UInt8} {bs : Bytes} (ha : a ≠ byte '\r') (hb : b ≠ byte '\r')
    (h : [a, b] <+: crlf bs) : [a, b] <+: bs := by
  cases bs with
  | nil => exact h
  | cons c bs =>
    by_cases feed : c = byte '\n'
    · rw [feed, crlf_feed] at h
      exact absurd (Scan.pair_prefix_iff.mp h).1 ha
    · rw [crlf_other feed] at h
      obtain ⟨same, next⟩ := Scan.pair_prefix_iff.mp h
      exact Scan.pair_prefix_iff.mpr ⟨same, (head?_of_crlf next).resolve_left hb⟩

theorem commented_crlf {body : Bytes} (h : Commented body) : Commented (crlf body) := by
  induction h with
  | close => exact .close
  | @byte c rest no_opening no_end inner ih =>
    by_cases feed : c = byte '\n'
    · have alone (a b d : UInt8) (later : Bytes) (h : a ≠ d) : ¬ [a, b] <+: d :: later :=
        fun pair => h (List.cons_prefix_cons.mp pair).1
      rw [feed, crlf_feed]
      exact .byte (alone _ _ _ _ (by decide)) (alone _ _ _ _ (by decide))
        (.byte (alone _ _ _ _ (by decide)) (alone _ _ _ _ (by decide)) ih)
    · have no_opening' := mt (pair_of_crlf (by decide) (by decide)) no_opening
      have no_end' := mt (pair_of_crlf (by decide) (by decide)) no_end
      rw [crlf_other feed] at no_opening' no_end' ⊢
      exact .byte no_opening' no_end' ih
  | @nested inner rest _ _ ih ih' =>
    rw [crlf_append, crlf_append]
    exact .nested ih ih'

theorem filler_crlf {bs : Bytes} (h : Filler False bs) : Filler False (crlf bs) := by
  cases h with
  | blanks blank =>
    refine .blanks fun c hc => ?_
    obtain ⟨b, hb, hc⟩ := List.mem_flatMap.mp hc
    split at hc
    · have breaks : ∀ b ∈ [byte '\r', byte '\n'], Scan.isBlank b = true :=
        List.all_eq_true.mp rfl
      exact breaks c hc
    · obtain rfl := List.mem_singleton.mp hc
      exact blank _ hb
  | @line body inside =>
    have text : crlf (ascii "--" ++ body ++ [byte '\n']) =
        ascii "--" ++ (body ++ [byte '\r']) ++ [byte '\n'] := by
      have dashes : crlf (ascii "--") = ascii "--" := by decide
      rw [crlf_append, crlf_append, dashes, crlf_of_not_mem inside, crlf_feed]
      simp
    rw [text]
    refine .line fun mem => ?_
    rcases List.mem_append.mp mem with mem | mem
    · exact inside mem
    · exact absurd (List.mem_singleton.mp mem) (by decide)
  | lastLine _ last => exact last.elim
  | @block body commented =>
    rw [crlf_append]
    exact .block (commented_crlf commented)

/-- Only a comment on the last line needs the end of the text behind it. -/
theorem Filler.early {last : Prop} {bs : Bytes} (h : Filler last bs) :
    Filler False bs ∨ last ∧ byte '\n' ∉ bs := by
  cases h with
  | blanks blank => exact .inl (.blanks blank)
  | line inside => exact .inl (.line inside)
  | block commented => exact .inl (.block commented)
  | lastLine inside last =>
    refine .inr ⟨last, fun mem => ?_⟩
    rcases List.mem_append.mp mem with mem | mem
    · exact absurd mem (by decide)
    · exact inside mem

namespace Scan

variable {bs rest : Bytes} {n : Nat} {v : TokenValue}

theorem crlf_take_drop (bs : Bytes) (n : Nat) : crlf bs = crlf (bs.take n) ++ crlf (bs.drop n) := by
  rw [← crlf_append, List.take_append_drop]

theorem scan_crlf_trivia {c d : Cursor} (h : piece c.rest = .trivia n)
    (ahead : d.rest = crlf c.rest) : scan d = scan (d.advance (crlf (c.rest.take n)).length) := by
  have covers : (piece c.rest).Covers c.rest := piece_covers
  rw [h] at covers
  rcases covers.2.early with filler | ⟨whole, flat⟩
  · exact scan_filler (filler_crlf filler) (ahead.trans (crlf_take_drop c.rest n))
  · have all : c.rest.take n = c.rest := List.take_of_length_le (Nat.le_of_eq whole.symm)
    rw [all] at flat ⊢
    rw [crlf_of_not_mem flat] at ahead ⊢
    rw [← whole]
    exact scan_trivia (ahead ▸ h)

/-! ## Tokens -/

theorem piece_crlf (h : piece bs = .token v n) (flat : byte '\n' ∉ bs.take n) :
    piece (crlf bs) = .token v n := by
  rw [crlf_take_drop bs n, crlf_of_not_mem flat]
  refine piece_local h fun c hc => ?_
  rcases head?_of_crlf hc with rfl | same
  · exact .inl rfl
  · exact .inr same

def Piece.Unterminated : Piece → Prop
  | .fault .unterminatedString _ _ => True
  | _ => False

theorem Piece.Unterminated.eq {p : Piece} (h : p.Unterminated) :
    ∃ upto n, p = .fault .unterminatedString upto n := by
  unfold Piece.Unterminated at h
  split at h
  · exact ⟨_, _, rfl⟩
  · exact h.elim

theorem stringFrom_feed (raw : Bytes) (offset : Nat) (copy : Option Bytes) (nul : Option Nat) :
    (stringFrom raw offset copy nul (byte '\n' :: rest)).Unterminated := by
  rw [stringFrom.eq_def]
  exact trivial

/-- A string with an escaped line feed is cut short, the backslash being spent on the carriage
return. -/
theorem stringFrom_crlf {raw : Bytes} {offset k : Nat} {copy : Option Bytes} {nul : Option Nat}
    (h : stringFrom raw offset copy nul bs = .token v (offset + 1 + k))
    (feed : byte '\n' ∈ bs.take k) (raw' : Bytes) (offset' : Nat) (copy' : Option Bytes)
    (nul' : Option Nat) : (stringFrom raw' offset' copy' nul' (crlf bs)).Unterminated := by
  fun_induction stringFrom raw offset copy nul bs generalizing k offset' copy' nul' with
  | case1 | case2 | case4 | case5 => cases h
  | case3 offset copy rest =>
    obtain rfl : k = 1 := by
      have := (Piece.token.inj h).2
      omega
    exact absurd (List.mem_singleton.mp feed) (by decide)
  | case6 offset copy nul e rest quote plain ih =>
    obtain ⟨m, rfl⟩ : ∃ m, k = m + 2 := ⟨k - 2, by have := lt_of_stringFrom h; omega⟩
    rw [show offset + 1 + (m + 2) = offset + 2 + 1 + m by omega] at h
    rw [crlf_other (by decide), stringFrom.eq_def]
    simp only [quote, plain, if_false, if_true]
    by_cases escaped : e = byte '\n'
    · rw [escaped, crlf_feed]
      exact stringFrom_feed ..
    · rw [crlf_other escaped]
      refine ih h ?_ ..
      rw [List.take_succ_cons, List.take_succ_cons, List.mem_cons, List.mem_cons] at feed
      exact (feed.resolve_left (by decide)).resolve_left (Ne.symm escaped)
  | case7 offset copy nul c rest quote plain backslash ih =>
    obtain ⟨m, rfl⟩ : ∃ m, k = m + 1 := ⟨k - 1, by have := lt_of_stringFrom h; omega⟩
    rw [show offset + 1 + (m + 1) = offset + 1 + 1 + m by omega] at h
    rw [crlf_other plain, stringFrom.eq_def]
    simp only [quote, plain, backslash, if_false]
    refine ih h ?_ ..
    rw [List.take_succ_cons, List.mem_cons] at feed
    exact feed.resolve_left (Ne.symm plain)

theorem not_mem_takeWhile {p : UInt8 → Bool} (h : p (byte '\n') = false) :
    byte '\n' ∉ bs.takeWhile p := fun mem => by
  have := List.all_eq_true.mp List.all_takeWhile _ mem
  rw [h] at this
  cases this

theorem feed_not_mem_bytes (s : Symbol) : byte '\n' ∉ s.bytes := by
  cases s <;> decide

theorem string_of_feed (h : piece bs = .token v n) (feed : byte '\n' ∈ bs.take n) :
    ∃ rest, bs = byte '"' :: rest ∧ string rest = .token v n := by
  cases bs with
  | nil => cases h
  | cons c rest =>
    have h := (piece_eq_token.mp h).2
    unfold tokenPiece at h
    split at h
    · rename_i quote
      exact ⟨rest, by rw [quote], h⟩
    exfalso
    split at h
    · rw [length_of_number h, take_takeWhile] at feed
      exact not_mem_takeWhile (by decide) feed
    split at h
    · rw [length_of_word h, take_takeWhile] at feed
      exact not_mem_takeWhile (by decide) feed
    · obtain ⟨s, -, -, front, -⟩ := leading?_of_symbol h
      rw [front] at feed
      exact feed_not_mem_bytes s feed

theorem piece_crlf_cut (h : piece bs = .token v n) (feed : byte '\n' ∈ bs.take n) :
    (piece (crlf bs)).Unterminated := by
  obtain ⟨rest, rfl, read⟩ := string_of_feed h feed
  obtain ⟨k, rfl, -⟩ := string_local read
  have whole : piece (crlf (byte '"' :: rest)) = string (crlf rest) := by
    rw [crlf_other (by decide)]
    rfl
  rw [whole]
  rw [string, Nat.add_comm k, ← Nat.zero_add 1] at read
  refine stringFrom_crlf read ?_ ..
  rw [List.take_succ_cons, List.mem_cons] at feed
  exact feed.resolve_left (by decide)

/-! ## Places -/

/-- Two readers at the same place of a text and of the one with the other line endings. -/
structure Alongside (c d : Cursor) : Prop where
  ahead : d.rest = crlf c.rest
  plain : byte '\r' ∉ c.rest
  line : d.pos.line = c.pos.line
  col : d.pos.col = c.pos.col

theorem Alongside.next {c d : Cursor} {b : UInt8} {bs : Bytes} (h : Alongside c d)
    (hr : c.rest = b :: bs) : Alongside (c.advance 1) (d.advance (crlf [b]).length) := by
  obtain ⟨ahead, plain, line, col⟩ := h
  rw [hr] at ahead plain
  rw [List.mem_cons, not_or] at plain
  by_cases feed : b = byte '\n'
  · rw [feed, crlf_feed] at ahead
    refine ⟨?_, ?_, ?_, ?_⟩ <;>
      simp [Cursor.advance, Cursor.next?, hr, ahead, feed, crlf_feed, after_return, after_feed,
        line, plain.2]
  · rw [crlf_other feed] at ahead ⊢
    refine ⟨?_, ?_, ?_, ?_⟩ <;>
      simp [Cursor.advance, Cursor.next?, hr, ahead, after_other feed (Ne.symm plain.1), line, col,
        plain.2]

theorem Alongside.advance {c d : Cursor} (h : Alongside c d) (n : Nat) :
    Alongside (c.advance n) (d.advance (crlf (c.rest.take n)).length) := by
  induction n generalizing c d with
  | zero => exact h
  | succ n ih =>
    cases hr : c.rest with
    | nil =>
      rw [advance_of_rest_nil hr]
      exact h
    | cons b bs =>
      have behind : (c.advance 1).rest = bs := by rw [rest_advance, hr]; rfl
      have both := ih (h.next hr)
      rw [behind, advance_add, advance_add, Nat.add_comm 1, ← List.length_append,
        ← crlf_append] at both
      exact both

/-- Up to the first token with a line feed in it, a text with the other line endings has the same
tokens at the same places. -/
theorem scan_alongside {text : Bytes} {c d : Cursor} {tokens : List Token}
    (h : scan c = tokens.map .ok) (place : c.rest = text.drop c.pos.byte) (side : Alongside c d) :
    (∃ tokens' : List Token, scan d = tokens'.map .ok ∧
      tokens'.map Token.mark = tokens.map Token.mark ∧ ∀ t ∈ tokens, byte '\n' ∉ t.slice text) ∨
    ∃ (front : List Token) (e : LexError), scan d = front.map .ok ++ [.error e] ∧
      e.fault = .unterminatedString ∧ ∃ t ∈ tokens, byte '\n' ∈ t.slice text := by
  induction c using scan_induction generalizing d tokens with
  | done c empty =>
    obtain ⟨ahead, -, line, col⟩ := side
    rw [empty] at ahead
    rw [scan_done empty] at h
    obtain rfl : tokens = [⟨.eof, ⟨c.pos, c.pos⟩⟩] := by
      refine (List.map_inj_right fun _ _ => Except.ok.inj).mp (h.symm.trans ?_)
      rfl
    refine .inl ⟨[⟨.eof, ⟨d.pos, d.pos⟩⟩], scan_done ahead, by simp [Token.mark, line, col], ?_⟩
    simp [Token.slice, ← place, empty]
  | fault c f upto n hp =>
    rw [scan_fault hp] at h
    cases tokens <;> simp at h
  | trivia c n hp within ih =>
    rw [scan_trivia hp] at h
    rw [scan_crlf_trivia hp side.ahead]
    exact ih h (rest_of_text place within) (side.advance n)
  | token c v n hp within ih =>
    rw [scan_token hp] at h
    cases tokens with
    | nil => cases h
    | cons t tokens =>
      obtain ⟨same, behind⟩ := List.cons_eq_cons.mp h
      obtain rfl := Except.ok.inj same
      have slice := slice_token (v := v) (pos_of_token hp) within place
      by_cases feed : byte '\n' ∈ c.rest.take n
      · have cut := piece_crlf_cut hp feed
        rw [← side.ahead] at cut
        obtain ⟨upto, k, fault⟩ := cut.eq
        exact .inr ⟨[], _, scan_fault fault, rfl, _, .head _, slice ▸ feed⟩
      · have same : piece d.rest = .token v n := side.ahead ▸ piece_crlf hp feed
        have next := side.advance n
        rw [crlf_of_not_mem feed, List.length_take_of_le within] at next
        rw [scan_token same]
        rcases ih behind (rest_of_text place within) next with
          ⟨tokens', scanned, marks, flat⟩ | ⟨front, e, scanned, cut, t, ht, feed⟩
        · refine .inl ⟨⟨v, ⟨d.pos, (d.advance n).last⟩⟩ :: tokens', by rw [scanned, List.map_cons],
            ?_, List.forall_mem_cons.mpr ⟨slice ▸ feed, flat⟩⟩
          simp [Token.mark, side.line, side.col, ← marks]
        · refine .inr ⟨⟨v, ⟨d.pos, (d.advance n).last⟩⟩ :: front, e, ?_, cut, t, .tail _ ht, feed⟩
          rw [scanned, List.map_cons, List.cons_append]

end Scan

/-- With a carriage return before every line feed, a text has the tokens it had, on the lines and in
the columns it had them, if and only if no token has a line feed in it. Otherwise a string is found
not to end. -/
theorem scan_crlf_iff {file : Option Nat} {text : Bytes} {tokens : List Token}
    (plain : byte '\r' ∉ text) (lexed : scan (.ofText file text) = tokens.map .ok) :
    ((∃ tokens' : List Token, scan (.ofText file (crlf text)) = tokens'.map .ok ∧
        tokens'.map Token.mark = tokens.map Token.mark) ↔
      ∀ t ∈ tokens, byte '\n' ∉ t.slice text) ∧
    ((∃ t ∈ tokens, byte '\n' ∈ t.slice text) →
      ∃ (front : List Token) (e : LexError),
        scan (.ofText file (crlf text)) = front.map .ok ++ [.error e] ∧
          e.fault = .unterminatedString) := by
  have side : Scan.Alongside (.ofText file text) (.ofText file (crlf text)) :=
    ⟨rfl, plain, rfl, rfl⟩
  have ahead : (Cursor.ofText file text).rest = text.drop (Cursor.ofText file text).pos.byte := rfl
  rcases Scan.scan_alongside lexed ahead side with
    ⟨tokens', scanned, marks, flat⟩ | ⟨front, e, scanned, cut, t, ht, feed⟩
  · refine ⟨⟨fun _ => flat, fun _ => ⟨tokens', scanned, marks⟩⟩, ?_⟩
    rintro ⟨t, ht, feed⟩
    exact absurd feed (flat t ht)
  · refine ⟨⟨?_, fun flat => absurd feed (flat t ht)⟩, fun _ => ⟨front, e, scanned, cut⟩⟩
    rintro ⟨tokens', whole, -⟩
    have last : (.error e : ScanItem) ∈ tokens'.map .ok := by
      rw [← whole, scanned]
      exact List.mem_append_right _ (.head _)
    simp at last

def lined : Bytes := ascii "x -- one\n  (* two\n * *) <- \"\\n\"\n\ny"

def linedTokens : List Token :=
  let span (first last line col : Nat) : Span :=
    ⟨⟨none, first, line, col⟩, ⟨none, last, line, col + (last - first)⟩⟩
  [⟨.ident (ascii "x"), span 0 0 1 1⟩, ⟨.symbol .arrowLeft, span 24 25 3 7⟩,
   ⟨.string (ascii "\n"), span 27 30 3 10⟩, ⟨.ident (ascii "y"), span 33 33 5 1⟩,
   ⟨.eof, span 34 34 5 2⟩]

theorem scan_crlf_iff_lined : byte '\r' ∉ lined ∧
    scan (.ofText none lined) = linedTokens.map .ok ∧
    ∃ tokens' : List Token, scan (.ofText none (crlf lined)) = tokens'.map .ok ∧
      tokens'.map Token.mark = linedTokens.map Token.mark := by
  have plain : byte '\r' ∉ lined := by decide
  have lexed : scan (.ofText none lined) = linedTokens.map .ok :=
    Scan.map_ok_of_toOption (by decide +kernel)
  have flat : ∀ t ∈ linedTokens, byte '\n' ∉ t.slice lined := by decide +kernel
  exact ⟨plain, lexed, (scan_crlf_iff plain lexed).1.mpr flat⟩

/-- A string that goes on behind an escaped line feed. -/
def continued : Bytes := ascii "\"a\\\nb\""

def continuedTokens : List Token :=
  [⟨.string (ascii "a\nb"), ⟨⟨none, 0, 1, 1⟩, ⟨none, 5, 2, 2⟩⟩⟩,
   ⟨.eof, ⟨⟨none, 6, 2, 3⟩, ⟨none, 6, 2, 3⟩⟩⟩]

theorem continued_refutes : byte '\r' ∉ continued ∧
    scan (.ofText none continued) = continuedTokens.map .ok ∧
    ¬ ∃ tokens' : List Token, scan (.ofText none (crlf continued)) = tokens'.map .ok := by
  refine ⟨by decide, Scan.map_ok_of_toOption (by decide +kernel), ?_⟩
  rintro ⟨tokens', scanned⟩
  have broken : (scan (.ofText none (crlf continued))).all Except.isOk = false := by
    decide +kernel
  rw [scanned] at broken
  simp [Except.isOk, Except.toBool] at broken

end Cool
