import Cool.Proofs.Token.Scanning

/-!
What stands between tokens has no meaning. The bytes of a token are read as that token wherever a
blank or the end comes behind them, and blanks and complete comments are skipped. So the tokens of a
text, written out with other separators, are the tokens of the new text.
-/
namespace Cool

/-- Blanks and complete comments in a row; a comment to the end of its line has its line feed. -/
inductive Trivia : Bytes → Prop where
  | nil : Trivia []
  | append {bs rest : Bytes} : Filler False bs → Trivia rest → Trivia (bs ++ rest)

def Separator (bs : Bytes) : Prop := Trivia bs ∧ bs.head?.any Scan.isBlank = true

/-- Whether a text is made of some slices with a separator behind each. Behind the last it may be
left out. -/
inductive Joins : List Bytes → Bytes → Prop where
  | nil : Joins [] []
  | cons {slice gap joined : Bytes} {slices : List Bytes} :
      Separator gap ∨ gap = [] ∧ slices = [] → Joins slices joined →
      Joins (slice :: slices) (slice ++ gap ++ joined)

theorem joins_spaces (slices : List Bytes) : Joins slices (slices.flatMap (· ++ ascii " ")) := by
  have blank : Filler False (ascii " ") := .blanks (List.all_eq_true.mp rfl)
  have space : Separator (ascii " ") := ⟨.append blank .nil, rfl⟩
  induction slices with
  | nil => exact .nil
  | cons slice slices ih => exact .cons (.inl space) ih

def Token.slice (text : Bytes) (t : Token) : Bytes :=
  (text.drop t.span.start.byte).take (t.span.stop.byte + 1 - t.span.start.byte)

namespace Scan

variable {bs rest rest' : Bytes} {n : Nat} {v : TokenValue}

/-! ## Where a token ends -/

/-- Whether a token that ends in front of `rest` ends in front of `rest'` as well: what comes next
is a blank, the end of the text, or the byte that came next. -/
def Parts (rest rest' : Bytes) : Prop :=
  ∀ c, rest'.head? = some c → isBlank c = true ∨ rest.head? = some c

theorem isBlank_iff {c : UInt8} : isBlank c = true ↔
    c ∈ ([byte ' ', byte '\n', 0x0C, byte '\r', byte '\t', 0x0B] : Bytes) := by
  simp [isBlank, or_assoc]

theorem not_isDigit_of_isBlank {c : UInt8} (h : isBlank c = true) : isDigit c = false := by
  simp only [isBlank_iff, List.mem_cons, List.not_mem_nil, or_false] at h
  rcases h with rfl | rfl | rfl | rfl | rfl | rfl <;> rfl

theorem not_isNameByte_of_isBlank {c : UInt8} (h : isBlank c = true) : isNameByte c = false := by
  simp only [isBlank_iff, List.mem_cons, List.not_mem_nil, or_false] at h
  rcases h with rfl | rfl | rfl | rfl | rfl | rfl <;> rfl

theorem drop_takeWhile (p : UInt8 → Bool) (bs : Bytes) :
    bs.drop (bs.takeWhile p).length = bs.dropWhile p := by
  calc bs.drop (bs.takeWhile p).length
      = (bs.takeWhile p ++ bs.dropWhile p).drop (bs.takeWhile p).length := by
        rw [List.takeWhile_append_dropWhile]
    _ = bs.dropWhile p := List.drop_left

theorem takeWhile_parts {p : UInt8 → Bool} (blank : ∀ c, isBlank c = true → p c = false)
    (h : Parts (bs.drop (bs.takeWhile p).length) rest') :
    (bs.takeWhile p ++ rest').takeWhile p = bs.takeWhile p := by
  have ends : rest'.takeWhile p = [] := by
    cases rest' with
    | nil => rfl
    | cons c later =>
      have stops : p c = false := by
        rcases h c rfl with hc | hc
        · exact blank c hc
        · have := List.head?_dropWhile_not p bs
          rw [← drop_takeWhile, hc] at this
          exact this
      simp [stops]
  rw [List.takeWhile_append_of_pos (List.all_eq_true.mp List.all_takeWhile), ends, List.append_nil]

theorem stringFrom_local {raw seen : Bytes} {offset : Nat} {copy : Option Bytes} {nul : Option Nat}
    (h : stringFrom raw offset copy nul bs = .token v n) (split : raw = seen ++ bs)
    (read : seen.length = offset) : ∃ k, n = offset + 1 + k ∧ ∀ rest',
      stringFrom (seen ++ (bs.take k ++ rest')) offset copy nul (bs.take k ++ rest') =
        .token v n := by
  fun_induction stringFrom raw offset copy nul bs generalizing seen with
  | case1 | case2 | case4 | case5 => cases h
  | case3 offset copy rest =>
    refine ⟨1, (Piece.token.inj h).2.symm, fun rest' => ?_⟩
    rw [← h, split, List.take_left' read, List.take_succ_cons, List.cons_append,
      stringFrom.eq_def]
    simp [List.take_left' read]
  | case6 offset copy nul e rest quote feed ih =>
    have split' : raw = (seen ++ [byte '\\', e]) ++ rest := by simp [split]
    obtain ⟨k, rfl, ih⟩ := ih h split' (by simp [read])
    refine ⟨k + 2, by omega, fun rest' => ?_⟩
    rw [← ih rest', List.take_succ_cons, List.take_succ_cons, List.cons_append, List.cons_append,
      stringFrom.eq_def]
    simp [quote, feed, split, List.take_left' read]
  | case7 offset copy nul c rest quote feed backslash ih =>
    have split' : raw = (seen ++ [c]) ++ rest := by simp [split]
    obtain ⟨k, rfl, ih⟩ := ih h split' (by simp [read])
    refine ⟨k + 1, by omega, fun rest' => ?_⟩
    rw [← ih rest', List.take_succ_cons, List.cons_append, stringFrom.eq_def]
    simp [quote, feed, backslash]

theorem string_local (h : string bs = .token v n) :
    ∃ k, n = k + 1 ∧ ∀ rest', string (bs.take k ++ rest') = .token v n := by
  obtain ⟨k, rfl, same⟩ := stringFrom_local h (List.nil_append bs).symm rfl
  exact ⟨k, Nat.add_comm .., same⟩

theorem foldl_longer_le {s t : Symbol} {candidates : List Symbol} {best : Option Symbol}
    (h : candidates.foldl Symbol.longer best = some s) (ht : best = some t ∨ t ∈ candidates) :
    t.bytes.length ≤ s.bytes.length := by
  induction candidates generalizing best t with
  | nil => simp_all
  | cons u candidates ih =>
    rcases ht with rfl | ht
    · simp only [List.foldl_cons, Symbol.longer] at h
      split at h
      · exact Nat.le_trans (Nat.le_of_lt ‹_›) (ih h (.inl rfl))
      · exact ih h (.inl rfl)
    · rcases List.mem_cons.mp ht with rfl | ht
      · cases best with
        | none => exact ih h (.inl rfl)
        | some r =>
          simp only [List.foldl_cons, Symbol.longer] at h
          split at h
          · exact ih h (.inl rfl)
          · exact Nat.le_trans (Nat.le_of_not_lt ‹_›) (ih h (.inl rfl))
      · exact ih h (.inr ht)

theorem mem_all (s : Symbol) : s ∈ Symbol.all := by
  cases s <;> decide

theorem length_le_of_leading? {s t : Symbol} (h : Symbol.leading? bs = some s)
    (ht : t.bytes <+: bs) : t.bytes.length ≤ s.bytes.length :=
  foldl_longer_le h (.inr (List.mem_filter.mpr ⟨mem_all t, List.isPrefixOf_iff_prefix.mpr ht⟩))

theorem bytes_eq_cons (s : Symbol) : ∃ c rest, s.bytes = c :: rest := by
  cases s <;> exact ⟨_, _, rfl⟩

/-- A symbol that is no word has one byte or two, and none of them is blank. -/
theorem symbol_shape (s : Symbol) : s.bytes.head?.any isLetter = true ∨
    ∃ a rest, s.bytes = a :: rest ∧ (rest = [] ∨ ∃ b, rest = [b] ∧ isBlank b = false) := by
  cases s <;> first
    | exact .inl (by decide)
    | exact .inr ⟨_, _, rfl, .inl rfl⟩
    | exact .inr ⟨_, _, rfl, .inr ⟨_, rfl, by decide⟩⟩

theorem pair_prefix_iff {a b c : UInt8} :
    [a, b] <+: c :: rest ↔ a = c ∧ rest.head? = some b := by
  rw [List.cons_prefix_cons]
  cases rest with
  | nil => simp
  | cons d rest => simp [List.cons_prefix_cons, eq_comm]

theorem bytes_of_longer {s t : Symbol} {later : Bytes} (start : s.bytes.head?.any isLetter = false)
    (ht : t.bytes <+: s.bytes ++ later) (longer : s.bytes.length < t.bytes.length) :
    ∃ a b, s.bytes = [a] ∧ t.bytes = [a, b] ∧ isBlank b = false := by
  obtain ⟨d, ds, hs⟩ := bytes_eq_cons s
  rw [hs] at start ht longer ⊢
  rcases symbol_shape t with letter | ⟨a, tail, shape, rfl | ⟨b, rfl, dark⟩⟩
  · obtain ⟨x, xs, shape⟩ := bytes_eq_cons t
    rw [shape] at ht letter
    obtain ⟨rfl, -⟩ := List.cons_prefix_cons.mp ht
    exact absurd letter (Bool.eq_false_iff.mp start)
  · simp [shape] at longer
  · simp only [shape, List.length_cons, List.length_nil] at longer
    obtain rfl := List.length_eq_zero_iff.mp (by omega : ds.length = 0)
    rw [shape] at ht
    obtain ⟨rfl, -⟩ := List.cons_prefix_cons.mp ht
    exact ⟨a, b, rfl, shape, dark⟩

/-- The longest symbol stays the longest: a longer one has one byte more, which comes next as
before. -/
theorem leading?_local {s : Symbol} (h : Symbol.leading? bs = some s)
    (start : bs.head?.any isLetter = false) (parts : Parts (bs.drop s.bytes.length) rest') :
    Symbol.leading? (s.bytes ++ rest') = some s := by
  obtain ⟨rest, rfl⟩ := prefix_of_leading? h
  rw [List.drop_left] at parts
  have start' : s.bytes.head?.any isLetter = false := by
    obtain ⟨d, ds, hs⟩ := bytes_eq_cons s
    rwa [hs] at start ⊢
  have inside {t : Symbol} {later : Bytes} (ht : t.bytes <+: s.bytes ++ later)
      (short : t.bytes.length ≤ s.bytes.length) (later' : Bytes) : t.bytes <+: s.bytes ++ later' :=
    (List.prefix_of_prefix_length_le ht (List.prefix_append ..) short).trans (List.prefix_append ..)
  have same (t : Symbol) : t.bytes <+: s.bytes ++ rest' ↔ t.bytes <+: s.bytes ++ rest := by
    refine ⟨fun ht => ?_, fun ht => inside ht (length_le_of_leading? h ht) _⟩
    rcases Nat.lt_or_ge s.bytes.length t.bytes.length with longer | short
    · obtain ⟨a, b, one, two, dark⟩ := bytes_of_longer start' ht longer
      rw [one, two] at ht ⊢
      have next := (parts b (pair_prefix_iff.mp ht).2).resolve_left (Bool.eq_false_iff.mp dark)
      exact pair_prefix_iff.mpr ⟨rfl, next⟩
    · exact inside ht short _
  rw [← h, Symbol.leading?, Symbol.leading?]
  refine congrArg (List.foldl Symbol.longer none) (List.filter_congr fun t _ => ?_)
  rw [Bool.eq_iff_iff, List.isPrefixOf_iff_prefix, List.isPrefixOf_iff_prefix]
  exact same t

/-- No pair of bytes begins a text across the end of a token where none did before. -/
theorem not_pair_local {a b : UInt8} (dark : isBlank b = false) (pos : 0 < n)
    (parts : Parts (bs.drop n) rest') (ahead : bs ≠ []) (h : ¬ [a, b] <+: bs) :
    ¬ [a, b] <+: bs.take n ++ rest' := by
  intro pair
  obtain ⟨c, rest, rfl⟩ := List.exists_cons_of_ne_nil ahead
  obtain ⟨m, rfl⟩ := Nat.exists_eq_add_one_of_ne_zero (Nat.ne_of_gt pos)
  rw [List.drop_succ_cons] at parts
  rw [List.take_succ_cons, List.cons_append] at pair
  obtain ⟨rfl, first⟩ := pair_prefix_iff.mp pair
  refine h (pair_prefix_iff.mpr ⟨rfl, ?_⟩)
  have next (hb : rest'.head? = some b) : (rest.drop m).head? = some b :=
    (parts b hb).resolve_left (Bool.eq_false_iff.mp dark)
  cases m with
  | zero => exact next first
  | succ m =>
    cases rest with
    | nil => exact absurd (next first) nofun
    | cons d rest => exact first

theorem length_of_number (h : number bs = .token v n) : n = (bs.takeWhile isDigit).length := by
  unfold number at h
  dsimp only at h
  split at h
  · exact (Piece.token.inj h).2.symm
  · cases h

theorem length_of_word (h : word bs = .token v n) : n = (bs.takeWhile isNameByte).length := by
  unfold word at h
  dsimp only at h
  split at h <;> exact (Piece.token.inj h).2.symm

theorem leading?_of_symbol {c : UInt8} (h : symbol c bs = .token v n) :
    ∃ s, Symbol.leading? bs = some s ∧ v = .symbol s ∧ bs.take n = s.bytes ∧
      n = s.bytes.length := by
  unfold symbol at h
  split at h
  · rename_i s hs
    obtain ⟨rfl, rfl⟩ := Piece.token.inj h
    exact ⟨s, hs, rfl, (List.prefix_iff_eq_take.mp (prefix_of_leading? hs)).symm, rfl⟩
  · cases h

theorem number_local (h : number bs = .token v n) (parts : Parts (bs.drop n) rest') :
    number (bs.take n ++ rest') = .token v n := by
  obtain rfl := length_of_number h
  rw [← h, number, number, take_takeWhile,
    takeWhile_parts (fun _ => not_isDigit_of_isBlank) parts]

theorem word_local (h : word bs = .token v n) (parts : Parts (bs.drop n) rest') :
    word (bs.take n ++ rest') = .token v n := by
  obtain rfl := length_of_word h
  rw [← h, word, word, take_takeWhile, takeWhile_parts (fun _ => not_isNameByte_of_isBlank) parts]

theorem symbol_local {c : UInt8} (h : symbol c bs = .token v n)
    (start : bs.head?.any isLetter = false) (parts : Parts (bs.drop n) rest') :
    symbol c (bs.take n ++ rest') = .token v n := by
  obtain ⟨s, hs, rfl, front, rfl⟩ := leading?_of_symbol h
  rw [front, symbol, leading?_local hs start parts]

/-- The first piece behind trivia: a token, if it is no fault. -/
def tokenPiece (c : UInt8) (rest : Bytes) : Piece :=
  if c = byte '"' then string rest
  else if isDigit c then number (c :: rest)
  else if isLetter c then word (c :: rest)
  else symbol c (c :: rest)

theorem piece_eq_token {c : UInt8} : piece (c :: rest) = .token v n ↔
    ((¬ ascii "--" <+: c :: rest ∧ ¬ ascii "(*" <+: c :: rest) ∧ isBlank c = false) ∧
      tokenPiece c rest = .token v n := by
  have unfolded : piece (c :: rest) =
      if (ascii "--").isPrefixOf (c :: rest) = true then lineComment (c :: rest)
      else if (ascii "(*").isPrefixOf (c :: rest) = true then comment (c :: rest)
      else if isBlank c = true then .trivia ((c :: rest).takeWhile isBlank).length
      else tokenPiece c rest := rfl
  rw [unfolded, ← List.isPrefixOf_iff_prefix, ← List.isPrefixOf_iff_prefix]
  constructor
  · intro h
    split at h
    · simp [lineComment] at h
    split at h
    · unfold comment at h
      split at h <;> cases h
    split at h
    · cases h
    · exact ⟨⟨⟨‹_›, ‹_›⟩, Bool.eq_false_iff.mpr ‹_›⟩, h⟩
  · rintro ⟨⟨⟨no_dashes, no_opening⟩, dark⟩, h⟩
    rw [if_neg no_dashes, if_neg no_opening, if_neg (by simp [dark]), h]

/-- A token is told by its own bytes and what ends it. -/
theorem piece_local (h : piece bs = .token v n) (parts : Parts (bs.drop n) rest') :
    piece (bs.take n ++ rest') = .token v n := by
  have pos := pos_of_token h
  cases bs with
  | nil => cases h
  | cons c rest =>
    obtain ⟨⟨⟨no_dashes, no_opening⟩, dark⟩, h⟩ := piece_eq_token.mp h
    have no_dashes' : ¬ ascii "--" <+: (c :: rest).take n ++ rest' :=
      not_pair_local (by decide) pos parts nofun no_dashes
    have no_opening' : ¬ ascii "(*" <+: (c :: rest).take n ++ rest' :=
      not_pair_local (by decide) pos parts nofun no_opening
    obtain ⟨m, rfl⟩ := Nat.exists_eq_add_one_of_ne_zero (Nat.ne_of_gt pos)
    refine piece_eq_token.mpr ⟨⟨⟨no_dashes', no_opening'⟩, dark⟩, ?_⟩
    unfold tokenPiece at h ⊢
    split at h
    · obtain ⟨k, hk, same⟩ := string_local h
      obtain rfl : m = k := by omega
      rw [if_pos ‹_›]
      exact same rest'
    rw [if_neg ‹_›]
    split at h
    · rw [if_pos ‹_›]
      exact number_local h parts
    rw [if_neg ‹_›]
    split at h
    · rw [if_pos ‹_›]
      exact word_local h parts
    · rename_i letter
      rw [if_neg letter]
      exact symbol_local h (by simpa using letter) parts

/-! ## Skipping what stands between tokens -/

/-- What is read behind the end of a comment with `depth` comments around it. -/
def leaveComment (offset : Nat) (rest : Bytes) : Nat → Option Nat
  | 0 => some offset
  | depth + 1 => commentFrom offset depth rest

/-- A comment ends where its grammar says so, whatever stands behind it. -/
theorem commentFrom_append {body : Bytes} (h : Commented body) (offset depth : Nat) (rest : Bytes) :
    commentFrom offset depth (body ++ rest) = leaveComment (offset + body.length) rest depth := by
  induction h generalizing offset depth rest with
  | close =>
    have text : ascii "*)" ++ rest = byte '*' :: byte ')' :: rest := rfl
    rw [text, commentFrom.eq_def]
    cases depth <;> simp [leaveComment, ascii, byte]
  | @byte c later no_opening no_end inner ih =>
    obtain ⟨d, e, more, rfl⟩ := inner.eq_cons
    have opens : ¬ (c = byte '(' ∧ d = byte '*') := by
      rintro ⟨rfl, rfl⟩
      exact no_opening ⟨_, rfl⟩
    have closes : ¬ (c = byte '*' ∧ d = byte ')') := by
      rintro ⟨rfl, rfl⟩
      exact no_end ⟨_, rfl⟩
    have length : offset + (c :: d :: e :: more).length = offset + 1 + (d :: e :: more).length := by
      rw [List.length_cons, Nat.add_assoc, Nat.add_comm 1]
    rw [length, ← ih, List.cons_append, List.cons_append, commentFrom.eq_def]
    simp [opens, closes]
  | @nested inner later _ _ ih ih' =>
    have text : ascii "(*" ++ inner ++ later ++ rest =
        byte '(' :: byte '*' :: (inner ++ (later ++ rest)) := by
      simp [ascii]
    have length : offset + (ascii "(*" ++ inner ++ later).length =
        offset + 2 + inner.length + later.length := by
      simp [ascii]
      omega
    rw [text, length, ← ih', commentFrom.eq_def]
    simp [ih, leaveComment]

theorem piece_block {body : Bytes} (h : Commented body) (rest : Bytes) :
    piece (ascii "(*" ++ body ++ rest) = .trivia (ascii "(*" ++ body).length := by
  have text : ascii "(*" ++ body ++ rest = byte '(' :: byte '*' :: (body ++ rest) := by simp [ascii]
  have length : (ascii "(*" ++ body).length = 2 + body.length := by
    simp [ascii, Nat.add_comm 2]
  rw [text, length]
  simp [piece, ascii, byte, comment, commentFrom_append h, leaveComment]

theorem piece_line {body : Bytes} (h : byte '\n' ∉ body) (rest : Bytes) :
    piece (ascii "--" ++ body ++ [byte '\n'] ++ rest) =
      .trivia (ascii "--" ++ body ++ [byte '\n']).length := by
  have dashes : ∀ c ∈ ascii "--", decide (c ≠ byte '\n') = true := List.all_eq_true.mp rfl
  have front : ∀ c ∈ ascii "--" ++ body, decide (c ≠ byte '\n') = true := by
    intro c hc
    rcases List.mem_append.mp hc with hc | hc
    · exact dashes c hc
    · exact decide_eq_true fun same => h (same ▸ hc)
  have line : (ascii "--" ++ body ++ byte '\n' :: rest).takeWhile (· ≠ byte '\n') =
      ascii "--" ++ body := by
    rw [List.takeWhile_append_of_pos front]
    simp
  have upto : min ((ascii "--" ++ body).length + 1)
      (ascii "--" ++ body ++ byte '\n' :: rest).length =
        (ascii "--" ++ body ++ [byte '\n']).length := by
    simp only [List.length_append, List.length_cons, List.length_nil]
    omega
  have whole : piece (ascii "--" ++ body ++ byte '\n' :: rest) =
      lineComment (ascii "--" ++ body ++ byte '\n' :: rest) := by
    simp [piece, ascii]
  rw [List.append_assoc _ [byte '\n'], List.singleton_append, whole, lineComment, line, upto]

theorem piece_blank {c : UInt8} (h : isBlank c = true) (rest : Bytes) :
    piece (c :: rest) = .trivia ((rest.takeWhile isBlank).length + 1) := by
  have no_pair (a b : UInt8) (ha : isBlank a = false) : ¬ [a, b].isPrefixOf (c :: rest) = true := by
    rw [List.isPrefixOf_iff_prefix]
    intro pair
    obtain ⟨rfl, -⟩ := List.cons_prefix_cons.mp pair
    exact absurd h (Bool.eq_false_iff.mp ha)
  have no_dashes : ¬ (ascii "--").isPrefixOf (c :: rest) = true := no_pair _ _ (by decide)
  have no_opening : ¬ (ascii "(*").isPrefixOf (c :: rest) = true := no_pair _ _ (by decide)
  simp only [piece]
  rw [if_neg no_dashes, if_neg no_opening, if_pos h, List.takeWhile_cons_of_pos h, List.length_cons]

/-- A blank is skipped by itself, as much as together with those behind it. -/
theorem scan_blank {c : Cursor} {b : UInt8} (h : c.rest = b :: rest) (blank : isBlank b = true) :
    scan c = scan (c.advance 1) := by
  have whole : piece c.rest = .trivia ((rest.takeWhile isBlank).length + 1) := by
    rw [h, piece_blank blank]
  rw [scan_trivia whole]
  have next : (c.advance 1).rest = rest := by rw [rest_advance, h]; rfl
  cases rest with
  | nil => rfl
  | cons d rest =>
    by_cases more : isBlank d = true
    · have tail : piece (c.advance 1).rest = .trivia ((rest.takeWhile isBlank).length + 1) := by
        rw [next, piece_blank more]
      rw [scan_trivia tail, advance_add, List.takeWhile_cons_of_pos more, List.length_cons,
        Nat.add_comm 1]
    · rw [List.takeWhile_cons_of_neg more, List.length_nil]

theorem scan_filler {c : Cursor} {bs : Bytes} (filler : Filler False bs) (h : c.rest = bs ++ rest) :
    scan c = scan (c.advance bs.length) := by
  cases filler with
  | @blanks bs blank =>
    induction bs generalizing c with
    | nil => rfl
    | cons b bs ih =>
      have next : (c.advance 1).rest = bs ++ rest := by rw [rest_advance, h]; rfl
      rw [scan_blank h (blank b (.head _)), ih next fun d hd => blank d (.tail b hd), advance_add,
        List.length_cons, Nat.add_comm 1]
  | line inside => exact scan_trivia (by rw [h, piece_line inside])
  | lastLine _ last => exact last.elim
  | block commented => exact scan_trivia (by rw [h, piece_block commented])

theorem scan_trivia_behind {c : Cursor} {bs : Bytes} (trivia : Trivia bs)
    (h : c.rest = bs ++ rest) : scan c = scan (c.advance bs.length) := by
  induction trivia generalizing c with
  | nil => rfl
  | @append front back filler _ ih =>
    rw [List.append_assoc] at h
    have next : (c.advance front.length).rest = back ++ rest := by
      rw [rest_advance, h, List.drop_left]
    rw [scan_filler filler h, ih next, advance_add, List.length_append]

/-! ## Tokens apart from their text -/

theorem map_ok_of_toOption {items : List ScanItem} {tokens : List Token}
    (h : items.map Except.toOption = tokens.map some) : items = tokens.map .ok := by
  induction items generalizing tokens with
  | nil =>
    cases tokens with
    | nil => rfl
    | cons => cases h
  | cons item items ih =>
    cases tokens with
    | nil => cases h
    | cons t tokens =>
      obtain ⟨first, rest⟩ := List.cons_eq_cons.mp h
      cases item with
      | error => cases first
      | ok u =>
        cases first
        rw [ih rest, List.map_cons]

/-- Whether some bytes are read as a token wherever a blank or the end comes behind them. -/
def Lexeme (v : TokenValue) (slice : Bytes) : Prop :=
  ∀ rest : Bytes, (∀ c, rest.head? = some c → isBlank c = true) →
    piece (slice ++ rest) = .token v slice.length

theorem lexeme_of_piece (h : piece bs = .token v n) (within : n ≤ bs.length) :
    Lexeme v (bs.take n) := by
  intro rest blank
  rw [List.length_take_of_le within]
  exact piece_local h fun c hc => .inl (blank c hc)

theorem slice_token {text : Bytes} {c : Cursor} (pos : 0 < n) (within : n ≤ c.rest.length)
    (ahead : c.rest = text.drop c.pos.byte) :
    Token.slice text ⟨v, ⟨c.pos, (c.advance n).last⟩⟩ = c.rest.take n := by
  have stops := last_advance pos within
  rw [Token.slice, ← ahead]
  simp only [stops, Nat.add_sub_cancel_left]

/-- The bytes of a token are read as that token. -/
theorem scan_lexemes {text : Bytes} {tokens : List Token} {stop : Token} {c : Cursor}
    (h : scan c = (tokens ++ [stop]).map .ok) (ahead : c.rest = text.drop c.pos.byte) :
    ∀ t ∈ tokens, Lexeme t.value (t.slice text) := by
  induction c using scan_induction generalizing tokens with
  | done c empty =>
    rw [scan_done empty] at h
    cases tokens with
    | nil => exact List.forall_mem_nil _
    | cons t tokens => simp at h
  | fault c f upto n hp =>
    rw [scan_fault hp] at h
    cases tokens <;> simp at h
  | trivia c n hp within ih =>
    rw [scan_trivia hp] at h
    exact ih h (rest_of_text ahead within)
  | token c v n hp within ih =>
    rw [scan_token hp] at h
    cases tokens with
    | nil => exact List.forall_mem_nil _
    | cons t tokens =>
      rw [List.cons_append, List.map_cons, List.cons_eq_cons] at h
      obtain ⟨same, behind⟩ := h
      obtain rfl := Except.ok.inj same
      refine List.forall_mem_cons.mpr ⟨?_, ih behind (rest_of_text ahead within)⟩
      rw [slice_token (pos_of_token hp) within ahead]
      exact lexeme_of_piece hp within

theorem Separator.trivia {gap : Bytes} {slices : List Bytes}
    (h : Separator gap ∨ gap = [] ∧ slices = []) : Trivia gap := by
  rcases h with h | ⟨rfl, -⟩
  · exact h.1
  · exact .nil

theorem Separator.blank {gap joined : Bytes} {slices : List Bytes} {c : UInt8}
    (h : Separator gap ∨ gap = [] ∧ slices = []) (joins : Joins slices joined)
    (next : (gap ++ joined).head? = some c) : isBlank c = true := by
  rcases h with ⟨-, blank⟩ | ⟨rfl, rfl⟩
  · cases gap with
    | nil => cases blank
    | cons b gap =>
      obtain rfl : b = c := Option.some.inj next
      exact blank
  · cases joins
    cases next

/-- Lexemes with separators between them are read as their tokens. -/
theorem scan_joins {rows : List (TokenValue × Bytes)} {c : Cursor}
    (joins : Joins (rows.map (·.2)) c.rest) (lexemes : ∀ row ∈ rows, Lexeme row.1 row.2) :
    ∃ tokens : List Token, scan c = tokens.map .ok ∧
      tokens.map Token.value = rows.map (·.1) ++ [.eof] := by
  induction rows generalizing c with
  | nil =>
    generalize hr : c.rest = text at joins
    cases joins
    exact ⟨[⟨.eof, ⟨c.pos, c.pos⟩⟩], scan_done hr, rfl⟩
  | cons row rows ih =>
    obtain ⟨v, slice⟩ := row
    rw [List.map_cons] at joins
    generalize hr : c.rest = text at joins
    cases joins with
    | @cons _ gap joined _ parted joins =>
      rw [List.append_assoc] at hr
      have here : piece c.rest = .token v slice.length := by
        rw [hr]
        exact lexemes _ (.head _) _ fun _ => Separator.blank parted joins
      have front : (c.advance slice.length).rest = gap ++ joined := by
        rw [rest_advance, hr, List.drop_left]
      have behind : ((c.advance slice.length).advance gap.length).rest = joined := by
        rw [rest_advance, front, List.drop_left]
      obtain ⟨tokens, scanned, values⟩ :=
        ih (behind ▸ joins) fun row hr => lexemes row (.tail _ hr)
      refine ⟨⟨v, ⟨c.pos, (c.advance slice.length).last⟩⟩ :: tokens, ?_, by simp [values]⟩
      rw [scan_token here, scan_trivia_behind (Separator.trivia parted) front, scanned,
        List.map_cons]

end Scan

/-- The tokens of a text, with separators of any kind between them, are the tokens of the new
text. -/
theorem scan_respaced {file file' : Option Nat} {text lead joined : Bytes} {tokens : List Token}
    {stop : Token} (lexed : scan (.ofText file text) = (tokens ++ [stop]).map .ok)
    (leading : Trivia lead) (joins : Joins (tokens.map (Token.slice text)) joined) :
    ∃ tokens' : List Token, scan (.ofText file' (lead ++ joined)) = tokens'.map .ok ∧
      tokens'.map Token.value = tokens.map Token.value ++ [.eof] := by
  let rows := tokens.map fun t => (t.value, t.slice text)
  have lexemes : ∀ row ∈ rows, Scan.Lexeme row.1 row.2 := by
    have slices : ∀ t ∈ tokens, Scan.Lexeme t.value (t.slice text) :=
      Scan.scan_lexemes lexed rfl
    simpa [rows] using slices
  have behind : ((Cursor.ofText file' (lead ++ joined)).advance lead.length).rest = joined := by
    rw [Scan.rest_advance]
    exact List.drop_left
  have joins' : Joins (rows.map (·.2))
      ((Cursor.ofText file' (lead ++ joined)).advance lead.length).rest := by
    rw [behind, List.map_map]
    exact joins
  obtain ⟨tokens', scanned, values⟩ := Scan.scan_joins joins' lexemes
  refine ⟨tokens', (Scan.scan_trivia_behind leading rfl).trans scanned, ?_⟩
  rw [values, List.map_map]
  rfl

def crowded : Bytes := ascii "x<-\"(*--\"+1"

/-- The tokens of `crowded`, with blanks and comments between them. -/
def spacious : Bytes := ascii "x -- (*\n<-\t(* -- (**) *)\"(*--\"\n+\n1 -- end\n"

def crowdedTokens : List Token :=
  let span (first last : Nat) : Span := ⟨⟨none, first, 1, first + 1⟩, ⟨none, last, 1, last + 1⟩⟩
  [⟨.ident (ascii "x"), span 0 0⟩, ⟨.symbol .arrowLeft, span 1 2⟩,
   ⟨.string (ascii "(*--"), span 3 8⟩, ⟨.symbol .plus, span 9 9⟩, ⟨.int 1, span 10 10⟩]

def crowdedEnd : Token := ⟨.eof, ⟨⟨none, 11, 1, 12⟩, ⟨none, 11, 1, 12⟩⟩⟩

theorem crowded_scanned :
    scan (.ofText none crowded) = (crowdedTokens ++ [crowdedEnd]).map .ok :=
  Scan.map_ok_of_toOption (by decide +kernel)

theorem crowded_joins : Joins (crowdedTokens.map (Token.slice crowded)) spacious := by
  have slices : crowdedTokens.map (Token.slice crowded) =
      [ascii "x", ascii "<-", ascii "\"(*--\"", ascii "+", ascii "1"] := by decide +kernel
  have line {body : Bytes} (h : byte '\n' ∉ body) :
      Separator (ascii " " ++ ((ascii "--" ++ body ++ [byte '\n']) ++ [])) :=
    ⟨.append (.blanks (List.all_eq_true.mp rfl)) (.append (.line h) .nil), rfl⟩
  have inner : Commented (ascii "*)") := .close
  have body : Commented (ascii " -- (**) *)") :=
    .byte (by decide) (by decide) (.byte (by decide) (by decide) (.byte (by decide) (by decide)
      (.byte (by decide) (by decide) (.nested inner (.byte (by decide) (by decide) .close)))))
  have block : Separator (ascii "\t" ++ ((ascii "(*" ++ ascii " -- (**) *)") ++ [])) :=
    ⟨.append (.blanks (List.all_eq_true.mp rfl)) (.append (.block body) .nil), rfl⟩
  have feed : Separator (ascii "\n" ++ []) :=
    ⟨.append (.blanks (List.all_eq_true.mp rfl)) .nil, rfl⟩
  rw [slices]
  exact .cons (.inl (line (by decide : byte '\n' ∉ ascii " (*"))) (.cons (.inl block)
    (.cons (.inl feed) (.cons (.inl feed)
      (.cons (.inl (line (by decide : byte '\n' ∉ ascii " end"))) .nil))))

theorem scan_respaced_crowded : ∃ (tokens : List Token) (stop : Token),
    scan (.ofText none crowded) = (tokens ++ [stop]).map .ok ∧ Trivia (ascii "(*\"*)") ∧
      Joins (tokens.map (Token.slice crowded)) spacious ∧
      ∃ tokens' : List Token, scan (.ofText none (ascii "(*\"*)" ++ spacious)) = tokens'.map .ok ∧
        tokens'.map Token.value = tokens.map Token.value ++ [.eof] := by
  have lead : Trivia (ascii "(*\"*)") :=
    .append (.block (.byte (by decide) (by decide) .close) : Filler False (ascii "(*\"*)")) .nil
  exact ⟨crowdedTokens, crowdedEnd, crowded_scanned, lead, crowded_joins,
    scan_respaced crowded_scanned lead crowded_joins⟩

end Cool
