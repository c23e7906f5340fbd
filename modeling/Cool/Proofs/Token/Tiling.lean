import Cool.Proofs.Token.Ended

/-!
The tokens of a text tile it. Between two of them stand blanks and complete comments, and nothing
else: no byte is lost, and none is read twice. A step lemma says how far each piece goes, and the
tiling follows by induction on the pieces.
-/
namespace Cool

inductive Commented : Bytes → Prop where
  | close : Commented (ascii "*)")
  | byte {c : UInt8} {rest : Bytes} : ¬ ascii "(*" <+: c :: rest → ¬ ascii "*)" <+: c :: rest →
      Commented rest → Commented (c :: rest)
  | nested {inner rest : Bytes} : Commented inner → Commented rest →
      Commented (ascii "(*" ++ inner ++ rest)

/-- Blanks, or a complete comment. A comment to the end of its line may be the last of the text. -/
inductive Filler (last : Prop) : Bytes → Prop where
  | blanks {bs : Bytes} : (∀ c ∈ bs, Scan.isBlank c = true) → Filler last bs
  | line {body : Bytes} : byte '\n' ∉ body → Filler last (ascii "--" ++ body ++ [byte '\n'])
  | lastLine {body : Bytes} : byte '\n' ∉ body → last → Filler last (ascii "--" ++ body)
  | block {body : Bytes} : Commented body → Filler last (ascii "(*" ++ body)

def ScanItem.span : ScanItem → Span
  | .ok t => t.span
  | .error e => e.span

inductive Tiles (text : Bytes) : Nat → List ScanItem → Prop where
  | eof {t : Token} : t.value = .eof → t.span.start.byte = text.length →
      t.span.stop.byte = text.length → Tiles text text.length [.ok t]
  | fault {e : LexError} : e.span.start.byte ≤ e.span.stop.byte →
      e.span.stop.byte ≤ text.length → Tiles text e.span.start.byte [.error e]
  | filler {i n : Nat} {items : List ScanItem} : i + n ≤ text.length →
      Filler (i + n = text.length) ((text.drop i).take n) → Tiles text (i + n) items →
      Tiles text i items
  | token {t : Token} {items : List ScanItem} : t.value ≠ .eof →
      t.span.start.byte ≤ t.span.stop.byte → t.span.stop.byte < text.length →
      Tiles text (t.span.stop.byte + 1) items → Tiles text t.span.start.byte (.ok t :: items)

def ScanItem.Ends (text : Bytes) : ScanItem → Prop
  | .ok t => t.value = .eof ∧ t.span.start.byte = text.length ∧ t.span.stop.byte = text.length
  | .error e => e.span.start.byte ≤ e.span.stop.byte ∧ e.span.stop.byte ≤ text.length

/-- Whether tokens and what ends them lie in a text, in order and apart from each other, with only
blanks and complete comments outside of them. -/
structure Tiled (text : Bytes) (start : Nat) (tokens : List Token) (last : ScanItem) : Prop where
  inside : ∀ t ∈ tokens, t.value ≠ .eof ∧ start ≤ t.span.start.byte ∧
    t.span.start.byte ≤ t.span.stop.byte ∧ t.span.stop.byte < text.length
  ordered : (tokens.map Token.span ++ [last.span]).Pairwise fun a b => a.stop.byte < b.start.byte
  later : start ≤ last.span.start.byte
  ends : last.Ends text
  covered : ∀ k, start ≤ k → k < last.span.start.byte →
    (∃ t ∈ tokens, t.span.start.byte ≤ k ∧ k ≤ t.span.stop.byte) ∨
    ∃ i n, start ≤ i ∧ i ≤ k ∧ k < i + n ∧ i + n ≤ last.span.start.byte ∧
      Filler (i + n = text.length) ((text.drop i).take n) ∧
      ∀ t ∈ tokens, t.span.stop.byte < i ∨ i + n ≤ t.span.start.byte

/-! ## From stretches to the whole -/

namespace Tiled

variable {text : Bytes} {i n : Nat} {tokens : List Token} {last : ScanItem}

theorem filler (h : Tiled text (i + n) tokens last)
    (hf : Filler (i + n = text.length) ((text.drop i).take n)) : Tiled text i tokens last where
  inside t ht := by
    obtain ⟨real, later, inside⟩ := h.inside t ht
    exact ⟨real, by omega, inside⟩
  ordered := h.ordered
  later := by have := h.later; omega
  ends := h.ends
  covered k low high := by
    rcases Nat.lt_or_ge k (i + n) with inside | behind
    · refine .inr ⟨i, n, Nat.le_refl i, low, inside, h.later, hf, fun t ht => .inr ?_⟩
      exact (h.inside t ht).2.1
    · refine (h.covered k behind high).imp_right ?_
      rintro ⟨j, m, later, rest⟩
      exact ⟨j, m, by omega, rest⟩

theorem token {t : Token} (h : Tiled text (t.span.stop.byte + 1) tokens last)
    (real : t.value ≠ .eof) (wide : t.span.start.byte ≤ t.span.stop.byte)
    (inside : t.span.stop.byte < text.length) :
    Tiled text t.span.start.byte (t :: tokens) last where
  inside := by
    refine List.forall_mem_cons.mpr ⟨⟨real, Nat.le_refl _, wide, inside⟩, fun u hu => ?_⟩
    obtain ⟨real, later, inside⟩ := h.inside u hu
    exact ⟨real, by omega, inside⟩
  ordered := by
    refine List.pairwise_cons.mpr ⟨fun s hs => ?_, h.ordered⟩
    rcases List.mem_append.mp hs with hs | hs
    · obtain ⟨u, hu, rfl⟩ := List.mem_map.mp hs
      exact (h.inside u hu).2.1
    · cases List.mem_singleton.mp hs
      exact h.later
  later := by have := h.later; omega
  ends := h.ends
  covered k low high := by
    rcases Nat.lt_or_ge t.span.stop.byte k with behind | within
    · rcases h.covered k behind high with
        ⟨u, hu, here⟩ | ⟨j, m, later, here, before, upto, hf, apart⟩
      · exact .inl ⟨u, .tail t hu, here⟩
      · refine .inr ⟨j, m, by omega, here, before, upto, hf, ?_⟩
        exact List.forall_mem_cons.mpr ⟨.inl later, apart⟩
    · exact .inl ⟨t, .head _, low, within⟩

end Tiled

theorem Tiles.tiled {text : Bytes} {i : Nat} {items : List ScanItem} (h : Tiles text i items) :
    ∃ tokens last, items = tokens.map .ok ++ [last] ∧ Tiled text i tokens last := by
  induction h with
  | @eof t value start stop =>
    refine ⟨[], .ok t, rfl, by simp, by simp, ?_, ⟨value, start, stop⟩, fun k low high => ?_⟩
    · exact Nat.le_of_eq start.symm
    · have : k < t.span.start.byte := high
      omega
  | @fault e wide inside =>
    refine ⟨[], .error e, rfl, by simp, by simp, Nat.le_refl _, ⟨wide, inside⟩,
      fun k low high => ?_⟩
    exact absurd low (Nat.not_le_of_lt high)
  | filler _ hf _ ih =>
    obtain ⟨tokens, last, rfl, tiled⟩ := ih
    exact ⟨tokens, last, rfl, tiled.filler hf⟩
  | @token t _ real wide inside _ ih =>
    obtain ⟨tokens, last, rfl, tiled⟩ := ih
    exact ⟨t :: tokens, last, rfl, tiled.token real wide inside⟩

/-! ## How far a piece goes -/

theorem Commented.eq_cons {bs : Bytes} (h : Commented bs) : ∃ c d rest, bs = c :: d :: rest := by
  induction h with
  | close => exact ⟨_, _, _, rfl⟩
  | byte _ _ _ ih =>
    obtain ⟨c, d, rest, rfl⟩ := ih
    exact ⟨_, c, d :: rest, rfl⟩
  | nested => exact ⟨_, _, _, rfl⟩

namespace Scan

variable {bs : Bytes} {n : Nat}

def Piece.Covers (bs : Bytes) : Piece → Prop
  | .done => bs = []
  | .trivia n => n ≤ bs.length ∧ Filler (n = bs.length) (bs.take n)
  | .token _ n => n ≤ bs.length
  | .fault _ upto _ => upto ≤ bs.length

theorem take_takeWhile (p : UInt8 → Bool) (bs : Bytes) :
    bs.take (bs.takeWhile p).length = bs.takeWhile p :=
  (List.prefix_iff_eq_take.mp (List.takeWhile_prefix p)).symm

theorem length_takeWhile_le (p : UInt8 → Bool) (bs : Bytes) :
    (bs.takeWhile p).length ≤ bs.length :=
  (List.takeWhile_prefix p).length_le

theorem blanks_covers : (Piece.trivia (bs.takeWhile isBlank).length).Covers bs := by
  refine ⟨length_takeWhile_le isBlank bs, ?_⟩
  rw [take_takeWhile]
  exact .blanks (List.all_eq_true.mp List.all_takeWhile)

/-- What stands before the next line feed, and that line feed if there is one. -/
theorem line_split (bs : Bytes) : ∃ line rest, byte '\n' ∉ line ∧
    bs.takeWhile (· ≠ byte '\n') = line ∧
    (bs = line ∧ rest = [] ∨ bs = line ++ byte '\n' :: rest) := by
  have inside : byte '\n' ∉ bs.takeWhile (· ≠ byte '\n') := fun mem => by
    simpa using List.all_eq_true.mp (List.all_takeWhile (p := (· ≠ byte '\n')) (l := bs)) _ mem
  have split := List.takeWhile_append_dropWhile (p := (· ≠ byte '\n')) (l := bs)
  cases behind : bs.dropWhile (· ≠ byte '\n') with
  | nil =>
    rw [behind, List.append_nil] at split
    exact ⟨_, [], inside, rfl, .inl ⟨split.symm, rfl⟩⟩
  | cons c rest =>
    have first : c = byte '\n' := by
      have := List.head?_dropWhile_not (· ≠ byte '\n') bs
      rw [behind] at this
      simpa using this
    subst first
    rw [behind] at split
    exact ⟨_, rest, inside, rfl, .inr split.symm⟩

theorem lineComment_covers (h : (ascii "--").isPrefixOf bs = true) :
    (lineComment bs).Covers bs := by
  obtain ⟨rest, rfl⟩ := List.isPrefixOf_iff_prefix.mp h
  obtain ⟨line, later, inside, whole, split⟩ := line_split rest
  have dashes : (ascii "--" ++ rest).takeWhile (· ≠ byte '\n') = ascii "--" ++ line := by
    rw [← whole]
    exact List.takeWhile_append_of_pos (List.all_eq_true.mp rfl)
  unfold lineComment
  rw [dashes]
  refine ⟨Nat.min_le_right _ _, ?_⟩
  rcases split with ⟨rfl, rfl⟩ | rfl
  · rw [Nat.min_eq_right (Nat.le_succ _), List.take_length]
    exact .lastLine inside rfl
  · have upto : ascii "--" ++ (line ++ byte '\n' :: later) =
        (ascii "--" ++ line ++ [byte '\n']) ++ later := by simp
    have length : (ascii "--" ++ line).length + 1 = (ascii "--" ++ line ++ [byte '\n']).length := by
      simp [Nat.add_assoc]
    rw [upto, length, Nat.min_eq_left (by simp), List.take_left]
    exact .line inside

theorem of_pair_prefix {a b c d : UInt8} {rest : Bytes} (h : [a, b] <+: c :: d :: rest) :
    c = a ∧ d = b := by
  simp only [List.cons_prefix_cons, List.nil_prefix, and_true] at h
  exact ⟨h.1.symm, h.2.symm⟩

/-- A comment that is entered is left again, and so is each around it. -/
theorem commentFrom_eq_some {offset depth : Nat} (h : commentFrom offset depth bs = some n) :
    ∃ (bodies : List Bytes) (rest : Bytes), bs = bodies.flatten ++ rest ∧
      bodies.length = depth + 1 ∧ (∀ b ∈ bodies, Commented b) ∧
      n = offset + bodies.flatten.length := by
  fun_induction commentFrom offset depth bs with
  | case1 offset depth a b rest opens ih =>
    obtain ⟨bodies, later, rfl, length, all, rfl⟩ := ih h
    obtain ⟨inner, _, rfl⟩ := List.exists_cons_of_length_eq_add_one length
    obtain ⟨outer, bodies, rfl⟩ := List.exists_cons_of_length_eq_add_one (Nat.succ.inj length)
    simp only [List.forall_mem_cons] at all
    simp only [Bool.and_eq_true, decide_eq_true_eq] at opens
    refine ⟨(ascii "(*" ++ inner ++ outer) :: bodies, later, ?_, by simpa using length,
      List.forall_mem_cons.mpr ⟨.nested all.1 all.2.1, all.2.2⟩, ?_⟩
    · simp [opens, ascii]
    · simp [ascii]
      omega
  | case2 offset a b rest _ closes =>
    cases h
    simp only [Bool.and_eq_true, decide_eq_true_eq] at closes
    exact ⟨[ascii "*)"], rest, by simp [closes, ascii], rfl, by simpa using .close, rfl⟩
  | case3 offset a b rest _ closes depth ih =>
    obtain ⟨bodies, later, rfl, length, all, rfl⟩ := ih h
    simp only [Bool.and_eq_true, decide_eq_true_eq] at closes
    refine ⟨ascii "*)" :: bodies, later, by simp [closes, ascii], by simp [length],
      List.forall_mem_cons.mpr ⟨.close, all⟩, ?_⟩
    simp [ascii]
    omega
  | case4 offset depth a b rest no_opening no_end ih =>
    obtain ⟨bodies, later, eq, length, all, rfl⟩ := ih h
    obtain ⟨body, bodies, rfl⟩ := List.exists_cons_of_length_eq_add_one length
    rw [List.forall_mem_cons] at all
    obtain ⟨c, d, body, rfl⟩ := all.1.eq_cons
    obtain rfl : b = c := by simpa using (List.cons_eq_cons.mp eq).1
    refine ⟨(a :: b :: d :: body) :: bodies, later, by simp [eq], by simpa using length,
      List.forall_mem_cons.mpr ⟨.byte ?_ ?_ all.1, all.2⟩, ?_⟩
    · intro opens
      have : a = byte '(' ∧ b = byte '*' := of_pair_prefix opens
      exact no_opening (by simpa using this)
    · intro closes
      have : a = byte '*' ∧ b = byte ')' := of_pair_prefix closes
      exact no_end (by simpa using this)
    · simp
      omega
  | case5 => cases h

theorem comment_covers (h : (ascii "(*").isPrefixOf bs = true) : (comment bs).Covers bs := by
  obtain ⟨rest, rfl⟩ := List.isPrefixOf_iff_prefix.mp h
  unfold comment
  rw [List.drop_left' (by rfl)]
  split
  · obtain ⟨bodies, later, rfl, length, all, rfl⟩ := commentFrom_eq_some ‹_›
    obtain ⟨body, rfl⟩ := List.length_eq_one_iff.mp length
    have upto : 2 + [body].flatten.length = (ascii "(*" ++ body).length := by
      simp [ascii]
      omega
    rw [upto]
    refine ⟨by simp, ?_⟩
    rw [List.flatten_singleton, ← List.append_assoc, List.take_left]
    exact .block (by simpa using all)
  · exact Nat.le_refl _

def Piece.Within (limit : Nat) : Piece → Prop
  | .token _ n => n ≤ limit
  | .fault _ upto _ => upto ≤ limit
  | _ => False

theorem Piece.Within.covers {p : Piece} (h : p.Within bs.length) : p.Covers bs := by
  cases p <;> first | exact h | exact h.elim

theorem nul_upto {offset seen upto : Nat} {nul : Option Nat} {c : UInt8}
    (h : ∀ k ∈ nul, k ≤ offset) (later : offset ≤ upto) (inside : seen ≤ upto) :
    ∀ k ∈ nul <|> if c = 0 then some seen else none, k ≤ upto := by
  intro k mem
  cases nul with
  | some j =>
    cases Option.mem_some.mp mem
    exact Nat.le_trans (h _ rfl) later
  | none =>
    split at mem
    · cases Option.mem_some.mp mem
      exact inside
    · cases mem

theorem stringFrom_within {raw : Bytes} {offset : Nat} {copy : Option Bytes} {nul : Option Nat}
    (h : ∀ k ∈ nul, k ≤ offset + 1) :
    (stringFrom raw offset copy nul bs).Within (offset + 1 + bs.length) := by
  fun_induction stringFrom raw offset copy nul bs with
  | case1 | case3 | case4 | case5 =>
    simp only [Piece.Within, List.length_nil, List.length_cons]
    omega
  | case2 offset _ rest k => exact Nat.le_add_right_of_le (h k rfl)
  | case6 offset _ _ e rest _ _ ih =>
    have := ih (nul_upto h (Nat.le_add_right _ 2) (Nat.le_succ _))
    simpa only [List.length_cons, Nat.add_assoc, Nat.add_comm 2] using this
  | case7 offset _ _ c rest _ _ _ ih =>
    have := ih (nul_upto h (Nat.le_succ _) (Nat.le_succ _))
    simpa only [List.length_cons, Nat.add_assoc, Nat.add_comm 1] using this

theorem number_covers : (number bs).Covers bs := by
  have inside := length_takeWhile_le isDigit bs
  unfold number
  dsimp only
  split
  · exact inside
  · exact Nat.le_trans (Nat.sub_le _ 1) inside

theorem word_covers : (word bs).Covers bs := by
  unfold word
  dsimp only
  split <;> exact length_takeWhile_le isNameByte bs

theorem mem_of_foldl_longer {s : Symbol} {candidates : List Symbol} {best : Option Symbol}
    (h : candidates.foldl Symbol.longer best = some s) : best = some s ∨ s ∈ candidates := by
  induction candidates generalizing best with
  | nil => exact .inl h
  | cons t candidates ih =>
    rcases ih h with h | h
    · unfold Symbol.longer at h
      split at h
      · split at h
        · exact .inr (by simp_all)
        · exact .inl h
      · exact .inr (by simp_all)
    · exact .inr (.tail t h)

theorem prefix_of_leading? {s : Symbol} (h : Symbol.leading? bs = some s) : s.bytes <+: bs := by
  rcases mem_of_foldl_longer h with h | h
  · cases h
  · exact List.isPrefixOf_iff_prefix.mp (List.mem_filter.mp h).2

theorem symbol_covers {c : UInt8} : (symbol c bs).Covers bs := by
  unfold symbol
  split
  · exact (prefix_of_leading? ‹_›).length_le
  · exact Nat.zero_le _

/-- What a piece leaves out is blank, or a complete comment. -/
theorem piece_covers : (piece bs).Covers bs := by
  cases bs with
  | nil => exact rfl
  | cons c rest =>
    simp only [piece]
    split
    · exact lineComment_covers ‹_›
    split
    · exact comment_covers ‹_›
    split
    · exact blanks_covers
    split
    · refine Piece.Within.covers ?_
      rw [List.length_cons, Nat.add_comm]
      exact stringFrom_within (by simp)
    split
    · exact number_covers
    split
    · exact word_covers
    · exact symbol_covers

/-! ## Where a reader stands -/

theorem byte_after (p : Position) (b : UInt8) (following : Option UInt8) :
    (p.after b following).byte = p.byte + 1 := by
  unfold Position.after
  split <;> (try split) <;> (try split) <;> rfl

theorem byte_advance {c : Cursor} (h : n ≤ c.rest.length) :
    (c.advance n).pos.byte = c.pos.byte + n := by
  induction n generalizing c with
  | zero => rfl
  | succ n ih =>
    unfold Cursor.advance Cursor.next?
    cases hr : c.rest with
    | nil => simp [hr] at h
    | cons b bs =>
      rw [hr] at h
      have next := ih (c := ⟨bs, c.pos.after b bs.head?, c.pos⟩) (Nat.le_of_succ_le_succ h)
      rw [byte_after] at next
      exact next.trans (Nat.add_right_comm _ 1 n)

theorem last_advance {c : Cursor} (pos : 0 < n) (h : n ≤ c.rest.length) :
    (c.advance n).last.byte + 1 = c.pos.byte + n := by
  induction n generalizing c with
  | zero => omega
  | succ n ih =>
    unfold Cursor.advance Cursor.next?
    cases hr : c.rest with
    | nil => simp [hr] at h
    | cons b bs =>
      rw [hr] at h
      rcases Nat.eq_zero_or_pos n with rfl | more
      · rfl
      · have next := ih (c := ⟨bs, c.pos.after b bs.head?, c.pos⟩) more (Nat.le_of_succ_le_succ h)
        rw [byte_after] at next
        exact next.trans (Nat.add_right_comm _ 1 n)

/-- The items ahead of a reader tile what is ahead of it. -/
theorem piecesFrom_tiles {text : Bytes} {rounds : Nat} {c : Cursor} (h : c.rest.length < rounds)
    (inside : c.pos.byte ≤ text.length) (ahead : c.rest = text.drop c.pos.byte) :
    Tiles text c.pos.byte ((piecesFrom rounds c).filterMap item?) := by
  induction rounds generalizing c with
  | zero => omega
  | succ rounds ih =>
    have goes : (piece c.rest).Goes := piece_goes
    have covers : (piece c.rest).Covers c.rest := piece_covers
    have left : c.rest.length = text.length - c.pos.byte := by rw [ahead, List.length_drop]
    -- what the rounds left do behind a piece that takes up a byte
    have behind {n : Nat} (pos : 0 < n) (within : n ≤ c.rest.length) :
        Tiles text (c.pos.byte + n) ((piecesFrom rounds (c.advance n)).filterMap item?) := by
      have place := byte_advance within
      rw [← place]
      refine ih ?_ (by omega) ?_
      · rw [rest_advance, List.length_drop]
        omega
      · rw [rest_advance, ahead, List.drop_drop, place]
    unfold piecesFrom
    cases hp : piece c.rest with
    | done =>
      rw [hp] at covers
      have upto : c.pos.byte = text.length := by
        have : c.rest.length = 0 := List.length_eq_zero_iff.mpr covers
        omega
      rw [upto]
      exact .eof rfl upto upto
    | fault f upto n =>
      rw [hp] at covers
      have place := byte_advance (c := c) (n := upto) covers
      have within : upto ≤ text.length - c.pos.byte := left ▸ covers
      exact .fault (e := ⟨f, ⟨c.pos, (c.advance upto).pos⟩⟩) (by simp [place])
        (by simp only [place]; omega)
    | trivia n =>
      rw [hp] at goes covers
      have within : n ≤ text.length - c.pos.byte := left ▸ covers.1
      refine .filler (n := n) (by omega) ?_ (behind goes covers.1)
      have whole : (c.pos.byte + n = text.length) = (n = c.rest.length) := by
        rw [left]
        exact propext (by omega)
      rw [whole, ← ahead]
      exact covers.2
    | token v n =>
      rw [hp] at goes covers
      have within : n ≤ text.length - c.pos.byte := left ▸ covers
      have place := last_advance goes.1 covers
      have more := behind goes.1 covers
      rw [← place] at more
      exact .token (t := ⟨v, ⟨c.pos, (c.advance n).last⟩⟩) goes.2
        (by have := goes.1; simp only; omega) (by simp only; omega) more

/-- Rounds beyond the bytes ahead find nothing more. -/
theorem piecesFrom_steady {rounds more : Nat} {c : Cursor} (h : c.rest.length < rounds) :
    piecesFrom (rounds + more) c = piecesFrom rounds c := by
  induction rounds generalizing c with
  | zero => omega
  | succ rounds ih =>
    have goes : (piece c.rest).Goes := piece_goes
    rw [Nat.succ_add]
    unfold piecesFrom
    cases hp : piece c.rest with
    | done | fault => rfl
    | trivia n =>
      have ahead : piece c.rest ≠ .done := by simp [hp]
      rw [hp] at goes
      have shorter := length_advance ahead goes
      simp only [ih (Nat.lt_of_lt_of_le shorter (Nat.le_of_lt_succ h))]
    | token v n =>
      have ahead : piece c.rest ≠ .done := by simp [hp]
      rw [hp] at goes
      have shorter := length_advance ahead goes.1
      simp only [ih (Nat.lt_of_lt_of_le shorter (Nat.le_of_lt_succ h))]

end Scan

/-- The tokens of a text and what ends them tile it, and scanning on finds nothing behind that. -/
theorem scan_tiles (file : Option Nat) (text : Bytes) :
    (∃ tokens last, scan (.ofText file text) = tokens.map .ok ++ [last] ∧
      Tiled text 0 tokens last) ∧
    ∀ more, (Scan.piecesFrom (text.length + 1 + more) (.ofText file text)).filterMap Scan.item? =
      scan (.ofText file text) := by
  have enough : (Cursor.ofText file text).rest.length < text.length + 1 := Nat.lt_succ_self _
  constructor
  · exact (Scan.piecesFrom_tiles enough (Nat.zero_le _) rfl).tiled
  · intro more
    rw [Scan.piecesFrom_steady enough]
    rfl

end Cool
