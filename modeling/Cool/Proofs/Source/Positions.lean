import Cool.Proofs.Token.Scanning

/-!
Positions in a text. Where a reader stands is told by how many bytes it has read, and not by the
steps in which it read them: the line by the line breaks among these bytes, and the column by the
characters behind the last of these breaks.
-/
namespace Cool

/-- Whether the byte at `i` of a text breaks a line: a line feed, or a carriage return that no line
feed follows. -/
def breaksLine (text : Bytes) (i : Nat) : Bool :=
  text[i]? = some (byte '\n') || text[i]? = some (byte '\r') && text[i + 1]? ≠ some (byte '\n')

/-- Whether the byte at `i` of a text takes a column: it does not continue a character, and it is no
carriage return that a line feed follows. -/
def takesColumn (text : Bytes) (i : Nat) : Bool :=
  !text[i]?.any Position.isContinuation &&
    !(text[i]? = some (byte '\r') && text[i + 1]? = some (byte '\n'))

/-- The offset behind the last line break before `k`. -/
def lineStart (text : Bytes) (k : Nat) : Nat :=
  ((List.range k).reverse.find? (breaksLine text)).elim 0 (· + 1)

namespace Position

/-- The position of the byte at `k`, or of the end of the text. -/
def ofOffset (file : Option Nat) (text : Bytes) (k : Nat) : Position where
  file := file
  byte := k
  line := 1 + (List.range k).countP (breaksLine text)
  col := 1 + (List.range k).countP fun i => lineStart text k ≤ i && takesColumn text i

variable {file : Option Nat} {text : Bytes} {k : Nat} {b : UInt8}

theorem lineStart_succ : lineStart text (k + 1) =
    if breaksLine text k then k + 1 else lineStart text k := by
  unfold lineStart
  rw [List.range_succ, List.reverse_append, List.reverse_singleton, List.singleton_append,
    List.find?_cons]
  cases breaksLine text k <;> rfl

theorem lineStart_le : lineStart text k ≤ k := by
  induction k with
  | zero => exact Nat.le_refl 0
  | succ k ih =>
    rw [lineStart_succ]
    split
    · exact Nat.le_refl _
    · exact Nat.le_succ_of_le ih

theorem ofOffset_succ_of_break (breaks : breaksLine text k = true) :
    ofOffset file text (k + 1) = ⟨file, k + 1, (ofOffset file text k).line + 1, 1⟩ := by
  -- No byte is behind the new start of the line.
  have empty : (List.range (k + 1)).countP
      (fun i => lineStart text (k + 1) ≤ i && takesColumn text i) = 0 := by
    rw [List.countP_eq_zero]
    intro i hi
    have before : i < k + 1 := List.mem_range.mp hi
    rw [lineStart_succ, if_pos breaks, decide_eq_false (Nat.not_le_of_lt before)]
    exact Bool.false_ne_true
  have lines : (List.range (k + 1)).countP (breaksLine text) =
      (List.range k).countP (breaksLine text) + 1 := by
    rw [List.range_succ, List.countP_append, List.countP_singleton, if_pos breaks]
  unfold ofOffset
  rw [empty, lines]
  rfl

theorem ofOffset_succ_of_not_break (goes : breaksLine text k = false) :
    ofOffset file text (k + 1) = { ofOffset file text k with
      byte := k + 1
      col := (ofOffset file text k).col + if takesColumn text k then 1 else 0 } := by
  have lines : (List.range (k + 1)).countP (breaksLine text) =
      (List.range k).countP (breaksLine text) := by
    rw [List.range_succ, List.countP_append, List.countP_singleton, goes]
    rfl
  have columns : (List.range (k + 1)).countP
      (fun i => lineStart text (k + 1) ≤ i && takesColumn text i) =
      (List.range k).countP (fun i => lineStart text k ≤ i && takesColumn text i) +
        if takesColumn text k then 1 else 0 := by
    rw [lineStart_succ, if_neg (by simp [goes]), List.range_succ, List.countP_append,
      List.countP_singleton, decide_eq_true lineStart_le, Bool.true_and]
  unfold ofOffset
  rw [lines, columns, ← Nat.add_assoc]

/-- The position of an offset moves on by the byte there, as that of a reader does. -/
theorem ofOffset_succ (here : text[k]? = some b) :
    ofOffset file text (k + 1) = (ofOffset file text k).after b text[k + 1]? := by
  by_cases feed : b = Cool.byte '\n'
  · subst feed
    have breaks : breaksLine text k = true := by simp [breaksLine, here]
    rw [Scan.after_feed]
    exact ofOffset_succ_of_break breaks
  by_cases ret : b = Cool.byte '\r'
  · subst ret
    by_cases pair : text[k + 1]? = some (Cool.byte '\n')
    · have goes : breaksLine text k = false := by simp [breaksLine, here, pair, feed]
      have column : takesColumn text k = false := by simp [takesColumn, here, pair]
      rw [pair, Scan.after_return, ofOffset_succ_of_not_break goes, column]
      rfl
    · have breaks : breaksLine text k = true := by simp [breaksLine, here, pair]
      rw [Scan.after_lone_return pair]
      exact ofOffset_succ_of_break breaks
  · have goes : breaksLine text k = false := by simp [breaksLine, here, feed, ret]
    have column : takesColumn text k = !isContinuation b := by simp [takesColumn, here, ret]
    rw [Scan.after_other feed ret, ofOffset_succ_of_not_break goes, column]
    cases isContinuation b <;> rfl

end Position

inductive Reading where
  | next
  | take (n : Nat)
  | takeWhile (p : UInt8 → Bool)
  | takeExact (bs : Bytes)

namespace Cursor

def read (c : Cursor) : Reading → Bytes × Cursor
  | .next => match c.next? with
    | some (b, d) => ([b], d)
    | none => ([], c)
  | .take n => c.take n
  | .takeWhile p => c.takeWhile p
  | .takeExact bs => (c.takeExact? bs).getD ([], c)

def readAll (c : Cursor) : List Reading → Bytes × Cursor
  | [] => ([], c)
  | r :: rs =>
    let (now, d) := c.read r
    let (later, e) := d.readAll rs
    (now ++ later, e)

structure Stands (file : Option Nat) (text : Bytes) (k : Nat) (c : Cursor) : Prop where
  within : k ≤ text.length
  rest : c.rest = text.drop k
  pos : c.pos = .ofOffset file text k
  last : c.last = .ofOffset file text (k - 1)

variable {file : Option Nat} {text : Bytes} {k n : Nat} {c d : Cursor} {b : UInt8}

theorem ofText_stands (file : Option Nat) (text : Bytes) :
    (ofText file text).Stands file text 0 :=
  ⟨Nat.zero_le _, rfl, rfl, rfl⟩

theorem Stands.next (h : c.Stands file text k) (read : c.next? = some (b, d)) :
    d.Stands file text (k + 1) := by
  unfold next? at read
  cases ahead : c.rest with
  | nil =>
    rw [ahead] at read
    cases read
  | cons b bs =>
    rw [ahead] at read
    cases read
    have split : text.drop k = b :: bs := h.rest.symm.trans ahead
    have here : text[k]? = some b := by
      rw [← List.head?_drop, split]
      rfl
    have behind : text.drop (k + 1) = bs := by
      rw [← List.drop_drop, split]
      rfl
    refine ⟨(List.getElem?_eq_some_iff.mp here).1, behind.symm, ?_, h.pos⟩
    rw [Position.ofOffset_succ here, ← List.head?_drop, behind, h.pos]

theorem Stands.advance (h : c.Stands file text k) (enough : n ≤ c.rest.length) :
    (c.advance n).Stands file text (k + n) := by
  induction n generalizing c k with
  | zero => exact h
  | succ n ih =>
    cases ahead : c.rest with
    | nil =>
      rw [ahead] at enough
      cases enough
    | cons b bs =>
      have read : c.next? = some (b, ⟨bs, c.pos.after b bs.head?, c.pos⟩) := by
        unfold next?
        rw [ahead]
      rw [ahead] at enough
      have later := ih (h.next read) (Nat.le_of_succ_le_succ enough)
      rw [Nat.add_right_comm] at later
      unfold Cursor.advance
      rwa [read]

theorem take_eq (c : Cursor) (n : Nat) :
    ∃ m ≤ c.rest.length, c.take n = (c.rest.take m, c.advance m) := by
  rcases Nat.le_total n c.rest.length with enough | short
  · exact ⟨n, enough, rfl⟩
  · refine ⟨c.rest.length, Nat.le_refl _, ?_⟩
    obtain ⟨more, rfl⟩ := Nat.exists_eq_add_of_le short
    have nothing : (c.advance c.rest.length).rest = [] := by
      rw [Scan.rest_advance, List.drop_length]
    unfold take
    rw [← Scan.advance_add, Scan.advance_of_rest_nil nothing, List.take_length,
      List.take_of_length_le short]

/-- Every step reads some bytes that are there. -/
theorem read_eq (c : Cursor) (r : Reading) :
    ∃ m ≤ c.rest.length, c.read r = (c.rest.take m, c.advance m) := by
  have nothing : ∃ m ≤ c.rest.length, (([], c) : Bytes × Cursor) = (c.rest.take m, c.advance m) :=
    ⟨0, Nat.zero_le _, rfl⟩
  cases r with
  | next =>
    cases ahead : c.rest with
    | nil => simpa [read, next?, ahead] using nothing
    | cons b bs => exact ⟨1, by simp, by simp [read, Cursor.advance, next?, ahead]⟩
  | take n => exact c.take_eq n
  | takeWhile p => exact c.take_eq _
  | takeExact bs =>
    simp only [read, takeExact?]
    split
    · exact c.take_eq _
    · exact nothing

theorem Stands.readAll (h : c.Stands file text k) (rs : List Reading) :
    (c.readAll rs).1 <+: text.drop k ∧
      (c.readAll rs).2.Stands file text (k + (c.readAll rs).1.length) := by
  induction rs generalizing c k with
  | nil => exact ⟨List.nil_prefix, h⟩
  | cons r rs ih =>
    obtain ⟨m, enough, read⟩ := c.read_eq r
    obtain ⟨front, stands⟩ := ih (h.advance enough)
    have length : (c.rest.take m).length = m := List.length_take_of_le enough
    unfold Cursor.readAll
    rw [read]
    constructor
    · have split : text.drop k = c.rest.take m ++ text.drop (k + m) := by
        rw [← List.drop_drop, ← h.rest, List.take_append_drop]
      rw [split]
      exact List.prefix_append_right_inj _ |>.mpr front
    · rw [List.length_append, length, ← Nat.add_assoc]
      exact stands

/-- A reader that has read `k` bytes of a text stands at the position of the offset `k`, and what it
read last at that of `k - 1`, however the bytes were read. -/
theorem readAll_position (file : Option Nat) (text : Bytes) (rs : List Reading) :
    let (read, c) := (ofText file text).readAll rs
    read <+: text ∧ c.pos = .ofOffset file text read.length ∧
      c.last = .ofOffset file text (read.length - 1) := by
  obtain ⟨front, stands⟩ := (ofText_stands file text).readAll rs
  rw [Nat.zero_add] at stands
  exact ⟨front, stands.pos, stands.last⟩

/-- A character of two bytes, a line break of two, and a carriage return at the end, read in steps
that part the first two. -/
example : ((ofText none [0xC3, 0xA9, 0x0D, 0x0A, 0x61, 0x0D]).readAll
    [.next, .take 2, .takeWhile (· ≠ 0x0D), .next, .next]).2.pos = ⟨none, 6, 3, 1⟩ := by decide

end Cursor

end Cool
