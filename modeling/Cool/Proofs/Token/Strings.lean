import Cool.Proofs.Token.Scanning

/-!
What strings mean. A string is written in units, each a byte by itself or a byte behind a backslash,
and ends at the first quote or line feed that is a unit by itself. If this is a quote and no unit
has a NUL byte, then the string means what its units mean, one after another. It makes no difference
from where on its value is copied out of the text.
-/
namespace Cool

/-- A byte of a string, by itself or behind a backslash. -/
inductive StringUnit where
  | plain (c : UInt8)
  | escaped (c : UInt8)
deriving DecidableEq, Repr

namespace StringUnit

def byte : StringUnit → UInt8
  | .plain c => c
  | .escaped c => c

def bytes : StringUnit → Bytes
  | .plain c => [c]
  | .escaped c => [Cool.byte '\\', c]

theorem bytes_pos (u : StringUnit) : 0 < u.bytes.length := by
  cases u <;> exact Nat.succ_pos _

/-- The bytes that mean another one behind a backslash, with what they mean: backspace, tab, line
feed and form feed. -/
def controls : List (UInt8 × UInt8) :=
  [(Cool.byte 'b', 0x08), (Cool.byte 't', 0x09), (Cool.byte 'n', 0x0A), (Cool.byte 'f', 0x0C)]

def meaning : StringUnit → UInt8
  | .plain c => c
  | .escaped c => (controls.lookup c).getD c

def quote : StringUnit := .plain (Cool.byte '"')

/-- Whether a string cannot go on behind the unit. -/
def ends (u : StringUnit) : Bool := u = quote || u = .plain (Cool.byte '\n')

end StringUnit

namespace Strings

open StringUnit

/-- The units of a text. A backslash that nothing follows is one by itself. -/
def units : Bytes → List StringUnit
  | [] => []
  | [c] => [.plain c]
  | c :: d :: rest =>
    if c = byte '\\' then .escaped d :: units rest else .plain c :: units (d :: rest)

/-- The units of a string, from what stands behind its opening quote. -/
def content (text : Bytes) : List StringUnit := (units text).takeWhile (!·.ends)

/-- What comes behind the units of a string, if it is not the end of the text. -/
def ending? (text : Bytes) : Option StringUnit := ((units text).dropWhile (!·.ends)).head?

def width (us : List StringUnit) : Nat := (us.flatMap bytes).length

end Strings

open StringUnit Strings

namespace Scan

variable {c : Cursor} {text rest : Bytes} {b : UInt8} {u : StringUnit} {us : List StringUnit}

theorem units_plain (h : b ≠ byte '\\') (rest : Bytes) :
    units (b :: rest) = .plain b :: units rest := by
  cases rest with
  | nil => rfl
  | cons d rest => rw [units, if_neg h]

theorem units_escaped (d : UInt8) (rest : Bytes) :
    units (byte '\\' :: d :: rest) = .escaped d :: units rest := by
  rw [units, if_pos rfl]

theorem flatMap_units (text : Bytes) : (units text).flatMap bytes = text := by
  fun_induction units text with
  | case1 => rfl
  | case2 c => rfl
  | case3 d rest ih => rw [List.flatMap_cons, ih]; rfl
  | case4 c d rest _ ih => rw [List.flatMap_cons, ih]; rfl

theorem meaning_escaped (d : UInt8) : meaning (.escaped d) = unescape d := by
  have step (k v : UInt8) (rest : List (UInt8 × UInt8)) : (((k, v) :: rest).lookup d).getD d =
      if d = k then v else (rest.lookup d).getD d := by
    rw [List.lookup_cons]
    by_cases h : d = k
    · simp [h]
    · rw [beq_false_of_ne h, if_neg h]
  simp only [meaning, controls, step]
  rfl

theorem idxOf_bytes_append (u : StringUnit) (rest : Bytes) : (u.bytes ++ rest).idxOf 0 =
    if u.byte = 0 then u.bytes.length - 1 else u.bytes.length + rest.idxOf 0 := by
  have backslash : (byte '\\' == 0) = false := by decide
  cases u with
  | plain b =>
    change (b :: rest).idxOf 0 = if b = 0 then 0 else 1 + rest.idxOf 0
    rw [List.idxOf_cons]
    by_cases h : b = 0
    · simp [h]
    · rw [beq_false_of_ne h, if_neg h, cond_false, Nat.add_comm]
  | escaped d =>
    change (byte '\\' :: d :: rest).idxOf 0 = if d = 0 then 1 else 2 + rest.idxOf 0
    rw [List.idxOf_cons, backslash, List.idxOf_cons]
    by_cases h : d = 0
    · simp [h]
    · rw [beq_false_of_ne h, if_neg h, cond_false, cond_false]
      omega

def stringPiece (offset : Nat) (value : Bytes) (nul : Option Nat) (text : Bytes) : Piece :=
  let stop := offset + width (content text)
  if ending? text = some quote then
    match nul <|> if ∃ u ∈ content text, u.byte = 0 then some (offset + text.idxOf 0) else none
    with
    | some k => .fault (.unrecognizedCharacter 0) k (stop + 1)
    | none => .token (.string (value.reverse ++ (content text).map meaning)) (stop + 1)
  else .fault .unterminatedString stop stop

theorem stringPiece_ends (h : units text = u :: us) (ends : u.ends = true) (offset : Nat)
    (value : Bytes) (nul : Option Nat) : stringPiece offset value nul text =
      if u = quote then
        match nul with
        | some k => .fault (.unrecognizedCharacter 0) k (offset + 1)
        | none => .token (.string value.reverse) (offset + 1)
      else .fault .unterminatedString offset offset := by
  have empty : content text = [] := by simp [content, h, ends]
  have next : ending? text = some u := by simp [ending?, h, ends]
  simp only [stringPiece, empty, next, Option.some.injEq]
  simp [width]

theorem stringPiece_goes (h : units text = u :: units rest) (whole : text = u.bytes ++ rest)
    (goes : u.ends = false) (offset : Nat) (value : Bytes) (nul : Option Nat) :
    stringPiece offset value nul text = stringPiece (offset + u.bytes.length) (u.meaning :: value)
      (nul <|> if u.byte = 0 then some (offset + u.bytes.length - 1) else none) rest := by
  have longer : content text = u :: content rest := by simp [content, h, goes]
  have next : ending? text = ending? rest := by simp [ending?, h, goes]
  have wider :
      offset + width (u :: content rest) = offset + u.bytes.length + width (content rest) := by
    simp [width, Nat.add_assoc]
  simp only [stringPiece, longer, next, wider]
  have first : (nul <|> if ∃ v ∈ u :: content rest, v.byte = 0 then some (offset + text.idxOf 0)
      else none) = ((nul <|> if u.byte = 0 then some (offset + u.bytes.length - 1) else none) <|>
        if ∃ v ∈ content rest, v.byte = 0 then some (offset + u.bytes.length + rest.idxOf 0)
        else none) := by
    rw [whole, idxOf_bytes_append]
    cases nul with
    | some k => rfl
    | none =>
      by_cases zero : u.byte = 0
      · simp [zero, Nat.add_sub_assoc u.bytes_pos]
      · simp [zero, Nat.add_assoc]
  rw [first]
  simp

/-- From any place on, a string is read by its units, its value being copied or not. -/
theorem stringFrom_eq {raw seen : Bytes} {offset : Nat} (copy : Option Bytes) (nul : Option Nat)
    (split : raw = seen ++ text) (read : seen.length = offset) :
    stringFrom raw offset copy nul text =
      stringPiece (offset + 1) (copy.getD seen.reverse) nul text := by
  -- `seen` grows by each unit that is read, so a copy that is made later begins with all of them.
  fun_induction stringFrom raw offset copy nul text generalizing seen with
  | case1 => rfl
  | case2 offset copy rest k =>
    rw [stringPiece_ends (units_plain (by decide) rest) rfl]
    rfl
  | case3 offset copy rest =>
    rw [stringPiece_ends (units_plain (by decide) rest) rfl, split, List.take_left' read]
    cases copy with
    | none => rw [Option.getD_none, List.reverse_reverse]; rfl
    | some value => rfl
  | case4 offset copy nul rest =>
    rw [stringPiece_ends (units_plain (by decide) rest) rfl]
    rfl
  | case5 => rfl
  | case6 offset copy nul e rest _ _ ih =>
    have split' : raw = (seen ++ [byte '\\', e]) ++ rest := by simp [split]
    rw [ih split' (by simp [read]), stringPiece_goes (units_escaped e rest) rfl rfl,
      meaning_escaped, split, List.take_left' read]
    rfl
  | case7 offset copy nul b rest quote feed backslash ih =>
    have goes : (StringUnit.plain b).ends = false := by
      simp [ends, StringUnit.quote, quote, feed]
    have split' : raw = (seen ++ [b]) ++ rest := by simp [split]
    rw [ih split' (by simp [read]), stringPiece_goes (units_plain backslash rest) rfl goes]
    cases copy with
    | none => rw [Option.map_none, Option.getD_none, List.reverse_append]; rfl
    | some value => rfl

theorem content_append (text : Bytes) :
    (content text).flatMap bytes ++ ((units text).dropWhile (!·.ends)).flatMap bytes = text := by
  rw [← List.flatMap_append, content, List.takeWhile_append_dropWhile, flatMap_units]

/-- A string that is closed goes from quote to quote. -/
theorem rest_of_closed (ahead : c.rest = byte '"' :: text) (closed : ending? text = some quote) :
    text = (content text).flatMap bytes ++
      byte '"' :: (c.advance (1 + width (content text) + 1)).rest := by
  obtain ⟨us, hu⟩ := List.head?_eq_some_iff.mp closed
  have split := content_append text
  rw [hu, List.flatMap_cons] at split
  have front : c.rest =
      (byte '"' :: (content text).flatMap bytes ++ [byte '"']) ++ us.flatMap bytes := by
    rw [ahead, List.append_assoc]
    exact congrArg (byte '"' :: ·) split.symm
  have length : 1 + width (content text) + 1 =
      (byte '"' :: (content text).flatMap bytes ++ [byte '"']).length := by
    simp [width, Nat.add_comm 1]
  rw [rest_advance, front, length, List.drop_left]
  exact split.symm

/-- The position of the last byte that was read is where the reader stood before it. -/
theorem last_advance_succ {n : Nat} (h : n < c.rest.length) :
    (c.advance (n + 1)).last = (c.advance n).pos := by
  rw [← advance_add]
  have ahead : (c.advance n).rest ≠ [] := by
    rw [rest_advance, ← List.length_pos_iff, List.length_drop]
    omega
  obtain ⟨b, bs, hb⟩ := List.exists_cons_of_ne_nil ahead
  simp [Cursor.advance, Cursor.next?, hb]

end Scan

structure StringRead (c : Cursor) (text : Bytes) : Prop where
  /-- The units are all of the text. -/
  whole : (units text).flatMap bytes = text
  scanned : scan c =
    let stop := 1 + width (content text)
    if ending? text ≠ some quote then
      [.error ⟨.unterminatedString, ⟨c.pos, (c.advance stop).pos⟩⟩]
    else if ∃ u ∈ content text, u.byte = 0 then
      [.error ⟨.unrecognizedCharacter 0, ⟨c.pos, (c.advance (1 + text.idxOf 0)).pos⟩⟩]
    else
      .ok ⟨.string ((content text).map meaning), ⟨c.pos, (c.advance stop).pos⟩⟩ ::
        scan (c.advance (stop + 1))
  behind : ending? text = some quote → text =
    (content text).flatMap bytes ++ byte '"' :: (c.advance (1 + width (content text) + 1)).rest
  /-- Wherever its value is copied from, a string is read as if it were not. -/
  copied : ∀ seen rest nul, text = seen ++ rest →
    Scan.stringFrom text seen.length (some seen.reverse) nul rest =
      Scan.stringFrom text seen.length none nul rest

/-- A string without an end is a fault, then a NUL byte in it; else it means what its units mean,
and reading goes on behind the quote that closes it. -/
theorem scan_string {c : Cursor} {text : Bytes} (ahead : c.rest = byte '"' :: text) :
    StringRead c text := by
  have read : Scan.piece c.rest = Scan.stringPiece 1 [] none text := by
    rw [ahead]
    exact Scan.stringFrom_eq none none (List.nil_append text).symm rfl
  refine ⟨Scan.flatMap_units text, ?_, Scan.rest_of_closed ahead, fun seen rest nul split => ?_⟩
  · unfold Scan.stringPiece at read
    by_cases closed : ending? text = some quote
    · rw [if_pos closed] at read
      rw [if_neg fun still => still closed]
      by_cases nul : ∃ u ∈ content text, u.byte = 0
      · rw [if_pos nul] at read ⊢
        exact Scan.scan_fault read
      · rw [if_neg nul] at read ⊢
        rw [Scan.scan_token read, Scan.last_advance_succ]
        · rfl
        · have split := congrArg List.length (Scan.rest_of_closed ahead closed)
          rw [ahead]
          simp only [List.length_cons, List.length_append] at split ⊢
          unfold width
          omega
    · rw [if_neg closed] at read
      rw [if_pos closed]
      exact Scan.scan_fault read
  · rw [Scan.stringFrom_eq _ nul split rfl, Scan.stringFrom_eq _ nul split rfl]
    rfl

/-- A string with a quote and a line feed behind backslashes, and something behind it. -/
def escapedText : Bytes := ascii "a\\\"\\t\\\n\\c\"+1"

theorem scan_string_escaped : (Cursor.ofText none (byte '"' :: escapedText)).rest =
      byte '"' :: escapedText ∧
    StringRead (.ofText none (byte '"' :: escapedText)) escapedText :=
  ⟨rfl, scan_string rfl⟩

/-- That a string does not end is worse than a NUL byte in it. -/
example : Scan.piece (byte '"' :: 0 :: ascii "a\nb\"") = .fault .unterminatedString 3 3 := by decide

end Cool
