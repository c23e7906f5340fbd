import Cool.Json
import Cool.Proofs.Text.Apart

/-!
The text of JSON values. No two values have the same text: each begins with a character of its kind,
strings and brackets end of themselves, and a number ends where its digits do.
-/
namespace Cool.Json

section Strings

def hexValue (c : Char) : Nat := if c.isDigit then c.toNat - 48 else c.toNat - 87

def readChar : List Char → Option (Char × List Char)
  | '\\' :: 'n' :: r => some ('\n', r)
  | '\\' :: 'r' :: r => some ('\r', r)
  | '\\' :: 't' :: r => some ('\t', r)
  | '\\' :: 'b' :: r => some (Char.ofNat 8, r)
  | '\\' :: 'f' :: r => some (Char.ofNat 12, r)
  | '\\' :: 'u' :: '0' :: '0' :: h :: l :: r => some (Char.ofNat (16 * hexValue h + hexValue l), r)
  | '\\' :: c :: r => some (c, r)
  | c :: r => some (c, r)
  | [] => none

theorem readChar_hexByte (n : Nat) (hn : n < 0x20) (r : List Char) :
    readChar (("\\u00" ++ Escaped.hexByte n.toUInt8).toList ++ r) = some (Char.ofNat n, r) := by
  have digits : ∀ n < 0x20, 16 * hexValue (Escaped.hexDigit (n.toUInt8.toNat / 16)) +
      hexValue (Escaped.hexDigit (n.toUInt8.toNat % 16)) = n := by
    decide
  simp only [Escaped.hexByte, String.toList_append, String.toList_ofList]
  change some (Char.ofNat (_ + _), r) = _
  rw [digits n hn]

theorem readChar_charText (c : Char) (r : List Char) :
    readChar ((charText c).toList ++ r) = some (c, r) := by
  have numbered (n : Nat) (h : c.toNat = n) : c = Char.ofNat n := h ▸ (Char.ofNat_toNat c).symm
  unfold charText
  split
  · subst c; rfl
  split
  · subst c; rfl
  rename_i notBackslash
  split
  · subst c; rfl
  split
  · subst c; rfl
  split
  · subst c; rfl
  split
  · rw [numbered 8 ‹_›]; rfl
  split
  · rw [numbered 12 ‹_›]; rfl
  split
  · rw [readChar_hexByte _ ‹_›, Char.ofNat_toNat]
  · rw [String.toList_singleton, List.singleton_append]
    unfold readChar
    split <;> simp_all

theorem apart_char (a b : Char) : Apart nothing (fun c => (charText c).toList) a b := by
  intro r s _ _ h
  have read := congrArg readChar h
  rw [readChar_charText, readChar_charText] at read
  cases read
  exact ⟨rfl, rfl⟩

theorem charText_begins (c : Char) :
    ∃ d r, (charText c).toList = d :: r ∧ decide (d ≠ '"') = true := by
  unfold charText
  split
  · exact ⟨_, _, rfl, rfl⟩
  rename_i notQuote
  split
  · exact ⟨_, _, rfl, rfl⟩
  split
  · exact ⟨_, _, rfl, rfl⟩
  split
  · exact ⟨_, _, rfl, rfl⟩
  split
  · exact ⟨_, _, rfl, rfl⟩
  split
  · exact ⟨_, _, rfl, rfl⟩
  split
  · exact ⟨_, _, rfl, rfl⟩
  split
  · exact ⟨'\\', _, String.toList_append, rfl⟩
  · exact ⟨c, [], String.toList_singleton c, decide_eq_true notQuote⟩

theorem quoted_toList (s : String) :
    (quoted s).toList = '"' :: (s.toList.flatMap (fun c => (charText c).toList) ++ ['"']) := by
  unfold quoted
  rw [String.toList_append, String.toList_append, String.toList_join, List.flatMap_map]
  rfl

/-- A quoted string ends with the first quote that no character is written with. -/
theorem apart_quoted (a b : String) : Apart nothing (fun s => (quoted s).toList) a b := by
  intro r s _ _ h
  simp only [quoted_toList, List.cons_append, List.append_assoc] at h
  have ends (r : List Char) : Stops (fun c => nothing c || decide (c ≠ '"')) ('"' :: r) :=
    .cons rfl r
  obtain ⟨same, rest⟩ := apart_flatMap (q := fun c => decide (c ≠ '"'))
    (fun a _ b _ => apart_char a b) (fun c _ => charText_begins c) (fun _ _ => rfl) _ _
    (ends r) (ends s) (List.cons.inj h).2
  exact ⟨String.toList_inj.mp same, (List.cons.inj rest).2⟩

end Strings

section Brackets

variable {α : Type} {opening closing : String} {last : Char} {depth : Nat} {item : α → String}

def nextRow (depth : Nat) (item : α → String) (a : α) : List Char :=
  ',' :: '\n' :: ((margin (depth + 1)).toList ++ (item a).toList)

def rows (closing : String) (depth : Nat) (item : α → String) : List α → List Char
  | [] => closing.toList
  | a :: as => '\n' :: ((margin (depth + 1)).toList ++ ((item a).toList ++
      (as.flatMap (nextRow depth item) ++ '\n' :: ((margin depth).toList ++ closing.toList))))

theorem bracketed_toList (as : List α) :
    (bracketed opening closing depth (as.map item)).toList =
      opening.toList ++ rows closing depth item as := by
  unfold bracketed
  cases as with
  | nil => exact String.toList_append
  | cons a as =>
    rw [if_neg (by simp)]
    simp only [String.toList_append, String.toList_intercalate, List.map_cons, List.map_map,
      intercalate_cons, List.flatMap_map, Function.comp_apply, rows, List.append_assoc]
    rfl

theorem apart_nextRow {a b : α} (items : Apart Char.isDigit (fun a => (item a).toList) a b) :
    Apart Char.isDigit (nextRow depth item) a b := by
  intro r s hr hs h
  simp only [nextRow, List.cons_append, List.append_assoc, List.cons.injEq, true_and] at h
  exact items r s hr hs (List.append_cancel_left h)

/-- Items between brackets are told apart if each is in front of what is no digit. -/
theorem apart_bracketed {as bs : List α} (closes : closing.toList = [last]) (new : last ≠ '\n')
    (items : ∀ a ∈ as, ∀ b ∈ bs, Apart Char.isDigit (fun a => (item a).toList) a b) :
    Apart nothing (fun as => (bracketed opening closing depth (as.map item)).toList) as bs := by
  intro r s _ _ h
  simp only [bracketed_toList, List.append_assoc] at h
  have inside := List.append_cancel_left h
  cases as with
  | nil =>
    cases bs with
    | nil => exact ⟨rfl, List.append_cancel_left inside⟩
    | cons b bs =>
      rw [rows, rows, closes] at inside
      exact absurd (List.cons.inj inside).1 new
  | cons a as =>
    cases bs with
    | nil =>
      rw [rows, rows, closes] at inside
      exact absurd (List.cons.inj inside).1.symm new
    | cons b bs =>
      simp only [rows, List.cons_append, List.append_assoc, List.cons.injEq, true_and] at inside
      have noDigit (as : List α) (r : List Char) :
          Stops Char.isDigit (as.flatMap (nextRow depth item) ++ '\n' :: r) := by
        cases as with
        | nil => exact .cons rfl r
        | cons a as =>
          rw [List.flatMap_cons, nextRow, List.cons_append, List.cons_append]
          exact .cons rfl _
      have noRow (r : List Char) : Stops (fun c => c.isDigit || decide (c = ',')) ('\n' :: r) :=
        .cons rfl r
      obtain ⟨rfl, others⟩ := items a List.mem_cons_self b List.mem_cons_self _ _
        (noDigit as _) (noDigit bs _) (List.append_cancel_left inside)
      obtain ⟨rfl, rest⟩ := apart_flatMap (q := fun c => decide (c = ','))
        (fun x hx y hy => apart_nextRow (items x (List.mem_cons_of_mem a hx) y
          (List.mem_cons_of_mem a hy)))
        (fun x _ => ⟨_, _, rfl, rfl⟩) (fun c hc => by rw [of_decide_eq_true hc]; rfl) _ _
        (noRow _) (noRow _) others
      refine ⟨rfl, ?_⟩
      exact List.append_cancel_left (List.append_cancel_left (List.cons.inj rest).2)

end Brackets

section Values

inductive Kind where
  | null | bool | int | string | list | object
deriving DecidableEq

def kind : Json → Kind
  | .null => .null
  | .bool _ => .bool
  | .int _ => .int
  | .string _ => .string
  | .list _ => .list
  | .object _ => .object

def Kind.of (c : Char) : Kind :=
  if c = 'n' then .null
  else if c = 't' ∨ c = 'f' then .bool
  else if c = '"' then .string
  else if c = '[' then .list
  else if c = '\x7b' then .object
  else .int

def fieldText (depth : Nat) (field : String × Json) : String :=
  quoted field.1 ++ ": " ++ textAt depth field.2

theorem itemTexts_eq (depth : Nat) (items : List Json) :
    itemTexts depth items = items.map (textAt depth) := by
  induction items with
  | nil => rfl
  | cons j js ih => rw [itemTexts, List.map_cons, ih]

theorem fieldTexts_eq (depth : Nat) (fields : List (String × Json)) :
    fieldTexts depth fields = fields.map (fieldText depth) := by
  induction fields with
  | nil => rfl
  | cons field fields ih =>
    obtain ⟨key, j⟩ := field
    rw [fieldTexts, List.map_cons, ih]
    rfl

theorem kind_of_digit {c : Char} (h : c.isDigit = true) : Kind.of c = .int := by
  have ne {d : Char} (hd : d.isDigit = false) : c ≠ d := by
    rintro rfl
    exact Bool.false_ne_true (hd.symm.trans h)
  unfold Kind.of
  rw [if_neg (ne rfl), if_neg (not_or.mpr ⟨ne rfl, ne rfl⟩), if_neg (ne rfl), if_neg (ne rfl),
    if_neg (ne rfl)]

theorem bracketed_begins {c : Char} {opening : String} (opens : opening.toList = [c])
    (closing : String) (depth : Nat) (items : List String) :
    ∃ r, (bracketed opening closing depth items).toList = c :: r := by
  refine ⟨rows closing depth id items, ?_⟩
  conv => lhs; rw [← List.map_id items]
  rw [bracketed_toList, opens, List.singleton_append]

theorem textAt_begins (depth : Nat) (j : Json) :
    ∃ c r, (textAt depth j).toList = c :: r ∧ Kind.of c = j.kind := by
  cases j with
  | null => exact ⟨'n', "ull".toList, by rw [textAt]; rfl, rfl⟩
  | bool b =>
    cases b with
    | false => exact ⟨'f', "alse".toList, by rw [textAt]; rfl, rfl⟩
    | true => exact ⟨'t', "rue".toList, by rw [textAt]; rfl, rfl⟩
  | int n =>
    unfold textAt
    cases n with
    | ofNat n =>
      change ∃ c r, n.repr.toList = c :: r ∧ Kind.of c = .int
      cases digits : n.repr.toList with
      | nil => exact absurd (Nat.toList_repr.symm.trans digits) Nat.toDigits_ne_nil
      | cons c r =>
        have isDigit := digits_of_nat n c (digits ▸ List.mem_cons_self)
        exact ⟨c, r, rfl, kind_of_digit isDigit⟩
    | negSucc n => exact ⟨'-', _, String.toList_append, rfl⟩
  | string s => exact ⟨_, _, quoted_toList s, rfl⟩
  | list items =>
    have opens : "[".toList = ['['] := rfl
    obtain ⟨r, begins⟩ := bracketed_begins opens "]" depth (itemTexts (depth + 1) items)
    exact ⟨'[', r, begins, rfl⟩
  | object fields =>
    have opens : "\x7b".toList = ['\x7b'] := rfl
    obtain ⟨r, begins⟩ := bracketed_begins opens "\x7d" depth (fieldTexts (depth + 1) fields)
    exact ⟨'\x7b', r, begins, rfl⟩

theorem kind_eq_of_text {depth : Nat} {i j : Json} {r s : List Char}
    (h : (textAt depth i).toList ++ r = (textAt depth j).toList ++ s) : i.kind = j.kind := by
  obtain ⟨c, t, hi, kindI⟩ := textAt_begins depth i
  obtain ⟨d, u, hj, kindJ⟩ := textAt_begins depth j
  rw [hi, hj] at h
  rw [← kindI, ← kindJ, (List.cons.inj h).1]

theorem apart_field {depth : Nat} {a b : String × Json}
    (values : Apart Char.isDigit (fun j => (textAt depth j).toList) a.2 b.2) :
    Apart Char.isDigit (fun field => (fieldText depth field).toList) a b := by
  intro r s hr hs h
  simp only [fieldText, String.toList_append, List.append_assoc] at h
  obtain ⟨keys, rest⟩ := apart_quoted a.1 b.1 _ _ (.nothing _) (.nothing _) h
  obtain ⟨same, rest⟩ := values r s hr hs (List.append_cancel_left rest)
  exact ⟨Prod.ext keys same, rest⟩

theorem induct {motive : Json → Prop} (null : motive .null) (bool : ∀ b, motive (.bool b))
    (int : ∀ n, motive (.int n)) (string : ∀ s, motive (.string s))
    (list : ∀ items, (∀ j ∈ items, motive j) → motive (.list items))
    (object : ∀ fields, (∀ field ∈ fields, motive field.2) → motive (.object fields)) (j : Json) :
    motive j :=
  Json.rec (motive_1 := motive) (motive_2 := fun items => ∀ j ∈ items, motive j)
    (motive_3 := fun fields => ∀ field ∈ fields, motive field.2)
    (motive_4 := fun field => motive field.2) null bool int string list object
    (fun _ h => nomatch h) (fun _ _ ih ihs => List.forall_mem_cons.mpr ⟨ih, ihs⟩)
    (fun _ h => nomatch h) (fun _ _ ih ihs => List.forall_mem_cons.mpr ⟨ih, ihs⟩)
    (fun _ _ ih => ih) j

/-- The text of a value tells it apart in front of what is no digit. -/
theorem apart_text (depth : Nat) (i j : Json) :
    Apart Char.isDigit (fun j => (textAt depth j).toList) i j := by
  induction i using induct generalizing depth j with
  | null =>
    intro r s _ _ h
    have same := kind_eq_of_text h
    cases j with
    | null => exact ⟨rfl, List.append_cancel_left h⟩
    | bool _ | int _ | string _ | list _ | object _ => cases same
  | bool a =>
    intro r s _ _ h
    have same := kind_eq_of_text h
    cases j with
    | bool b =>
      cases a <;> cases b <;> simp only [textAt] at h
      · exact ⟨rfl, List.append_cancel_left h⟩
      · cases (List.cons.inj (show 'f' :: _ = 't' :: _ from h)).1
      · cases (List.cons.inj (show 't' :: _ = 'f' :: _ from h)).1
      · exact ⟨rfl, List.append_cancel_left h⟩
    | null | int _ | string _ | list _ | object _ => cases same
  | int m =>
    intro r s hr hs h
    have same := kind_eq_of_text h
    cases j with
    | int n =>
      obtain ⟨rfl, rest⟩ := apart_int m n r s hr hs h
      exact ⟨rfl, rest⟩
    | null | bool _ | string _ | list _ | object _ => cases same
  | string a =>
    intro r s _ _ h
    have same := kind_eq_of_text h
    cases j with
    | string b =>
      obtain ⟨rfl, rest⟩ := apart_quoted a b r s (.nothing r) (.nothing s) h
      exact ⟨rfl, rest⟩
    | null | bool _ | int _ | list _ | object _ => cases same
  | list as ih =>
    intro r s _ _ h
    have same := kind_eq_of_text h
    cases j with
    | list bs =>
      simp only [textAt, itemTexts_eq] at h
      have closes : "]".toList = [']'] := rfl
      obtain ⟨rfl, rest⟩ := apart_bracketed closes (by decide)
        (fun a ha b _ => ih a ha (depth + 1) b) r s (.nothing r) (.nothing s) h
      exact ⟨rfl, rest⟩
    | null | bool _ | int _ | string _ | object _ => cases same
  | object as ih =>
    intro r s _ _ h
    have same := kind_eq_of_text h
    cases j with
    | object bs =>
      simp only [textAt, fieldTexts_eq] at h
      have closes : "\x7d".toList = ['\x7d'] := rfl
      obtain ⟨rfl, rest⟩ := apart_bracketed closes (by decide)
        (fun a ha b _ => apart_field (ih a ha (depth + 1) b.2)) r s (.nothing r) (.nothing s) h
      exact ⟨rfl, rest⟩
    | null | bool _ | int _ | string _ | list _ => cases same

theorem text_injective : Function.Injective Json.text := by
  intro i j h
  have chars := congrArg (fun s => String.toList s ++ []) h
  exact (apart_text 0 i j [] [] (.nil _) (.nil _) chars).1

end Values

end Cool.Json
