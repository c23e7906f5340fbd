import Cool.Bril.Text
import Cool.Proofs.Bril.Json

/-!
The text of a program loses nothing if its names are words. A word ends where its characters do, and
what stands behind it tells which kind of instruction it is in; a line ends of itself.
-/
namespace Cool.Bril

section Words

/-- A letter of the alphabet, or any character beyond ASCII. -/
def letter (c : Char) : Bool := c.isAlpha || decide (0x80 ≤ c.toNat)

def nameChar (c : Char) : Bool := letter c || c.isDigit || c == '_' || c == '.'

/-- Whether a name starts with a letter and goes on with letters, digits, underscores and dots. -/
def isName (s : String) : Bool := s.toList.head?.any letter && s.toList.all nameChar

theorem nameChar_of_isName {s : String} (h : isName s = true) :
    ∀ c ∈ s.toList, nameChar c = true :=
  List.all_eq_true.mp (Bool.and_eq_true_iff.mp h).2

theorem isName_begins {s : String} (h : isName s = true) :
    ∃ c r, s.toList = c :: r ∧ letter c = true := by
  have first := (Bool.and_eq_true_iff.mp h).1
  cases chars : s.toList with
  | nil => rw [chars] at first; cases first
  | cons c r => rw [chars] at first; exact ⟨c, r, rfl, first⟩

theorem apart_name {a b : String} (ha : isName a = true) (hb : isName b = true) :
    Apart nameChar String.toList a b := by
  intro r s hr hs h
  obtain ⟨same, rest⟩ := apart_span (nameChar_of_isName ha) (nameChar_of_isName hb) r s hr hs h
  exact ⟨String.toList_inj.mp same, rest⟩

theorem ValueOp.isName_text (op : ValueOp) : isName op.text = true := by
  cases op <;> decide

theorem EffectOp.isName_text (op : EffectOp) : isName op.text = true := by
  cases op <;> decide

end Words

/-- The text of a type ends of itself. -/
theorem apart_ty (a b : Ty) : Apart nothing (fun t => t.text.toList) a b := by
  intro r s _ _ h
  induction a generalizing b r s with
  | int =>
    cases b with
    | int => exact ⟨rfl, List.append_cancel_left h⟩
    | bool => cases (List.cons.inj h).1
    | ptr b =>
      simp only [Ty.text, String.toList_append] at h
      cases (List.cons.inj h).1
  | bool =>
    cases b with
    | int => cases (List.cons.inj h).1
    | bool => exact ⟨rfl, List.append_cancel_left h⟩
    | ptr b =>
      simp only [Ty.text, String.toList_append] at h
      cases (List.cons.inj h).1
  | ptr a ih =>
    simp only [Ty.text, String.toList_append, List.append_assoc] at h
    cases b with
    | int => cases (List.cons.inj h).1
    | bool => cases (List.cons.inj h).1
    | ptr b =>
      simp only [Ty.text, String.toList_append, List.append_assoc] at h
      obtain ⟨rfl, rest⟩ := ih b _ _ (.nothing _) (.nothing _) (List.append_cancel_left h)
      exact ⟨rfl, List.append_cancel_left rest⟩

theorem Literal.text_eq (v : Literal) : v.text = v.json.text := by
  unfold Json.text
  cases v with
  | int _ => rw [Literal.json, Json.textAt]; rfl
  | bool b => cases b <;> (rw [Literal.json, Json.textAt]; rfl)

theorem apart_literal (a b : Literal) : Apart Char.isDigit (fun v => v.text.toList) a b := by
  intro r s hr hs h
  simp only [Literal.text_eq] at h
  obtain ⟨same, rest⟩ := Json.apart_text 0 a.json b.json r s hr hs h
  exact ⟨Literal.json_injective same, rest⟩

section Operands

variable {funcs funcs' args args' labels labels' : List String}

def operandWords (funcs args labels : List String) : List (List Char) :=
  funcs.map ('@' :: ·.toList) ++ (args.map String.toList ++ labels.map ('.' :: ·.toList))

def wordChar (c : Char) : Bool := nameChar c || c == '@'

def begins (p : Char → Bool) (word : List Char) : Bool := word.head?.any p

theorem operands_toList (funcs args labels : List String) :
    (operands funcs args labels).toList = (operandWords funcs args labels).flatMap (' ' :: ·) := by
  simp only [operands, operandWords, String.toList_append, String.toList_join, List.flatMap_append,
    List.flatMap_map, List.append_assoc]
  rfl

theorem wordChar_of_operandWords (names : ∀ n ∈ args ++ funcs ++ labels, isName n = true) :
    ∀ word ∈ operandWords funcs args labels, ∀ c ∈ word, wordChar c = true := by
  have ofName {n : String} (hn : isName n = true) : ∀ c ∈ n.toList, wordChar c = true :=
    fun c hc => Bool.or_eq_true_iff.mpr (.inl (nameChar_of_isName hn c hc))
  simp only [List.forall_mem_append] at names
  obtain ⟨⟨namesArgs, namesFuncs⟩, namesLabels⟩ := names
  simp only [operandWords, List.forall_mem_append, List.forall_mem_map, List.forall_mem_cons]
  exact ⟨fun n hn => ⟨rfl, ofName (namesFuncs n hn)⟩, fun n hn => ofName (namesArgs n hn),
    fun n hn => ⟨rfl, ofName (namesLabels n hn)⟩⟩

/-- Words are functions up to the first without `@`, and registers up to the first without a letter
in front. -/
theorem operandWords_inj (namesArgs : ∀ n ∈ args, isName n = true)
    (namesArgs' : ∀ n ∈ args', isName n = true)
    (h : operandWords funcs args labels = operandWords funcs' args' labels') :
    funcs = funcs' ∧ args = args' ∧ labels = labels' := by
  have tagged (c : Char) : Function.Injective (c :: String.toList ·) :=
    fun _ _ h => String.toList_inj.mp (List.cons.inj h).2
  have plain : Function.Injective String.toList := fun _ _ h => String.toList_inj.mp h
  have func (names : List String) :
      ∀ word ∈ names.map ('@' :: ·.toList), begins (· == '@') word = true := by
    simp only [List.forall_mem_map]
    exact fun _ _ => rfl
  have arg {names : List String} (hn : ∀ n ∈ names, isName n = true) :
      ∀ word ∈ names.map String.toList, begins letter word = true := by
    simp only [List.forall_mem_map]
    exact fun n h => (Bool.and_eq_true_iff.mp (hn n h)).1
  have noArg (names : List String) :
      Stops (begins letter) (names.map ('.' :: ·.toList) ++ []) := by
    cases names with
    | nil => exact .nil _
    | cons n names => exact stops_cons_iff.mpr rfl
  have noFunc {names : List String} (hn : ∀ n ∈ names, isName n = true) (labels : List String) :
      Stops (begins (· == '@'))
        (names.map String.toList ++ (labels.map ('.' :: ·.toList) ++ [])) := by
    cases names with
    | nil =>
      cases labels with
      | nil => exact .nil _
      | cons n labels => exact .cons rfl _
    | cons n names =>
      obtain ⟨c, r, chars, hc⟩ := isName_begins (hn n List.mem_cons_self)
      rw [List.map_cons, chars]
      refine stops_cons_iff.mpr (beq_eq_false_iff_ne.mpr ?_)
      rintro rfl
      cases hc
  have h := congrArg (· ++ []) h
  simp only [operandWords, List.append_assoc] at h
  obtain ⟨sameFuncs, h⟩ := apart_span (func funcs) (func funcs') _ _ (noFunc namesArgs labels)
    (noFunc namesArgs' labels') h
  obtain ⟨sameArgs, h⟩ := apart_span (arg namesArgs) (arg namesArgs') _ _ (noArg labels)
    (noArg labels') h
  exact ⟨(tagged '@').list_map sameFuncs, plain.list_map sameArgs,
    (tagged '.').list_map (List.append_cancel_right h)⟩

def operandText (funcs args labels : List String) (r : List Char) : List Char :=
  (operands funcs args labels).toList ++ ';' :: r

theorem operandText_begins (funcs args labels : List String) (r : List Char) :
    ∃ c t, operandText funcs args labels r = c :: t ∧ nameChar c = false ∧ c ≠ ':' := by
  unfold operandText
  rw [operands_toList]
  cases operandWords funcs args labels with
  | nil => exact ⟨';', r, rfl, by decide, by decide⟩
  | cons word words => exact ⟨' ', _, rfl, by decide, by decide⟩

theorem stops_operandText (funcs args labels : List String) (r : List Char) :
    Stops nameChar (operandText funcs args labels r) := by
  obtain ⟨c, t, eq, hc, -⟩ := operandText_begins funcs args labels r
  exact eq ▸ .cons hc t

theorem operandText_inj (names : ∀ n ∈ args ++ funcs ++ labels, isName n = true)
    (names' : ∀ n ∈ args' ++ funcs' ++ labels', isName n = true) {r s : List Char}
    (h : operandText funcs args labels r = operandText funcs' args' labels' s) :
    (funcs = funcs' ∧ args = args' ∧ labels = labels') ∧ r = s := by
  simp only [operandText, operands_toList] at h
  have ends (r : List Char) : Stops (fun c => wordChar c || decide (c = ' ')) (';' :: r) :=
    .cons (by decide) r
  have words := wordChar_of_operandWords names
  have words' := wordChar_of_operandWords names'
  obtain ⟨same, rest⟩ := apart_flatMap (p := wordChar) (q := fun c => decide (c = ' '))
    (fun a ha b hb r s hr hs h =>
      apart_span (words a ha) (words' b hb) r s hr hs (List.cons.inj h).2)
    (fun _ _ => ⟨_, _, rfl, rfl⟩) (fun c hc => by rw [of_decide_eq_true hc]; decide) _ _
    (ends r) (ends s) h
  simp only [List.forall_mem_append] at names names'
  exact ⟨operandWords_inj names.1.1 names'.1.1 same, (List.cons.inj rest).2⟩

theorem operation_inj {word word' : String} (named : isName word = true)
    (named' : isName word' = true) (names : ∀ n ∈ args ++ funcs ++ labels, isName n = true)
    (names' : ∀ n ∈ args' ++ funcs' ++ labels', isName n = true) {r s : List Char}
    (h : word.toList ++ operandText funcs args labels r =
      word'.toList ++ operandText funcs' args' labels' s) :
    word = word' ∧ (funcs = funcs' ∧ args = args' ∧ labels = labels') ∧ r = s := by
  obtain ⟨words, rest⟩ := apart_name named named' _ _ (stops_operandText funcs args labels r)
    (stops_operandText funcs' args' labels' s) h
  exact ⟨words, operandText_inj names names' rest⟩

end Operands

section Lines

def Instr.names : Instr → List String
  | .label name => [name]
  | .const dest _ _ => [dest]
  | .value _ dest _ args funcs => dest :: (args ++ funcs)
  | .effect _ args funcs labels => args ++ funcs ++ labels

def assignText (dest : String) (ty : Ty) (r : List Char) : List Char :=
  ' ' :: ' ' :: (dest.toList ++ ':' :: ' ' :: (ty.text.toList ++ ' ' :: '=' :: ' ' :: r))

theorem line_label (name : String) (r : List Char) :
    (Instr.label name).line.toList ++ r = '.' :: (name.toList ++ ':' :: '\n' :: r) := by
  simp only [Instr.line, Instr.text, String.toList_append, List.append_assoc]
  rfl

theorem line_const (dest : String) (ty : Ty) (v : Literal) (r : List Char) :
    (Instr.const dest ty v).line.toList ++ r =
      assignText dest ty ("const".toList ++ ' ' :: (v.text.toList ++ ';' :: '\n' :: r)) := by
  simp only [Instr.line, Instr.text, assignText, String.toList_append, List.append_assoc]
  rfl

theorem line_value (op : ValueOp) (dest : String) (ty : Ty) (args funcs : List String)
    (r : List Char) : (Instr.value op dest ty args funcs).line.toList ++ r =
      assignText dest ty (op.text.toList ++ operandText funcs args [] ('\n' :: r)) := by
  simp only [Instr.line, Instr.text, assignText, operandText, String.toList_append,
    List.append_assoc]
  rfl

theorem line_effect (op : EffectOp) (args funcs labels : List String) (r : List Char) :
    (Instr.effect op args funcs labels).line.toList ++ r =
      ' ' :: ' ' :: (op.text.toList ++ operandText funcs args labels ('\n' :: r)) := by
  simp only [Instr.line, Instr.text, operandText, String.toList_append, List.append_assoc]
  rfl

theorem assignText_inj {dest dest' : String} (h : isName dest = true) (h' : isName dest' = true)
    {ty ty' : Ty} {r s : List Char} (same : assignText dest ty r = assignText dest' ty' s) :
    dest = dest' ∧ ty = ty' ∧ r = s := by
  have colon (r : List Char) : Stops nameChar (':' :: r) := .cons (by decide) r
  simp only [assignText, List.cons.injEq, true_and] at same
  obtain ⟨dests, rest⟩ := apart_name h h' _ _ (colon _) (colon _) same
  simp only [List.cons.injEq, true_and] at rest
  obtain ⟨tys, rest⟩ := apart_ty ty ty' _ _ (.nothing _) (.nothing _) rest
  simp only [List.cons.injEq, true_and] at rest
  exact ⟨dests, tys, rest⟩

theorem assignText_ne_effect {dest : String} (h : isName dest = true) (ty : Ty) (op : EffectOp)
    (args funcs labels : List String) (r s : List Char) :
    assignText dest ty r ≠ ' ' :: ' ' :: (op.text.toList ++ operandText funcs args labels s) := by
  intro same
  simp only [assignText, List.cons.injEq, true_and] at same
  have rest := (apart_name h op.isName_text _ _ (.cons (by decide) _)
    (stops_operandText funcs args labels s) same).2
  obtain ⟨c, t, begins, -, notColon⟩ := operandText_begins funcs args labels s
  rw [begins] at rest
  exact notColon (List.cons.inj rest).1.symm

theorem const_ne_value (op : ValueOp) (args funcs : List String) (r s : List Char) :
    "const".toList ++ ' ' :: r ≠ op.text.toList ++ operandText funcs args [] s := by
  intro same
  have word := (apart_name (by decide) op.isName_text _ _ (.cons (by decide) _)
    (stops_operandText funcs args [] s) same).1
  exact op.text_ne_const word.symm

/-- The line of an instruction ends of itself. -/
theorem apart_line {i j : Instr} (names : ∀ n ∈ i.names, isName n = true)
    (names' : ∀ n ∈ j.names, isName n = true) : Apart nothing (fun i => i.line.toList) i j := by
  intro r s _ _ h
  dsimp only at h
  cases i with
  | label name =>
    rw [line_label] at h
    cases j with
    | label name' =>
      rw [line_label] at h
      have colon (r : List Char) : Stops nameChar (':' :: r) := .cons (by decide) r
      obtain ⟨rfl, ends⟩ := apart_name (names name List.mem_cons_self)
        (names' name' List.mem_cons_self) _ _ (colon _) (colon _) (List.cons.inj h).2
      exact ⟨rfl, (List.cons.inj (List.cons.inj ends).2).2⟩
    | const _ _ _ => rw [line_const] at h; cases (List.cons.inj h).1
    | value _ _ _ _ _ => rw [line_value] at h; cases (List.cons.inj h).1
    | effect _ _ _ _ => rw [line_effect] at h; cases (List.cons.inj h).1
  | const dest ty v =>
    have named := names dest List.mem_cons_self
    rw [line_const] at h
    cases j with
    | const dest' ty' v' =>
      rw [line_const] at h
      obtain ⟨rfl, rfl, rest⟩ := assignText_inj named (names' dest' List.mem_cons_self) h
      have semicolon (r : List Char) : Stops Char.isDigit (';' :: r) := .cons rfl r
      obtain ⟨rfl, ends⟩ := apart_literal v v' _ _ (semicolon _) (semicolon _)
        (List.cons.inj (List.append_cancel_left rest)).2
      exact ⟨rfl, (List.cons.inj (List.cons.inj ends).2).2⟩
    | value op dest' ty' args funcs =>
      rw [line_value] at h
      have rest := (assignText_inj named (names' dest' List.mem_cons_self) h).2.2
      exact absurd rest (const_ne_value _ _ _ _ _)
    | effect _ _ _ _ =>
      rw [line_effect] at h
      exact absurd h (assignText_ne_effect named _ _ _ _ _ _ _)
    | label _ => rw [line_label] at h; cases (List.cons.inj h).1
  | value op dest ty args funcs =>
    have named := names dest List.mem_cons_self
    rw [line_value] at h
    cases j with
    | value op' dest' ty' args' funcs' =>
      rw [line_value] at h
      obtain ⟨rfl, rfl, rest⟩ := assignText_inj named (names' dest' List.mem_cons_self) h
      obtain ⟨ops, ⟨rfl, rfl, -⟩, ends⟩ := operation_inj op.isName_text op'.isName_text
        (fun n hn => names n (List.mem_cons_of_mem dest (by rwa [List.append_nil] at hn)))
        (fun n hn => names' n (List.mem_cons_of_mem dest (by rwa [List.append_nil] at hn))) rest
      rw [ValueOp.text_injective ops]
      exact ⟨rfl, (List.cons.inj ends).2⟩
    | const dest' ty' v' =>
      rw [line_const] at h
      have rest := (assignText_inj named (names' dest' List.mem_cons_self) h).2.2
      exact absurd rest.symm (const_ne_value _ _ _ _ _)
    | effect _ _ _ _ =>
      rw [line_effect] at h
      exact absurd h (assignText_ne_effect named _ _ _ _ _ _ _)
    | label _ => rw [line_label] at h; cases (List.cons.inj h).1
  | effect op args funcs labels =>
    rw [line_effect] at h
    cases j with
    | effect op' args' funcs' labels' =>
      rw [line_effect] at h
      simp only [List.cons.injEq, true_and] at h
      obtain ⟨ops, ⟨rfl, rfl, rfl⟩, ends⟩ :=
        operation_inj op.isName_text op'.isName_text names names' h
      rw [EffectOp.text_injective ops]
      exact ⟨rfl, (List.cons.inj ends).2⟩
    | const dest' _ _ =>
      rw [line_const] at h
      exact absurd h.symm (assignText_ne_effect (names' dest' List.mem_cons_self) _ _ _ _ _ _ _)
    | value _ dest' _ _ _ =>
      rw [line_value] at h
      exact absurd h.symm (assignText_ne_effect (names' dest' List.mem_cons_self) _ _ _ _ _ _ _)
    | label _ => rw [line_label] at h; cases (List.cons.inj h).1

end Lines

section Functions

def Function.names (f : Function) : List String :=
  f.name :: (f.params.map Param.name ++ f.instrs.flatMap Instr.names)

def Program.names (p : Program) : List String := p.functions.flatMap Function.names

theorem apart_param {a b : Param} (ha : isName a.name = true) (hb : isName b.name = true) :
    Apart nothing (fun p => p.text.toList) a b := by
  intro r s _ _ h
  simp only [Param.text, String.toList_append, List.append_assoc] at h
  have colon (r : List Char) : Stops nameChar (": ".toList ++ r) := .cons (by decide) (' ' :: r)
  obtain ⟨sameName, rest⟩ := apart_name ha hb _ _ (colon _) (colon _) h
  obtain ⟨sameTy, ends⟩ := apart_ty a.ty b.ty r s (.nothing r) (.nothing s)
    (List.append_cancel_left rest)
  cases a
  cases b
  cases sameName
  cases sameTy
  exact ⟨rfl, ends⟩

def paramsText : List Param → List Char
  | [] => []
  | p :: ps => '(' :: (p.text.toList ++ (ps.flatMap (", ".toList ++ ·.text.toList) ++ [')']))

def resultText : Option Ty → List Char
  | some ty => ": ".toList ++ ty.text.toList
  | none => []

theorem apart_params {ps qs : List Param} (names : ∀ p ∈ ps, isName p.name = true)
    (names' : ∀ q ∈ qs, isName q.name = true) : Apart (· == '(') paramsText ps qs := by
  intro r s hr hs h
  cases ps with
  | nil =>
    cases qs with
    | nil => exact ⟨rfl, h⟩
    | cons q qs => exact absurd h (hr.ne_cons rfl _)
  | cons p ps =>
    cases qs with
    | nil => exact absurd h.symm (hs.ne_cons rfl _)
    | cons q qs =>
      rw [List.forall_mem_cons] at names names'
      simp only [paramsText, List.cons_append, List.append_assoc, List.cons.injEq, true_and] at h
      obtain ⟨rfl, others⟩ := apart_param names.1 names'.1 _ _ (.nothing _) (.nothing _) h
      have closes (r : List Char) :
          Stops (fun c => nothing c || decide (c = ',')) ([')'] ++ r) := .cons rfl r
      have apart_next (a : Param) (ha : a ∈ ps) (b : Param) (hb : b ∈ qs) :
          Apart nothing (", ".toList ++ ·.text.toList) a b := by
        intro r s hr hs h
        simp only [List.append_assoc] at h
        exact apart_param (names.2 a ha) (names'.2 b hb) r s hr hs (List.append_cancel_left h)
      obtain ⟨rfl, rest⟩ := apart_flatMap (q := fun c => decide (c = ',')) apart_next
        (fun _ _ => ⟨',', _, rfl, rfl⟩) (fun _ _ => rfl) _ _ (closes r) (closes s) others
      exact ⟨rfl, (List.cons.inj rest).2⟩

theorem apart_result (a b : Option Ty) : Apart (· == ':') resultText a b := by
  intro r s hr hs h
  cases a with
  | none =>
    cases b with
    | none => exact ⟨rfl, h⟩
    | some b => exact absurd h (hr.ne_cons rfl _)
  | some a =>
    cases b with
    | none => exact absurd h.symm (hs.ne_cons rfl _)
    | some b =>
      simp only [resultText, List.append_assoc] at h
      obtain ⟨rfl, rest⟩ := apart_ty a b r s (.nothing r) (.nothing s) (List.append_cancel_left h)
      exact ⟨rfl, rest⟩

theorem Function.text_toList (f : Function) : f.text.toList =
    '@' :: (f.name.toList ++ (paramsText f.params ++ (resultText f.result ++
      (" \x7b\n".toList ++ (f.instrs.flatMap (·.line.toList) ++ ['\x7d']))))) := by
  obtain ⟨name, params, result, instrs⟩ := f
  have paramTexts : (if params.isEmpty then "" else
      "(" ++ ", ".intercalate (params.map Param.text) ++ ")").toList = paramsText params := by
    cases params with
    | nil => rfl
    | cons p ps =>
      rw [if_neg (by simp)]
      simp only [String.toList_append, String.toList_intercalate, List.map_cons, List.map_map,
        intercalate_cons, List.flatMap_map, Function.comp_apply, paramsText, List.append_assoc]
      rfl
  unfold Function.text
  simp only [String.toList_append, paramTexts, String.toList_join, List.flatMap_map,
    List.append_assoc]
  cases result with
  | none => rfl
  | some ty => simp only [String.toList_append, resultText, List.append_assoc]; rfl

theorem stops_result {p : Char → Bool} (colon : p ':' = false) (blank : p ' ' = false)
    (result : Option Ty) (r : List Char) :
    Stops p (resultText result ++ (" \x7b\n".toList ++ r)) := by
  cases result with
  | none => exact .cons blank _
  | some ty => exact .cons colon _

theorem stops_params {p : Char → Bool} (bracket : p '(' = false) (ps : List Param) {r : List Char}
    (hr : Stops p r) : Stops p (paramsText ps ++ r) := by
  cases ps with
  | nil => exact hr
  | cons q qs => exact .cons bracket _

theorem line_begins (i : Instr) :
    ∃ c r, i.line.toList = c :: r ∧ (c == '.' || c == ' ') = true := by
  cases i with
  | label name => exact ⟨'.', _, by rw [← List.append_nil (Instr.line _).toList, line_label], rfl⟩
  | const dest ty v =>
    exact ⟨' ', _, by rw [← List.append_nil (Instr.line _).toList, line_const, assignText], rfl⟩
  | value op dest ty args funcs =>
    exact ⟨' ', _, by rw [← List.append_nil (Instr.line _).toList, line_value, assignText], rfl⟩
  | effect op args funcs labels =>
    exact ⟨' ', _, by rw [← List.append_nil (Instr.line _).toList, line_effect], rfl⟩

/-- The text of a function ends of itself. -/
theorem apart_function {f g : Function} (names : ∀ n ∈ f.names, isName n = true)
    (names' : ∀ n ∈ g.names, isName n = true) : Apart nothing (fun f => f.text.toList) f g := by
  intro r s _ _ h
  simp only [Function.text_toList, List.cons_append, List.append_assoc, List.cons.injEq,
    true_and] at h
  obtain ⟨name, params, result, instrs⟩ := f
  obtain ⟨name', params', result', instrs'⟩ := g
  simp only [Function.names, List.forall_mem_cons, List.forall_mem_append, List.forall_mem_map,
    List.forall_mem_flatMap] at names names'
  obtain ⟨named, namedParams, namedInstrs⟩ := names
  obtain ⟨named', namedParams', namedInstrs'⟩ := names'
  have header (params : List Param) (result : Option Ty) (r : List Char) :
      Stops nameChar (paramsText params ++ (resultText result ++ (" \x7b\n".toList ++ r))) :=
    stops_params (by decide) params (stops_result (by decide) (by decide) result r)
  have opens (r : List Char) : Stops (· == ':') (" \x7b\n".toList ++ r) := .cons rfl _
  have ends (r : List Char) :
      Stops (fun c => nothing c || (c == '.' || c == ' ')) (['\x7d'] ++ r) := .cons rfl r
  obtain ⟨rfl, h⟩ := apart_name named named' _ _ (header params result _)
    (header params' result' _) h
  obtain ⟨rfl, h⟩ := apart_params namedParams namedParams' _ _ (stops_result rfl rfl result _)
    (stops_result rfl rfl result' _) h
  obtain ⟨rfl, h⟩ := apart_result result result' _ _ (opens _) (opens _) h
  obtain ⟨rfl, rest⟩ := apart_flatMap (q := fun c => c == '.' || c == ' ')
    (fun i hi j hj => apart_line (namedInstrs i hi) (namedInstrs' j hj))
    (fun i _ => line_begins i) (fun _ _ => rfl) _ _ (ends r) (ends s)
    (List.append_cancel_left h)
  exact ⟨rfl, (List.cons.inj rest).2⟩

/-- Programs with the same text are the same, if their names are words. -/
theorem Program.eq_of_text {p q : Program} (names : ∀ n ∈ p.names, isName n = true)
    (names' : ∀ n ∈ q.names, isName n = true) (h : p.text = q.text) : p = q := by
  obtain ⟨functions⟩ := p
  obtain ⟨functions'⟩ := q
  simp only [Program.names, List.forall_mem_flatMap] at names names'
  have chars := congrArg (fun t => String.toList t ++ []) h
  simp only [Program.text, String.toList_join, List.flatMap_map, String.toList_append] at chars
  have apart_next (f : Function) (hf : f ∈ functions) (g : Function) (hg : g ∈ functions') :
      Apart nothing (fun f => f.text.toList ++ "\n".toList) f g := by
    intro r s _ _ h
    simp only [List.append_assoc] at h
    obtain ⟨same, rest⟩ := apart_function (names f hf) (names' g hg) _ _ (.nothing _) (.nothing _) h
    exact ⟨same, List.append_cancel_left rest⟩
  have begins (f : Function) :
      ∃ c r, f.text.toList ++ "\n".toList = c :: r ∧ (c == '@') = true :=
    ⟨'@', _, by rw [Function.text_toList, List.cons_append], rfl⟩
  obtain ⟨rfl, -⟩ := apart_flatMap (q := fun c => c == '@') apart_next (fun f _ => begins f)
    (fun _ _ => rfl) [] [] (.nil _) (.nil _) chars
  rfl

end Functions

/-- Neither the JSON of a program nor its text loses anything: programs with the same JSON are the
same, whatever their names are, and so are programs with the same text whose names are words. -/
theorem Program.eq_of_printed :
    (∀ p q : Program, p.json.text = q.json.text → p = q) ∧
      ∀ p q : Program, (∀ n ∈ p.names, isName n = true) → (∀ n ∈ q.names, isName n = true) →
        p.text = q.text → p = q :=
  ⟨fun _ _ h => Program.json_injective (Json.text_injective h),
    fun _ _ names names' h => Program.eq_of_text names names' h⟩

/-- Two functions that negate a number, one by calling the other. -/
def negation : Program where
  functions := [
    { name := "Int.negate", params := [⟨"n", .int⟩], result := some .int
      instrs := [.literal "zero" (.int 0), .compute .sub "r" .int ["zero", "n"], .ret (some "r")] },
    { name := "main", params := [], result := none
      instrs := [.literal "n" (.int (-1)), .call "r" .int "Int.negate" ["n"], .jmp "end",
        .label "end", .perform .print ["r"], .ret none] }]

/-- The same functions, with every operand list written out. -/
def spelledNegation : Program where
  functions := [
    { name := "Int.negate", params := [⟨"n", .int⟩], result := some .int
      instrs := [.const "zero" .int (.int 0), .value .sub "r" .int ["zero", "n"] [],
        .effect .ret ["r"] [] []] },
    { name := "main", params := [], result := none
      instrs := [.const "n" .int (.int (-1)), .value .call "r" .int ["n"] ["Int.negate"],
        .effect .jmp [] [] ["end"], .label "end", .effect .print ["r"] [] [],
        .effect .ret [] [] []] }]

theorem Program.eq_of_printed_negation :
    negation.json.text = spelledNegation.json.text ∧ negation.text = spelledNegation.text ∧
      (∀ n ∈ negation.names, isName n = true) ∧ (∀ n ∈ spelledNegation.names, isName n = true) ∧
      negation = spelledNegation := by
  have json : negation.json.text = spelledNegation.json.text := rfl
  have text : negation.text = spelledNegation.text := rfl
  have names : ∀ n ∈ negation.names, isName n = true := by decide +kernel
  have names' : ∀ n ∈ spelledNegation.names, isName n = true := by decide +kernel
  exact ⟨json, text, names, names', Program.eq_of_printed.2 _ _ names names' text⟩

/-- A name that is no word can look like a name and a type. -/
example : Program.text ⟨[⟨"f: int", [], none, []⟩]⟩ =
    Program.text ⟨[⟨"f", [], some .int, []⟩]⟩ := by
  decide

end Cool.Bril
