import Cool.Compile
import Cool.Proofs.Tree.Faithful

/-!
Every tree that is read from a text is well formed. Identifiers begin with a letter when they are
scanned, and the names of a tree are among the tokens that it was read from.
-/
namespace Cool

def Words (vs : List TokenValue) : Prop := ∀ name, .ident name ∈ vs → IsIdentifier name

theorem Words.of_subset {vs ws : List TokenValue} (h : Words ws) (hs : vs ⊆ ws) : Words vs :=
  fun name hn => h name (hs hn)

namespace Scan

theorem piece_ident {bs w : Bytes} {n : Nat} (h : piece bs = .token (.ident w) n) :
    IsIdentifier w := by
  cases bs with
  | nil => simp [piece] at h
  | cons c rest =>
    simp only [piece] at h
    split at h
    · simp [lineComment] at h
    split at h
    · unfold comment at h
      split at h <;> cases h
    split at h
    · cases h
    split at h
    · obtain ⟨_, same⟩ := string_of_stringFrom h
      cases same
    split at h
    · unfold number at h
      dsimp only at h
      split at h <;> cases h
    split at h
    · rename_i letter
      unfold word at h
      dsimp only at h
      split at h <;> cases h
      refine ⟨List.all_eq_true.mp List.all_takeWhile, ?_⟩
      have first : isNameByte c = true := by simp [isNameByte, letter]
      rw [List.takeWhile_cons_of_pos first]
      exact letter
    · unfold symbol at h
      split at h <;> cases h

theorem mem_piecesFrom {rounds : Nat} {c d : Cursor} {p : Piece}
    (h : (d, p) ∈ piecesFrom rounds c) : p = piece d.rest := by
  induction rounds generalizing c with
  | zero => cases h
  | succ rounds ih =>
    unfold piecesFrom at h
    split at h
    · rcases List.mem_cons.mp h with h | h
      · cases h; exact .symm ‹_›
      · exact ih h
    · rcases List.mem_cons.mp h with h | h
      · cases h; exact .symm ‹_›
      · exact ih h
    · cases List.mem_singleton.mp h
      rfl

theorem scan_words {c : Cursor} {tokens : List Token} (h : scan c = tokens.map .ok) :
    Words (tokens.map Token.value) := by
  intro name hn
  obtain ⟨t, ht, hn⟩ := List.mem_map.mp hn
  have scanned : .ok t ∈ scan c := h ▸ List.mem_map_of_mem ht
  obtain ⟨⟨d, p⟩, hp, hi⟩ := List.mem_filterMap.mp scanned
  cases p with
  | token v n =>
    cases hi
    cases hn
    exact piece_ident (mem_piecesFrom hp).symm
  | done => cases hi; cases hn
  | trivia n => cases hi
  | fault f upto n => cases hi

end Scan

theorem mem_separated {v : TokenValue} {row : List TokenValue} {rows : List (List TokenValue)}
    (hr : row ∈ rows) (hv : v ∈ row) : v ∈ separated rows := by
  cases rows with
  | nil => cases hr
  | cons first rows =>
    rcases List.mem_cons.mp hr with rfl | hr
    · exact List.mem_append_left _ hv
    · exact List.mem_append_right _ (List.mem_flatMap.mpr ⟨row, hr, List.mem_cons_of_mem _ hv⟩)

namespace Expr

variable {e p : Expr}

theorem mem_spelling_letIn {bindings : List (Binding Expr)} {body : Expr} {span : Span}
    {b : Binding Expr} {v : TokenValue} (hb : b ∈ bindings) (hv : v ∈ Binding.spelling b) :
    v ∈ (Expr.letIn bindings body span).spelling := by
  have inside : v ∈ separated (bindings.map Binding.spelling) :=
    mem_separated (List.mem_map_of_mem hb) hv
  simp [spelling, inside]

theorem mem_spelling_case {scrutinee : Expr} {arms : List (CaseArm Expr)} {span : Span}
    {a : CaseArm Expr} {v : TokenValue} (ha : a ∈ arms) (hv : v ∈ a.spelling) :
    v ∈ (Expr.case scrutinee arms span).spelling := by
  have inside : ∃ a ∈ arms, v ∈ a.spelling := ⟨a, ha, hv⟩
  simp [spelling, inside]

theorem spelling_subset (hp : p ∈ e.parts) : p.spelling ⊆ e.spelling := by
  intro v hv
  have argument {args : List Expr} (ha : p ∈ args) : v ∈ separated (spellings args) := by
    rw [spellings_eq]
    exact mem_separated (List.mem_map_of_mem ha) hv
  cases e with
  | selfCall method args =>
    have inside := argument (show p ∈ args from hp)
    simp [spelling, -spellings_eq, inside]
  | call receiver _ args | staticCall receiver _ _ args =>
    rcases List.mem_cons.mp hp with rfl | ha
    · simp [spelling, hv]
    · simp [spelling, -spellings_eq, argument ha]
  | block body =>
    have inside : ∃ e ∈ body, v ∈ e.spelling ∨ v = .symbol .semicolon := ⟨p, hp, .inl hv⟩
    simp [spelling, inside]
  | letIn bindings body =>
    rcases List.mem_append.mp hp with hb | hb
    · obtain ⟨b, hb, init⟩ := List.mem_filterMap.mp hb
      exact mem_spelling_letIn hb (by simp [Binding.spelling, init, hv])
    · cases List.mem_singleton.mp hb
      simp [spelling, hv]
  | case scrutinee arms =>
    rcases List.mem_cons.mp hp with rfl | ha
    · simp [spelling, hv]
    · obtain ⟨a, mem, rfl⟩ := List.mem_map.mp ha
      exact mem_spelling_case mem (by simp [CaseArm.spelling, hv])
  | new | name | int | string | bool => cases hp
  | _ =>
    simp only [parts, List.mem_cons, List.not_mem_nil, or_false] at hp
    rcases hp with rfl | rfl | rfl <;> simp [spelling, hv]

structure Legible (e : Expr) : Prop where
  words : Words e.spelling
  shaped : e.Shaped

namespace Legible

theorem part (h : e.Legible) (hp : p ∈ e.parts) : p.Legible where
  words := h.words.of_subset (spelling_subset hp)
  shaped x hx := h.shaped x (mem_subterms.mpr (.inr ⟨p, hp, hx⟩))

theorem filled (h : e.Legible) : e.filled = true :=
  (Bool.and_eq_true_iff.mp (h.shaped e e.mem_subterms_self)).1

theorem wellFormed (h : e.Legible) : e.WellFormed := by
  induction e with
  | assign name value span ih =>
    exact .assign (h.words _ (.head _)).1 (ih (h.part (.head _)))
  | selfCall method args span ih => exact .selfCall fun a ha => ih a ha (h.part ha)
  | call receiver method args span hr ih =>
    exact .call (hr (h.part (.head _))) fun a ha => ih a ha (h.part (.tail _ ha))
  | staticCall receiver type method args span hr ih =>
    exact .staticCall (hr (h.part (.head _))) fun a ha => ih a ha (h.part (.tail _ ha))
  | cond test yes no span ht hy hn =>
    exact .cond (ht (h.part (by simp [parts]))) (hy (h.part (by simp [parts])))
      (hn (h.part (by simp [parts])))
  | loop test body span ht hb =>
    exact .loop (ht (h.part (by simp [parts]))) (hb (h.part (by simp [parts])))
  | block body span ih =>
    exact .block (by simpa [Expr.filled] using h.filled) fun e he => ih e he (h.part he)
  | letIn bindings body span ih hb =>
    refine .letIn (fun b hb => ?_) (fun b hb e he => ?_) ?_
    · exact (h.words b.name.text (mem_spelling_letIn hb (.head _))).1
    · exact ih b hb e he (h.part (List.mem_append_left _ (List.mem_filterMap.mpr ⟨b, hb, he⟩)))
    · exact hb (h.part (by simp [parts]))
  | case scrutinee arms span hs ih =>
    refine .case (hs (h.part (.head _))) (fun a ha => ?_) fun a ha => ?_
    · exact (h.words a.name.text (mem_spelling_case ha (.head _))).1
    · exact ih a ha (h.part (.tail _ (List.mem_map_of_mem ha)))
  | new => exact .new
  | binary op left right span hl hr =>
    exact .binary (hl (h.part (by simp [parts]))) (hr (h.part (by simp [parts])))
  | unary op operand span ih => exact .unary (ih (h.part (.head _)))
  | name name => exact .name (h.words _ (.head _)).1
  | group inner span ih => exact .group (ih (h.part (.head _)))
  | int => exact .int
  | string => exact .string
  | bool => exact .bool

end Legible

end Expr

theorem Feature.spelling_subset {f : Feature} {e : Expr} (he : e ∈ f.exprs) :
    e.spelling ⊆ f.spelling := by
  intro v hv
  cases f with
  | method m =>
    cases List.mem_singleton.mp he
    simp [spelling, Method.spelling, hv]
  | «attribute» a =>
    have init := Option.mem_toList.mp he
    simp [spelling, Binding.spelling, Option.mem_def.mp init, hv]

theorem Feature.wellFormed {f : Feature} (words : Words f.spelling) (shaped : f.Shaped) :
    f.WellFormed ∧ f.Named := by
  have exprs (e : Expr) (he : e ∈ f.exprs) : e.WellFormed :=
    Expr.Legible.wellFormed ⟨words.of_subset (spelling_subset he), shaped e he⟩
  cases f with
  | method m =>
    have named := words m.name.text (.head _)
    refine ⟨⟨fun p hp => ?_, exprs _ (.head _)⟩, fun _ same => Feature.method.inj same ▸ named⟩
    have inside : p.name.word ∈ separated (m.params.map Formal.spelling) :=
      mem_separated (List.mem_map_of_mem hp) (.head _)
    exact (words p.name.text (by simp_all [spelling, Method.spelling, Name.word])).1
  | «attribute» a =>
    refine ⟨⟨(words a.name.text (.head _)).1, fun e he => exprs e (Option.mem_toList.mpr he)⟩, ?_⟩
    rintro _ ⟨⟩

theorem ClassDecl.wellFormed {c : ClassDecl} (words : Words c.spelling)
    (shaped : ∀ f ∈ c.features, f.Shaped) : c.WellFormed ∧ c.Named := by
  have features (f : Feature) (hf : f ∈ c.features) : f.WellFormed ∧ f.Named := by
    refine f.wellFormed (words.of_subset fun v hv => ?_) (shaped f hf)
    have inside : ∃ f ∈ c.features, v ∈ f.spelling ∨ v = .symbol .semicolon := ⟨f, hf, .inl hv⟩
    simp [spelling, inside]
  have named := words c.name.text (by simp [spelling, TypeName.word])
  exact ⟨fun f hf => (features f hf).1, named, fun f hf => (features f hf).2⟩

theorem parse_wellFormed {c : Cursor} {p : Program} (h : parse (scan c) = .ok p) :
    ∀ d ∈ p.classes, d.WellFormed ∧ d.Named := by
  obtain ⟨_, read⟩ := program_of_parse h
  obtain ⟨⟨tokens, scanned, values⟩, shaped⟩ :=
    (Parse.decides_program (Scan.scan_ended c)).of_ok read
  intro d hd
  refine d.wellFormed ((Scan.scan_words scanned).of_subset fun v hv => ?_) (shaped d hd)
  have inside : ∃ d ∈ p.classes, v ∈ d.spelling ∨ v = .symbol .semicolon := ⟨d, hd, .inl hv⟩
  simp [values, Program.spelling, inside]

theorem parseFiles_wellFormed {files : SourceFiles} {classes : List ClassDecl}
    (h : parseFiles files = .ok classes) : ∀ c ∈ classes, c.WellFormed ∧ c.Named := by
  obtain ⟨programs, hp, h⟩ := bind_eq_ok.mp h
  cases h
  intro c hc
  obtain ⟨p, hp', hc⟩ := List.mem_flatMap.mp hc
  obtain ⟨⟨number, file⟩, _, hf⟩ := mem_of_mapM_ok hp hp'
  exact parse_wellFormed hf c hc

end Cool
