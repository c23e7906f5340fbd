import Cool.Proofs.Token.Numbers
import Cool.Proofs.Tree.Spans
import Cool.Proofs.Typing.Places

/-!
Where the integers of a program are written. Each stands in the tree of its text as a node over one
token, however deep, so it has the value and the span of a token, and was read from its digits.
-/
namespace Cool

namespace SpanTree

inductive Inside (l : SpanTree) : SpanTree → Prop where
  | refl : Inside l l
  | child {s : Span} {children : List SpanTree} {c : SpanTree} : c ∈ children → Inside l c →
      Inside l (.node s children)

theorem Inside.trans {a b c : SpanTree} (h : a.Inside b) (h' : b.Inside c) : a.Inside c := by
  induction h' with
  | refl => exact h
  | child mem _ ih => exact .child mem ih

theorem Inside.of_mem {s : Span} {children : List SpanTree} {c : SpanTree} (h : c ∈ children) :
    c.Inside (.node s children) :=
  .child h .refl

theorem mem_commas {l : SpanTree} {row : List SpanTree} (h : l ∈ row) : l ∈ commas row := by
  induction row with
  | nil => cases h
  | cons first row ih =>
    cases row with
    | nil => exact h
    | cons second row =>
      rw [commas, List.intersperse_cons_cons]
      rcases List.mem_cons.mp h with rfl | h
      · exact .head _
      · exact .tail _ (.tail _ (ih h))

end SpanTree

open SpanTree (Inside mem_commas)

/-- A node over one token, at any depth, has the value and the span of a token. -/
theorem Spanned.token_of_inside {row : List SpanTree} {ts : List Token} (h : Spanned row ts)
    {l : SpanTree} (hl : l ∈ row) {v : TokenValue} {s : Span}
    (inside : Inside (.node s [.token v]) l) : ⟨v, s⟩ ∈ ts := by
  induction h generalizing l with
  | nil => cases hl
  | token _ ih =>
    rcases List.mem_cons.mp hl with rfl | hl
    · cases inside
    · exact .tail _ (ih hl inside)
  | node covers inner _ ih ih' =>
    rcases List.mem_cons.mp hl with rfl | hl
    · refine List.mem_append_left _ ?_
      cases inside with
      | refl =>
        -- The span of a node goes from its first token to its last, and here these are one.
        obtain ⟨_, _, first, last, rfl⟩ := covers
        cases inner with | token rest =>
        cases rest
        cases first
        cases last
        exact .head _
      | child mem deeper => exact ih mem deeper
    · exact List.mem_append_right _ (ih' hl inside)

theorem Part.inside {a b : Place} (h : Part a b) : b.expr.spanTree.Inside a.expr.spanTree := by
  have argument {args : List Expr} {e : Expr} (he : e ∈ args) :
      e.spanTree ∈ SpanTree.commas (spanTrees args) := by
    rw [spanTrees_eq]
    exact mem_commas (List.mem_map_of_mem he)
  cases h with
  | selfArgument ha | argument ha | staticArgument ha =>
    simp only [Expr.spanTree]
    exact .of_mem (by simp [-spanTrees_eq, argument ha])
  | item he =>
    simp only [Expr.spanTree, spanTrees_eq]
    refine .of_mem (.tail _ (List.mem_append_left _ (List.mem_flatMap.mpr ?_)))
    exact ⟨_, List.mem_map_of_mem he, .head _⟩
  | init =>
    simp only [Expr.spanTree, spanTreesOfBindings_eq]
    refine .child (.tail _ (List.mem_append_left _ (mem_commas (List.mem_map_of_mem
      (List.mem_append_right _ (.head _)))))) (.of_mem ?_)
    simp
  | body =>
    simp only [Expr.spanTree]
    exact .of_mem (by simp)
  | arm ha =>
    simp only [Expr.spanTree, spanTreesOfArms_eq]
    refine .child (.tail _ (.tail _ (.tail _ (List.mem_append_left _
      (List.mem_map_of_mem ha))))) (.of_mem ?_)
    simp
  | value | receiver | staticReceiver | test | yes | no | loopTest | loopBody | scrutinee
  | left | right | operand | inner =>
    simp only [Expr.spanTree]
    exact .of_mem (by simp)

theorem Stands.inside {c : ClassDecl} {place : Place} (h : Stands c place) :
    place.expr.spanTree.Inside c.spanTree := by
  have feature {f : Feature} (hf : f ∈ c.features) : f.spanTree.Inside c.spanTree := by
    refine .of_mem ?_
    have inside : ∃ g ∈ c.features, f.spanTree = g.spanTree ∨ f.spanTree = .symbol .semicolon :=
      ⟨f, hf, .inl rfl⟩
    simp [inside]
  induction h with
  | @method m hm =>
    refine Inside.trans (.of_mem ?_) (feature (ClassDecl.mem_methods.mp hm))
    simp
  | @«attribute» a e ha init =>
    refine Inside.trans (.of_mem ?_) (feature (ClassDecl.mem_attributes.mp ha))
    simp [init]
  | part _ hp ih => exact hp.inside.trans ih

theorem token_of_parse {file : Option Nat} {text : Bytes} {p : Program}
    (h : parse (scan (.ofText file text)) = .ok p) {c : ClassDecl} (hc : c ∈ p.classes)
    {L : Scopes ClassName} {value : Int} {span : Span} (stands : Stands c ⟨L, .int value span⟩) :
    .ok ⟨.int value, span⟩ ∈ scan (.ofText file text) := by
  obtain ⟨_, read⟩ := program_of_parse h
  obtain ⟨tokens, stop, scanned, -, spans, -⟩ :=
    (Parse.decides_placed (Scan.scan_ended _)).of_ok read
  have order : Successive tokens := scan_successive (scanned.trans List.map_append)
  have inside : c.spanTree.Inside p.spanTree := by
    refine .of_mem (List.mem_flatMap.mpr ⟨c, hc, .head _⟩)
  have literal : Inside (.node span [.token (.int value)]) c.spanTree := stands.inside
  have token := (spans order).token_of_inside (.head _) (literal.trans inside)
  rw [scanned]
  exact List.mem_map_of_mem (List.mem_append_left _ token)

theorem writtenAt_of_parseFiles {files : SourceFiles} {classes : List ClassDecl}
    (h : parseFiles files = .ok classes) {c : ClassDecl} (hc : c ∈ classes) {L : Scopes ClassName}
    {value : Int} {span : Span} (stands : Stands c ⟨L, .int value span⟩) :
    ∃ number file, (number, file) ∈ files.numbered ∧ span.start.file = some number ∧
      WrittenAt file.text value span := by
  obtain ⟨programs, read, h⟩ := bind_eq_ok.mp h
  cases h
  obtain ⟨p, hp, hc⟩ := List.mem_flatMap.mp hc
  obtain ⟨⟨number, file⟩, mem, parsed⟩ := mem_of_mapM_ok read hp
  have token := token_of_parse parsed hc stands
  exact ⟨number, file, mem, Scan.scan_file token, writtenAt_of_scan token⟩

end Cool
