import Cool.Proofs.Class.Outline
import Cool.Proofs.Lowering.Faults

/-!
The functions of a generated program, one for each member of its classes. Those of the built-in
methods stand before them.
-/
namespace Cool

open Bril (Function Instr)

namespace Member

variable {t : ClassTable} {e : Entry} {b : Member} {f : Function}

theorem function_profile (h : b.function t e = .ok f) :
    f.name = b.functionName e ∧ f.params.length = b.arity e := by
  unfold functionName arity
  cases makes_of_function h with
  | constructor => exact ⟨rfl, rfl⟩
  | entry isEntry =>
    rw [if_pos (isEntry_iff.mp isEntry), if_pos (isEntry_iff.mp isEntry)]
    exact ⟨rfl, rfl⟩
  | method notEntry bound =>
    have notEntry := isEntry_eq_false.mp notEntry
    rw [if_neg notEntry, if_neg notEntry]
    exact ⟨rfl, congrArg (· + 1) (length_bindParams bound)⟩

end Member

def membersOf (t : ClassTable) (classes : List ClassDecl) : List Member :=
  (t.hierarchyOrder classes).flatMap ClassDecl.members

section Program

variable {t : ClassTable} {e : Entry} {classes : List ClassDecl} {p : Bril.Program}

theorem mem_membersOf {b : Member} :
    b ∈ membersOf t classes ↔ b.owner ∈ classes ∧ b.Declared := by
  unfold membersOf ClassTable.hierarchyOrder ClassDecl.members
  cases b <;> simp [Member.owner, Member.Declared]

/-- A generated program has the function of each member behind those that are built in. -/
theorem generate_functions (h : generate t e classes = .ok p) : ∃ fs,
    (membersOf t classes).mapM (Member.function t e) = .ok fs ∧
      p.functions = builtinFunctions ++ fs := by
  obtain ⟨fss, made, rfl⟩ := generate_eq_ok.mp h
  refine ⟨fss.flatten, ?_, rfl⟩
  have each : List.Forall₂ (List.Forall₂ fun b f => Member.function t e b = .ok f)
      ((t.hierarchyOrder classes).map ClassDecl.members) fss :=
    List.forall₂_map_left_iff.mpr
      ((mapM_eq_ok.mp made).imp fun c _ hf => mapM_eq_ok.mp (c.functions_eq t e ▸ hf))
  rw [mapM_eq_ok, membersOf, List.flatMap_def]
  exact List.rel_flatten each

theorem class_functions (h : generate t e classes = .ok p) {c : ClassDecl} (hc : c ∈ classes) :
    ∃ fs, c.functions t e = .ok fs ∧ fs ⊆ p.functions := by
  obtain ⟨fss, made, rfl⟩ := generate_eq_ok.mp h
  obtain ⟨fs, hfs, made⟩ := exists_of_mapM_ok made c (List.mem_mergeSort.mpr hc)
  exact ⟨fs, made, fun f hf => List.mem_append_right _ (List.mem_flatten.mpr ⟨fs, hfs, hf⟩)⟩

theorem builtin_or_member (h : generate t e classes = .ok p) {f : Function} (hf : f ∈ p.functions) :
    f ∈ builtinFunctions ∨ ∃ b ∈ membersOf t classes, b.function t e = .ok f := by
  obtain ⟨fs, made, eq⟩ := generate_functions h
  rw [eq, List.mem_append] at hf
  exact hf.imp_right (mem_of_mapM_ok made)

theorem exists_function (h : generate t e classes = .ok p) {b : Member}
    (hb : b ∈ membersOf t classes) : ∃ f ∈ p.functions, b.function t e = .ok f := by
  obtain ⟨fs, made, eq⟩ := generate_functions h
  obtain ⟨f, hf, made⟩ := exists_of_mapM_ok made b hb
  exact ⟨f, eq ▸ List.mem_append_right _ hf, made⟩

theorem map_functionName (h : generate t e classes = .ok p) : p.functions.map (·.name) =
    builtinFunctions.map (·.name) ++ (membersOf t classes).map (Member.functionName e) := by
  obtain ⟨fs, made, eq⟩ := generate_functions h
  have names : fs.map (·.name) = (membersOf t classes).map (Member.functionName e) :=
    map_of_mapM_ok made fun _ _ hf => (Member.function_profile hf).1
  rw [eq, List.map_append, names]

end Program

/-- The code of classes that stand in order, without sorting them. -/
def codeInOrder (t : ClassTable) (e : Entry) (classes : List ClassDecl) :
    Except LoweringError Bril.Program := do
  let functions ← classes.mapM (ClassDecl.functions t e)
  pure ⟨builtinFunctions ++ functions.flatten⟩

theorem generate_inOrder {t : ClassTable} {e : Entry} {classes : List ClassDecl}
    (h : t.Ordered classes) : generate t e classes = codeInOrder t e classes := by
  unfold generate
  rw [ClassTable.hierarchyOrder_eq h]
  rfl

def SourceFiles.code (files : SourceFiles) (e : Entry) : Bril.Program :=
  (generate (SourceFiles.table files) e (SourceFiles.classes files)).toOption.getD ⟨[]⟩

theorem SourceFiles.generated {files : SourceFiles} {e : Entry}
    (h : (generate (SourceFiles.table files) e (SourceFiles.classes files)).toOption.isSome) :
    generate (SourceFiles.table files) e (SourceFiles.classes files) =
      .ok (SourceFiles.code files e) := by
  unfold SourceFiles.code
  cases made : generate (SourceFiles.table files) e (SourceFiles.classes files) with
  | error _ =>
    rw [made] at h
    cases h
  | ok _ => rfl

def SourceFiles.codeInOrder (files : SourceFiles) (e : Entry) : Bril.Program :=
  (Cool.codeInOrder (SourceFiles.tableInOrder files) e
    (SourceFiles.classes files)).toOption.getD ⟨[]⟩

abbrev SourceFiles.CompiledInOrder (files : SourceFiles) (e : Entry) : Prop :=
  ((parseFiles files).toOption.bind ClassTable.typecheckInOrder).isSome ∧
    (SourceFiles.tableInOrder files).Ordered (SourceFiles.classes files) ∧
    (Cool.codeInOrder (SourceFiles.tableInOrder files) e
      (SourceFiles.classes files)).toOption.isSome

theorem SourceFiles.compiled_inOrder {files : SourceFiles} {e : Entry}
    (h : SourceFiles.CompiledInOrder files e) :
    Accepted files (SourceFiles.classes files) (SourceFiles.tableInOrder files) ∧
    generate (SourceFiles.tableInOrder files) e (SourceFiles.classes files) =
      .ok (SourceFiles.codeInOrder files e) := by
  obtain ⟨typed, ordered, h⟩ := h
  refine ⟨SourceFiles.accepted_inOrder typed, ?_⟩
  rw [generate_inOrder ordered]
  unfold SourceFiles.codeInOrder
  cases made : Cool.codeInOrder (SourceFiles.tableInOrder files) e (SourceFiles.classes files) with
  | error _ =>
    rw [made] at h
    cases h
  | ok _ => rfl

end Cool
