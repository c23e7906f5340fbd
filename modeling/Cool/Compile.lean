import Cool.Lowering.Program
import Cool.Tree.Parse
import Cool.Typing.Check

/-!
From program text to code.
-/
namespace Cool

/-- The classes of some files in order, or the first fault in them. -/
def parseFiles (files : SourceFiles) : Except ParseError (List ClassDecl) := do
  let programs ← files.numbered.mapM fun (number, file) => parseFile number file
  pure (programs.flatMap (·.classes))

inductive CompileError where
  | typing (e : TypeError)
  | lowering (e : LoweringError)
deriving DecidableEq, Repr

namespace CompileError

def message : CompileError → String
  | .typing e => e.message
  | .lowering e => e.message

def span : CompileError → Span
  | .typing e => e.span
  | .lowering e => e.span

end CompileError

/-- Checks the types of a program and generates its code. -/
def compile (e : Entry) (classes : List ClassDecl) : Except CompileError Bril.Program :=
  match typecheck classes with
  | .error err => .error (.typing err)
  | .ok table => (generate table e classes).mapError .lowering

end Cool
