import Cool.Source.Position

/-!
The files of a compilation, numbered from one in the order they were added.
-/
namespace Cool

structure SourceFile where
  path : String
  text : Bytes

abbrev SourceFiles := List SourceFile

namespace SourceFiles

/-- The file of a number. -/
def get? (files : SourceFiles) (number : Nat) : Option SourceFile :=
  if number = 0 then none else files[number - 1]?

/-- The files with their numbers. -/
def numbered (files : SourceFiles) : List (Nat × SourceFile) :=
  files.mapIdx fun i f => (i + 1, f)

/-- Where a span lies: its file, when there is one of that number, and its place in it. -/
def locate (files : SourceFiles) (span : Span) : String :=
  let path := match span.start.file.bind (SourceFiles.get? files) with
    | some f => f.path
    | none => "<unknown>"
  path ++ ":" ++ span.place

end SourceFiles

end Cool
