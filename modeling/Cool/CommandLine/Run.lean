import Cool.CommandLine.Arguments
import Cool.Bril.Json
import Cool.Bril.Text
import Cool.Compile
import Cool.Diagnostic
import Cool.Dump.Bril
import Cool.Dump.ClassTable
import Cool.Dump.Tokens

/-!
A compilation from its files to what it writes and reports. Faults in the text of all files are
told, of later steps the first. What a stage before code shows goes to the standard output, one file
after another, and so does the code unless a file is named for it.
-/
namespace Cool.CommandLine

/-- The outcome of a run, with a file that is yet to be written. -/
structure Report where
  stdout : String
  diagnostics : List Diagnostic
  file : Option (String × String)

namespace Report

def printed (text : String) : Report := ⟨text, [], none⟩

def failed (diagnostics : List Diagnostic) : Report := ⟨"", diagnostics, none⟩

def exitCode (r : Report) : Nat := if r.diagnostics.any (·.level.isError) then 1 else 0

def stderr (files : SourceFiles) (r : Report) : String :=
  String.join (r.diagnostics.map (Diagnostic.line files))

/-- The outcome when the file cannot be written. -/
def unwritten (r : Report) : Report :=
  match r.file with
  | none => r
  | some (path, _) =>
    { r with
      diagnostics := r.diagnostics ++ [((Diagnostic.Draft.ofLevel .fatal).withMessage
        ("could not write the program to " ++ path) none).finish]
      file := none }

end Report

def tokensText (files : SourceFiles) : String :=
  String.join (files.numbered.map fun (number, f) =>
    (Dump.scanItems (scan (.ofText (some number) f.text))).detailed ++ "\n")

/-- A tree in a layout, which may not hold it. -/
def treeText? (layout : Layout) (p : Program) : Option String :=
  match layout with
  | .detailed => some ((Dump.full.program p).detailed ++ "\n")
  | .compact => (Dump.plain.program p).compact?.map (· ++ "\n")

def typesText (layout : Layout) (t : ClassTable) : String :=
  match layout with
  | .detailed => (Dump.fullClassTable t).detailed ++ "\n"
  | .compact => (Dump.plainClassTable t).compact ++ "\n"

def codeText (layout : CodeLayout) (p : Bril.Program) : String :=
  match layout with
  | .detailed => (Dump.brilProgram p).detailed ++ "\n"
  | .json => p.json.text ++ "\n"
  | .text => p.text

/-- The error that a tree cannot be shown. -/
def unshownTree : Diagnostic :=
  ((Diagnostic.Draft.ofLevel .error).withMessage "could not dump an ast to stdout" none).finish

/-- The trees that a layout holds, and an error for each of the others. -/
def runTrees (layout : Layout) (trees : List Program) : Report :=
  let texts := trees.map (treeText? layout)
  ⟨String.join (texts.filterMap id), (texts.filter Option.isNone).map fun _ => unshownTree, none⟩

/-- The span over all classes. -/
def classesSpan? : List ClassDecl → Option Span
  | [] => none
  | c :: cs => some (cs.foldl (fun s d => s.hull d.span) c.span)

/-- The warning that a program has no function to start with. -/
def noEntry (e : Entry) (classes : List ClassDecl) : Diagnostic :=
  ((Diagnostic.Draft.ofLevel .warn).withMessage
    ("method `" ++ Utf8.lossy e.className ++ "." ++ Utf8.lossy e.method
      ++ "` is not defined, so the program has no entry function") (classesSpan? classes)).finish

/-- The code of typed classes, written where it is wanted. -/
def runCode (config : Config) (layout : CodeLayout) (t : ClassTable) (classes : List ClassDecl) :
    Report :=
  match generate t config.entry classes with
  | .error e => .failed [.ofFault e.message e.span]
  | .ok p =>
    let warnings := if (p.find? entryName).isSome then [] else [noEntry config.entry classes]
    match config.outputPath with
    | some path => ⟨"", warnings, some (path, codeText layout p)⟩
    | none => ⟨codeText layout p, warnings, none⟩

/-- The stages behind the reading of classes. -/
def runClasses (config : Config) (classes : List ClassDecl) : Report :=
  match typecheck classes with
  | .error e => .failed [.ofFault e.message e.span]
  | .ok t =>
    match config.output with
    | .types layout => .printed (typesText layout t)
    | .code layout => runCode config layout t classes
    | .tokens | .tree _ => .printed ""

/-- The faults that some results hold. -/
def faults (results : List (Except ParseError Program)) : List Diagnostic :=
  results.filterMap fun r => match r with
    | .error e => some (.ofFault e.message e.span)
    | .ok _ => none

def programs (results : List (Except ParseError Program)) : List Program :=
  results.filterMap fun r => r.toOption

/-- A compilation of files that have been read. -/
def run (config : Config) (files : SourceFiles) : Report :=
  match config.output with
  | .tokens => .printed (tokensText files)
  | output =>
    let results := files.numbered.map fun (number, f) => parseFile number f
    if !(faults results).isEmpty then .failed (faults results)
    else match output with
      | .tree layout => runTrees layout (programs results)
      | _ => runClasses config ((programs results).flatMap (·.classes))

def versionText : String := "coolbril 0.1.0\n"

def helpText : String :=
  "Usage: coolbril [OPTIONS] <FILE>...\n\nArguments:\n  <FILE>...  input files\n\nOptions:\n"
    ++ "  -s, --stage <STAGE>        the compilation stage to perform "
    ++ "[possible values: lexer, parser, typeck, codegen]\n"
    ++ "  -f, --format <FORMAT>      the output format [possible values: debug, ron, json, text]\n"
    ++ "  -o, --output <PATH>        write the generated program to a file instead of stdout\n"
    ++ "      --entry-class <NAME>   the class containing the entry method [default: Main]\n"
    ++ "      --entry-method <NAME>  the method compiled to the entry function [default: main]\n"
    ++ "  -h, --help                 Print help\n"
    ++ "  -V, --version              Print version\n"

def flagText : Flag → String
  | .help => helpText
  | .version => versionText

end Cool.CommandLine
