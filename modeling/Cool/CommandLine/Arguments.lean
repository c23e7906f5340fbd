import Cool.Lowering.Program
import Cool.Text.Terminal

/-!
The arguments of a compilation. Options take a value behind them, in the same argument or the next,
and each may be given once. All else is an input file, as is everything behind a bare `--`. A value
in an argument of its own is judged when the next option or file comes, or the end, so an unknown
argument behind it is the worse fault; what is missing is told last.
-/
namespace Cool.CommandLine

/-- What is done with the input, up to the last step that is asked for. -/
inductive Stage where
  | tokens | tree | types | code
deriving DecidableEq, Repr

def Stage.ofText? : String → Option Stage
  | "lexer" => some .tokens
  | "parser" => some .tree
  | "typeck" => some .types
  | "codegen" => some .code
  | _ => none

inductive Format where
  | debug | ron | json | text
deriving DecidableEq, Repr

def Format.ofText? : String → Option Format
  | "debug" => some .debug
  | "ron" => some .ron
  | "json" => some .json
  | "text" => some .text
  | _ => none

inductive Layout where
  | detailed | compact
deriving DecidableEq, Repr

inductive CodeLayout where
  | detailed | json | text
deriving DecidableEq, Repr

/-- What is written, and how. -/
inductive Output where
  | tokens
  | tree (layout : Layout)
  | types (layout : Layout)
  | code (layout : CodeLayout)
deriving DecidableEq, Repr

/-- How a format shows the result of a stage, if it can. -/
def Output.of? : Stage → Option Format → Option Output
  | .tokens, none | .tokens, some .debug => some .tokens
  | .tree, none | .tree, some .ron => some (.tree .compact)
  | .tree, some .debug => some (.tree .detailed)
  | .types, none | .types, some .ron => some (.types .compact)
  | .types, some .debug => some (.types .detailed)
  | .code, none | .code, some .json => some (.code .json)
  | .code, some .debug => some (.code .detailed)
  | .code, some .text => some (.code .text)
  | _, _ => none

structure Config where
  files : List String
  output : Output
  outputPath : Option String
  entry : Entry
deriving DecidableEq, Repr

inductive Opt where
  | stage | format | output | entryClass | entryMethod
deriving DecidableEq, Repr

inductive Flag where
  | help | version
deriving DecidableEq, Repr

namespace Opt

def usage : Opt → String
  | .stage => "--stage <STAGE>"
  | .format => "--format <FORMAT>"
  | .output => "--output <PATH>"
  | .entryClass => "--entry-class <NAME>"
  | .entryMethod => "--entry-method <NAME>"

def ofLong? : String → Option (Opt ⊕ Flag)
  | "stage" => some (.inl .stage)
  | "format" => some (.inl .format)
  | "output" => some (.inl .output)
  | "entry-class" => some (.inl .entryClass)
  | "entry-method" => some (.inl .entryMethod)
  | "help" => some (.inr .help)
  | "version" => some (.inr .version)
  | _ => none

def ofShort? : Char → Option (Opt ⊕ Flag)
  | 's' => some (.inl .stage)
  | 'f' => some (.inl .format)
  | 'o' => some (.inl .output)
  | 'h' => some (.inr .help)
  | 'V' => some (.inr .version)
  | _ => none

end Opt

def filesUsage : String := "<FILE>..."

inductive UsageError where
  | unexpectedArgument (arg : String)
  | unexpectedValue (value usage : String)
  | invalidValue (value usage : String)
  | missingValue (usage : String)
  | repeated (usage : String)
  | noFiles
  | unsuitedFormat
deriving DecidableEq, Repr

/-- The message, in which nothing that was given commands the terminal. -/
def UsageError.message : UsageError → String
  | .unexpectedArgument arg => "error: unexpected argument '" ++ Terminal.shown arg ++ "' found"
  | .unexpectedValue value usage =>
    "error: unexpected value '" ++ Terminal.shown value ++ "' for '" ++ usage
      ++ "' found; no more were expected"
  | .invalidValue value usage =>
    "error: invalid value '" ++ Terminal.shown value ++ "' for '" ++ usage ++ "'"
  | .missingValue usage =>
    "error: a value is required for '" ++ usage ++ "' but none was supplied"
  | .repeated usage =>
    "error: the argument '" ++ usage ++ "' cannot be used multiple times"
  | .noFiles => "error: the following required arguments were not provided:"
  | .unsuitedFormat => "error: this format cannot be used for the current compilation stage"

/-- What the arguments ask for. -/
inductive Request where
  | compile (config : Config)
  | flag (f : Flag)
deriving DecidableEq, Repr

/-- What more arguments may add to: an option without its value or with it, or a row of files. -/
inductive Pending where
  | nothing
  | option (o : Opt) (value : Option String)
  | files (paths : List String)
deriving DecidableEq, Repr

/-- The arguments read so far: options with their values, files, and what is not settled yet. -/
structure Progress where
  values : List (Opt × String)
  files : List String
  pending : Pending

namespace Progress

def empty : Progress := ⟨[], [], .nothing⟩

def value? (p : Progress) (o : Opt) : Option String := p.values.lookup o

/-- Refuses a value that an option cannot have. -/
def checkValue (o : Opt) (value : String) : Except UsageError Unit :=
  let known := match o with
    | .stage => (Stage.ofText? value).isSome
    | .format => (Format.ofText? value).isSome
    | .output => !value.isEmpty
    | .entryClass | .entryMethod => true
  if known then .ok ()
  else if value.isEmpty then .error (.missingValue o.usage)
  else .error (.invalidValue value o.usage)

/-- Gives an option its value. -/
def assign (p : Progress) (o : Opt) (value : String) : Except UsageError Progress := do
  if (p.value? o).isSome then .error (.repeated o.usage)
  else
    checkValue o value
    .ok { p with values := p.values ++ [(o, value)] }

/-- Ends what is pending: an option that has got no value is at fault, and so is a file without a
name. -/
def settle (p : Progress) : Except UsageError Progress :=
  match p.pending with
  | .nothing => .ok p
  | .option o none => .error (.missingValue o.usage)
  | .option o (some value) => { p with pending := .nothing }.assign o value
  | .files paths =>
    if paths.contains "" then .error (.missingValue filesUsage)
    else .ok { p with files := p.files ++ paths, pending := .nothing }

/-- One more file. -/
def addFile (p : Progress) (path : String) : Except UsageError Progress :=
  match p.pending with
  | .files paths => .ok { p with pending := .files (paths ++ [path]) }
  | _ => do
    let p ← p.settle
    .ok { p with pending := .files [path] }

end Progress

/-- A step over one argument: go on, or stop at a flag. -/
abbrev Step := Except UsageError (Progress ⊕ Flag)

/-- The text in front of the first `=` and, if there is one, what stands behind it. -/
def splitAtEquals (cs : List Char) : List Char × Option (List Char) :=
  match cs.dropWhile (· ≠ '=') with
  | [] => (cs, none)
  | _ :: value => (cs.takeWhile (· ≠ '='), some value)

/-- An option with the value attached to it, or one that waits for it. -/
def takeOption (p : Progress) (o : Opt) (attached : Option String) : Step := do
  let p ← p.settle
  match attached with
  | some value => .inl <$> p.assign o value
  | none => .ok (.inl { p with pending := .option o none })

/-- An argument behind two dashes. -/
def takeLong (p : Progress) (cs : List Char) : Step :=
  let (name, value) := splitAtEquals cs
  let arg := "--" ++ String.ofList name
  match Opt.ofLong? (String.ofList name), value with
  | some (.inl o), _ => takeOption p o (value.map String.ofList)
  | some (.inr _), some v => .error (.unexpectedValue (String.ofList v) arg)
  | some (.inr f), none => do
    let _ ← p.settle
    .ok (.inr f)
  | none, _ => .error (.unexpectedArgument arg)

/-- An argument behind one dash. -/
def takeShort (p : Progress) (c : Char) (rest : List Char) : Step :=
  match Opt.ofShort? c with
  | some (.inl o) => takeOption p o (match rest with
    | [] => none
    | '=' :: value => some (String.ofList value)
    | value => some (String.ofList value))
  | some (.inr f) => do
    let _ ← p.settle
    .ok (.inr f)
  | none => .error (.unexpectedArgument ("-" ++ String.singleton c))

/-- An argument that is not an option: the value of the option before it, or a file. -/
def takePlain (p : Progress) (arg : String) : Step :=
  match p.pending with
  | .option o none => .ok (.inl { p with pending := .option o (some arg) })
  | _ => .inl <$> p.addFile arg

def takeArgument (p : Progress) (arg : String) : Step :=
  match arg.toList with
  | '-' :: '-' :: cs => takeLong p cs
  | '-' :: c :: cs => takeShort p c cs
  | _ => takePlain p arg

/-- The arguments in order. Behind a bare `--` there are only files. -/
def takeAll (p : Progress) : List String → Step
  | [] => .inl <$> p.settle
  | "--" :: paths => do
    let p ← paths.foldlM Progress.addFile p
    .inl <$> p.settle
  | arg :: rest => do
    match ← takeArgument p arg with
    | .inl p => takeAll p rest
    | .inr f => .ok (.inr f)

/-- What is asked for once all arguments are read. -/
def finish (p : Progress) : Except UsageError Config := do
  if p.files.isEmpty then throw .noFiles
  let stage := ((p.value? .stage).bind Stage.ofText?).getD .code
  match Output.of? stage ((p.value? .format).bind Format.ofText?) with
  | none => throw .unsuitedFormat
  | some output =>
    pure ⟨p.files, output, p.value? .output,
      ⟨((p.value? .entryClass).map Utf8.encode).getD Entry.default.className,
       ((p.value? .entryMethod).map Utf8.encode).getD Entry.default.method⟩⟩

/-- What the arguments of the program ask for. -/
def parseArguments (args : List String) : Except UsageError Request := do
  match ← takeAll .empty args with
  | .inr f => pure (.flag f)
  | .inl p => .compile <$> finish p

end Cool.CommandLine
