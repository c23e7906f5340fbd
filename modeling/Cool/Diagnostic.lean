import Cool.Source.Files

/-!
What a compilation reports: messages of four levels, perhaps with the place they are about and the
fault behind them. Someone may listen, and is told of each report from then on.
-/
namespace Cool

inductive Level where
  | fatal | error | warn | info
deriving DecidableEq, Repr

namespace Level

def isError : Level → Bool
  | .fatal | .error => true
  | .warn | .info => false

def name : Level → String
  | .fatal => "Fatal"
  | .error => "Error"
  | .warn => "Warn"
  | .info => "Info"

/-- The word at the start of a printed report, in five columns. -/
def column : Level → String
  | .fatal => "FATAL"
  | .error => "ERROR"
  | .warn => "WARN "
  | .info => "INFO "

end Level

structure Diagnostic where
  level : Level
  message : String
  span : Option Span
  /-- The message of the fault behind it. -/
  cause : Option String
deriving DecidableEq, Repr

namespace Diagnostic

/-- A report that is being put together. -/
structure Draft where
  level : Level
  message : Option (String × Option Span)
  cause : Option String

namespace Draft

def ofLevel (level : Level) : Draft := ⟨level, none, none⟩

def withMessage (d : Draft) (text : String) (span : Option Span) : Draft :=
  { d with message := some (text, span) }

def withCause (d : Draft) (text : String) : Draft := { d with cause := some text }

/-- Names a fault as the cause. It also gives the message and the place, unless there is a message
already. -/
def withFault (d : Draft) (text : String) (span : Span) : Draft :=
  { d with message := some (d.message.getD (text, some span)), cause := some text }

/-- The report. Without a message of its own it has that of its cause. -/
def finish (d : Draft) : Diagnostic :=
  let (text, span) := d.message.getD (d.cause.getD "unknown error", none)
  ⟨d.level, text, span, d.cause⟩

end Draft

/-- An error that a fault in the program gives rise to. -/
def ofFault (text : String) (span : Span) : Diagnostic :=
  ((Draft.ofLevel .error).withFault text span).finish

/-- A report as a line. -/
def line (files : SourceFiles) (d : Diagnostic) : String :=
  let place := match d.span with
    | some s => SourceFiles.locate files s ++ " "
    | none => ""
  d.level.column ++ " " ++ place ++ d.message ++ "\n"

end Diagnostic

/-- The reports so far, the name of the one who listens, and what listeners have heard. -/
structure Diagnostics where
  reports : List Diagnostic
  listener : Option String
  heard : List String

namespace Diagnostics

def empty : Diagnostics := ⟨[], none, []⟩

/-- From here on `name` alone is told. -/
def listen (ds : Diagnostics) (name : String) : Diagnostics := { ds with listener := some name }

def emit (ds : Diagnostics) (d : Diagnostic) : Diagnostics :=
  { ds with
    reports := ds.reports ++ [d]
    heard := ds.heard ++ (ds.listener.map (· ++ ":" ++ d.message)).toList }

def hasErrors (ds : Diagnostics) : Bool := ds.reports.any (·.level.isError)

end Diagnostics

end Cool
