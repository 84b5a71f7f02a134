/-!
# Log lines

What a stage of the work has to say about itself. Elapsed times are not known here and are left
open as `_`.
-/

namespace PredictiveParsing

inductive Severity where
  | error
  | warn
  | info
  | debug
  | trace
  deriving DecidableEq, Repr

def Severity.label : Severity → String
  | error => "ERROR"
  | warn => "WARN"
  | info => "INFO"
  | debug => "DEBUG"
  | trace => "TRACE"

structure LogLine where
  severity : Severity
  text : String
  deriving DecidableEq, Repr

def LogLine.render (line : LogLine) : String := s!"{line.severity.label} {line.text}"

end PredictiveParsing
