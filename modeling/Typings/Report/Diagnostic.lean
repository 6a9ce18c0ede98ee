import Typings.Json.Value
import Typings.Report.Span
/-!
# Diagnostics

* `Diagnostic`              a message with its severity, the phase it comes from and its span;
* `Diagnostic.format`       the diagnostic on a line;
* `Diagnostic.toJson`       the diagnostic as a structured value.
-/

namespace Typings

structure Diagnostic where
  message : Text
  severity : Text := "error"
  phase : Option Text := none
  span : Span := {}
  notes : List Text := []
deriving DecidableEq, Inhabited

namespace Diagnostic

def format (d : Diagnostic) : Text := d.span.format ++ ": " ++ d.severity ++ ": " ++ d.message

def toJson (d : Diagnostic) : Json :=
  .object [
    ("phase", .ofOption .text d.phase),
    ("message", .text d.message),
    ("severity", .text d.severity),
    ("file", .ofOption .text d.span.file),
    ("line", .ofOption .int d.span.line),
    ("column", .ofOption .int d.span.column),
    ("notes", .array (d.notes.map .text))]

def isError (d : Diagnostic) : Bool := d.severity == "error"

end Diagnostic

end Typings
