import FlatScope.Json
import FlatScope.Span

/-!
# Diagnostics

A diagnostic is one reported problem: its wording, a code for the kind of problem, the phase of the
work that found it, and where in which file and function it lies. It is shown as a line of text
(with a line for each note) or as a JSON object.
-/

namespace FlatScope

/-- A reported problem. -/
structure Diagnostic where
  message : Text
  code : Option Text
  phase : Option Text
  severity : Text
  span : Span
  notes : List Text
  function : Option Text
  deriving DecidableEq, Repr

namespace Diagnostic

/-- The severity of everything that the stages report. -/
def error : Text := "error"

/-- A diagnostic as JSON. The phase and the file are used where it has none of its own. -/
def json (d : Diagnostic) (phase : Text) (file : Option Text) : Json :=
  .object
    [ ("phase", .text ((d.phase.filter (· ≠ [])).getD phase)),
      ("code", .ofText? d.code),
      ("message", .text d.message),
      ("severity", .text d.severity),
      ("function", .ofText? d.function),
      ("file", .ofText? (d.span.file.or file)),
      ("line", .ofInt? d.span.line),
      ("column", .ofInt? d.span.column),
      ("notes", .ofTexts d.notes) ]

/-- A diagnostic as text. The file is used where it has none of its own. -/
def format (d : Diagnostic) (file : Option Text) : Text :=
  let name := ((d.span.file.filter (· ≠ [])).or file).getD "<input>"
  name ++ ":" ++ d.span.describe ++ ": " ++ d.severity ++ ": " ++ d.message ++ codeMark d.code ++
    d.notes.flatMap noteLine
where
  /-- The code of a diagnostic at the end of its line. -/
  codeMark : Option Text → Text
    | none | some [] => ""
    | some code => " [" ++ code ++ "]"
  /-- The line of a note. -/
  noteLine (note : Text) : Text := "\n  note: " ++ note

/-- The wording of a diagnostic after its line and column, if the line is known. -/
def located (d : Diagnostic) : Text :=
  match d.span.line with
  | none => d.message
  | some _ => d.span.describe ++ ": " ++ d.message

end Diagnostic

end FlatScope
