import BpmnModel.Failure

/-!
# Reports for people

* `Snippet.ofLabels` — the labelled identifiers as a text, one a line, with the place of each.
  Models `DiagnosticAdapter.new`.
* `Reportable` — what is shown about one diagnostic or failure. Models `DiagnosticAdapter` and
  `ErrorAdapter`; `Reportable.ofFailure` models `to_reportables`.
-/

namespace BpmnModel

/-- The place of a label in a snippet, in bytes. -/
structure Span where
  message : String
  offset : Nat
  length : Nat
  isPrimary : Bool
deriving DecidableEq, Repr

/-- A text made of identifiers, with labels on it. -/
structure Snippet where
  text : String
  spans : List Span
deriving DecidableEq, Repr

namespace Snippet

/-- Appends a label, on a new line if there is text before it. -/
def add (s : Snippet) (l : Label) : Snippet :=
  let text := if s.text.isEmpty then s.text else s.text ++ "\n"
  { text := text ++ l.element.text
    spans := s.spans ++
      [⟨l.message, text.utf8ByteSize, l.element.text.utf8ByteSize, l.isPrimary⟩] }

/-- The snippet of a list of labels. -/
def ofLabels (labels : List Label) : Snippet :=
  labels.foldl add ⟨"", []⟩

end Snippet

/-- What is shown about one diagnostic or failure. -/
structure Reportable where
  isDiagnostic : Bool
  text : String
  code : Option String
  severity : Option Severity
  help : Option String
  spans : List Span
  snippet : Option String
deriving DecidableEq, Repr

namespace Reportable

/-- What is shown about a diagnostic. -/
def ofDiagnostic (d : Diagnostic) : Reportable :=
  let snippet := Snippet.ofLabels d.labels
  { isDiagnostic := true
    text := s!"{d.element}: {d.message}"
    code := d.code.map Code.text
    severity := some d.severity
    help := d.help
    spans := snippet.spans
    snippet := if snippet.text.isEmpty then none else some snippet.text }

/-- What is shown about a report: each diagnostic by itself. -/
def ofReport (r : Report) : List Reportable :=
  r.diagnostics.map ofDiagnostic

/-- What is shown about a failure: the diagnostics of a report, or the failure itself. -/
def ofFailure : Failure → List Reportable
  | .validation report => ofReport report
  | f => [⟨false, f.message, f.code?, none, none, [], none⟩]

end Reportable

end BpmnModel
