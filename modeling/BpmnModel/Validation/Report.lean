import BpmnModel.Validation.Diagnostic

/-!
# Reports

A `Report` holds the diagnostics of one validation; `Report.sorted` puts errors before warnings.
Models `ValidationReport`, and `Report.sorted` models `DiagnosticCollector.finish`.
-/

namespace BpmnModel

/-- The diagnostics of one validation. -/
structure Report where
  diagnostics : List Diagnostic
deriving DecidableEq, Repr

namespace Report

/-- The diagnostics that make a model invalid, in order. -/
def errors (r : Report) : List Diagnostic :=
  r.diagnostics.filter (·.severity = .error)

/-- The diagnostics that leave a model valid, in order. -/
def warnings (r : Report) : List Diagnostic :=
  r.diagnostics.filter (·.severity = .warning)

/-- The diagnostics of one rule, in order. -/
def byRule (r : Report) (rule : Rule) : List Diagnostic :=
  r.diagnostics.filter (·.rule = rule)

/-- The rules that found something, each with how often. -/
def counts (r : Report) : List (Rule × Nat) :=
  (Rule.all.map fun rule => (rule, (r.byRule rule).length)).filter (·.2 ≠ 0)

/-- Whether there is an error. -/
def hasErrors (r : Report) : Bool :=
  !r.errors.isEmpty

/-- Whether nothing was found. -/
def isClean (r : Report) : Bool :=
  r.diagnostics.isEmpty

/-- The report of these findings: errors first, then warnings, each in the order found. -/
def sorted (found : List Diagnostic) : Report :=
  ⟨(Report.mk found).errors ++ (Report.mk found).warnings⟩

/-- The first diagnostic in one line, with the number of the others. -/
def text (r : Report) : String :=
  match r.diagnostics with
  | [] => ""
  | [d] => d.text
  | d :: rest => d.text ++ s!" (+{rest.length} more)"

end Report

end BpmnModel
