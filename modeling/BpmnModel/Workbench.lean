import BpmnModel.Config.Basic
import BpmnModel.Document.Scope
import BpmnModel.Failure
import BpmnModel.Validation.Validate

/-!
# Working with models under a configuration

* `Scope.load`, `Scope.loadDocument` — a scope from a text or a document. Model `Workbench.load_str`
  and `Workbench.load`.
* `Config.validate`, `Config.check` — the report on a scope; the second fails if there are errors.
  Model `Workbench.validate` and `Workbench.check`.
* `Config.write`, `Config.writeText` — a document from a scope. A configured exporter is named in it
  where the scope names none. Model `Workbench.export` and `Workbench.export_json`.
-/

namespace BpmnModel

/-- Names an exporter where the document names none. -/
def ExportSettings.stamp (e : ExportSettings) (d : Document) : Document :=
  let fill (n : Node) (name : String) (value : Option String) : Node :=
    if (n.attribute? name).isNone then n.setText? name value else n
  ⟨fill (fill d.root "exporter" e.exporter) "exporterVersion" e.exporterVersion⟩

namespace Scope

/-- Reads a scope from a document. -/
def loadDocument (d : Document) : Except Failure Scope :=
  (ofDocument d).mapError .document

/-- Reads a scope from a text. -/
def load (text : String) : Except Failure Scope :=
  (ofText text).mapError .document

end Scope

namespace Config

/-- Makes the configured checks. -/
def validate (c : Config) (s : Scope) : Report :=
  s.validate c.validation

/-- Makes the configured checks and fails if one finds an error. -/
def check (c : Config) (s : Scope) : Except Failure Report :=
  let report := c.validate s
  if report.hasErrors then .error (.validation report) else .ok report

/-- Writes a scope to a document. -/
def write (c : Config) (s : Scope) : Except Failure Document :=
  match s.toDocument with
  | .ok d => .ok (c.exporting.stamp d)
  | .error e => .error (.document e)

/-- Writes a scope to a text. -/
def writeText (c : Config) (s : Scope) : Except Failure String :=
  (c.write s).map Document.toText

end Config

end BpmnModel
