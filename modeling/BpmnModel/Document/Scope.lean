import BpmnModel.Document.Collaboration
import BpmnModel.Document.Definition
import BpmnModel.Document.Flow
import BpmnModel.Document.Text
import BpmnModel.Scope.Edit

/-!
# Scopes in documents

* `Scope.ofDocument` — rebuilds a scope by the edits that its document describes, in document order.
  Models `import`.
* `Scope.toDocument` — writes a scope out. What a bound import leads to is not written. Models
  `export`.
* `Scope.ofText` — the two steps from a text to a scope.
-/

namespace BpmnModel

namespace ImportDeclaration

def ofNode (n : Node) : Reading ImportDeclaration := do
  let type ← n.text "importType"
  let target ← n.text "namespace"
  let location ← n.text "location"
  n.finish ["importType", "namespace", "location"]
  n.noContent
  let type ← checked (ImportType.parse type)
  return ⟨type, target, location⟩

def toNode (d : ImportDeclaration) : Node :=
  (((Node.bare "import").setText "importType" d.type.shortName).setText "namespace"
    d.namespace).setText "location" d.location

end ImportDeclaration

namespace Root

/-- Reads a root element below a node with the label `parent`. -/
def ofNode (parent : String) (n : Node) : Reading Root :=
  match n.label with
  | "process" => process <$> Process.ofNode n
  | "collaboration" => collaboration <$> Collaboration.ofNode false n
  | "globalConversation" => collaboration <$> Collaboration.ofNode true n
  | "interface" => interface <$> Interface.ofNode n
  | "endPoint" => endPoint <$> EndPoint.ofNode n
  | "message" => message <$> Message.ofNode n
  | "itemDefinition" => itemDefinition <$> ItemDefinition.ofNode n
  | "error" => error <$> ErrorDefinition.ofNode n
  | "escalation" => escalation <$> Escalation.ofNode n
  | "resource" => resource <$> Resource.ofNode n
  | "category" => category <$> Category.ofNode n
  | "correlationProperty" => correlationProperty <$> CorrelationProperty.ofNode n
  | label => throw (.unknownLabel label parent)

def toNode : Root → Except DocumentError Node
  | process p => p.toNode
  | collaboration c => c.toNode
  | interface i => i.toNode
  | endPoint e => e.toNode
  | message m => m.toNode
  | itemDefinition d => d.toNode
  | error e => e.toNode
  | escalation e => e.toNode
  | resource r => r.toNode
  | category c => c.toNode
  | correlationProperty p => p.toNode

end Root

namespace Header

/-- The label of the root of documents. -/
def label : String := "definitions"

def ofNode (n : Node) : Reading Header := do
  let id ← n.id
  let targetNamespace ← n.text "targetNamespace"
  let identity ← Identity.ofNode id n
  let name ← n.text? "name"
  let expressionLanguage ← n.text? "expressionLanguage"
  let typeLanguage ← n.text? "typeLanguage"
  let exporter ← n.text? "exporter"
  let exporterVersion ← n.text? "exporterVersion"
  n.finish ["id", "targetNamespace", "name", "expressionLanguage", "typeLanguage", "exporter",
    "exporterVersion"]
  return {
    identity, name, targetNamespace, exporter, exporterVersion
    expressionLanguage := expressionLanguage.getD xpath
    typeLanguage := typeLanguage.getD xmlSchema }

def toNode (h : Header) : Except DocumentError Node := do
  let n ← h.identity.toNode label
  let n := (n.setText? "name" h.name).setText "targetNamespace" h.targetNamespace
  let n := if h.expressionLanguage = xpath then n
    else n.setText "expressionLanguage" h.expressionLanguage
  let n := if h.typeLanguage = xmlSchema then n else n.setText "typeLanguage" h.typeLanguage
  return (n.setText? "exporter" h.exporter).setText? "exporterVersion" h.exporterVersion

end Header

/-- The edit that a child of the root of a document describes. -/
def Change.ofNode (n : Node) : Reading Change :=
  match n.label with
  | "import" => (fun d => addImport (.unbound d)) <$> ImportDeclaration.ofNode n
  | "relationship" => addRelationship <$> Relationship.ofNode n
  | _ => addRoot <$> Root.ofNode Header.label n

namespace Scope

/-- Makes the edit that a child of the root describes. -/
def addNode (s : Scope) (n : Node) : Reading Scope := do
  let change ← Change.ofNode n
  match change.perform s with
  | .ok _ s => return s
  | .error e _ => throw (.model e)

/-- Rebuilds the scope that a document describes. -/
def ofDocument (d : Document) : Reading Scope := do
  if d.root.label = Header.label then
    let header ← Header.ofNode d.root
    let start := { Scope.fresh header.identity.id header.targetNamespace with header }
    d.root.content.foldlM addNode start
  else throw (.unexpectedRoot d.root.label)

/-- Writes a scope out. -/
def toDocument (s : Scope) : Except DocumentError Document := do
  if !s.extensions.isEmpty then throw (.unsupported s.id .extensions)
  let n ← s.header.toNode
  let roots ← s.roots.mapM Root.toNode
  let relationships ← s.relationships.mapM Relationship.toNode
  return ⟨n.pushAll (s.imports.map (·.declaration.toNode) ++ roots ++ relationships)⟩

/-- Reads the scope that a text describes. -/
def ofText (text : String) : Reading Scope :=
  match Document.ofText? text with
  | none => throw .unreadable
  | some d => ofDocument d

end Scope

end BpmnModel
