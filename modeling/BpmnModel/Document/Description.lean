import BpmnModel.Document.Fields
import BpmnModel.Expression
import BpmnModel.Identity

/-!
# Documentation and expressions in documents

* `Identity.ofNode`, `Identity.toNode` — an identifier with documentation. Extension values have no
  place in documents. Model `base` of the import and `identified` of the export.
* `Expression.ofNode`, `Expression.toNode` — an expression under the label of its role. Model the
  functions `expression` of the import and the export.
-/

namespace BpmnModel

/-- Reads documentation. It has no children of its own. -/
def Documentation.ofNode (n : Node) : Reading Documentation := do
  let text ← n.text "text"
  let format ← n.text? "textFormat"
  n.finish ["text", "textFormat"]
  match n.children with
  | [] => return ⟨text, format.getD plainText⟩
  | child :: _ => throw (n.unknownChild child.label)

/-- The node of documentation. -/
def Documentation.toNode (d : Documentation) : Node :=
  let n := (Node.bare "documentation").setText "text" d.text
  if d.format = plainText then n else n.setText "textFormat" d.format

/-- Reads the documentation among the children of a node. -/
def Node.documentation (n : Node) : Reading (List Documentation) :=
  (n.children.filter Node.isDocumentation).mapM Documentation.ofNode

/-- The identity of a node whose identifier is known. -/
def Identity.ofNode (id : Id) (n : Node) : Reading Identity := do
  return ⟨id, ← n.documentation, []⟩

/-- A node with this label that carries an identity. -/
def Identity.toNode (label : String) (identity : Identity) : Except DocumentError Node :=
  if identity.extensionValues.isEmpty then
    .ok (((Node.bare label).setId "id" identity.id).pushAll
      (identity.documentation.map Documentation.toNode))
  else .error (.unsupported identity.id .extensionValues)

/-- Sets an attribute to a word of a vocabulary unless it is the default. -/
def Node.setWord {α : Type} [Vocabulary α] [Inhabited α] [DecidableEq α] (n : Node) (name : String)
    (value : α) : Node :=
  if value = default then n else n.setText name (Vocabulary.spell value)

/-- Reads an expression. Free text has no language and no type. -/
def Expression.ofNode (n : Node) : Reading Expression := do
  let body ← n.text "body"
  if ← n.flag "formal" false then
    let language ← n.text? "language"
    let type ← n.ref? "evaluatesToTypeRef"
    n.finish ["body", "formal", "language", "evaluatesToTypeRef"]
    n.noContent
    return .formal ⟨body, language, type⟩
  else
    n.finish ["body", "formal"]
    n.noContent
    return .informal body

/-- The node of a formal expression. -/
def FormalExpression.toNode (label : String) (e : FormalExpression) : Node :=
  ((((Node.bare label).setText "body" e.body).set "formal" (.flag true)).setText? "language"
    e.language).setRef? "evaluatesToTypeRef" e.type

/-- The node of an expression. -/
def Expression.toNode (label : String) : Expression → Node
  | informal body => (Node.bare label).setText "body" body
  | formal e => e.toNode label

/-- The node of an expression that may be absent. -/
def Expression.toNodes (label : String) (e : Option Expression) : List Node :=
  (e.map (Expression.toNode label)).toList

end BpmnModel
