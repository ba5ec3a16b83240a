import BpmnModel.Document.Description
import BpmnModel.Element.Artifact

/-!
# Artifacts in documents

`Artifact.reader?` and `Artifact.toNode` model the function `artifact` of the import and the
function `artifacts` of the export.
-/

namespace BpmnModel

namespace Association

def ofNode (n : Node) : Reading Association := do
  let id ← n.id
  let source ← n.ref "sourceRef"
  let target ← n.ref "targetRef"
  let direction ← n.word "associationDirection"
  let identity ← Identity.ofNode id n
  n.finish ["id", "sourceRef", "targetRef", "associationDirection"]
  n.noContent
  return ⟨identity, source, target, direction⟩

def toNode (a : Association) : Except DocumentError Node := do
  let n ← a.identity.toNode "association"
  return ((n.setRef "sourceRef" a.source).setRef "targetRef" a.target).setWord
    "associationDirection" a.direction

end Association

namespace Group

def ofNode (n : Node) : Reading Group := do
  let id ← n.id
  let categoryValueRef ← n.ref? "categoryValueRef"
  let identity ← Identity.ofNode id n
  n.finish ["id", "categoryValueRef"]
  n.noContent
  return ⟨identity, categoryValueRef⟩

def toNode (g : Group) : Except DocumentError Node := do
  let n ← g.identity.toNode "group"
  return n.setRef? "categoryValueRef" g.categoryValueRef

end Group

namespace TextNote

def ofNode (n : Node) : Reading TextNote := do
  let id ← n.id
  let text ← n.text "text"
  let identity ← Identity.ofNode id n
  let format ← n.text? "textFormat"
  n.finish ["id", "text", "textFormat"]
  n.noContent
  return ⟨identity, text, format.getD Documentation.plainText⟩

def toNode (t : TextNote) : Except DocumentError Node := do
  let n ← t.identity.toNode "textAnnotation"
  let n := n.setText "text" t.text
  return if t.format = Documentation.plainText then n else n.setText "textFormat" t.format

end TextNote

namespace Artifact

/-- How nodes with this label are read, if it is that of an artifact. -/
def reader? (label : String) : Option (Node → Reading Artifact) :=
  match label with
  | "association" => some fun n => association <$> Association.ofNode n
  | "group" => some fun n => group <$> Group.ofNode n
  | "textAnnotation" => some fun n => textNote <$> TextNote.ofNode n
  | _ => none

def toNode : Artifact → Except DocumentError Node
  | association a => a.toNode
  | group g => g.toNode
  | textNote t => t.toNode

end Artifact

end BpmnModel
