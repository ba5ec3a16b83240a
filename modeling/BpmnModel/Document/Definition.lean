import BpmnModel.Document.Description
import BpmnModel.Element.Correlation
import BpmnModel.Element.Definition
import BpmnModel.Element.Interface
import BpmnModel.Element.Relationship

/-!
# Shared definitions in documents

Reading and writing of the root elements that contain no flow: item definitions, messages, errors,
escalations, end points, resources, categories, interfaces and correlation properties, and of
relationships.

Models the functions `interface`, `operation`, `resource`, `category`, `correlation_property` and
`relationship` of the import and the export, and the branches of `root_element` for the others.
-/

namespace BpmnModel

namespace EndPoint

def ofNode (n : Node) : Reading EndPoint := do
  let id ← n.id
  n.finish ["id"]
  n.noContent
  return ⟨← Identity.ofNode id n⟩

def toNode (e : EndPoint) : Except DocumentError Node :=
  e.identity.toNode "endPoint"

end EndPoint

namespace Message

def ofNode (n : Node) : Reading Message := do
  let id ← n.id
  let name ← n.text? "name"
  let itemRef ← n.ref? "itemRef"
  n.finish ["id", "name", "itemRef"]
  n.noContent
  return ⟨← Identity.ofNode id n, name, itemRef⟩

def toNode (m : Message) : Except DocumentError Node := do
  let n ← m.identity.toNode "message"
  return (n.setText? "name" m.name).setRef? "itemRef" m.itemRef

end Message

namespace ItemDefinition

def ofNode (n : Node) : Reading ItemDefinition := do
  let id ← n.id
  let identity ← Identity.ofNode id n
  let itemKind ← n.word "itemKind"
  let isCollection ← n.flag "isCollection" false
  let structureRef ← n.text? "structureRef"
  n.finish ["id", "itemKind", "isCollection", "structureRef"]
  n.noContent
  return ⟨identity, itemKind, isCollection, structureRef⟩

def toNode (d : ItemDefinition) : Except DocumentError Node := do
  let n ← d.identity.toNode "itemDefinition"
  return ((n.setWord "itemKind" d.itemKind).setFlag "isCollection" d.isCollection false).setText?
    "structureRef" d.structureRef

end ItemDefinition

namespace ErrorDefinition

def ofNode (n : Node) : Reading ErrorDefinition := do
  let id ← n.id
  let name ← n.text? "name"
  let errorCode ← n.text? "errorCode"
  let structureRef ← n.ref? "structureRef"
  n.finish ["id", "name", "errorCode", "structureRef"]
  n.noContent
  return ⟨← Identity.ofNode id n, name, errorCode, structureRef⟩

def toNode (e : ErrorDefinition) : Except DocumentError Node := do
  let n ← e.identity.toNode "error"
  return ((n.setText? "name" e.name).setText? "errorCode" e.errorCode).setRef? "structureRef"
    e.structureRef

end ErrorDefinition

namespace Escalation

def ofNode (n : Node) : Reading Escalation := do
  let id ← n.id
  let name ← n.text? "name"
  let escalationCode ← n.text? "escalationCode"
  let structureRef ← n.ref? "structureRef"
  n.finish ["id", "name", "escalationCode", "structureRef"]
  n.noContent
  return ⟨← Identity.ofNode id n, name, escalationCode, structureRef⟩

def toNode (e : Escalation) : Except DocumentError Node := do
  let n ← e.identity.toNode "escalation"
  return ((n.setText? "name" e.name).setText? "escalationCode" e.escalationCode).setRef?
    "structureRef" e.structureRef

end Escalation

/-- Reads children that all have the same label; documentation is passed over. -/
def Node.only {α : Type} (n : Node) (label : String) (read : Node → Reading α) :
    Reading (List α) :=
  n.content.mapM fun child =>
    if child.label = label then read child else .error (n.unknownChild child.label)

namespace ResourceParameter

def ofNode (n : Node) : Reading ResourceParameter := do
  let id ← n.id
  let name ← n.text "name"
  let type ← n.ref? "type"
  let isRequired ← n.flag "isRequired" false
  n.finish ["id", "name", "type", "isRequired"]
  n.noContent
  return ⟨← Identity.ofNode id n, name, type, isRequired⟩

def toNode (p : ResourceParameter) : Except DocumentError Node := do
  let n ← p.identity.toNode "resourceParameter"
  return ((n.setText "name" p.name).setRef? "type" p.type).setFlag "isRequired" p.isRequired false

end ResourceParameter

namespace Resource

def ofNode (n : Node) : Reading Resource := do
  let id ← n.id
  let name ← n.text "name"
  n.finish ["id", "name"]
  let parameters ← n.only "resourceParameter" ResourceParameter.ofNode
  return ⟨← Identity.ofNode id n, name, parameters⟩

def toNode (r : Resource) : Except DocumentError Node := do
  let n ← r.identity.toNode "resource"
  return (n.setText "name" r.name).pushAll (← r.parameters.mapM ResourceParameter.toNode)

end Resource

namespace CategoryValue

def ofNode (n : Node) : Reading CategoryValue := do
  let id ← n.id
  let value ← n.text "value"
  n.finish ["id", "value"]
  n.noContent
  return ⟨← Identity.ofNode id n, value⟩

def toNode (v : CategoryValue) : Except DocumentError Node := do
  let n ← v.identity.toNode "categoryValue"
  return n.setText "value" v.value

end CategoryValue

namespace Category

def ofNode (n : Node) : Reading Category := do
  let id ← n.id
  let name ← n.text "name"
  n.finish ["id", "name"]
  let values ← n.only "categoryValue" CategoryValue.ofNode
  return ⟨← Identity.ofNode id n, name, values⟩

def toNode (c : Category) : Except DocumentError Node := do
  let n ← c.identity.toNode "category"
  return (n.setText "name" c.name).pushAll (← c.values.mapM CategoryValue.toNode)

end Category

namespace Operation

def ofNode (n : Node) : Reading Operation := do
  let id ← n.id
  let name ← n.text "name"
  let inMessageRef ← n.ref "inMessageRef"
  let identity ← Identity.ofNode id n
  let outMessageRef ← n.ref? "outMessageRef"
  let errorRefs ← n.refs "errorRefs"
  let implementationRef ← n.text? "implementationRef"
  n.finish ["id", "name", "inMessageRef", "outMessageRef", "errorRefs", "implementationRef"]
  n.noContent
  return ⟨identity, name, inMessageRef, outMessageRef, errorRefs, implementationRef⟩

def toNode (o : Operation) : Except DocumentError Node := do
  let n ← o.identity.toNode "operation"
  let n := (n.setText "name" o.name).setRef "inMessageRef" o.inMessageRef
  let n := (n.setRef? "outMessageRef" o.outMessageRef).setRefs "errorRefs" o.errorRefs
  return n.setText? "implementationRef" o.implementationRef

end Operation

namespace Interface

def ofNode (n : Node) : Reading Interface := do
  let id ← n.id
  let name ← n.text "name"
  let implementationRef ← n.text? "implementationRef"
  n.finish ["id", "name", "implementationRef"]
  let operations ← n.only "operation" Operation.ofNode
  let identity ← Identity.ofNode id n
  checked (Interface.of identity name operations implementationRef)

def toNode (i : Interface) : Except DocumentError Node := do
  let n ← i.identity.toNode "interface"
  let n := (n.setText "name" i.name).setText? "implementationRef" i.implementationRef
  return n.pushAll (← i.operations.items.mapM Operation.toNode)

end Interface

namespace RetrievalExpression

/-- The path among the children of a retrieval expression. Every child is a path, and the last one
counts. -/
def pathOfNodes (owner : Id) (n : Node) :
    List Node → Option FormalExpression → Reading FormalExpression
  | [], some path => return path
  | [], none => throw (.missingAttribute n.label "messagePath")
  | child :: children, _ => do
    if child.label = "messagePath" then
      match ← Expression.ofNode child with
      | .formal e => pathOfNodes owner n children (some e)
      | .informal _ =>
        throw (.model (.configuration owner.text "a message path must be a formal expression"))
    else throw (n.unknownChild child.label)

/-- Reads a retrieval expression of the correlation property `owner`. -/
def ofNode (owner : Id) (n : Node) : Reading RetrievalExpression := do
  let messageRef ← n.ref "messageRef"
  n.finish ["messageRef"]
  return ⟨← pathOfNodes owner n n.children none, messageRef⟩

def toNode (e : RetrievalExpression) : Node :=
  ((Node.bare "correlationPropertyRetrievalExpression").setRef "messageRef" e.messageRef).push
    (e.messagePath.toNode "messagePath")

end RetrievalExpression

namespace CorrelationProperty

def ofNode (n : Node) : Reading CorrelationProperty := do
  let id ← n.id
  let name ← n.text? "name"
  let type ← n.ref? "type"
  n.finish ["id", "name", "type"]
  let retrievals ←
    n.only "correlationPropertyRetrievalExpression" (RetrievalExpression.ofNode id)
  let identity ← Identity.ofNode id n
  checked (CorrelationProperty.of identity name type retrievals)

def toNode (p : CorrelationProperty) : Except DocumentError Node := do
  let n ← p.identity.toNode "correlationProperty"
  let n := (n.setText? "name" p.name).setRef? "type" p.type
  return n.pushAll (p.retrievals.map RetrievalExpression.toNode)

end CorrelationProperty

namespace Relationship

def ofNode (n : Node) : Reading Relationship := do
  let id ← n.id
  let type ← n.text "type"
  let direction ← n.word "direction"
  let sources ← n.refs "sources"
  let targets ← n.refs "targets"
  n.finish ["id", "type", "direction", "sources", "targets"]
  n.noContent
  let identity ← Identity.ofNode id n
  checked (Relationship.of identity type direction sources targets)

def toNode (r : Relationship) : Except DocumentError Node := do
  let n ← r.identity.toNode "relationship"
  let n := (n.setText "type" r.type).setWord "direction" r.direction
  return (n.setRefs "sources" r.sources).setRefs "targets" r.targets

end Relationship

end BpmnModel
