/-!
# Validation rules

The rules that look at a whole scope, with the names under which they are switched off. Models
`Rule` and the reading of its names, with `UnknownRule`.
-/

namespace BpmnModel

/-- A rule about a whole scope. -/
inductive Rule where
  /-- Every reference resolves to an element that it may lead to. -/
  | referenceResolution
  /-- Converging and diverging gateways keep to their number of flows. -/
  | gatewayDegree
  /-- Exactly one end of a conversation link is a conversation node. -/
  | conversationLinkEndpoints
  /-- A global conversation has no conversation nodes or links. -/
  | globalConversation
  /-- The flows listed at a node start or end there. -/
  | flowNodeEdges
  /-- A sequence flow stays in its container. -/
  | sequenceFlowContainment
  /-- The flows of an executable process are immediate. -/
  | executableImmediacy
  /-- A public process is not executable. -/
  | publicProcessExecutable
  /-- A default flow leaves the node that declares it. -/
  | defaultFlow
  /-- A mixed gateway merges and splits. -/
  | mixedGateway
deriving DecidableEq, Repr

namespace Rule

/-- Every rule, in order. -/
def all : List Rule :=
  [referenceResolution, gatewayDegree, conversationLinkEndpoints, globalConversation,
    flowNodeEdges, sequenceFlowContainment, executableImmediacy, publicProcessExecutable,
    defaultFlow, mixedGateway]

/-- The name of the rule in settings. -/
def name : Rule → String
  | referenceResolution => "reference-resolution"
  | gatewayDegree => "gateway-degree"
  | conversationLinkEndpoints => "conversation-link-endpoints"
  | globalConversation => "global-conversation"
  | flowNodeEdges => "flow-node-edges"
  | sequenceFlowContainment => "sequence-flow-containment"
  | executableImmediacy => "executable-immediacy"
  | publicProcessExecutable => "public-process-executable"
  | defaultFlow => "default-flow"
  | mixedGateway => "mixed-gateway"

/-- The rule with this name. -/
def find? (text : String) : Option Rule :=
  all.find? (·.name = text)

end Rule

/-- A text that names no rule. -/
structure UnknownRule where
  text : String
deriving DecidableEq

/-- The error in words. -/
def UnknownRule.message (e : UnknownRule) : String :=
  s!"unknown validation rule `{e.text}`"

/-- Reads the name of a rule. -/
def Rule.parse (text : String) : Except UnknownRule Rule :=
  match find? text with
  | some rule => .ok rule
  | none => .error ⟨text⟩

end BpmnModel
