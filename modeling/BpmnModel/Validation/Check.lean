import BpmnModel.Scope.Lookup
import BpmnModel.Validation.Report

/-!
# Checks

One function for each rule, from the scope and what the walk met to the problems found. They model
the methods of `Validator` whose names begin with `check`.

* `Scope.checkReferences` — each reference is resolved, here or in a bound import. Models
  `check_references`.
* `Container.degrees` — the flows that a container leads to and from a gateway; the lists at the
  gateway do not count. `checkGatewayDegree` and `checkMixedGateway` use them, as
  `check_gateway_degree` and `check_mixed_gateway` use `edges`.
* `Scope.checkEdges`, `Scope.checkContainment`, `Scope.checkDefaultFlow` — flows and the places they
  are named in. What no element of the scope is named by is left to the check of references. Model
  `check_flow_node_edges`, `check_sequence_flow_containment` and `check_default_flow`.
* `Scope.checkLink`, `checkGlobalConversation`, `checkPublicProcess`, `checkImmediacy` — model
  `check_conversation_link`, `check_global_conversation`, `check_public_process` and
  `check_immediacy`.
-/

namespace BpmnModel

namespace Scope

/-- References of an element that do not resolve as required. -/
def checkReferences (s : Scope) (e : Element) : List Diagnostic :=
  e.references.filterMap fun ref =>
    match s.resolveReference ref with
    | .ok _ => none
    | .error error =>
      let found (code : Code) (labels : List Label) (help : Option String) : Diagnostic :=
        ⟨.error, some code, .referenceResolution, e.id, error, labels, help⟩
      match error with
      | .capabilityMismatch _ kind requires =>
        some <| found .capabilityMismatch
          [⟨e.id, s!"`{ref.field}` requires {requires}", true⟩,
            ⟨ref.id, s!"this is a {kind}", false⟩]
          none
      | _ =>
        some <| found .danglingReference
          [⟨e.id, s!"`{ref.field}` names an unknown element", true⟩]
          (some s!"define `{ref.id}` in this scope or in a bound import")

/-- The sequence flow that is registered here under this identifier. -/
def sequenceFlow? (s : Scope) (id : Id) : Option SequenceFlow :=
  ((s.get? id).bind Element.flowElement?).bind FlowElement.sequenceFlow?

end Scope

/-- A public process that is executable. -/
def checkPublicProcess (p : Process) : List Diagnostic :=
  if p.type = .exposed ∧ p.isExecutable = some true then
    let id := p.identity.id
    [⟨.error, some .executablePublic, .publicProcessExecutable, id,
      .structural id "a public process cannot be executable",
      [⟨id, "processType is Public", true⟩],
      some "set `isExecutable` to false or make the process Private"⟩]
  else []

/-- Conversation nodes or links in a global conversation. -/
def checkGlobalConversation (c : Collaboration) : List Diagnostic :=
  let nodes := c.conversations.items
  let links := c.links.items
  if c.isGlobal ∧ ¬(nodes.isEmpty ∧ links.isEmpty) then
    let id := c.identity.id
    let problem := s!"global conversation contains {nodes.length} conversation nodes and " ++
      s!"{links.length} conversation links"
    [⟨.error, some .globalConversation, .globalConversation, id, .structural id problem,
      ⟨id, "global conversation", true⟩ ::
        ((nodes.map fun n => ⟨n.id, "conversation node", false⟩) ++
          links.map fun l => ⟨l.id, "conversation link", false⟩),
      some "model the conversation in a regular collaboration"⟩]
  else []

/-- A conversation link whose ends resolve, but not to one conversation node exactly. -/
def Scope.checkLink (s : Scope) (l : ConversationLink) : List Diagnostic :=
  match s.lookup l.source.id, s.lookup l.target.id with
  | some source, some target =>
    let found (problem : String) : List Diagnostic :=
      [⟨.error, some .linkEndpoints, .conversationLinkEndpoints, l.id, .structural l.id problem,
        [⟨l.id, "conversation link", true⟩,
          ⟨l.source.id, s!"source is a {source.kind}", false⟩,
          ⟨l.target.id, s!"target is a {target.kind}", false⟩],
        some "link a participant to a conversation, or a conversation to a participant"⟩]
    match source.kind.has .conversationNode, target.kind.has .conversationNode with
    | true, true => found "both ends are conversation nodes"
    | false, false => found "neither end is a conversation node"
    | _, _ => []
  | _, _ => []

/-- The flows of a container that end at a node, and those that start there. -/
def Container.degrees (c : Container) (node : Id) : List Id × List Id :=
  (((c.sequenceFlows.filter (·.target.id = node)).map SequenceFlow.id),
    ((c.sequenceFlows.filter (·.source.id = node)).map SequenceFlow.id))

/-- A converging gateway with several flows out, or a diverging one with several flows in. -/
def checkGatewayDegree (g : Gateway) (c : Container) : List Diagnostic :=
  let id := g.base.id
  let (incoming, outgoing) := c.degrees id
  let found (surplus : List Id) (side help : String) : List Diagnostic :=
    [⟨.error, some .gatewayDegree, .gatewayDegree, id,
      .degreeConstraint id g.direction incoming.length outgoing.length,
      ⟨id, "declared " ++ Vocabulary.spell g.direction, true⟩ ::
        surplus.map fun flow => ⟨flow, s!"{side} flow", false⟩,
      some help⟩]
  match g.direction with
  | .converging =>
    if 1 < outgoing.length then
      found outgoing "outgoing" "a converging gateway may leave through one sequence flow at most"
    else []
  | .diverging =>
    if 1 < incoming.length then
      found incoming "incoming"
        "a diverging gateway may be entered through one sequence flow at most"
    else []
  | .unspecified | .mixed => []

/-- A mixed gateway that does not both merge and split. -/
def checkMixedGateway (g : Gateway) (c : Container) : List Diagnostic :=
  let id := g.base.id
  let (incoming, outgoing) := c.degrees id
  if g.direction = .mixed ∧ ¬(1 < incoming.length ∧ 1 < outgoing.length) then
    let problem := s!"Mixed gateway has {incoming.length} incoming and " ++
      s!"{outgoing.length} outgoing sequence flows"
    let help := "a mixed gateway should both merge and split; " ++
      "declare it Converging or Diverging instead"
    [⟨.warning, some .mixedGateway, .mixedGateway, id, .structural id problem,
      [⟨id, "declared Mixed", true⟩], some help⟩]
  else []

/-- The two sides of a flow node. -/
inductive EdgeSide where
  | incoming
  | outgoing
deriving DecidableEq

namespace EdgeSide

def name : EdgeSide → String
  | incoming => "incoming"
  | outgoing => "outgoing"

/-- What a flow does at the node on this side. -/
def verb : EdgeSide → String
  | incoming => "ends"
  | outgoing => "starts"

/-- The end of a flow that is on this side. -/
def of (side : EdgeSide) (f : SequenceFlow) : Id :=
  match side with
  | incoming => f.target.id
  | outgoing => f.source.id

end EdgeSide

namespace Scope

/-- A flow that is listed at a node but is not there on that side. -/
def checkEdge (s : Scope) (node : Id) (side : EdgeSide) (flow : Id) : Option Diagnostic :=
  match s.sequenceFlow? flow with
  | none => none
  | some f =>
    let actual := side.of f
    if actual = node then none
    else
      let problem := s!"lists `{flow}` as " ++ side.name ++ " but the flow " ++ side.verb ++
        s!" at `{actual}`"
      some ⟨.error, some .edgeMismatch, .flowNodeEdges, node, .structural node problem,
        [⟨node, side.name ++ " list", true⟩, ⟨flow, side.verb ++ s!" at `{actual}`", false⟩], none⟩

/-- Flows that are listed at a node but start or end elsewhere. -/
def checkEdges (s : Scope) (node : Id) (edges : Edges) : List Diagnostic :=
  (Ref.ids edges.incoming).filterMap (s.checkEdge node .incoming) ++
    (Ref.ids edges.outgoing).filterMap (s.checkEdge node .outgoing)

/-- An end of a flow, called `role`, that is registered here but not in the container of the flow. -/
def checkEnd (s : Scope) (f : SequenceFlow) (c : Container) (role : String) (theEnd : Id) :
    List Diagnostic :=
  match c.find? theEnd, s.registry.slot? theEnd with
  | none, some slot =>
    let owner :=
      match slot.owner with
      | none => "the definitions"
      | some owner => s!"`{owner}`"
    [⟨.error, some .containment, .sequenceFlowContainment, f.id,
      .structural f.id s!"{role} `{theEnd}` is owned by {owner}, not by the flow's container",
      [⟨f.id, "sequence flow", true⟩, ⟨theEnd, s!"{role} lives elsewhere", false⟩],
      some "connect elements of different containers with a message flow"⟩]
  | _, _ => []

/-- Ends of a flow outside its container. -/
def checkContainment (s : Scope) (f : SequenceFlow) (c : Container) : List Diagnostic :=
  s.checkEnd f c "source" f.source.id ++ s.checkEnd f c "target" f.target.id

/-- A default flow that leaves another node. -/
def checkDefaultFlow (s : Scope) (node : Id) (flow : Option (RefTo .sequenceFlow)) :
    List Diagnostic :=
  match flow with
  | none => []
  | some flow =>
    match s.sequenceFlow? flow.id with
    | none => []
    | some f =>
      let source := f.source.id
      if source = node then []
      else
        [⟨.error, some .defaultFlow, .defaultFlow, node,
          .structural node s!"default flow `{flow.id}` leaves `{source}`",
          [⟨node, "declares the default", true⟩, ⟨flow.id, s!"starts at `{source}`", false⟩], none⟩]

end Scope

/-- A flow of an executable process that is not immediate. -/
def checkImmediacy (executable : Bool) (f : SequenceFlow) : List Diagnostic :=
  if executable ∧ f.isImmediate = some false then
    [⟨.error, some .deferredFlow, .executableImmediacy, f.id,
      .structural f.id "executable processes require immediate sequence flows",
      [⟨f.id, "isImmediate is false", true⟩],
      some "remove `isImmediate` or mark the process as not executable"⟩]
  else []

end BpmnModel
