import BpmnModel.Main
import BpmnModel.Proofs.Editing
import BpmnModel.Scope.Shelf
import BpmnModel.Proofs.Atomicity
import BpmnModel.Proofs.Fields
import BpmnModel.Proofs.Mirroring
import BpmnModel.Proofs.Writing
import BpmnModel.Proofs.Definitions
import BpmnModel.Proofs.Collaborations
import BpmnModel.Proofs.Wiring
import BpmnModel.Proofs.Completeness
import BpmnModel.Proofs.FlowNodes
import BpmnModel.Proofs.Rereading
import BpmnModel.Proofs.Flows
import BpmnModel.Proofs.Sameness
import BpmnModel.Proofs.Documents
import BpmnModel.Proofs.RoundTrip
import BpmnModel.Proofs.JsonText
import BpmnModel.Proofs.DocumentText
import BpmnModel.Proofs.Reloading
import BpmnModel.Proofs.Resolution
import BpmnModel.Proofs.CleanFlows
import BpmnModel.Proofs.EdgeOrder
import BpmnModel.Proofs.TextNesting
import BpmnModel.Proofs.Coverage
import BpmnModel.Proofs.LocalInvariants
import BpmnModel.Proofs.FileTrees
import BpmnModel.Proofs.Running
import BpmnModel.Proofs.Growth
import BpmnModel.Proofs.Stepwise
import BpmnModel.Proofs.Representation
import BpmnModel.Proofs.RealEdges
import BpmnModel.Proofs.Removal
import BpmnModel.Proofs.Pointers
import BpmnModel.Proofs.Verdicts
import BpmnModel.Proofs.Normalisation
import BpmnModel.Proofs.RepeatedRuns
import BpmnModel.Proofs.OwnerChains
import BpmnModel.Proofs.ChildLookup
import BpmnModel.Proofs.Assembly
import BpmnModel.Proofs.Undoing
import BpmnModel.Proofs.Addition
import BpmnModel.Proofs.Gateways
import BpmnModel.Proofs.Snippets
import BpmnModel.Proofs.ConversationRules
import BpmnModel.Proofs.Quantities
import BpmnModel.Proofs.DocumentOrder
import BpmnModel.Proofs.Capabilities
