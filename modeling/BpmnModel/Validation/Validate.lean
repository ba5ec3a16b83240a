import BpmnModel.Validation.Check
import BpmnModel.Validation.Options
import BpmnModel.Validation.Traversal

/-!
# Validation

`Scope.validate` walks a scope once and makes the enabled checks on everything it meets. While it is
below a process it knows whether that process is executable. Models `Validator.run`, and `Pass.meet`
models the methods by which `Validator` overrides those of `Visitor`.
-/

namespace BpmnModel

/-- A walk under way: whether the last process met is executable, and what was found so far. -/
structure Pass where
  executable : Bool
  found : List Diagnostic

namespace Pass

/-- Nothing met. -/
def start : Pass := ⟨false, []⟩

/-- Adds findings. -/
def report (p : Pass) (found : List Diagnostic) : Pass :=
  { p with found := p.found ++ found }

end Pass

namespace ValidationOptions

/-- Makes a check if its rule is enabled. -/
def check (o : ValidationOptions) (rule : Rule) (found : List Diagnostic) : List Diagnostic :=
  if o.isEnabled rule then found else []

end ValidationOptions

namespace Scope

/-- The checks on a flow element in its container. -/
def checkFlowElement (s : Scope) (o : ValidationOptions) (executable : Bool) (e : FlowElement)
    (c : Container) : List Diagnostic :=
  (match e.edges? with
    | none => []
    | some edges => o.check .flowNodeEdges (s.checkEdges e.id edges)) ++
  match e with
  | .task a _ | .callActivity a _ | .subProcess a .. =>
    o.check .defaultFlow (s.checkDefaultFlow a.base.id a.defaultFlow)
  | .gateway g =>
    o.check .gatewayDegree (checkGatewayDegree g c) ++
      o.check .mixedGateway (checkMixedGateway g c) ++
      o.check .defaultFlow (s.checkDefaultFlow g.base.id g.defaultFlow)
  | .event _ => []
  | .sequenceFlow f =>
    o.check .sequenceFlowContainment (s.checkContainment f c) ++
      o.check .executableImmediacy (checkImmediacy executable f)

/-- One step of the walk. -/
def meet (s : Scope) (o : ValidationOptions) (pass : Pass) : Visit → Pass
  | .process p =>
    Pass.report { pass with executable := p.isExecutable == some true }
      (o.check .publicProcessExecutable (checkPublicProcess p))
  | .collaboration c => pass.report (o.check .globalConversation (checkGlobalConversation c))
  | .link l => pass.report (o.check .conversationLinkEndpoints (s.checkLink l))
  | .references e => pass.report (o.check .referenceResolution (s.checkReferences e))
  | .container .. => pass
  | .flowElement e c => pass.report (s.checkFlowElement o pass.executable e c)

/-- The problems of a scope under the enabled rules. -/
def validate (s : Scope) (o : ValidationOptions) : Report :=
  .sorted (s.visits.foldl (s.meet o) .start).found

end Scope

end BpmnModel
