import BpmnModel.Validation.Rule

/-!
# Validation options

Which rules run. The rule on mixed gateways also needs the policy to warn. Models
`ValidationOptions` with `is_enabled`, `disable` and `with_mixed_gateways`.
-/

namespace BpmnModel

/-- What to do about mixed gateways that do not both merge and split. -/
inductive MixedGatewayPolicy where
  | ignore
  | warn
deriving DecidableEq, Repr

instance : Inhabited MixedGatewayPolicy := ⟨.ignore⟩

namespace MixedGatewayPolicy

/-- The name of the policy in settings. -/
def name : MixedGatewayPolicy → String
  | ignore => "ignore"
  | warn => "warn"

/-- The policy with this name. -/
def find? (text : String) : Option MixedGatewayPolicy :=
  [ignore, warn].find? (·.name = text)

end MixedGatewayPolicy

/-- Which rules run. -/
structure ValidationOptions where
  mixedGateways : MixedGatewayPolicy
  disabledRules : List Rule
deriving DecidableEq, Repr

instance : Inhabited ValidationOptions := ⟨⟨default, []⟩⟩

namespace ValidationOptions

/-- Whether a rule runs. -/
def isEnabled (o : ValidationOptions) (rule : Rule) : Bool :=
  !(rule == .mixedGateway && o.mixedGateways == .ignore) && !o.disabledRules.contains rule

/-- Switches a rule off. -/
def disable (o : ValidationOptions) (rule : Rule) : ValidationOptions :=
  if o.disabledRules.contains rule then o
  else { o with disabledRules := o.disabledRules ++ [rule] }

/-- Sets the policy on mixed gateways. -/
def withMixedGateways (o : ValidationOptions) (policy : MixedGatewayPolicy) : ValidationOptions :=
  { o with mixedGateways := policy }

/-- The rules that run, in order. -/
def enabled (o : ValidationOptions) : List Rule :=
  Rule.all.filter o.isEnabled

end ValidationOptions

end BpmnModel
