/-!
# Closed vocabularies

An attribute with a fixed set of values is an enumeration with an instance of `Vocabulary`: its
title, its members in order and their interchange spelling. The default member of each enumeration
is its `Inhabited` instance. Models the enumerations that `vocabulary` declares, with their `NAMES`.
-/

namespace BpmnModel

/-- A closed set of values, each with one spelling. -/
class Vocabulary (α : Type) where
  /-- The name of the vocabulary in messages. -/
  title : String
  /-- The members, in the order in which messages list them. -/
  all : List α
  /-- The interchange spelling. -/
  spell : α → String

namespace Vocabulary

variable {α : Type} [Vocabulary α]

/-- Every accepted spelling, in order. -/
def names (α : Type) [Vocabulary α] : List String :=
  (all : List α).map spell

/-- The member that is spelled like `text`. Case and blanks count. -/
def find? (text : String) : Option α :=
  all.find? (fun v => spell v == text)

end Vocabulary

/-- How far an association points. -/
inductive AssociationDirection where
  | none
  | one
  | both
deriving DecidableEq, Repr

instance : Inhabited AssociationDirection := ⟨.none⟩

instance : Vocabulary AssociationDirection where
  title := "associationDirection"
  all := [.none, .one, .both]
  spell
    | .none => "None"
    | .one => "One"
    | .both => "Both"

/-- Whether an item is information or a physical thing. -/
inductive ItemKind where
  | information
  | physical
deriving DecidableEq, Repr

instance : Inhabited ItemKind := ⟨.information⟩

instance : Vocabulary ItemKind where
  title := "itemKind"
  all := [.information, .physical]
  spell
    | .information => "Information"
    | .physical => "Physical"

/-- Whether a gateway merges, splits or does both. -/
inductive GatewayDirection where
  | unspecified
  | converging
  | diverging
  | mixed
deriving DecidableEq, Repr

instance : Inhabited GatewayDirection := ⟨.unspecified⟩

instance : Vocabulary GatewayDirection where
  title := "gatewayDirection"
  all := [.unspecified, .converging, .diverging, .mixed]
  spell
    | .unspecified => "Unspecified"
    | .converging => "Converging"
    | .diverging => "Diverging"
    | .mixed => "Mixed"

/-- How a gateway chooses among its flows. -/
inductive GatewayType where
  | exclusive
  | inclusive
  | parallel
  | complex
  | eventBased
deriving DecidableEq, Repr

instance : Inhabited GatewayType := ⟨.exclusive⟩

instance : Vocabulary GatewayType where
  title := "gatewayType"
  all := [.exclusive, .inclusive, .parallel, .complex, .eventBased]
  spell
    | .exclusive => "Exclusive"
    | .inclusive => "Inclusive"
    | .parallel => "Parallel"
    | .complex => "Complex"
    | .eventBased => "EventBased"

/-- Whether a process is meant for the inside or the outside of an organisation. -/
inductive ProcessType where
  | none
  | internal
  | exposed
deriving DecidableEq, Repr

instance : Inhabited ProcessType := ⟨.none⟩

instance : Vocabulary ProcessType where
  title := "processType"
  all := [.none, .internal, .exposed]
  spell
    | .none => "None"
    | .internal => "Private"
    | .exposed => "Public"

/-- Which way a relationship reads. -/
inductive RelationshipDirection where
  | none
  | forward
  | backward
  | both
deriving DecidableEq, Repr

instance : Inhabited RelationshipDirection := ⟨.none⟩

instance : Vocabulary RelationshipDirection where
  title := "direction"
  all := [.none, .forward, .backward, .both]
  spell
    | .none => "None"
    | .forward => "Forward"
    | .backward => "Backward"
    | .both => "Both"

/-- The part a resource plays in an activity or process. -/
inductive ResourceRoleKind where
  | performer
  | humanPerformer
  | potentialOwner
  | generic
deriving DecidableEq, Repr

instance : Inhabited ResourceRoleKind := ⟨.performer⟩

instance : Vocabulary ResourceRoleKind where
  title := "resourceRole"
  all := [.performer, .humanPerformer, .potentialOwner, .generic]
  spell
    | .performer => "Performer"
    | .humanPerformer => "HumanPerformer"
    | .potentialOwner => "PotentialOwner"
    | .generic => "ResourceRole"

end BpmnModel
