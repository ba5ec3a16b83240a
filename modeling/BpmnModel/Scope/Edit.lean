import BpmnModel.Scope.Lookup

/-!
# Editing scopes

An `Edit` gives a result or a refusal, and the scope afterwards either way. The operations that add
an element first register the tree of the element and then store it with its owner; what a refusal
leaves behind is therefore part of their meaning. They model the methods of `DefinitionsBuilder`.

* `Scope.addRoot`, `Scope.removeRoot`, `Scope.addRelationship` — elements without an owner. Model
  `add_root_element`, `remove_root_element` and `add_relationship`.
* `Scope.addFlowElement`, `Scope.removeFlowElement`, `Scope.addLaneSet` — contents of containers.
  Model `add_flow_element`, `remove_flow_element` and `add_lane_set`, with `Scope.containerPath` for
  `container_path`.
* `Scope.addOperation` and `Scope.addParticipant` to `Scope.addLink` — what interfaces and
  collaborations own. Model `add_operation`, and by `Scope.addToCollaboration` for
  `with_collaboration` the methods from `add_participant` to `add_conversation_link`.
* `Change` — the edits as data; `Change.perform` runs one.
* `Reachable` — the scopes that edits lead to from a fresh one. The elements that come in are
  assembled and the scopes that imports are bound to are reachable themselves.
-/

namespace BpmnModel

/-- A step that edits a scope and may be refused. -/
abbrev Edit (α : Type) : Type := EStateM ModelError Scope α

namespace Scope

/-- The container that a path of owners leads to: a process, then sub-processes. -/
def containerAt? (s : Scope) : List Id → Option Container
  | [] => none
  | top :: rest =>
    match s.root? top with
    | some (.process p) => p.container.descend? rest
    | _ => none

/-- Puts `new` in the place of the root element with its identifier. -/
def replaceRoot (s : Scope) (new : Root) : Scope :=
  { s with roots := s.roots.map fun r => if r.id = new.id then new else r }

/-- Puts `new` in the place of the container that a path of owners leads to. -/
def replaceContainer (s : Scope) (path : List Id) (new : Container) : Scope :=
  match path with
  | [] => s
  | top :: rest =>
    match s.root? top with
    | some (.process p) =>
      s.replaceRoot (.process { p with container := Container.replaceAt new rest p.container })
    | _ => s

/-- Why `id` may not be an owner that meets `requires`, if it may not. The registry decides. -/
def objection? (s : Scope) (id : Id) (requires : Requirement) : Option ModelError :=
  match s.registry.slot? id with
  | none => some (.danglingReference id requires)
  | some slot =>
    if requires.isMetBy slot.kind then none
    else some (.capabilityMismatch id slot.kind requires)

/-- Checks that `id` is registered here with a kind that meets `requires`. -/
def expect (id : Id) (requires : Requirement) : Edit Unit := fun s =>
  match s.objection? id requires with
  | some e => .error e s
  | none => .ok () s

/-- Registers an element and all that it owns. -/
def registerTree (e : Element) (owner : Option Id) : Edit Unit := fun s =>
  match s.registry.register e owner with
  | .error refusal => .error refusal s
  | .ok registry => .ok () { s with registry }

/-- Takes an element and all that it owns out of the registry. -/
def unregisterTree (e : Element) : Edit Unit := fun s =>
  .ok () { s with registry := (s.registry.unregister e).2 }

/-- Adds a root element. -/
def addRoot (r : Root) : Edit Id := do
  registerTree (.root r) none
  modify fun s => { s with roots := s.roots ++ [r] }
  return r.id

/-- Takes out a root element, if there is one of that identifier. References to it stay. -/
def removeRoot (id : Id) : Edit (Option Root) := fun s =>
  match s.root? id with
  | none => .ok none s
  | some r =>
    .ok (some r)
      { s with
        roots := s.roots.eraseP (·.id = id)
        registry := (s.registry.unregister (.root r)).2 }

/-- Adds a relationship. -/
def addRelationship (r : Relationship) : Edit Id := do
  registerTree (.relationship r) none
  modify fun s => { s with relationships := s.relationships ++ [r] }
  return r.id

/-- The path to a container, which has to be registered as one and to be there. -/
def containerPath (container : Id) : Edit (List Id) := do
  expect container .anyContainer
  let s ← get
  let path := s.registry.path container
  match s.containerAt? path with
  | none => throw (.danglingReference container .anyContainer)
  | some _ => return path

/-- Appends a flow element to a process or sub-process and wires it there. -/
def addFlowElement (container : Id) (e : FlowElement) : Edit Id := do
  let path ← containerPath container
  registerTree (.flowElement e) (some container)
  let s ← get
  match s.containerAt? path with
  | none => return e.id
  | some c =>
    match c.insert e with
    | .error refusal => throw refusal
    | .ok c =>
      set (s.replaceContainer path c)
      return e.id

/-- Takes a flow element, with all that it owns, out of its container. -/
def removeFlowElement (id : Id) : Edit FlowElement := do
  let s ← get
  match (s.registry.slot? id).bind Slot.owner with
  | none => throw (.danglingReference id .anyFlowElement)
  | some owner =>
    let path := s.registry.path owner
    match (s.containerAt? path).bind (·.remove? id) with
    | none => throw (.danglingReference id .anyFlowElement)
    | some (e, c) =>
      set (s.replaceContainer path c)
      unregisterTree (.flowElement e)
      return e

/-- Appends a lane set to a process or sub-process. -/
def addLaneSet (container : Id) (laneSet : LaneSet) : Edit Id := do
  let path ← containerPath container
  registerTree (.laneSet laneSet) (some container)
  modify fun s =>
    match s.containerAt? path with
    | none => s
    | some c => s.replaceContainer path (c.pushLaneSet laneSet)
  return laneSet.identity.id

/-- Appends an operation to an interface. -/
def addOperation (interface : Id) (operation : Operation) : Edit Id := do
  expect interface (.kind .interface)
  registerTree (.operation operation) (some interface)
  modify fun s =>
    match s.root? interface with
    | some (.interface i) => s.replaceRoot (.interface (i.push operation))
    | _ => s
  return operation.id

/-- Registers a child of a collaboration and stores it there. -/
def addToCollaboration (collaboration : Id) (child : Element)
    (store : Collaboration → Collaboration) : Edit Id := do
  expect collaboration .anyCollaboration
  registerTree child (some collaboration)
  let s ← get
  match s.root? collaboration with
  | some (.collaboration c) =>
    set (s.replaceRoot (.collaboration (store c)))
    return child.id
  | _ => throw (.danglingReference collaboration .anyCollaboration)

/-- Appends a participant to a collaboration. -/
def addParticipant (collaboration : Id) (p : Participant) : Edit Id :=
  addToCollaboration collaboration (.participant p) (·.pushParticipant p)

/-- Appends a message flow to a collaboration. -/
def addMessageFlow (collaboration : Id) (f : MessageFlow) : Edit Id :=
  addToCollaboration collaboration (.messageFlow f) (·.pushMessageFlow f)

/-- Appends a conversation node to a collaboration. -/
def addConversation (collaboration : Id) (n : ConversationNode) : Edit Id :=
  addToCollaboration collaboration (.conversationNode n) (·.pushConversation n)

/-- Appends a conversation link to a collaboration. -/
def addLink (collaboration : Id) (l : ConversationLink) : Edit Id :=
  addToCollaboration collaboration (.conversationLink l) (·.pushLink l)

/-- Appends an import. -/
def addImport (s : Scope) (i : Import) : Scope :=
  { s with imports := s.imports ++ [i] }

/-- Appends an extension. -/
def addExtension (s : Scope) (e : Extension) : Scope :=
  { s with extensions := s.extensions ++ [e] }

/-- Replaces documentation and extension values of the scope itself. -/
def describe (s : Scope) (documentation : List Documentation)
    (extensionValues : List ExtensionValue) : Scope :=
  { s with header := { s.header with identity := ⟨s.id, documentation, extensionValues⟩ } }

end Scope

/-- The fields of a header that can be set on their own. -/
inductive HeaderField where
  | name
  | expressionLanguage
  | typeLanguage
  | exporter
  | exporterVersion
deriving DecidableEq

/-- The field with this name. -/
def HeaderField.find? : String → Option HeaderField
  | "name" => some name
  | "expressionLanguage" => some expressionLanguage
  | "typeLanguage" => some typeLanguage
  | "exporter" => some exporter
  | "exporterVersion" => some exporterVersion
  | _ => none

/-- Sets one field of a header. -/
def Header.set (h : Header) (field : HeaderField) (value : String) : Header :=
  match field with
  | .name => { h with name := some value }
  | .expressionLanguage => { h with expressionLanguage := value }
  | .typeLanguage => { h with typeLanguage := value }
  | .exporter => { h with exporter := some value }
  | .exporterVersion => { h with exporterVersion := some value }

/-- Sets one field of the header of a scope. -/
def Scope.setField (s : Scope) (field : HeaderField) (value : String) : Scope :=
  { s with header := s.header.set field value }

/-- One edit of a scope, as data. -/
inductive Change where
  | describe (documentation : List Documentation) (extensionValues : List ExtensionValue)
  | setField (field : HeaderField) (value : String)
  | addImport (i : Import)
  | addExtension (e : Extension)
  | addRoot (r : Root)
  | removeRoot (id : Id)
  | addRelationship (r : Relationship)
  | addFlowElement (container : Id) (e : FlowElement)
  | removeFlowElement (id : Id)
  | addLaneSet (container : Id) (laneSet : LaneSet)
  | addOperation (interface : Id) (operation : Operation)
  | addParticipant (collaboration : Id) (p : Participant)
  | addMessageFlow (collaboration : Id) (f : MessageFlow)
  | addConversation (collaboration : Id) (n : ConversationNode)
  | addLink (collaboration : Id) (l : ConversationLink)

/-- What an edit that was not refused reports. -/
inductive Outcome where
  /-- Nothing to report. -/
  | done
  /-- An element was added under this identifier. -/
  | added (id : Id)
  /-- This element was taken out, or there was none. -/
  | removed (e : Option Element)

/-- Runs one edit. -/
def Change.perform : Change → Edit Outcome
  | describe documentation values => do
    modify (·.describe documentation values)
    return .done
  | setField field value => do
    modify (·.setField field value)
    return .done
  | addImport i => do
    modify (·.addImport i)
    return .done
  | addExtension e => do
    modify (·.addExtension e)
    return .done
  | addRoot r => .added <$> Scope.addRoot r
  | removeRoot id => (fun r => .removed (r.map .root)) <$> Scope.removeRoot id
  | addRelationship r => .added <$> Scope.addRelationship r
  | addFlowElement c e => .added <$> Scope.addFlowElement c e
  | removeFlowElement id => (fun e => .removed (some (.flowElement e))) <$> Scope.removeFlowElement id
  | addLaneSet c s => .added <$> Scope.addLaneSet c s
  | addOperation i o => .added <$> Scope.addOperation i o
  | addParticipant c p => .added <$> Scope.addParticipant c p
  | addMessageFlow c f => .added <$> Scope.addMessageFlow c f
  | addConversation c n => .added <$> Scope.addConversation c n
  | addLink c l => .added <$> Scope.addLink c l

/-- The scope after an edit, also after one that was refused. -/
def Change.after (c : Change) (s : Scope) : Scope :=
  match c.perform s with
  | .ok _ s => s
  | .error _ s => s

/-- The edits that bring in only elements whose contents were assembled. -/
def Change.Assembled : Change → Prop
  | addRoot r => r.Assembled
  | addFlowElement _ e => e.Assembled
  | _ => True

/-- The scope that an edit binds an import to. -/
def Change.boundScope? : Change → Option Scope
  | addImport i => i.scope?
  | _ => none

/-- The scopes that edits lead to from a fresh one, refused edits included. -/
inductive Reachable : Scope → Prop where
  | fresh (id : Id) (targetNamespace : String) : Reachable (Scope.fresh id targetNamespace)
  | after (c : Change) {s : Scope} (assembled : c.Assembled)
    (bound : ∀ t, c.boundScope? = some t → Reachable t) (h : Reachable s) : Reachable (c.after s)

end BpmnModel
