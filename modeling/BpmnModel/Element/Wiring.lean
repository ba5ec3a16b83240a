import BpmnModel.Element.FlowElement

/-!
# Wiring of containers

A container keeps the flows listed at its nodes up to date: inserting a sequence flow lists it at
the nodes it touches, inserting a node lists the flows that already touch it, and removing a
sequence flow strikes it everywhere.

* `Container.insert` — fails exactly when the identifier is taken. Models `ContainerRole.insert`.
* `Container.remove?` — the element and what is left. Models `ContainerRole.remove`.
* `Container.assemble` — a container from its contents, inserted one by one. Models
  `ContainerRole.new`.
* `Container.descend?` and `Container.replaceAt` — the container that a chain of sub-processes leads
  to, and putting another in its place. Model the loop of `container_mut`.
* `FlowElement.Assembled` — the flow elements that can be built: what a sub-process contains was
  assembled.
-/

namespace BpmnModel

namespace FlowElement

/-- Lists a sequence flow at the element if it touches it. -/
def attach (e : FlowElement) (flow : SequenceFlow) : FlowElement :=
  e.mapEdges fun edges => edges.attach e.id flow

/-- Strikes a sequence flow from the element. -/
def detach (flow : Id) (e : FlowElement) : FlowElement :=
  e.mapEdges fun edges => edges.detach flow

end FlowElement

namespace Container

/-- Appends a flow element and wires it. -/
def insert (c : Container) (e : FlowElement) : Except ModelError Container :=
  match c.find? e.id with
  | some _ => .error (.duplicateId e.id)
  | none =>
    match e with
    | .sequenceFlow flow =>
      .ok { c with elements := c.elements.map (·.attach flow) ++ [.sequenceFlow flow] }
    | node => .ok { c with elements := c.elements ++ [c.sequenceFlows.foldl .attach node] }

/-- Inserts flow elements in order, up to the first that clashes. -/
def insertAll (c : Container) : List FlowElement → Except ModelError Container
  | [] => .ok c
  | e :: es =>
    match c.insert e with
    | .error refusal => .error refusal
    | .ok c => c.insertAll es

/-- A container with these contents, wired. -/
def assemble (elements : List FlowElement) (laneSets : List LaneSet) :
    Except ModelError Container :=
  insertAll ⟨[], laneSets⟩ elements

/-- Appends a lane set. -/
def pushLaneSet (c : Container) (laneSet : LaneSet) : Container :=
  { c with laneSets := c.laneSets ++ [laneSet] }

/-- Takes out a flow element, keeping the order of the others. -/
def remove? (c : Container) (id : Id) : Option (FlowElement × Container) :=
  match c.find? id with
  | none => none
  | some e =>
    let rest := c.elements.eraseP (·.id = id)
    match e with
    | .sequenceFlow _ => some (e, { c with elements := rest.map (.detach id) })
    | _ => some (e, { c with elements := rest })

/-- The container that a chain of sub-processes leads to. -/
def descend? (c : Container) : List Id → Option Container
  | [] => some c
  | step :: rest =>
    match (c.find? step).bind FlowElement.container? with
    | none => none
    | some inner => inner.descend? rest

/-- Puts `new` in the place of the container that a chain of sub-processes leads to. -/
def replaceAt (new : Container) : List Id → Container → Container
  | [], _ => new
  | step :: rest, c =>
    { c with
      elements := c.elements.map fun e =>
        if e.id = step then e.mapContainer (replaceAt new rest) else e }

end Container

/-- The flow elements whose contents, at every depth, were assembled from such elements. -/
inductive FlowElement.Assembled : FlowElement → Prop where
  | task (a : Activity) (w : TaskWork) : Assembled (.task a w)
  | callActivity (a : Activity) (called : Option (Ref .anyCallable)) :
    Assembled (.callActivity a called)
  | subProcess (a : Activity) (triggeredByEvent : Bool) (artifacts : List Artifact)
    {elements : List FlowElement} {laneSets : List LaneSet} {c : Container}
    (inner : ∀ e ∈ elements, Assembled e) (assembled : Container.assemble elements laneSets = .ok c) :
    Assembled (.subProcess a triggeredByEvent c.elements c.laneSets artifacts)
  | gateway (g : Gateway) : Assembled (.gateway g)
  | event (e : Event) : Assembled (.event e)
  | sequenceFlow (f : SequenceFlow) : Assembled (.sequenceFlow f)

end BpmnModel
