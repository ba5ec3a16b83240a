import BpmnModel.Element.Subtree

/-!
# Registry of identifiers

A `Registry` records for each registered identifier the kind of its element and its owner, and which
identifiers are reserved. It holds no elements. Models `Registry` and `Slot`.

* `Registry.register` — all or nothing; it refuses the first identifier of the tree that is taken or
  repeated. Models `register_tree`.
* `Registry.unregister` — takes the identifiers of a tree out again. Models `unregister_tree`.
* `Registry.path?` — the chain of owners above an identifier. It has no answer only if the recorded
  owners run in a circle, where the loop of `path` does not end.
-/

namespace BpmnModel

/-- What is recorded about one element. -/
structure Slot where
  kind : Kind
  owner : Option Id
deriving DecidableEq

/-- The identifiers in use, in the order of their registration. -/
structure Registry where
  slots : List (Id × Slot)
  reserved : List Id
deriving DecidableEq

/-- The record that an element leaves in a registry. -/
def Placed.slot (p : Placed) : Id × Slot :=
  (p.id, ⟨p.element.kind, p.owner⟩)

namespace Registry

/-- Nothing registered or reserved. -/
def empty : Registry := ⟨[], []⟩

/-- The record of a registered identifier. -/
def slot? (r : Registry) (id : Id) : Option Slot :=
  r.slots.lookup id

/-- Whether the identifier is registered. -/
def contains (r : Registry) (id : Id) : Bool :=
  (r.slot? id).isSome

/-- Whether the identifier is registered or reserved. -/
def isTaken (r : Registry) (id : Id) : Bool :=
  r.contains id || r.reserved.contains id

/-- The number of registered identifiers. -/
def size (r : Registry) : Nat := r.slots.length

/-- The registered identifiers. -/
def ids (r : Registry) : List Id := r.slots.map Prod.fst

/-- Takes an identifier without registering an element under it. -/
def reserve (r : Registry) (id : Id) : Registry :=
  if r.reserved.contains id then r else { r with reserved := r.reserved ++ [id] }

/-- The first identifier of the list that is taken or stands earlier in it. -/
def firstClash (r : Registry) (seen : List Id) : List Id → Option Id
  | [] => none
  | id :: ids =>
    if r.isTaken id || seen.contains id then some id else r.firstClash (id :: seen) ids

/-- Records all elements of a tree, or none. -/
def registerAll (r : Registry) (tree : List Placed) : Except ModelError Registry :=
  match r.firstClash [] (tree.map Placed.id) with
  | some id => .error (.duplicateId id)
  | none => .ok { r with slots := r.slots ++ tree.map Placed.slot }

/-- Registers an element and all that it owns. -/
def register (r : Registry) (e : Element) (owner : Option Id) : Except ModelError Registry :=
  r.registerAll (e.placed owner)

/-- Takes one identifier out. -/
def erase (r : Registry) (id : Id) : Registry :=
  { r with slots := r.slots.eraseP (·.1 = id) }

/-- Takes an element and all that it owns out, with the number of identifiers that were registered. -/
def unregister (r : Registry) (e : Element) : Nat × Registry :=
  e.subtree.foldl
    (fun (released, r) x => if r.contains x.id then (released + 1, r.erase x.id) else (released, r))
    (0, r)

/-- Walks up from `id` for at most `steps` owners, with the part of the path walked so far. -/
def climb (r : Registry) : (steps : Nat) → Id → List Id → Option (List Id)
  | 0, _, _ => none
  | steps + 1, id, below =>
    match r.slot? id with
    | none => some []
    | some slot =>
      match slot.owner with
      | none => some (id :: below)
      | some owner => r.climb steps owner (id :: below)

/-- The identifiers from the topmost owner down to `id`; empty if one of them is not registered.
There is no path if the owners run in a circle. -/
def path? (r : Registry) (id : Id) : Option (List Id) :=
  r.climb (r.slots.length + 1) id []

/-- The path to `id`, empty if there is none. -/
def path (r : Registry) (id : Id) : List Id :=
  (r.path? id).getD []

end Registry

end BpmnModel
