import BpmnModel.Scope.Basic

/-!
# Finding elements

* `Scope.get?` — an element of the scope itself, found by walking down the path that the registry
  gives. Models `Definitions.get`.
* `Scope.lookup` — the same, then in the scopes of bound imports in order, each with its own
  imports. Models `Definitions.lookup`.
* `Scope.resolve` — a lookup whose result has to meet a requirement. Models `Definitions.resolve`;
  `Scope.resolveRef` and `Scope.resolveReference` model `resolve_ref` and `resolve_reference`.
* `Scope.containerOf?` — the owner of a flow element with its contents. Models
  `Definitions.container_of`.
-/

namespace BpmnModel

namespace Element

/-- The element that a chain of children leads to. -/
def descend? (e : Element) : List Id → Option Element
  | [] => some e
  | step :: rest =>
    match e.child? step with
    | none => none
    | some child => child.descend? rest

end Element

namespace Scope

/-- The root element or else the relationship with this identifier. -/
def topLevel? (s : Scope) (id : Id) : Option Element :=
  match s.root? id with
  | some r => some (.root r)
  | none => (s.relationships.find? (·.id = id)).map .relationship

/-- The element registered under the identifier. -/
def get? (s : Scope) (id : Id) : Option Element :=
  match s.registry.path id with
  | [] => none
  | top :: rest => (s.topLevel? top).bind (·.descend? rest)

mutual

/-- The element with this identifier, here or in a bound import. -/
def lookup (id : Id) : Scope → Option Element
  | ⟨header, roots, relationships, imports, extensions, registry⟩ =>
    match get? ⟨header, roots, relationships, imports, extensions, registry⟩ id with
    | some e => some e
    | none => lookupImports id imports

/-- The first element with this identifier in the scopes that imports are bound to. -/
def lookupImports (id : Id) : List Import → Option Element
  | [] => none
  | i :: is =>
    match lookupImport id i with
    | some e => some e
    | none => lookupImports id is

/-- The element with this identifier in the scope that an import is bound to. -/
def lookupImport (id : Id) : Import → Option Element
  | .unbound _ => none
  | .bound _ _ scope => lookup id scope

end

/-- The element with this identifier, if it meets the requirement. -/
def resolve (s : Scope) (id : Id) (requires : Requirement) : Except ModelError Element :=
  match s.lookup id with
  | none => .error (.danglingReference id requires)
  | some e =>
    if requires.isMetBy e.kind then .ok e else .error (.capabilityMismatch id e.kind requires)

/-- The element that a typed reference leads to. -/
def resolveRef {requires : Requirement} (s : Scope) (ref : Ref requires) :
    Except ModelError Element :=
  s.resolve ref.id requires

/-- The element that a listed reference leads to. -/
def resolveReference (s : Scope) (ref : Reference) : Except ModelError Element :=
  s.resolve ref.id ref.requires

/-- The process or sub-process that owns an element, with its contents. -/
def containerOf? (s : Scope) (id : Id) : Option (Element × Container) := do
  let slot ← s.registry.slot? id
  let owner ← slot.owner
  let e ← s.get? owner
  let c ← e.container?
  return (e, c)

/-- The kind registered under an identifier. -/
def kindOf? (s : Scope) (id : Id) : Option Kind :=
  (s.registry.slot? id).map Slot.kind

/-- The number of elements of the scope, imports apart. -/
def size (s : Scope) : Nat := s.registry.size

end Scope

end BpmnModel
