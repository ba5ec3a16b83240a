import BpmnModel.Registry

/-!
# Scopes

A `Scope` is a whole model: a header, root elements and relationships, extensions, imports of other
scopes, and the registry of its identifiers. The same type serves while a scope is edited and after;
it models `DefinitionsBuilder` and `Definitions`.

* `Import` — declares another document and may be bound to its scope. The stamp of a bound scope
  tells apart scopes that were saved at different times. Models `Import` and its `with_definitions`.
* `Scope.fresh` — the empty scope of a given identifier, which is reserved in it. Models
  `DefinitionsBuilder.new`.
* `Scope.same` — equality as the program has it: the order of root elements does not count, nor does
  the registry.
-/

namespace BpmnModel

/-- The document types that can be imported. -/
inductive ImportType where
  | xml10
  | wsdl20
  | bpmn20
deriving DecidableEq

namespace ImportType

/-- The short name of the document type. -/
def shortName : ImportType → String
  | xml10 => "xml10"
  | wsdl20 => "wsdl20"
  | bpmn20 => "bpmn20"

/-- The namespace that stands for the document type. -/
def uri : ImportType → String
  | xml10 => "http://www.w3.org/2001/XMLSchema"
  | wsdl20 => "http://www.w3.org/TR/wsdl20/"
  | bpmn20 => "http://www.omg.org/spec/BPMN/20100524/MODEL"

/-- Reads a short name. -/
def parse (text : String) : Except ModelError ImportType :=
  match [xml10, wsdl20, bpmn20].find? (·.shortName = text) with
  | some type => .ok type
  | none => .error (.unknownImportType text)

end ImportType

/-- Which document an import is about. -/
structure ImportDeclaration where
  type : ImportType
  «namespace» : String
  location : String
deriving DecidableEq

/-- The fields of a scope itself. -/
structure Header where
  identity : Identity
  name : Option String
  targetNamespace : String
  expressionLanguage : String
  typeLanguage : String
  exporter : Option String
  exporterVersion : Option String
deriving DecidableEq

namespace Header

/-- The expression language of a scope that names none. -/
def xpath : String := "http://www.w3.org/1999/XPath"

/-- The type language of a scope that names none. -/
def xmlSchema : String := "http://www.w3.org/2001/XMLSchema"

/-- The header of a fresh scope. -/
def fresh (id : Id) (targetNamespace : String) : Header where
  identity := .bare id
  name := none
  targetNamespace := targetNamespace
  expressionLanguage := xpath
  typeLanguage := xmlSchema
  exporter := none
  exporterVersion := none

end Header

mutual

/-- A model with everything in it. -/
structure Scope where
  header : Header
  roots : List Root
  relationships : List Relationship
  imports : List Import
  extensions : List Extension
  registry : Registry

/-- The declaration of another document, bound to its scope or not. -/
inductive Import where
  | unbound (declaration : ImportDeclaration)
  | bound (declaration : ImportDeclaration) (stamp : Nat) (scope : Scope)

end

namespace Import

def declaration : Import → ImportDeclaration
  | unbound d | bound d .. => d

/-- The scope that the import is bound to. -/
def scope? : Import → Option Scope
  | unbound _ => none
  | bound _ _ s => some s

end Import

namespace Scope

/-- The empty scope. Its own identifier is taken but belongs to no element. -/
def fresh (id : Id) (targetNamespace : String) : Scope where
  header := .fresh id targetNamespace
  roots := []
  relationships := []
  imports := []
  extensions := []
  registry := Registry.empty.reserve id

def id (s : Scope) : Id := s.header.identity.id

/-- The root element with this identifier. -/
def root? (s : Scope) (id : Id) : Option Root :=
  s.roots.find? (·.id = id)

/-- The elements that no other element owns: root elements, then relationships. -/
def topLevel (s : Scope) : List Element :=
  s.roots.map .root ++ s.relationships.map .relationship

/-- Every element with its owner, in the order of the ownership tree. -/
def placed (s : Scope) : List Placed :=
  s.topLevel.flatMap (Element.placed none)

mutual

/-- Equality of scopes: root elements and flow elements in any order, all else in order. What the
registry holds is not compared. -/
def same : Scope → Scope → Bool
  | ⟨header, roots, relationships, imports, extensions, _⟩, t =>
    header == t.header && roots.length == t.roots.length &&
      roots.all (fun r => (t.root? r.id).any r.same) && relationships == t.relationships &&
      sameImports imports t.imports && extensions == t.extensions

/-- Equality of lists of imports, in order. -/
def sameImports : List Import → List Import → Bool
  | [], [] => true
  | i :: is, j :: js => sameImport i j && sameImports is js
  | _, _ => false

/-- Equality of imports. Bound scopes count as equal only if they were saved together. The stamp
tells it for scopes from one shelf; that the scopes are compared as well makes it right for any. -/
def sameImport : Import → Import → Bool
  | .unbound d, .unbound e => d == e
  | .bound d stamp s, .bound e stamp' t => d == e && stamp == stamp' && same s t
  | _, _ => false

end

end Scope

end BpmnModel
