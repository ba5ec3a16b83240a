import BpmnModel.Scope.Basic

/-!
# Saved scopes

A `Shelf` keeps finished scopes by name. Each saving gets a stamp of its own, by which imports of
the saved scope are told apart: the stamp models the identity of the value that
`Import.with_definitions` shares.
-/

namespace BpmnModel

/-- A scope that was saved, with the stamp of the saving. -/
structure SavedScope where
  stamp : Nat
  scope : Scope

/-- Saved scopes by name, the latest first, and the next stamp. -/
structure Shelf where
  saved : List (String × SavedScope)
  clock : Nat

namespace Shelf

/-- Nothing saved. -/
def empty : Shelf := ⟨[], 0⟩

/-- Saves a scope under a name. -/
def save (s : Shelf) (name : String) (scope : Scope) : Shelf :=
  ⟨(name, ⟨s.clock, scope⟩) :: s.saved, s.clock + 1⟩

/-- The scope saved last under a name. -/
def find? (s : Shelf) (name : String) : Option SavedScope :=
  s.saved.lookup name

/-- An import bound to what is saved under a name, or unbound. -/
def bind (s : Shelf) (declaration : ImportDeclaration) (name : Option String) : Import :=
  match name.bind s.find? with
  | some saved => .bound declaration saved.stamp saved.scope
  | none => .unbound declaration

end Shelf

end BpmnModel
