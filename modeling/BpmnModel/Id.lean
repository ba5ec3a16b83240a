/-!
# Identifiers

An `Id` names an element. Two identifiers are the same when their texts are. It models the interned
`Id`, of which the text alone can be observed.
-/

namespace BpmnModel

/-- The identifier of an element. Any text is allowed, the empty one included. -/
structure Id where
  text : String
deriving DecidableEq, Hashable, Repr, Inhabited

instance : ToString Id where
  toString id := id.text

end BpmnModel
