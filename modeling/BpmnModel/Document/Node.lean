import BpmnModel.Json.Reader
import BpmnModel.Reference

/-!
# Document nodes

A document is a tree of `Node`s: a label, attributes by name in the order of their first setting,
and children. Models `Value`, `Node` and `Document`.

* `Attributes.insert` — replaces a value in its place or appends it; names stay distinct.
* `Node.setText?`, `Node.setRefs`, `Node.setFlag` and their like — setters that leave out what is
  absent, empty or the default. Model `set_opt`, `set_ids` and `set_flag`.
-/

namespace BpmnModel

/-- The value of an attribute. References are plain texts, lists of references lists of texts. -/
inductive Value where
  | flag (value : Bool)
  | integer (value : Int64)
  | text (value : String)
  | list (items : List String)
deriving DecidableEq

namespace Value

/-- The shape of a value in words. -/
def typeName : Value → String
  | flag _ => "boolean"
  | integer _ => "integer"
  | text _ => "string"
  | list _ => "list"

/-- The value that holds an identifier. -/
def ofId (id : Id) : Value := text id.text

/-- The value that holds a count. -/
def ofCount (n : UInt32) : Value := integer (Int64.ofNat n.toNat)

end Value

/-- Values by name, in the order of their first setting. -/
@[ext]
structure Attributes where
  entries : List (String × Value)
  nodup : (entries.map Prod.fst).Nodup
deriving DecidableEq

namespace Attributes

/-- No attribute. -/
def empty : Attributes := ⟨[], by simp⟩

/-- The value of an attribute. -/
def get? (as : Attributes) (name : String) : Option Value :=
  as.entries.lookup name

/-- The names, in order. -/
def names (as : Attributes) : List String :=
  as.entries.map Prod.fst

/-- Replaces the value under a name in its place, or appends the pair. -/
def insertEntry (name : String) (value : Value) : List (String × Value) → List (String × Value)
  | [] => [(name, value)]
  | (n, v) :: rest =>
    if n = name then (n, value) :: rest else (n, v) :: insertEntry name value rest

theorem mem_names_insertEntry {name x : String} {value : Value} {es : List (String × Value)} :
    x ∈ (insertEntry name value es).map Prod.fst ↔ x ∈ es.map Prod.fst ∨ x = name := by
  induction es with
  | nil => simp [insertEntry]
  | cons e es ih =>
    simp only [insertEntry]
    split
    · rename_i h
      simp only [List.map_cons, List.mem_cons, h]
      grind
    · simp only [List.map_cons, List.mem_cons, ih]
      grind

theorem nodup_insertEntry {name : String} {value : Value} {es : List (String × Value)}
    (h : (es.map Prod.fst).Nodup) : ((insertEntry name value es).map Prod.fst).Nodup := by
  induction es with
  | nil => simp [insertEntry]
  | cons e es ih =>
    simp only [List.map_cons, List.nodup_cons] at h
    simp only [insertEntry]
    split
    · simpa using h
    · rename_i hne
      simp only [List.map_cons, List.nodup_cons]
      refine ⟨fun hm => ?_, ih h.2⟩
      rcases mem_names_insertEntry.mp hm with hm | hm
      · exact h.1 hm
      · exact hne hm

/-- Sets an attribute: in its place if it is there, else at the end. -/
def insert (as : Attributes) (name : String) (value : Value) : Attributes :=
  ⟨insertEntry name value as.entries, nodup_insertEntry as.nodup⟩

/-- The attributes that a list of settings leads to. -/
def ofList (settings : List (String × Value)) : Attributes :=
  settings.foldl (fun as (name, value) => as.insert name value) empty

end Attributes

/-- A labelled node with attributes and children. -/
structure Node where
  label : String
  attributes : Attributes
  children : List Node

namespace Node

/-- A node with nothing but a label. -/
def bare (label : String) : Node := ⟨label, .empty, []⟩

/-- The value of an attribute. -/
def attribute? (n : Node) (name : String) : Option Value :=
  n.attributes.get? name

/-- Sets an attribute, replacing an earlier value. -/
def set (n : Node) (name : String) (value : Value) : Node :=
  { n with attributes := n.attributes.insert name value }

/-- Sets an attribute if there is a value. -/
def set? (n : Node) (name : String) (value : Option Value) : Node :=
  match value with
  | some v => n.set name v
  | none => n

/-- Sets an attribute to a text. -/
def setText (n : Node) (name text : String) : Node :=
  n.set name (.text text)

/-- Sets an attribute to a text if there is one. -/
def setText? (n : Node) (name : String) (text : Option String) : Node :=
  n.set? name (text.map .text)

/-- Sets an attribute to an identifier. -/
def setId (n : Node) (name : String) (id : Id) : Node :=
  n.set name (.ofId id)

/-- Sets an attribute to a list of identifiers unless the list is empty. -/
def setIds (n : Node) (name : String) (ids : List Id) : Node :=
  if ids.isEmpty then n else n.set name (.list (ids.map Id.text))

/-- Sets an attribute to the target of a reference. -/
def setRef {r : Requirement} (n : Node) (name : String) (ref : Ref r) : Node :=
  n.setId name ref.id

/-- Sets an attribute to the target of a reference if there is one. -/
def setRef? {r : Requirement} (n : Node) (name : String) (ref : Option (Ref r)) : Node :=
  n.set? name (ref.map fun ref => .ofId ref.id)

/-- Sets an attribute to the targets of references unless there are none. -/
def setRefs {r : Requirement} (n : Node) (name : String) (refs : List (Ref r)) : Node :=
  n.setIds name (Ref.ids refs)

/-- Sets an attribute to a list of texts unless it is empty. -/
def setTexts (n : Node) (name : String) (texts : List String) : Node :=
  if texts.isEmpty then n else n.set name (.list texts)

/-- Sets a flag that differs from its default. -/
def setFlag (n : Node) (name : String) (value standard : Bool) : Node :=
  if value = standard then n else n.set name (.flag value)

/-- Appends a child. -/
def push (n : Node) (child : Node) : Node :=
  { n with children := n.children ++ [child] }

/-- Appends children. -/
def pushAll (n : Node) (children : List Node) : Node :=
  { n with children := n.children ++ children }

end Node

/-- A whole document: the tree below its root. -/
structure Document where
  root : Node

end BpmnModel
