import BpmnModel.Id

/-!
# Rosters

A `Roster` is a list of named things that grows at the end, together with a directory of the
positions at which each identifier stands first. The list may hold an identifier twice; the
directory answers for the first. Models a list that is kept beside its `IdIndex`.

* `Roster.index` — the directory of a list. The type keeps list and directory together. Models
  `IdIndex.of`.
* `Roster.find?` — lookup through the directory. Models `IdIndex.get`.
* `Roster.items_push` — what appending does to the list.
* `Roster.eq_of_items` — a roster is determined by its list.
* `Roster.find?_eq` — a lookup finds what a search of the list finds.
-/

namespace BpmnModel

namespace Roster

variable {α : Type}

/-- Enters an item with its position in a directory, unless its identifier is there. -/
def enter (name : α → Id) (directory : List (Id × Nat)) (entry : α × Nat) : List (Id × Nat) :=
  if (directory.lookup (name entry.1)).isSome then directory
  else directory ++ [(name entry.1, entry.2)]

/-- The directory of a list. -/
def index (name : α → Id) (items : List α) : List (Id × Nat) :=
  items.zipIdx.foldl (enter name) []

theorem index_concat (name : α → Id) (items : List α) (item : α) :
    index name (items ++ [item]) = enter name (index name items) (item, items.length) := by
  simp [index, List.zipIdx_append]

theorem lookup_enter (name : α → Id) (directory : List (Id × Nat)) (item : α) (position : Nat)
    (id : Id) :
    (enter name directory (item, position)).lookup id =
      (directory.lookup id).or (if name item = id then some position else none) := by
  unfold enter
  split
  · rename_i h
    by_cases hid : name item = id
    · subst hid
      obtain ⟨p, hp⟩ := Option.isSome_iff_exists.mp h
      simp [hp]
    · simp [hid]
  · simp only [List.lookup_append, List.lookup_cons, List.lookup_nil]
    by_cases hid : name item = id
    · subst hid
      simp
    · simp [hid, show (id == name item) = false by simpa using fun h => hid h.symm]

theorem lookup_foldl_enter (name : α → Id) (items : List α) (directory : List (Id × Nat))
    (position : Nat) (id : Id) :
    ((items.zipIdx position).foldl (enter name) directory).lookup id =
      (directory.lookup id).or ((items.findIdx? (name · = id)).map (· + position)) := by
  induction items generalizing directory position with
  | nil => simp
  | cons item items ih =>
    rw [List.zipIdx_cons, List.foldl_cons, ih, lookup_enter]
    cases directory.lookup id with
    | some p => simp
    | none =>
      by_cases hid : name item = id
      · simp [hid, List.findIdx?_cons]
      · simp [hid, List.findIdx?_cons, Option.map_map, Function.comp_def, Nat.add_comm 1,
          Nat.add_assoc]

theorem lookup_index (name : α → Id) (items : List α) (id : Id) :
    (index name items).lookup id = items.findIdx? (name · = id) := by
  simp [index, lookup_foldl_enter]

end Roster

/-- A growing list with a directory of first positions. -/
structure Roster (α : Type) (name : α → Id) where
  items : List α
  directory : List (Id × Nat)
  directory_eq : directory = Roster.index name items
deriving DecidableEq

namespace Roster

variable {α : Type} {name : α → Id}

/-- Nothing on the list. -/
def empty : Roster α name := ⟨[], [], rfl⟩

/-- Appends an item; an identifier that is in the directory keeps its position there. -/
def push (r : Roster α name) (item : α) : Roster α name where
  items := r.items ++ [item]
  directory := enter name r.directory (item, r.items.length)
  directory_eq := by rw [index_concat, r.directory_eq]

/-- The roster of a list. -/
def ofList (items : List α) : Roster α name :=
  items.foldl push empty

/-- The item at the position listed for `id`. -/
def find? (r : Roster α name) (id : Id) : Option α :=
  (r.directory.lookup id).bind (r.items[·]?)

@[simp]
theorem items_push (r : Roster α name) (item : α) : (r.push item).items = r.items ++ [item] := rfl

theorem items_foldl_push (items : List α) (r : Roster α name) :
    (items.foldl push r).items = r.items ++ items := by
  induction items generalizing r with
  | nil => simp
  | cons item rest ih => simp [ih]

@[simp]
theorem items_ofList (items : List α) : (ofList items : Roster α name).items = items := by
  simp [ofList, items_foldl_push, empty]

theorem eq_of_items {r r' : Roster α name} (h : r.items = r'.items) : r = r' := by
  obtain ⟨items, directory, rfl⟩ := r
  obtain ⟨items', directory', rfl⟩ := r'
  cases h
  rfl

/-- The directory stays that of the list. -/
@[simp]
theorem push_index (items : List α) (item : α) :
    push ⟨items, index name items, rfl⟩ item =
      ⟨items ++ [item], index name (items ++ [item]), rfl⟩ :=
  eq_of_items rfl

theorem find?_eq (r : Roster α name) (id : Id) : r.find? id = r.items.find? (name · = id) := by
  rw [find?, r.directory_eq, lookup_index]
  induction r.items with
  | nil => rfl
  | cons item items ih =>
    by_cases hid : name item = id
    · simp [hid, List.findIdx?_cons]
    · simpa [hid, List.findIdx?_cons, Option.bind_map, Function.comp_def] using ih

end Roster

end BpmnModel
