import BpmnModel.Scope.Lookup

/-!
# The ownership tree through children

`Element.placed` walks a tree by a recursion of its own, one per shape of element.  This file reads
it as the walk through `Element.children`:

* `Element.placed_eq` — an element, then the walks of its children in order.
* `Element.child?_eq` — the indexed lookup of a child finds what a search of the children finds.
* `Scope.OwnerPath` — the identifiers of the owners of an element, the topmost first; every element
  of the walk has such a path (`Scope.exists_ownerPath`).
-/

namespace BpmnModel

/-- A search by name finds the only thing of that name. -/
theorem find?_eq_some_of_unique {α : Type} {name : α → Id} {xs : List α} {x : α} (hx : x ∈ xs)
    (huniq : ∀ y ∈ xs, name y = name x → y = x) :
    xs.find? (fun y => name y = name x) = some x := by
  cases hf : xs.find? (fun y => name y = name x) with
  | none =>
    have := List.find?_eq_none.mp hf x hx
    simp at this
  | some y =>
    have hy : name y = name x := by simpa using List.find?_some hf
    rw [huniq y (List.mem_of_find?_eq_some hf) hy]

namespace FlowElement

theorem placedAll_eq (owner : Id) (es : List FlowElement) :
    placedAll owner es = es.flatMap (placed (some owner)) := by
  induction es with
  | nil => rfl
  | cons e es ih => rw [placedAll, ih, List.flatMap_cons]

end FlowElement

namespace ConversationNode

theorem placedAll_eq (owner : Id) (ns : List ConversationNode) :
    placedAll owner ns = ns.flatMap (placed (some owner)) := by
  induction ns with
  | nil => rfl
  | cons n ns ih => rw [placedAll, ih, List.flatMap_cons]

end ConversationNode

namespace Element

/-! ## Walks and children -/

theorem flatMap_placed_leaves {α : Type} (mk : α → Element) (owner : Option Id) (xs : List α)
    (h : ∀ x, (mk x).placed owner = [⟨owner, mk x⟩]) :
    (xs.map mk).flatMap (placed owner) = xs.map (fun x => ⟨owner, mk x⟩) := by
  rw [List.flatMap_map, List.map_eq_flatMap]
  simp only [h]

theorem flatMap_placed_owned (owner : Option Id) (c : Container) :
    c.owned.flatMap (placed owner) =
      c.elements.flatMap (FlowElement.placed owner) ++ c.laneSets.flatMap (LaneSet.placed owner) := by
  rw [Container.owned, List.flatMap_append, List.flatMap_map, List.flatMap_map]
  rfl

/-- **A walk is the element followed by the walks of its children.** -/
theorem placed_eq (e : Element) (owner : Option Id) :
    e.placed owner = ⟨owner, e⟩ :: e.children.flatMap (placed (some e.id)) := by
  cases e with
  | root r =>
    show r.placed owner = _
    cases r with
    | process p =>
      simp only [children, List.flatMap_append, flatMap_placed_owned]
      rw [flatMap_placed_leaves artifact _ _ fun _ => rfl, Root.placed, FlowElement.placedAll_eq]
      rfl
    | collaboration c =>
      simp only [children, List.flatMap_append]
      rw [flatMap_placed_leaves participant _ _ fun _ => rfl,
        flatMap_placed_leaves messageFlow _ _ fun _ => rfl,
        flatMap_placed_leaves conversationLink _ _ fun _ => rfl,
        flatMap_placed_leaves artifact _ _ fun _ => rfl,
        flatMap_placed_leaves correlationKey _ _ fun _ => rfl, Root.placed,
        ConversationNode.placedAll_eq, List.flatMap_map]
      rfl
    | interface i => exact congrArg _ (flatMap_placed_leaves operation _ _ fun _ => rfl).symm
    | resource x => exact congrArg _ (flatMap_placed_leaves resourceParameter _ _ fun _ => rfl).symm
    | category c => exact congrArg _ (flatMap_placed_leaves categoryValue _ _ fun _ => rfl).symm
    | _ => rfl
  | conversationNode n =>
    show n.placed owner = _
    cases n with
    | subConversation b fs ns =>
      simp only [children, List.flatMap_append]
      rw [flatMap_placed_leaves correlationKey _ _ fun _ => rfl, List.flatMap_map,
        ConversationNode.placed, ConversationNode.placedAll_eq]
      rfl
    | conversation b fs =>
      simp only [children, List.flatMap_append]
      rw [flatMap_placed_leaves correlationKey _ _ fun _ => rfl]
      rfl
    | callConversation b c as =>
      simp only [children, List.flatMap_append]
      rw [flatMap_placed_leaves correlationKey _ _ fun _ => rfl]
      rfl
  | flowElement f =>
    show f.placed owner = _
    cases f with
    | subProcess a t es ls as =>
      simp only [children, List.flatMap_append, flatMap_placed_owned]
      rw [flatMap_placed_leaves artifact _ _ fun _ => rfl, FlowElement.placed,
        FlowElement.placedAll_eq]
      rfl
    | _ => rfl
  | laneSet s =>
    simp only [children]
    rw [flatMap_placed_leaves lane _ _ fun _ => rfl]
    rfl
  | _ => rfl

theorem map_element_placed (e : Element) (owner : Option Id) :
    (e.placed owner).map Placed.element = e.subtree := by
  rw [subtree, placed_eq e owner, placed_eq e none, List.map_cons, List.map_cons]

theorem map_id_placed_eq_subtree (e : Element) (owner : Option Id) :
    (e.placed owner).map Placed.id = e.subtree.map Element.id := by
  rw [← e.map_element_placed owner, List.map_map]
  rfl

/-- A subtree is its head followed by the subtrees of its children. -/
theorem subtree_eq (e : Element) : e.subtree = e :: e.children.flatMap subtree := by
  rw [subtree, placed_eq, List.map_cons, List.map_flatMap]
  simp only [map_element_placed]

theorem mem_placed {e : Element} {owner : Option Id} {p : Placed} :
    p ∈ e.placed owner ↔ p = ⟨owner, e⟩ ∨ ∃ c ∈ e.children, p ∈ c.placed (some e.id) := by
  rw [placed_eq, List.mem_cons, List.mem_flatMap]

theorem mem_placed_self (e : Element) (owner : Option Id) : ⟨owner, e⟩ ∈ e.placed owner :=
  mem_placed.mpr (.inl rfl)

theorem placed_length_lt {e c : Element} (h : c ∈ e.children) (owner : Option Id) :
    (c.placed (some e.id)).length < (e.placed owner).length := by
  have hs := List.sublist_flatten_of_mem (List.mem_map_of_mem (f := placed (some e.id)) h)
  have hl := hs.length_le
  rw [placed_eq e, List.length_cons, List.flatMap_def]
  omega

theorem placed_length_eq (e : Element) (o o' : Option Id) :
    (e.placed o).length = (e.placed o').length := by
  rw [placed_eq e o, placed_eq e o', List.length_cons, List.length_cons]

/-- Induction along the tree: what holds of an element if it holds of its children holds of all. -/
theorem children_induction {P : Element → Prop}
    (step : ∀ e : Element, (∀ c ∈ e.children, P c) → P e) (e : Element) : P e := by
  suffices h : ∀ n (e : Element), (e.placed none).length = n → P e from h _ e rfl
  intro n
  induction n using Nat.strongRecOn with
  | ind n ih =>
    intro e hn
    refine step e fun c hc => ih _ ?_ c rfl
    have hlt := placed_length_lt hc none
    rw [placed_length_eq c none (some e.id)]
    omega

/-- A change made child by child, which renames nothing, is made all along the tree. -/
theorem placed_map {g : Element → Element} (hid : ∀ e, (g e).id = e.id)
    (hchildren : ∀ e, (g e).children = e.children.map g) (e : Element) (owner : Option Id) :
    (g e).placed owner = (e.placed owner).map fun p => ⟨p.owner, g p.element⟩ := by
  induction e using children_induction generalizing owner with
  | step e ih =>
    rw [placed_eq, placed_eq e, hchildren, hid, List.map_cons, List.flatMap_map, List.map_flatMap,
      List.flatMap_def, List.flatMap_def, List.map_congr_left fun c hc => ih c hc _]

theorem subtree_map {g : Element → Element} (hid : ∀ e, (g e).id = e.id)
    (hchildren : ∀ e, (g e).children = e.children.map g) (e : Element) :
    (g e).subtree = e.subtree.map g := by
  rw [subtree, placed_map hid hchildren, subtree, List.map_map, List.map_map]
  rfl

/-- What children inherit holds of everything below. -/
theorem forall_mem_placed {P : Element → Prop} (inherit : ∀ e : Element, P e → ∀ c ∈ e.children, P c)
    {e : Element} (h : P e) (owner : Option Id) : ∀ p ∈ e.placed owner, P p.element := by
  induction e using children_induction generalizing owner with
  | step e ih =>
    intro p hp
    rcases mem_placed.mp hp with rfl | ⟨c, hc, hp⟩
    · exact h
    · exact ih c hc (inherit e h c hc) _ p hp

/-- Everything in a walk but its head stands there as a child of something in the walk. -/
theorem owner_of_mem_placed {e : Element} {owner : Option Id} {p : Placed}
    (h : p ∈ e.placed owner) :
    p = ⟨owner, e⟩ ∨ ∃ o x, ⟨o, x⟩ ∈ e.placed owner ∧ p.owner = some x.id ∧
      p.element ∈ x.children := by
  induction e using children_induction generalizing owner with
  | step e ih =>
    rcases mem_placed.mp h with rfl | ⟨c, hc, hp⟩
    · exact .inl rfl
    · right
      rcases ih c hc hp with rfl | ⟨o, x, hx, hown, hchild⟩
      · exact ⟨owner, e, mem_placed_self e owner, rfl, hc⟩
      · exact ⟨o, x, mem_placed.mpr (.inr ⟨c, hc, hx⟩), hown, hchild⟩

theorem child_mem_placed {e x c : Element} {owner o : Option Id} (h : ⟨o, x⟩ ∈ e.placed owner)
    (hc : c ∈ x.children) : ⟨some x.id, c⟩ ∈ e.placed owner := by
  induction e using children_induction generalizing owner with
  | step e ih =>
    rcases mem_placed.mp h with heq | ⟨d, hd, hx⟩
    · cases heq
      exact mem_placed.mpr (.inr ⟨c, hc, mem_placed_self c _⟩)
    · exact mem_placed.mpr (.inr ⟨d, hd, ih d hd hx⟩)

theorem child_mem_subtree {e x c : Element} (hx : x ∈ e.subtree) (hc : c ∈ x.children) :
    c ∈ e.subtree := by
  obtain ⟨p, hp, rfl⟩ := List.mem_map.mp hx
  exact List.mem_map.mpr ⟨_, child_mem_placed hp hc, rfl⟩

/-! ## Lookup of a child -/

theorem find?_map_mk {α : Type} (mk : α → Element) (name : α → Id) (xs : List α) (id : Id)
    (h : ∀ x, (mk x).id = name x) :
    (xs.map mk).find? (·.id = id) = (xs.find? (name · = id)).map mk := by
  rw [List.find?_map]
  congr 2
  funext x
  simp only [Function.comp_apply, h]

theorem owned?_eq (c : Container) (id : Id) : c.owned? id = c.owned.find? (·.id = id) := by
  rw [Container.owned, List.find?_append,
    find?_map_mk flowElement FlowElement.id _ _ fun _ => rfl,
    find?_map_mk laneSet (fun s => s.identity.id) _ _ fun _ => rfl]
  rfl

/-- **The lookup of a child, by directories and list by list, is a search of the children.** -/
theorem child?_eq (e : Element) (id : Id) : e.child? id = e.children.find? (·.id = id) := by
  have artifacts (as : List Artifact) :
      (as.map artifact).find? (·.id = id) = (as.find? (·.id = id)).map artifact :=
    find?_map_mk artifact Artifact.id as id fun _ => rfl
  cases e with
  | root r =>
    cases r with
    | process p =>
      rw [children, List.find?_append, artifacts, ← owned?_eq]
      rfl
    | collaboration c =>
      simp only [children, List.find?_append, artifacts]
      rw [find?_map_mk participant Participant.id _ _ fun _ => rfl,
        find?_map_mk messageFlow MessageFlow.id _ _ fun _ => rfl,
        find?_map_mk conversationNode ConversationNode.id _ _ fun _ => rfl,
        find?_map_mk conversationLink ConversationLink.id _ _ fun _ => rfl,
        find?_map_mk correlationKey (fun k => k.identity.id) _ _ fun _ => rfl,
        ← Roster.find?_eq, ← Roster.find?_eq, ← Roster.find?_eq, ← Roster.find?_eq]
      simp only [Option.or_assoc]
      rfl
    | interface i =>
      rw [children, find?_map_mk operation Operation.id _ _ fun _ => rfl, ← Roster.find?_eq]
      rfl
    | _ => rfl
  | flowElement f =>
    cases f with
    | subProcess a t es ls as =>
      rw [children, List.find?_append, artifacts, ← owned?_eq]
      rfl
    | _ => rfl
  | _ => rfl

theorem child?_eq_some {e c : Element} (hc : c ∈ e.children)
    (hid : ∀ d ∈ e.children, d.id = c.id → d = c) : e.child? c.id = some c := by
  rw [child?_eq]
  exact find?_eq_some_of_unique hc hid

/-- The element can own no flow element. -/
def Flowless : Element → Prop
  | root (.process _) | flowElement _ => False
  | _ => True

theorem Flowless.children {e : Element} (h : e.Flowless) : ∀ c ∈ e.children, c.Flowless := by
  cases e with
  | root r =>
    cases r with
    | process p => exact h.elim
    | collaboration | interface | resource | category =>
      simp only [Element.children, List.forall_mem_append, List.forall_mem_map, Flowless,
        implies_true, and_self]
    | _ => simp [Element.children]
  | flowElement e => exact h.elim
  | conversationNode | laneSet =>
    simp only [Element.children, List.forall_mem_append, List.forall_mem_map, Flowless,
      implies_true, and_self]
  | _ => simp [Element.children]

theorem descend?_append (e : Element) (path : List Id) (id : Id) :
    e.descend? (path ++ [id]) = (e.descend? path).bind (·.child? id) := by
  induction path generalizing e with
  | nil =>
    rw [List.nil_append, descend?, descend?, Option.bind_some]
    cases e.child? id <;> rfl
  | cons step path ih =>
    simp only [List.cons_append, descend?]
    cases e.child? step with
    | none => rfl
    | some c => exact ih c

end Element

/-! ## Paths of owners -/

namespace Scope

variable {s : Scope}

/-- The identifiers from a top-level element down to an element, each the owner of the next. -/
inductive OwnerPath (s : Scope) : List Id → Element → Prop where
  | top {e : Element} (h : e ∈ s.topLevel) : OwnerPath s [e.id] e
  | child {path : List Id} {e c : Element} (above : OwnerPath s path e) (h : c ∈ e.children) :
    OwnerPath s (path ++ [c.id]) c

theorem mem_placed {p : Placed} : p ∈ s.placed ↔ ∃ e ∈ s.topLevel, p ∈ e.placed none := by
  rw [placed, List.mem_flatMap]

theorem mem_placed_of_topLevel {e : Element} (h : e ∈ s.topLevel) : ⟨none, e⟩ ∈ s.placed :=
  mem_placed.mpr ⟨e, h, Element.mem_placed_self e none⟩

theorem child_mem_placed {x c : Element} {o : Option Id} (h : ⟨o, x⟩ ∈ s.placed)
    (hc : c ∈ x.children) : ⟨some x.id, c⟩ ∈ s.placed := by
  obtain ⟨e, he, hx⟩ := mem_placed.mp h
  exact mem_placed.mpr ⟨e, he, Element.child_mem_placed hx hc⟩

theorem topLevel_of_mem_placed {x : Element} (h : ⟨none, x⟩ ∈ s.placed) : x ∈ s.topLevel := by
  obtain ⟨e, he, hx⟩ := mem_placed.mp h
  rcases Element.owner_of_mem_placed hx with heq | ⟨o, y, -, hown, -⟩
  · cases heq
    exact he
  · simp at hown

theorem owner_of_mem_placed {id : Id} {x : Element} (h : ⟨some id, x⟩ ∈ s.placed) :
    ∃ o y, ⟨o, y⟩ ∈ s.placed ∧ y.id = id ∧ x ∈ y.children := by
  obtain ⟨e, he, hx⟩ := mem_placed.mp h
  rcases Element.owner_of_mem_placed hx with heq | ⟨o, y, hy, hown, hchild⟩
  · cases heq
  · exact ⟨o, y, mem_placed.mpr ⟨e, he, hy⟩, by simpa using hown.symm, hchild⟩

theorem ownerPath_of_mem_placed {path : List Id} {e : Element} (he : s.OwnerPath path e)
    {owner : Option Id} {p : Placed} (h : p ∈ e.placed owner) :
    ∃ path, s.OwnerPath path p.element := by
  induction e using Element.children_induction generalizing path owner with
  | step e ih =>
    rcases Element.mem_placed.mp h with rfl | ⟨c, hc, hp⟩
    · exact ⟨path, he⟩
    · exact ih c hc (he.child hc) hp

theorem exists_ownerPath {p : Placed} (h : p ∈ s.placed) : ∃ path, s.OwnerPath path p.element := by
  obtain ⟨e, he, hp⟩ := mem_placed.mp h
  exact ownerPath_of_mem_placed (.top he) hp

namespace OwnerPath

/-- An element with a path stands in the walk behind all of its owners. -/
theorem split {path : List Id} {e : Element} (h : s.OwnerPath path e) :
    ∃ pre owner post, s.placed = pre ++ e.placed owner ++ post ∧ path.length ≤ pre.length + 1 := by
  induction h with
  | top h =>
    obtain ⟨l, r, hlr⟩ := List.append_of_mem h
    refine ⟨l.flatMap (Element.placed none), none, r.flatMap (Element.placed none), ?_, by simp⟩
    rw [placed, hlr, List.flatMap_append, List.flatMap_cons, List.append_assoc]
  | @child path e c above h ih =>
    obtain ⟨pre, owner, post, hp, hlen⟩ := ih
    obtain ⟨l, r, hlr⟩ := List.append_of_mem h
    refine ⟨pre ++ ⟨owner, e⟩ :: l.flatMap (Element.placed (some e.id)), some e.id,
      r.flatMap (Element.placed (some e.id)) ++ post, ?_, ?_⟩
    · rw [hp, Element.placed_eq e, hlr, List.flatMap_append, List.flatMap_cons]
      simp only [List.append_assoc, List.cons_append]
    · simp only [List.length_append, List.length_cons, List.length_nil]
      omega

theorem mem_placed {path : List Id} {e : Element} (h : s.OwnerPath path e) :
    ∃ owner, ⟨owner, e⟩ ∈ s.placed := by
  obtain ⟨pre, owner, post, hp, -⟩ := h.split
  refine ⟨owner, ?_⟩
  rw [hp]
  simp [Element.mem_placed_self]

theorem length_le {path : List Id} {e : Element} (h : s.OwnerPath path e) :
    path.length ≤ s.placed.length := by
  obtain ⟨pre, owner, post, hp, hlen⟩ := h.split
  rw [hp, Element.placed_eq]
  simp only [List.length_append, List.length_cons]
  omega

theorem ne_nil {path : List Id} {e : Element} (h : s.OwnerPath path e) : path ≠ [] := by
  cases h <;> simp

end OwnerPath

end Scope

end BpmnModel
