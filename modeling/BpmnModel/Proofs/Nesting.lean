import BpmnModel.Proofs.Writing

/-!
# How deep documents nest

A text nests two levels for each level of nodes: the node and the list it stands in.  The innermost
node for which there is room has no level left for attributes.

* `Node.Fits` — there is room for the node when `k` levels of nodes may follow below it.
* `Node.Bears`, `Node.IsLeaf` — what readers of elements with an identity find out about a node.
* `Rewrites` — what was read from a node is written again, and fits where the node did.
* `Rewrites.leaf`, `Rewrites.branch` — elements with nothing below but documentation, and with one
  list of children.
-/

namespace BpmnModel

namespace Node

/-- What holds of a node if it holds of its children holds of all nodes. -/
theorem children_induction {P : Node → Prop} (step : ∀ n, (∀ c ∈ n.children, P c) → P n) :
    ∀ n, P n
  | ⟨_, _, cs⟩ => step _ fun c (_ : c ∈ cs) => children_induction step c

/-- Room for a node under which `k` more levels may nest.  The last one holds nothing at all. -/
def Fits : Nat → Node → Prop
  | 0, n => n.attributes.entries = [] ∧ n.children = []
  | k + 1, n => ∀ c ∈ n.children, c.Fits k

variable {n : Node} {k : Nat}

theorem Fits.child (h : n.Fits (k + 1)) {c : Node} (hc : c ∈ n.children) : c.Fits k := h c hc

theorem Fits.attribute?_eq_none (h : n.Fits 0) (a : String) : n.attribute? a = none := by
  rw [attribute?, Attributes.get?, h.1]
  rfl

/-- A node with an attribute is not the last. -/
theorem Fits.exists_of_attribute? (h : n.Fits k) {a : String} {v : Value}
    (ha : n.attribute? a = some v) : ∃ j, k = j + 1 := by
  cases k with
  | zero =>
    rw [h.attribute?_eq_none] at ha
    cases ha
  | succ j => exact ⟨j, rfl⟩

theorem Fits.exists_of_text (h : n.Fits k) {a t : String} (ha : n.text a = .ok t) :
    ∃ j, k = j + 1 := by
  cases hv : n.attribute? a with
  | some v => exact h.exists_of_attribute? hv
  | none =>
    rw [text, text?_eq, hv, Value.readText_none] at ha
    cases ha

theorem Fits.exists_of_child (h : n.Fits k) {c : Node} (hc : c ∈ n.children) : ∃ j, k = j + 1 := by
  cases k with
  | zero =>
    rw [h.2] at hc
    cases hc
  | succ j => exact ⟨j, rfl⟩

@[simp]
theorem fits_bare (label : String) : (bare label).Fits k := by
  cases k with
  | zero => exact ⟨rfl, rfl⟩
  | succ k => exact nofun

@[simp]
theorem fits_set? (a : String) (v : Option Value) :
    (n.set? a v).Fits (k + 1) ↔ n.Fits (k + 1) := by
  simp only [Fits, children_set?]

@[simp]
theorem fits_pushAll (cs : List Node) :
    (n.pushAll cs).Fits (k + 1) ↔ n.Fits (k + 1) ∧ ∀ c ∈ cs, c.Fits k := by
  simp only [Fits, children_pushAll, List.forall_mem_append]

theorem DiffersIn.fits {fields : List String} {m : Node} (h : n.DiffersIn fields m)
    (hn : n.Fits (k + 1)) : m.Fits (k + 1) := by
  intro c hc
  rw [h.children] at hc
  exact hn c hc

/-- The node carries the identity. -/
structure Identifies (n : Node) (identity : Identity) : Prop where
  id : n.id = .ok identity.id
  identity : Identity.ofNode identity.id n = .ok identity

theorem id_eq_ok {id : Id} : n.id = .ok id ↔ n.text "id" = .ok id.text := by
  obtain ⟨t⟩ := id
  rw [Node.id, bind_eq_ok]
  constructor
  · rintro ⟨s, hs, heq⟩
    cases heq
    exact hs
  · exact fun h => ⟨t, h, rfl⟩

/-- Everything that was read one by one was read from some node. -/
theorem exists_of_mapM {α : Type} {read : Node → Reading α} {ns : List Node} {xs : List α}
    (h : ns.mapM read = .ok xs) {x : α} (hx : x ∈ xs) : ∃ c ∈ ns, read c = .ok x := by
  induction ns generalizing xs with
  | nil =>
    cases h
    cases hx
  | cons n ns ih =>
    simp only [List.mapM_cons, bind_eq_ok, pure_eq_ok, Except.ok.injEq] at h
    obtain ⟨y, hy, ys, hys, rfl⟩ := h
    rcases List.mem_cons.mp hx with rfl | hx
    · exact ⟨n, List.mem_cons_self, hy⟩
    · obtain ⟨c, hc, hread⟩ := ih hys hx
      exact ⟨c, List.mem_cons_of_mem n hc, hread⟩

theorem mem_children_of_mem_content {c : Node} (h : c ∈ n.content) : c ∈ n.children :=
  List.mem_of_mem_filter h

theorem exists_of_only {α : Type} {label : String} {read : Node → Reading α} {xs : List α}
    (h : n.only label read = .ok xs) {x : α} (hx : x ∈ xs) : ∃ c ∈ n.children, read c = .ok x := by
  obtain ⟨c, hc, hread⟩ := exists_of_mapM h hx
  refine ⟨c, mem_children_of_mem_content hc, ?_⟩
  split at hread
  · exact hread
  · cases hread

namespace Identifies

variable {identity : Identity}

theorem of_read {id : Id} (hid : n.id = .ok id) (h : Identity.ofNode id n = .ok identity) :
    n.Identifies identity := by
  obtain ⟨ds, hds, rfl⟩ := map_eq_ok.mp h
  exact ⟨hid, h⟩

theorem extensionValues (h : n.Identifies identity) : identity.extensionValues = [] := by
  obtain ⟨id, documentation, values⟩ := identity
  obtain ⟨ds, -, heq⟩ := bind_eq_ok.mp h.identity
  cases heq
  rfl

theorem documentation (h : n.Identifies identity) :
    n.documentation = .ok identity.documentation := by
  obtain ⟨id, documentation, values⟩ := identity
  obtain ⟨ds, hds, heq⟩ := bind_eq_ok.mp h.identity
  cases heq
  exact hds

/-- The identity fits where it was read. -/
theorem fits (h : n.Identifies identity) (hn : n.Fits k) (label : String) :
    ∃ j, k = j + 1 ∧ (ofIdentity label identity).Fits (j + 1) := by
  obtain ⟨j, rfl⟩ := hn.exists_of_text (id_eq_ok.mp h.id)
  refine ⟨j, rfl, ?_⟩
  rw [ofIdentity, fits_pushAll, fits_set?]
  refine ⟨fits_bare label, ?_⟩
  intro c hc
  obtain ⟨d, hd, rfl⟩ := List.mem_map.mp hc
  obtain ⟨m, hm, hread⟩ := exists_of_mapM h.documentation hd
  obtain ⟨t, ht, -⟩ := bind_eq_ok.mp hread
  obtain ⟨i, rfl⟩ := (hn.child (List.mem_of_mem_filter hm)).exists_of_text ht
  simp [Documentation.toNode]

end Identifies

/-- The node carries the identity, and no attributes but these. -/
structure Bears (n : Node) (identity : Identity) (fields : List String) : Prop where
  identifies : n.Identifies identity
  closed : n.Closed fields

theorem Bears.of_read {id : Id} {identity : Identity} {fields : List String} (hid : n.id = .ok id)
    (hi : Identity.ofNode id n = .ok identity) (hfinish : n.finish fields = .ok ()) :
    n.Bears identity fields :=
  ⟨.of_read hid hi, n.finish_eq_ok.mp hfinish⟩

/-- Below the node stands nothing but documentation. -/
structure IsLeaf (n : Node) (identity : Identity) (fields : List String) : Prop
    extends n.Bears identity fields where
  content : n.content = []

theorem IsLeaf.of_read {id : Id} {identity : Identity} {fields : List String} (hid : n.id = .ok id)
    (hi : Identity.ofNode id n = .ok identity) (hfinish : n.finish fields = .ok ())
    (hcontent : n.noContent = .ok ()) : n.IsLeaf identity fields :=
  ⟨.of_read hid hi hfinish, n.noContent_eq_ok.mp hcontent⟩

end Node

/-- What was read from `n` is written again, and fits where `n` did if there is room for `b` levels
at least. -/
def Rewrites (b : Nat) (result : Except DocumentError Node) (n : Node) : Prop :=
  ∃ m, result = .ok m ∧ ∀ k, b ≤ k → n.Fits k → m.Fits k

namespace Rewrites

variable {n : Node} {identity : Identity} {b : Nat}

theorem mono {b' : Nat} {result : Except DocumentError Node} (h : Rewrites b result n)
    (hb : b ≤ b') : Rewrites b' result n := by
  obtain ⟨m, hm, hfits⟩ := h
  exact ⟨m, hm, fun k hk => hfits k (by omega)⟩

theorem mapM {α : Type} {write : α → Except DocumentError Node} {xs : List α}
    (h : ∀ x ∈ xs, ∃ c ∈ n.children, Rewrites b (write x) c) :
    ∃ ms, xs.mapM write = .ok ms ∧ ∀ k, b ≤ k → n.Fits (k + 1) → ∀ m ∈ ms, m.Fits k := by
  induction xs with
  | nil => exact ⟨[], rfl, fun _ _ _ => nofun⟩
  | cons x xs ih =>
    obtain ⟨c, hc, m, hm, hfits⟩ := h x List.mem_cons_self
    obtain ⟨ms, hms, hall⟩ := ih fun y hy => h y (List.mem_cons_of_mem x hy)
    refine ⟨m :: ms, by simp [List.mapM_cons, hm, hms], ?_⟩
    intro k hb hk
    rw [List.forall_mem_cons]
    exact ⟨hfits k hb (hk.child hc), hall k hb hk⟩

/-- No elements are written below the node. -/
theorem leaf (label : String) (next : Node → Node) (h : n.Identifies identity)
    (hnext : ∀ k, b ≤ k + 1 → n.Fits (k + 1) → ∀ m, m.Fits (k + 1) → (next m).Fits (k + 1)) :
    Rewrites b (do let m ← identity.toNode label; return next m) n := by
  refine ⟨next (Node.ofIdentity label identity), ?_, ?_⟩
  · rw [Identity.toNode, h.extensionValues]
    rfl
  · intro k hb hk
    obtain ⟨j, rfl, hj⟩ := h.fits hk label
    exact hnext j hb hk _ hj

/-- A list of children is written below the node. -/
theorem branch {α : Type} {read : Node → Reading α} {write : α → Except DocumentError Node}
    {xs : List α} {child : String} (label : String) (next : Node → List Node → Node)
    (h : n.Identifies identity) (hxs : n.only child read = .ok xs)
    (hwrite : ∀ c x, read c = .ok x → Rewrites 0 (write x) c)
    (hnext : ∀ k m ms, m.Fits (k + 1) → (∀ c ∈ ms, c.Fits k) → (next m ms).Fits (k + 1)) :
    Rewrites 0 (do let m ← identity.toNode label; let ms ← xs.mapM write; return next m ms) n := by
  obtain ⟨ms, hms, hall⟩ := mapM fun x hx =>
    (Node.exists_of_only hxs hx).imp fun c hc => ⟨hc.1, hwrite c x hc.2⟩
  refine ⟨next (Node.ofIdentity label identity) ms, ?_, ?_⟩
  · rw [Identity.toNode, h.extensionValues, hms]
    rfl
  · intro k _ hk
    obtain ⟨j, rfl, hj⟩ := h.fits hk label
    exact hnext j _ ms hj (hall j (Nat.zero_le j) hk)

end Rewrites

end BpmnModel
