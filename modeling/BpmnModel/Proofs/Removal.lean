import BpmnModel.Proofs.Mentions
import BpmnModel.Proofs.Striking

/-!
# What a removal leaves

* `Scope.inventory_of_remove?`, `Scope.inventory_of_removed` — the inventory after a removal: what was
  removed is gone, and what stays is in order and as `Entry.without` says.
* `Scope.isTaken_of_removed`, `Scope.resolve_of_stays`, `Scope.lookup_of_gone` — the identifiers of
  what was removed are free, all others lead where they led.
* `Scope.removal_leaves` — where every reference resolved, exactly the references to what was removed
  are dangling.
-/

namespace BpmnModel

/-! ## The inventory after a removal -/

/-- Where nothing is listed twice, what stands behind a head is none of the heads. -/
theorem not_mem_heads {α β : Type} {head : α → β} {rest : α → List β} {xs : List α}
    (h : (xs.flatMap fun x => head x :: rest x).Nodup) :
    ∀ x ∈ xs, ∀ y ∈ rest x, y ∉ xs.map head := by
  induction xs with
  | nil => exact nofun
  | cons x xs ih =>
    have heads_subset : xs.map head ⊆ xs.flatMap fun x => head x :: rest x := by
      intro y hy
      obtain ⟨z, hz, rfl⟩ := List.mem_map.mp hy
      exact List.mem_flatMap.mpr ⟨z, hz, List.mem_cons_self⟩
    rw [List.flatMap_cons, List.nodup_append, List.nodup_cons] at h
    obtain ⟨⟨hhead, -⟩, hxs, hdisjoint⟩ := h
    intro z hz y hy
    rw [List.map_cons, List.mem_cons, not_or]
    rcases List.mem_cons.mp hz with rfl | hz
    · refine ⟨fun heq => hhead (heq ▸ hy), fun hmem => ?_⟩
      exact hdisjoint y (List.mem_cons_of_mem _ hy) y (heads_subset hmem) rfl
    · have hmem : y ∈ xs.flatMap fun x => head x :: rest x :=
        List.mem_flatMap.mpr ⟨z, hz, List.mem_cons_of_mem _ hy⟩
      exact ⟨fun heq => hdisjoint _ List.mem_cons_self y hmem heq.symm, ih hxs z hz y hy⟩

namespace Scope

variable {s t : Scope} {o : ValidationOptions}

/-- The flow nodes of an owner stand in its container. -/
theorem exists_of_owner (h : s.Agrees) {o : Option Id} {y : Element} {c : Container}
    (hy : ⟨o, y⟩ ∈ s.placed) (hc : y.container? = some c) {x : Entry} (hx : x ∈ s.inventory)
    (howner : x.owner = some y.id) (hkind : x.kind.has .flowNode = true) :
    x ∈ c.elements.map fun f => Placed.entry ⟨some y.id, .flowElement f⟩ := by
  obtain ⟨⟨o', e⟩, hp, rfl⟩ := List.mem_map.mp hx
  obtain ⟨f, rfl⟩ := Element.eq_flowElement_of_kind hkind
  have howner : o' = some y.id := howner
  subst howner
  obtain ⟨o', z, hz, hzid, hchild⟩ := owner_of_mem_placed hp
  obtain ⟨k, hk, hf⟩ := Element.mem_container_of_mem_children hchild
  rw [h.eq_of_id hz hy hzid, hc, Option.some.injEq] at hk
  exact List.mem_map.mpr ⟨f, hk ▸ hf, rfl⟩

/-- The entries of flow elements of one owner and of all that they own. -/
def flowEntries (owner : Id) (es : List FlowElement) : List Entry :=
  es.flatMap fun e => (Element.flowElement e).entries (some owner)

section Container

variable (h : Reachable s) {path : List Id} {y : Element} {c : Container}
  (hpath : s.OwnerPath path y) (hc : y.container? = some c)

include h hpath hc

/-- Where the flow elements of a container are replaced, all other entries stay. -/
theorem exists_inventory_elements :
    ∃ pre post, s.inventory = pre ++ flowEntries y.id c.elements ++ post ∧
      ∀ es, (s.replaceContainer path ⟨es, c.laneSets⟩).inventory =
        pre ++ flowEntries y.id es ++ post := by
  obtain ⟨pre, post, hbefore, hafter⟩ := inventory_replaceContainer h
    (h.agrees.containerAt?_eq hpath hc) hpath.getLast?
  let lanes : List Entry := c.laneSets.flatMap fun x => (Element.laneSet x).entries (some y.id)
  refine ⟨pre, lanes ++ post, ?_, fun es => ?_⟩
  · rw [hbefore, Container.entries_eq]
    simp only [flowEntries, lanes, List.append_assoc]
  · rw [hafter, Container.entries_eq]
    simp only [flowEntries, lanes, List.append_assoc]

/-- What is not a flow element of the container stays as it is when a sequence flow leaves it. -/
theorem without_eq_self_of_not_mem {x : Entry} (hx : x ∈ s.inventory)
    (hne : x ∉ c.elements.map fun e => Placed.entry ⟨some y.id, .flowElement e⟩) (e : Element) :
    x.without ⟨some y.id, e⟩ = x := by
  obtain ⟨o, hy⟩ := hpath.mem_placed
  refine Entry.without_eq_self fun howner => ?_
  rw [← Bool.not_eq_true]
  exact fun hkind => hne (exists_of_owner h.agrees hy hc hx howner hkind)

/-- So what stands before and behind the flow elements stays, and what stands below one of them. -/
theorem without_eq_self_of_split {pre post : List Entry}
    (hsplit : s.inventory = pre ++ flowEntries y.id c.elements ++ post) (gone : Element) :
    (∀ x ∈ pre ++ post, x.without ⟨some y.id, gone⟩ = x) ∧
      ∀ e ∈ c.elements, ∀ x ∈ (Element.flowElement e).below, x.without ⟨some y.id, gone⟩ = x := by
  have hperm : s.inventory.Perm (flowEntries y.id c.elements ++ (pre ++ post)) := by
    rw [hsplit, ← List.append_assoc]
    exact List.perm_append_comm.append_right post
  have hnodup := hperm.nodup_iff.mp (List.Nodup.of_map _ (nodup_inventory h))
  obtain ⟨helements, -, hdisjoint⟩ := List.nodup_append.mp hnodup
  have fixed {x : Entry} (hx : x ∈ flowEntries y.id c.elements ++ (pre ++ post)) :=
    without_eq_self_of_not_mem h hpath hc (hperm.mem_iff.mpr hx)
  constructor
  · intro x hx
    refine fixed (List.mem_append_right _ hx) (fun hhead => ?_) gone
    obtain ⟨e, he, rfl⟩ := List.mem_map.mp hhead
    have hmem : Placed.entry ⟨some y.id, .flowElement e⟩ ∈ flowEntries y.id c.elements := by
      refine List.mem_flatMap.mpr ⟨e, he, ?_⟩
      rw [Element.entries_eq]
      exact List.mem_cons_self
    exact hdisjoint _ hmem _ hx rfl
  · intro e he x hx
    have hmem : x ∈ flowEntries y.id c.elements := by
      refine List.mem_flatMap.mpr ⟨e, he, ?_⟩
      rw [Element.entries_eq]
      exact List.mem_cons_of_mem _ hx
    refine fixed (List.mem_append_left _ hmem) ?_ gone
    simp only [flowEntries, Element.entries_eq] at helements
    exact not_mem_heads helements e he x hx

/-- **What becomes of the inventory when a flow element is removed.** -/
theorem inventory_of_remove? {id : Id} {e : FlowElement} {c' : Container}
    (hrem : c.remove? id = some (e, c')) :
    ∃ pre post, s.inventory = pre ++ (Element.flowElement e).entries (some y.id) ++ post ∧
      (s.replaceContainer path c').inventory =
        (pre ++ post).map (Entry.without ⟨some y.id, .flowElement e⟩) := by
  obtain ⟨pre, post, hbefore, hafter⟩ := exists_inventory_elements h hpath hc
  obtain ⟨houter, hbelow⟩ := without_eq_self_of_split h hpath hc hbefore (.flowElement e)
  obtain ⟨hfind, hcases⟩ := Container.remove?_cases hrem
  obtain ⟨l, r, hlr, herase⟩ := exists_append_of_find? hfind
  refine ⟨pre ++ flowEntries y.id l, flowEntries y.id r ++ post, ?_, ?_⟩
  · rw [hbefore, hlr]
    simp only [flowEntries, List.flatMap_append, List.flatMap_cons, List.append_assoc]
  let strike : Entry → Entry := Entry.without ⟨some y.id, .flowElement e⟩
  have hstrike {xs : List Entry} (hxs : ∀ x ∈ xs, strike x = x) : xs.map strike = xs :=
    (List.map_congr_left hxs).trans (List.map_id xs)
  have hmap : (pre ++ flowEntries y.id l ++ (flowEntries y.id r ++ post)).map strike =
      pre ++ (flowEntries y.id (l ++ r)).map strike ++ post := by
    obtain ⟨hpre, hpost⟩ := List.forall_mem_append.mp houter
    simp only [flowEntries, List.map_append, List.flatMap_append, List.append_assoc,
      hstrike hpre, hstrike hpost]
  rw [hmap]
  rcases hcases with ⟨f, rfl, rfl⟩ | ⟨hnode, rfl⟩
  · -- the nodes that stay are struck one by one
    have hid : (FlowElement.sequenceFlow f).id = id := by simpa using List.find?_some hfind
    subst hid
    rw [hafter, herase, flowEntries, flowEntries, List.flatMap_map, List.map_flatMap]
    congr 2
    refine List.flatMap_congr fun x hx => ?_
    have hmem : x ∈ c.elements := by
      rw [hlr]
      simp only [List.mem_append, List.mem_cons] at hx ⊢
      tauto
    rw [Element.entries_eq, Element.entries_eq, List.map_cons, hstrike (hbelow x hmem),
      FlowElement.detach, FlowElement.below_mapEdges]
    exact congrArg (· :: _) (Placed.entry_detach _ f x)
  · rw [hafter, herase, hstrike fun x _ => ?_]
    cases e with
    | sequenceFlow f => cases hnode
    | _ => rfl

end Container

/-- What becomes of the inventory when a root element is removed. -/
theorem inventory_of_removeRoot {id : Id} {r : Root} (hr : s.root? id = some r)
    (hroots : t.roots = s.roots.eraseP (·.id = id)) (hrel : t.relationships = s.relationships) :
    ∃ pre post, s.inventory = pre ++ (Element.root r).entries none ++ post ∧
      t.inventory = (pre ++ post).map (Entry.without ⟨none, .root r⟩) := by
  obtain ⟨l, l', hlr, herase⟩ :=
    exists_append_of_find? (show s.roots.find? (·.id = id) = some r from hr)
  refine ⟨l.flatMap fun r => (Element.root r).entries none,
    l'.flatMap (fun r => (Element.root r).entries none) ++
      s.relationships.flatMap fun r => (Element.relationship r).entries none, ?_, ?_⟩
  · rw [inventory_eq, hlr]
    simp only [List.flatMap_append, List.flatMap_cons, List.append_assoc]
  · rw [inventory_eq, hroots, herase, hrel, List.flatMap_append, List.append_assoc]
    exact (List.map_id _).symm

/-- Only two edits take an element out. -/
theorem eq_of_removed (h : s.Agrees) {c : Change} {e : Element}
    (hrun : c.perform s = .ok (.removed (some e)) t) :
    (∃ id, c = .removeRoot id ∨ c = .removeFlowElement id) ∧ ∃ owner, s.Removes owner e t := by
  have heffect := c.perform_cases h
  rw [hrun] at heffect
  cases heffect with
  | removed hnone hremoves =>
    refine ⟨?_, _, hremoves⟩
    cases c with
    | removeRoot id => exact ⟨id, .inl rfl⟩
    | removeFlowElement id => exact ⟨id, .inr rfl⟩
    | describe | setField | addImport | addExtension => cases hrun
    | _ => cases hnone

theorem reachable_of_removed (h : Reachable s) {c : Change} {e : Element}
    (hrun : c.perform s = .ok (.removed (some e)) t) : Reachable t := by
  have hafter : c.after s = t := by rw [Change.after, hrun]
  obtain ⟨⟨id, rfl | rfl⟩, -⟩ := eq_of_removed h.agrees hrun
  · exact hafter ▸ .after _ trivial nofun h
  · exact hafter ▸ .after _ trivial nofun h

/-- **What becomes of the inventory in a removal**: the entries of the element and of all that it
owns go, and the others stay in order. -/
theorem inventory_of_removed (h : Reachable s) {c : Change} {e : Element}
    (hrun : c.perform s = .ok (.removed (some e)) t) :
    ∃ owner, ⟨owner, e⟩ ∈ s.placed ∧ ∃ pre post,
      s.inventory = pre ++ e.entries owner ++ post ∧
        t.inventory = (pre ++ post).map (Entry.without ⟨owner, e⟩) := by
  obtain ⟨⟨id, rfl | rfl⟩, -⟩ := eq_of_removed h.agrees hrun
  · change EStateM.map (fun r : Option Root => Outcome.removed (r.map .root)) (removeRoot id) s = _
      at hrun
    rw [EStateM.map, removeRoot] at hrun
    cases hr : s.root? id with
    | none => simp [hr] at hrun
    | some r =>
      rw [hr] at hrun
      cases hrun
      exact ⟨none, mem_placed_of_topLevel (mem_topLevel_root.mpr (root?_mem hr).1),
        inventory_of_removeRoot hr rfl rfl⟩
  · change EStateM.map (fun e => Outcome.removed (some (.flowElement e)))
      (removeFlowElement id) s = _ at hrun
    rw [EStateM.map] at hrun
    rcases removeFlowElement_spec h.agrees id with
      ⟨refusal, hrefused⟩ | ⟨_, path, k, f, k', hat, hrem, hremoved, -⟩
    · rw [hrefused] at hrun
      cases hrun
    · rw [hremoved] at hrun
      cases hrun
      obtain ⟨y, hpath, hy⟩ := exists_of_containerAt? hat
      obtain ⟨o, ho⟩ := hpath.mem_placed
      have hf := List.mem_of_find?_eq_some (Container.remove?_cases hrem).1
      exact ⟨some y.id, child_mem_placed ho (Element.flowElement_mem_children hy hf),
        inventory_of_remove? h hpath hy hrem⟩

/-- Without repetitions, a part of a list is what a filter by its names takes out. -/
theorem filter_not_mem_middle {α : Type} {name : α → Id} {pre middle post : List α}
    (h : ((pre ++ middle ++ post).map name).Nodup) :
    (pre ++ middle ++ post).filter (name · ∉ middle.map name) = pre ++ post := by
  simp only [List.map_append, List.nodup_append] at h
  obtain ⟨⟨-, -, hpre⟩, -, hpost⟩ := h
  have keep {xs : List α} (hxs : ∀ x ∈ xs, name x ∉ middle.map name) :
      xs.filter (name · ∉ middle.map name) = xs :=
    List.filter_eq_self.mpr fun x hx => decide_eq_true (hxs x hx)
  have hmiddle : middle.filter (name · ∉ middle.map name) = [] :=
    List.filter_eq_nil_iff.mpr fun x hx hgone =>
      of_decide_eq_true hgone (List.mem_map_of_mem hx)
  rw [List.filter_append, List.filter_append, hmiddle, List.append_nil, keep, keep]
  · exact fun x hx hmem => hpost _ (List.mem_append_right _ hmem) _ (List.mem_map_of_mem hx) rfl
  · exact fun x hx hmem => hpre _ (List.mem_map_of_mem hx) _ hmem rfl

section Removed

variable (h : Reachable s) {c : Change} {e : Element}
  (hrun : c.perform s = .ok (.removed (some e)) t)

include h hrun

/-- The same with the identifiers of what goes. -/
theorem inventory_eq_of_removed :
    ∃ owner, ⟨owner, e⟩ ∈ s.placed ∧ t.inventory =
      (s.inventory.filter (·.id ∉ e.subtree.map Element.id)).map (Entry.without ⟨owner, e⟩) := by
  obtain ⟨owner, hp, pre, post, hbefore, hafter⟩ := inventory_of_removed h hrun
  refine ⟨owner, hp, ?_⟩
  have hnodup := nodup_inventory h
  rw [hbefore] at hnodup ⊢
  rw [hafter, ← e.map_id_entries owner, filter_not_mem_middle hnodup]

/-- An entry that stays comes from one that holds at least the same references. -/
theorem exists_of_mem_inventory {x : Entry} (hx : x ∈ t.inventory) :
    ∃ y ∈ s.inventory, y.id = x.id ∧ y.kind = x.kind ∧ y.id ∉ e.subtree.map Element.id ∧
      x.references ⊆ y.references := by
  obtain ⟨owner, -, hinventory⟩ := inventory_eq_of_removed h hrun
  rw [hinventory] at hx
  obtain ⟨y, hy, rfl⟩ := List.mem_map.mp hx
  obtain ⟨hmem, hstays⟩ := List.mem_filter.mp hy
  exact ⟨y, hmem, (y.id_without _).symm, (y.kind_without _).symm, of_decide_eq_true hstays,
    y.references_without_subset _⟩

theorem exists_mem_inventory_of_stays {y : Entry} (hy : y ∈ s.inventory)
    (hstays : y.id ∉ e.subtree.map Element.id) :
    ∃ x ∈ t.inventory, x.id = y.id ∧ x.kind = y.kind := by
  obtain ⟨owner, -, hinventory⟩ := inventory_eq_of_removed h hrun
  refine ⟨y.without ⟨owner, e⟩, ?_, y.id_without _, y.kind_without _⟩
  rw [hinventory]
  exact List.mem_map_of_mem (List.mem_filter.mpr ⟨hy, decide_eq_true hstays⟩)

theorem contains_of_removed {id : Id} : t.registry.contains id = true ↔
    s.registry.contains id = true ∧ id ∉ e.subtree.map Element.id := by
  rw [contains_iff_mem_inventory (reachable_of_removed h hrun), contains_iff_mem_inventory h]
  constructor
  · intro hmem
    obtain ⟨x, hx, rfl⟩ := List.mem_map.mp hmem
    obtain ⟨y, hy, hid, -, hstays, -⟩ := exists_of_mem_inventory h hrun hx
    exact hid ▸ ⟨List.mem_map_of_mem hy, hstays⟩
  · rintro ⟨hmem, hstays⟩
    obtain ⟨y, hy, rfl⟩ := List.mem_map.mp hmem
    obtain ⟨x, hx, hid, -⟩ := exists_mem_inventory_of_stays h hrun hy hstays
    exact hid ▸ List.mem_map_of_mem hx

/-- **A removal frees exactly the identifiers of what it takes out.** -/
theorem isTaken_of_removed {id : Id} : t.registry.isTaken id = true ↔
    s.registry.isTaken id = true ∧ id ∉ e.subtree.map Element.id := by
  obtain ⟨-, owner, hremoves⟩ := eq_of_removed h.agrees hrun
  have hreserved : t.registry.reserved = s.registry.reserved := by
    rw [(hremoves.agrees h.agrees).reserved, h.agrees.reserved, Scope.id, Scope.id, hremoves.header]
  -- the reserved identifier is that of the scope, which no element has
  have hfree : s.registry.reserved.contains id = true → id ∉ e.subtree.map Element.id := by
    rw [h.agrees.reserved, List.contains_iff_mem, List.mem_singleton]
    rintro rfl hmem
    obtain ⟨owner, -, pre, post, hsplit, -⟩ := inventory_of_removed h hrun
    refine h.agrees.id_not_mem ?_
    rw [← map_id_inventory, hsplit, List.map_append, List.map_append, e.map_id_entries]
    exact List.mem_append_left _ (List.mem_append_right _ hmem)
  rw [Registry.isTaken, Registry.isTaken, hreserved, Bool.or_eq_true, Bool.or_eq_true,
    contains_of_removed h hrun]
  tauto

/-- What stays is still resolved. -/
theorem resolve_of_stays {id : Id} {r : Requirement} {x : Element} (hx : s.resolve id r = .ok x)
    (hstays : id ∉ e.subtree.map Element.id) : ∃ y, t.resolve id r = .ok y := by
  have ht := reachable_of_removed h hrun
  obtain ⟨-, owner, hremoves⟩ := eq_of_removed h.agrees hrun
  obtain ⟨hlookup, hmet⟩ := resolve_eq_ok_iff.mp hx
  rw [lookup_step] at hlookup
  suffices hfound : ∃ y, t.lookup id = some y ∧ y.kind = x.kind by
    obtain ⟨y, hy, hkind⟩ := hfound
    exact ⟨y, resolve_eq_ok_iff.mpr ⟨hy, hkind ▸ hmet⟩⟩
  rw [lookup_step, hremoves.imports]
  cases hget : s.get? id with
  | some z =>
    rw [hget, Option.some_or, Option.some.injEq] at hlookup
    subst hlookup
    obtain ⟨w, hw, hwid, hwkind⟩ := (exists_get?_kind_iff h).mp ⟨z, hget, rfl⟩
    obtain ⟨v, hv, hvid, hvkind⟩ := exists_mem_inventory_of_stays h hrun hw (hwid ▸ hstays)
    obtain ⟨y, hy, hkind⟩ := (exists_get?_kind_iff ht).mpr
      ⟨v, hv, hvid.trans hwid, hvkind.trans hwkind⟩
    exact ⟨y, by rw [hy, Option.some_or], hkind⟩
  | none =>
    have hnone : t.get? id = none := by
      rw [← Option.not_isSome_iff_eq_none, ht.agrees.get?_isSome, contains_of_removed h hrun,
        ← h.agrees.get?_isSome, hget]
      simp
    rw [hget, Option.none_or] at hlookup
    exact ⟨x, by rw [hnone, Option.none_or, hlookup], rfl⟩

/-- What went is found nowhere, unless an import has something of that name. -/
theorem lookup_of_gone {id : Id} (hgone : id ∈ e.subtree.map Element.id)
    (hforeign : ∀ i ∈ s.imports, ∀ u, i.scope? = some u → ∀ v ∈ u.searched, ∀ x ∈ e.subtree,
      v.registry.contains x.id = false) : t.lookup id = none := by
  obtain ⟨-, owner, hremoves⟩ := eq_of_removed h.agrees hrun
  rw [lookup_eq_none_iff (reachable_of_removed h hrun), searched_eq, hremoves.imports,
    List.forall_mem_cons, List.forall_mem_flatMap]
  constructor
  · rw [← Bool.not_eq_true, contains_of_removed h hrun]
    exact fun hstays => hstays.2 hgone
  · intro u hu v hv
    obtain ⟨i, hi, hscope⟩ := List.mem_filterMap.mp hu
    obtain ⟨x, hx, rfl⟩ := List.mem_map.mp hgone
    exact hforeign i hi u hscope v hv x hx

/-- After a removal from a scope where every reference resolved, the references that fail are those
to what went. -/
theorem fails_iff_of_removed
    (quiet : ∀ p ∈ s.placed, ∀ ref ∈ p.element.references,
      ∃ x, s.resolve ref.id ref.requires = .ok x)
    (hforeign : ∀ i ∈ s.imports, ∀ u, i.scope? = some u → ∀ v ∈ u.searched, ∀ x ∈ e.subtree,
      v.registry.contains x.id = false) {m : Mention} (hm : m ∈ t.mentions) :
    t.fails m = true ↔ m.reference.id ∈ e.subtree.map Element.id := by
  obtain ⟨x, hx, hmx⟩ := List.mem_flatMap.mp hm
  obtain ⟨y, hy, -, -, -, hrefs⟩ := exists_of_mem_inventory h hrun hx
  obtain ⟨p, hp, rfl⟩ := List.mem_map.mp hy
  have href := hrefs (List.mem_of_getElem? (Entry.mem_mentions.mp hmx).2)
  obtain ⟨z, hz⟩ := quiet p hp _ href
  constructor
  · intro hfails
    by_contra hstays
    rw [fails_eq_false_iff.mpr (resolve_of_stays h hrun hz hstays)] at hfails
    cases hfails
  · intro hgone
    have hnone := lookup_of_gone h hrun hgone hforeign
    exact fails_eq_true_iff.mpr ⟨_, resolve_eq_error_iff.mpr (.inl ⟨hnone, rfl⟩)⟩

end Removed

/-- **A removal leaves exactly its own references dangling.** -/
theorem removal_leaves (h : Reachable s) {c : Change} {e : Element}
    (hrun : c.perform s = .ok (.removed (some e)) t) (ho : o.isEnabled .referenceResolution = true)
    (quiet : (s.validate o).byRule .referenceResolution = [])
    (hforeign : ∀ i ∈ s.imports, ∀ u, i.scope? = some u → ∀ v ∈ u.searched, ∀ x ∈ e.subtree,
      v.registry.contains x.id = false) :
    List.Forall₂
        (fun m d => d.element = m.holder ∧ d.severity = .error ∧
          d.code.map Code.text = some "E200" ∧
          d.error = .danglingReference m.reference.id m.reference.requires)
        (t.mentions.filter (·.reference.id ∈ e.subtree.map Element.id))
        ((t.validate o).byRule .referenceResolution) ∧
      (∃ owner, ⟨owner, e⟩ ∈ s.placed ∧ t.inventory =
        (s.inventory.filter (·.id ∉ e.subtree.map Element.id)).map (Entry.without ⟨owner, e⟩)) ∧
      ∀ id, t.registry.isTaken id = true ↔
        s.registry.isTaken id = true ∧ id ∉ e.subtree.map Element.id := by
  refine ⟨?_, inventory_eq_of_removed h hrun, fun _ => isTaken_of_removed h hrun⟩
  have quiet := (byRule_eq_nil_iff s ho).mp quiet
  have hfails {m : Mention} (hm : m ∈ t.mentions) :=
    fails_iff_of_removed h hrun quiet hforeign hm
  have hfilter : t.mentions.filter (·.reference.id ∈ e.subtree.map Element.id) =
      t.mentions.filter t.fails := by
    refine List.filter_congr fun m hm => ?_
    rw [Bool.eq_iff_iff, decide_eq_true_iff]
    exact (hfails hm).symm
  have hgone : ∀ m ∈ t.mentions.filter t.fails, t.lookup m.reference.id = none := by
    intro m hm
    obtain ⟨hmem, hm⟩ := List.mem_filter.mp hm
    exact lookup_of_gone h hrun ((hfails hmem).mp hm) hforeign
  rw [hfilter]
  refine ((List.forall₂_and_left _ _).mpr ⟨hgone, t.forall₂_byRule ho⟩).imp ?_
  rintro m d ⟨hnone, hd⟩
  have herror : d.error = .danglingReference m.reference.id m.reference.requires := by
    rcases resolve_eq_error_iff.mp hd.error with ⟨-, herror⟩ | ⟨z, hz, -⟩
    · exact herror
    · rw [hnone] at hz
      cases hz
  refine ⟨hd.element, hd.severity, ?_, herror⟩
  rw [hd.code, herror]
  rfl

/-- Without its task the flow of the loop leads from nowhere to nowhere. -/
theorem removal_leaves_looping :
    let t := (Change.removeFlowElement ⟨"a"⟩).after looping
    ∃ d d', (t.validate default).byRule .referenceResolution = [d, d'] ∧
      d.element = ⟨"f"⟩ ∧ d'.element = ⟨"f"⟩ ∧ d.code.map Code.text = some "E200" ∧
      d'.code.map Code.text = some "E200" := by
  intro t
  have hs : Reachable looping := withFlow_reachable (.fresh _ _) _
  have himports : looping.imports = [] := rfl
  have hrun : ∃ e, (Change.removeFlowElement ⟨"a"⟩).perform looping = .ok (.removed (some e)) t ∧
      e.subtree.map Element.id = [⟨"a"⟩] := ⟨_, rfl, rfl⟩
  obtain ⟨e, hrun, hids⟩ := hrun
  have hmentions : t.mentions.filter (·.reference.id ∈ [(⟨"a"⟩ : Id)]) =
      [⟨⟨"f"⟩, 0, ⟨"sourceRef", ⟨"a"⟩, .anyFlowNode⟩⟩,
        ⟨⟨"f"⟩, 1, ⟨"targetRef", ⟨"a"⟩, .anyFlowNode⟩⟩] := by decide +kernel
  obtain ⟨hreport, -, -⟩ := removal_leaves hs hrun (o := default) rfl (by decide +kernel)
    (by rw [himports]; exact nofun)
  rw [hids, hmentions] at hreport
  obtain ⟨d, rest, hd, hrest, hlist⟩ := List.forall₂_cons_left_iff.mp hreport
  obtain ⟨d', rest', hd', hrest', rfl⟩ := List.forall₂_cons_left_iff.mp hrest
  cases hrest'
  exact ⟨d, d', hlist, hd.1, hd'.1, hd.2.2.1, hd'.2.2.1⟩

end Scope

end BpmnModel
