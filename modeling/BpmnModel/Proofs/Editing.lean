import BpmnModel.Proofs.Agreement

/-!
# What one edit does

Each operation that adds an element either refuses and leaves the scope as it was, or registers the
element and stores it under its owner (`Scope.Adds`).  Each removal takes out one tree
(`Scope.Removes`).  The lemmas `Scope.*_spec` say so for one operation each; the rest of the theory
cites them and does not unfold the operations.

* `Scope.slots_replaceRoot`, `Scope.slots_replaceContainer` — what replacing a part of a scope does
  to its slots.
* `Scope.Adds.agrees`, `Scope.Removes.agrees` — both keep tree and registry in agreement.
-/

namespace BpmnModel

/-- The element as a container stores it: a flow node lists the flows that touch it. -/
def Element.wired (flows : List SequenceFlow) : Element → Element
  | .flowElement e => .flowElement (flows.foldl .attach e)
  | e => e

/-- A root element with one more child has the slots of that child as well. -/
theorem Root.slots_of_children {r new : Root} {e : Element} (hid : new.id = r.id)
    (hkind : new.kind = r.kind)
    (h : (Element.root new).children.Perm ((Element.root r).children ++ [e])) :
    ((Element.root new).slots none).Perm ((Element.root r).slots none ++ e.slots (some r.id)) := by
  rw [Element.slots_eq, Element.slots_eq (.root r)]
  rw [Element.id_root, Element.id_root, Element.kind_root, Element.kind_root, hkind, hid,
    List.cons_append]
  have hbelow := h.flatMap_right (Element.slots (some r.id))
  rw [List.flatMap_append, List.flatMap_singleton] at hbelow
  exact hbelow.cons _

theorem Interface.children_push (i : Interface) (o : Operation) :
    (Element.root (.interface (i.push o))).children =
      (Element.root (.interface i)).children ++ [.operation o] := by
  simp [Element.children, push]

/-! ## Parts of collaborations -/

/-- What a collaboration can be given. -/
inductive Collaboration.Part where
  | participant (p : Participant)
  | messageFlow (f : MessageFlow)
  | conversation (n : ConversationNode)
  | link (l : ConversationLink)

namespace Collaboration

/-- The part as an element. -/
def Part.element : Part → Element
  | participant p => .participant p
  | messageFlow f => .messageFlow f
  | conversation n => .conversationNode n
  | link l => .conversationLink l

/-- Stores a part at the end of the list of its kind. -/
def add (c : Collaboration) : Part → Collaboration
  | .participant p => c.pushParticipant p
  | .messageFlow f => c.pushMessageFlow f
  | .conversation n => c.pushConversation n
  | .link l => c.pushLink l

@[simp]
theorem identity_add (c : Collaboration) (part : Part) : (c.add part).identity = c.identity := by
  cases part <;> rfl

@[simp]
theorem kind_add (c : Collaboration) (part : Part) : (c.add part).kind = c.kind := by
  cases part <;> rfl

theorem children_add (c : Collaboration) (part : Part) :
    (Element.root (.collaboration (c.add part))).children.Perm
      ((Element.root (.collaboration c)).children ++ [part.element]) := by
  classical
  rw [List.perm_iff_count]
  intro a
  cases part <;>
    · simp only [add, Part.element, Element.children, pushParticipant, pushMessageFlow,
        pushConversation, pushLink, Roster.items_push, List.map_append, List.map_cons, List.map_nil,
        List.count_append]
      omega

end Collaboration

namespace Scope

variable {s t : Scope}

/-! ## Parts put in place -/

theorem replaceContainer_cases (s : Scope) (path : List Id) (new : Container) :
    ∃ roots, s.replaceContainer path new = { s with roots } := by
  obtain ⟨header, roots, relationships, imports, extensions, registry⟩ := s
  unfold replaceContainer
  split
  · exact ⟨roots, rfl⟩
  · split
    · exact ⟨_, rfl⟩
    · exact ⟨roots, rfl⟩

@[simp]
theorem registry_replaceContainer (s : Scope) (path : List Id) (new : Container) :
    (s.replaceContainer path new).registry = s.registry := by
  obtain ⟨roots, hroots⟩ := s.replaceContainer_cases path new
  rw [hroots]

/-- The registry does not matter where a container is put in place. -/
theorem replaceContainer_with_registry (s : Scope) (registry : Registry) (path : List Id)
    (new : Container) :
    replaceContainer { s with registry } path new =
      { s.replaceContainer path new with registry } := by
  cases path with
  | nil => rfl
  | cons top rest =>
    rw [replaceContainer, replaceContainer, show root? { s with registry } top = s.root? top from rfl]
    cases s.root? top with
    | none => rfl
    | some r => cases r <;> rfl

/-- A path on which a container is found starts at a process. -/
theorem containerAt?_eq_some_iff {path : List Id} {c : Container} :
    s.containerAt? path = some c ↔ ∃ top rest p, path = top :: rest ∧
      s.root? top = some (.process p) ∧ p.container.descend? rest = some c := by
  cases path with
  | nil => simp [containerAt?]
  | cons top rest =>
    rw [containerAt?]
    split
    · rename_i p hp
      constructor
      · intro h
        exact ⟨top, rest, p, rfl, hp, h⟩
      · rintro ⟨_, _, q, heq, hq, h⟩
        cases heq
        rw [hp] at hq
        cases hq
        exact h
    · rename_i hne
      simp only [reduceCtorEq, false_iff]
      rintro ⟨_, _, q, heq, hq, -⟩
      cases heq
      exact hne q hq

theorem root?_mem {id : Id} {r : Root} (h : s.root? id = some r) : r ∈ s.roots ∧ r.id = id :=
  ⟨List.mem_of_find?_eq_some h, by simpa using List.find?_some h⟩

/-- Whatever is found at a path is the container of the element that has the path. -/
theorem exists_of_containerAt? {path : List Id} {c : Container}
    (h : s.containerAt? path = some c) : ∃ e, s.OwnerPath path e ∧ e.container? = some c := by
  obtain ⟨top, rest, p, rfl, hp, hd⟩ := containerAt?_eq_some_iff.mp h
  obtain ⟨hmem, rfl⟩ := root?_mem hp
  suffices hdown : ∀ (rest path : List Id) (x : Element) (k : Container), s.OwnerPath path x →
      x.container? = some k → k.descend? rest = some c →
      ∃ e, s.OwnerPath (path ++ rest) e ∧ e.container? = some c by
    exact hdown rest _ _ _ (.top (mem_topLevel_root.mpr hmem)) rfl hd
  intro rest
  induction rest with
  | nil =>
    intro path x k hx hk hd
    cases hd
    exact ⟨x, by rwa [List.append_nil], hk⟩
  | cons step rest ih =>
    intro path x k hx hk hd
    rw [Container.descend?] at hd
    cases hf : (k.find? step).bind FlowElement.container? with
    | none =>
      rw [hf] at hd
      cases hd
    | some inner =>
      rw [hf] at hd
      obtain ⟨f, hff, hinner⟩ := Option.bind_eq_some_iff.mp hf
      have hid : f.id = step := by simpa using List.find?_some hff
      have hchild := Element.flowElement_mem_children hk (List.mem_of_find?_eq_some hff)
      have := ih (path ++ [step]) (.flowElement f) inner (hid ▸ hx.child hchild) hinner hd
      rwa [List.append_assoc] at this

theorem mem_roots_replaceRoot {r new : Root} (hr : s.root? new.id = some r) :
    new ∈ (s.replaceRoot new).roots := by
  obtain ⟨hmem, hid⟩ := root?_mem hr
  exact List.mem_map.mpr ⟨r, hmem, if_pos hid⟩

theorem root?_replaceRoot {r new : Root} (hr : s.root? new.id = some r) :
    (s.replaceRoot new).root? new.id = some new := by
  rw [root?, replaceRoot, List.find?_map]
  have hname : ((fun x : Root => decide (x.id = new.id)) ∘
      fun x => if x.id = new.id then new else x) = fun x => decide (x.id = new.id) := by
    funext x
    simp only [Function.comp_apply]
    split <;> simp [*]
  rw [hname]
  show Option.map _ (s.root? new.id) = _
  rw [hr, Option.map_some, if_pos (root?_mem hr).2]

/-- A root element stands in the place of the last one. -/
theorem replaceRoot_concat {roots : List Root} {old new : Root} (hroots : s.roots = roots ++ [old])
    (hnd : (s.roots.map Root.id).Nodup) (hid : new.id = old.id) :
    s.replaceRoot new = { s with roots := roots ++ [new] } := by
  rw [hroots] at hnd
  rw [replaceRoot, hroots, hid, map_concat_of_nodup hnd fun _ => new]

theorem containerAt?_replaceContainer {path : List Id} {c : Container} (new : Container)
    (h : s.containerAt? path = some c) :
    (s.replaceContainer path new).containerAt? path = some new := by
  obtain ⟨top, rest, p, rfl, hp, hd⟩ := containerAt?_eq_some_iff.mp h
  obtain ⟨-, hid⟩ := root?_mem hp
  have hnew : s.root? (Root.process { p with container := new.replaceAt rest p.container }).id =
      some (.process p) := by
    rw [← hp, ← hid]
    rfl
  have htop := root?_replaceRoot hnew
  rw [show (Root.process { p with container := new.replaceAt rest p.container }).id = top from hid]
    at htop
  rw [replaceContainer, hp]
  exact containerAt?_eq_some_iff.mpr ⟨top, rest, _, rfl, htop, Container.descend?_replaceAt hd⟩

namespace Agrees

variable {gone extra : List (Id × Slot)}

/-- The slots of a scope change as those of the root element that is replaced. -/
theorem slots_replaceRoot (h : s.Agrees) {r new : Root} (hr : s.root? new.id = some r)
    (hp : ((Element.root new).slots none ++ gone).Perm ((Element.root r).slots none ++ extra)) :
    ((s.replaceRoot new).slots ++ gone).Perm (s.slots ++ extra) := by
  obtain ⟨l, r', hlr, hmap⟩ := split_of_find? h.nodup_roots hr
  have hroots : (s.replaceRoot new).roots = l ++ new :: r' := hmap fun _ => new
  have hrel : (s.replaceRoot new).relationships = s.relationships := rfl
  rw [slots_eq, slots_eq, hroots, hrel, hlr]
  simp only [List.flatMap_append, List.flatMap_cons]
  rw [List.perm_iff_count] at hp ⊢
  intro a
  have := hp a
  simp only [List.count_append] at this ⊢
  omega

theorem slots_process (p : Process) :
    (Element.root (.process p)).slots none =
      (p.identity.id, ⟨.process, none⟩) :: (p.container.slots p.identity.id ++
        (p.artifacts.map Element.artifact).flatMap (Element.slots (some p.identity.id))) := by
  rw [Element.slots_eq, Element.children, List.flatMap_append]
  rfl

/-- The slots of a scope change as those of the container that is replaced. -/
theorem slots_replaceContainer (h : s.Agrees) {path : List Id} {owner : Id} {c new : Container}
    (hc : s.containerAt? path = some c) (hlast : path.getLast? = some owner)
    (hp : (new.slots owner ++ gone).Perm (c.slots owner ++ extra)) :
    ((s.replaceContainer path new).slots ++ gone).Perm (s.slots ++ extra) := by
  obtain ⟨top, rest, p, rfl, hroot, hd⟩ := containerAt?_eq_some_iff.mp hc
  obtain ⟨hmem, hid⟩ := root?_mem hroot
  rw [List.getLast?_cons, Option.some.injEq] at hlast
  have hpid : p.identity.id = top := hid
  subst hlast hpid
  have hnd : ((p.container.slots p.identity.id).map Prod.fst).Nodup := by
    refine List.Sublist.nodup (List.Sublist.map _ ?_) h.nodup_slots
    have hs := List.sublist_flatten_of_mem
      (List.mem_map_of_mem (f := fun r => (Element.root r).slots none) hmem)
    rw [slots_eq, List.flatMap_def]
    refine List.Sublist.trans ?_ (hs.trans (List.sublist_append_left _ _))
    rw [slots_process]
    exact (List.sublist_append_left _ _).cons _
  have hinner := Container.slots_replaceAt hnd hd hp
  rw [replaceContainer, hroot]
  refine h.slots_replaceRoot (r := .process p) hroot ?_
  rw [slots_process, slots_process]
  rw [List.perm_iff_count] at hinner ⊢
  intro a
  have := hinner a
  simp only [List.count_append, List.count_cons] at this ⊢
  omega

/-- The registry objects to an owner unless a fitting element is there. -/
theorem exists_of_objection?_eq_none (h : s.Agrees) {id : Id} {requires : Requirement}
    (ho : s.objection? id requires = none) :
    ∃ path e, s.OwnerPath path e ∧ e.id = id ∧ requires.isMetBy e.kind = true := by
  unfold objection? at ho
  split at ho
  · cases ho
  · rename_i slot hs
    split at ho
    · rename_i hmet
      obtain ⟨p, hp, hid, rfl⟩ := h.records.exists_of_slot? hs
      obtain ⟨path, hpath⟩ := exists_ownerPath hp
      exact ⟨path, p.element, hpath, hid, hmet⟩
    · cases ho

/-- It does not object to an element that is there and fits. -/
theorem objection?_eq_none (h : s.Agrees) {path : List Id} {e : Element} {requires : Requirement}
    (he : s.OwnerPath path e) (hmet : requires.isMetBy e.kind = true) :
    s.objection? e.id requires = none := by
  obtain ⟨o, ho⟩ := he.mem_placed
  rw [objection?, show e.id = Placed.id ⟨o, e⟩ from rfl, h.records.slot?_eq ho]
  exact if_pos hmet

end Agrees

/-! ## Additions -/

/-- The element was registered and stands in the tree under its owner; all else is as before. -/
structure Adds (s : Scope) (owner : Option Id) (e : Element) (t : Scope) : Prop where
  registered : s.registry.register e owner = .ok t.registry
  slots : t.slots.Perm (s.slots ++ e.slots owner)
  stored : ∃ flows, ⟨owner, e.wired flows⟩ ∈ t.placed
  header : t.header = s.header
  imports : t.imports = s.imports
  extensions : t.extensions = s.extensions

theorem Adds.agrees {owner : Option Id} {e : Element} (h : s.Agrees) (ha : s.Adds owner e t) :
    t.Agrees :=
  h.grow ha.registered (by rw [id, id, ha.header]) ha.slots

/-- An addition that is refused leaves the scope as it was; any other one adds the element. -/
def AddsOrRefuses (s : Scope) (owner : Option Id) (e : Element)
    (result : EStateM.Result ModelError Scope Id) : Prop :=
  (∃ refusal, result = .error refusal s) ∨ ∃ t, result = .ok e.id t ∧ s.Adds owner e t

theorem addRoot_run (s : Scope) (r : Root) :
    addRoot r s =
      match s.registry.register (.root r) none with
      | .error refusal => .error refusal s
      | .ok registry => .ok r.id { s with registry, roots := s.roots ++ [r] } := by
  unfold addRoot
  simp only [bind, EStateM.bind, registerTree]
  cases s.registry.register (.root r) none <;> rfl

theorem addRoot_spec (s : Scope) (r : Root) :
    s.AddsOrRefuses none (.root r) (addRoot r s) := by
  rw [addRoot_run, ← Element.id_root]
  cases hr : s.registry.register (.root r) none with
  | error refusal => exact .inl ⟨refusal, rfl⟩
  | ok registry =>
    refine .inr ⟨_, rfl, hr, ?_, ⟨[], ?_⟩, rfl, rfl, rfl⟩
    · rw [slots_eq, slots_eq]
      simp only [List.flatMap_append, List.flatMap_singleton, List.append_assoc]
      exact List.perm_append_comm.append_left _
    · exact mem_placed_of_topLevel (mem_topLevel_root.mpr (List.mem_append_right _ (by simp)))

theorem addRelationship_spec (s : Scope) (r : Relationship) :
    s.AddsOrRefuses none (.relationship r) (addRelationship r s) := by
  unfold addRelationship
  simp only [bind, EStateM.bind, registerTree]
  cases hr : s.registry.register (.relationship r) none with
  | error refusal => exact .inl ⟨refusal, rfl⟩
  | ok registry =>
    refine .inr ⟨_, rfl, hr, ?_, ⟨[], ?_⟩, rfl, rfl, rfl⟩
    · rw [slots_eq, slots_eq]
      simp only [List.flatMap_append, List.flatMap_singleton, List.append_assoc]
      exact List.Perm.refl _
    · refine mem_placed_of_topLevel (List.mem_append_right _ (List.mem_map_of_mem ?_))
      exact List.mem_append_right _ (List.mem_singleton_self r)

theorem perform_addRoot (s : Scope) (r : Root) : (Change.addRoot r).perform s =
    match s.registry.register (.root r) none with
    | .error refusal => .error refusal s
    | .ok registry => .ok (.added r.id) { s with registry, roots := s.roots ++ [r] } := by
  show EStateM.map Outcome.added (addRoot r) s = _
  rw [EStateM.map, addRoot_run]
  cases s.registry.register (.root r) none <;> rfl

theorem perform_addRelationship (s : Scope) (r : Relationship) :
    (Change.addRelationship r).perform s =
      match s.registry.register (.relationship r) none with
      | .error refusal => .error refusal s
      | .ok registry =>
        .ok (.added r.id) { s with registry, relationships := s.relationships ++ [r] } := by
  show EStateM.map Outcome.added (Scope.addRelationship r) s = _
  unfold Scope.addRelationship
  simp only [EStateM.map, bind, EStateM.bind, registerTree]
  cases s.registry.register (.relationship r) none <;> rfl

/-- Reading the state leaves it as it is. -/
theorem get_run (s : Scope) : (get : Edit Scope) s = .ok s s := rfl

theorem containerPath_run (s : Scope) (container : Id) :
    containerPath container s =
      match s.objection? container .anyContainer with
      | some refusal => .error refusal s
      | none =>
        match s.containerAt? (s.registry.path container) with
        | none => .error (.danglingReference container .anyContainer) s
        | some _ => .ok (s.registry.path container) s := by
  unfold containerPath
  simp only [bind, EStateM.bind, expect]
  cases s.objection? container .anyContainer with
  | some refusal => rfl
  | none =>
    simp only [get_run]
    cases s.containerAt? (s.registry.path container) with
    | none => rfl
    | some c => rfl

/-- The path to the container of an element is the path of the element. -/
theorem containerPath_eq (h : s.Agrees) {path : List Id} {x : Element} {c : Container}
    (hx : s.OwnerPath path x) (hc : x.container? = some c) :
    containerPath x.id s = .ok path s := by
  have hmet : Requirement.anyContainer.isMetBy x.kind = true := by
    show x.kind.has .container = true
    rw [Element.kind_has_container, hc]
    rfl
  rw [containerPath_run, h.objection?_eq_none hx hmet, h.records.path_eq hx]
  simp only [h.containerAt?_eq hx hc]

/-- The path of a container that is given out leads to a container of the tree. -/
theorem containerPath_cases (h : s.Agrees) (container : Id) :
    (∃ refusal, containerPath container s = .error refusal s) ∨
      ∃ path x c, containerPath container s = .ok path s ∧ s.OwnerPath path x ∧
        x.id = container ∧ x.container? = some c ∧ s.containerAt? path = some c := by
  cases ho : s.objection? container .anyContainer with
  | some refusal =>
    rw [containerPath_run, ho]
    exact .inl ⟨refusal, rfl⟩
  | none =>
    obtain ⟨path, x, hx, rfl, hmet⟩ := h.exists_of_objection?_eq_none ho
    have hsome : x.container?.isSome = true := by
      rw [← Element.kind_has_container]
      exact hmet
    obtain ⟨c, hc⟩ := Option.isSome_iff_exists.mp hsome
    exact .inr ⟨path, x, c, containerPath_eq h hx hc, hx, rfl, hc, h.containerAt?_eq hx hc⟩

/-- What was put into a container stands in the tree under the owner of the container. -/
theorem mem_placed_of_container {path : List Id} {owner : Id} {c : Container}
    {e : Element} (hc : t.containerAt? path = some c) (hlast : path.getLast? = some owner)
    (he : e ∈ c.owned) : ⟨some owner, e⟩ ∈ t.placed := by
  obtain ⟨y, hy, hyc⟩ := exists_of_containerAt? hc
  obtain ⟨o, ho⟩ := hy.mem_placed
  rw [hy.getLast?, Option.some.injEq] at hlast
  rw [← hlast]
  exact child_mem_placed ho (Element.owned_subset_children hyc he)

theorem Agrees.adds_to_container (h : s.Agrees) {e : Element} {owner : Id} {registry : Registry}
    {path : List Id} {c c' : Container}
    (hr : s.registry.register e (some owner) = .ok registry) (hlast : path.getLast? = some owner)
    (hat : s.containerAt? path = some c)
    (hslots : (c'.slots owner).Perm (c.slots owner ++ e.slots (some owner)))
    (hstored : ∃ flows, e.wired flows ∈ c'.owned) :
    s.Adds (some owner) e { s.replaceContainer path c' with registry } := by
  obtain ⟨roots, hroots⟩ := s.replaceContainer_cases path c'
  have hrep : ((s.replaceContainer path c').slots ++ []).Perm
      (s.slots ++ e.slots (some owner)) := by
    refine h.slots_replaceContainer hat hlast ?_
    rw [List.append_nil]
    exact hslots
  rw [List.append_nil] at hrep
  obtain ⟨flows, hmem⟩ := hstored
  have hat' := containerAt?_replaceContainer c' hat
  refine ⟨hr, hrep, ⟨flows, mem_placed_of_container hat' hlast hmem⟩, ?_, ?_, ?_⟩ <;> rw [hroots]

theorem addFlowElement_run (s : Scope) (container : Id) (e : FlowElement) :
    addFlowElement container e s =
      match containerPath container s with
      | .error refusal s => .error refusal s
      | .ok path s =>
        match s.registry.register (.flowElement e) (some container) with
        | .error refusal => .error refusal s
        | .ok registry =>
          match s.containerAt? path with
          | none => .ok e.id { s with registry }
          | some c =>
            match c.insert e with
            | .error refusal => .error refusal { s with registry }
            | .ok c => .ok e.id { s.replaceContainer path c with registry } := by
  unfold addFlowElement
  simp only [bind, EStateM.bind, registerTree]
  cases containerPath container s with
  | error refusal s => rfl
  | ok path s =>
    simp only
    cases s.registry.register (.flowElement e) (some container) with
    | error refusal => rfl
    | ok registry =>
      simp only [get_run]
      show (match s.containerAt? path with | none => _ | some c => _ : Edit Id) _ = _
      cases s.containerAt? path with
      | none => rfl
      | some c =>
        simp only
        cases c.insert e with
        | error refusal => rfl
        | ok c =>
          exact congrArg (EStateM.Result.ok e.id) (replaceContainer_with_registry s registry path c)

/-- An element whose tree is fresh is not refused by the container. -/
theorem Agrees.insert_ne_error (h : s.Agrees) {path : List Id} {x : Element} {c : Container}
    {e : FlowElement} {registry : Registry} (hx : s.OwnerPath path x) (hc : x.container? = some c)
    (hr : s.registry.register (.flowElement e) (some x.id) = .ok registry) (refusal : ModelError) :
    c.insert e ≠ .error refusal := by
  intro hins
  obtain ⟨⟨-, hfree⟩, -⟩ := Registry.registerAll_eq_ok_iff.mp hr
  have hnone := (Registry.isTaken_eq_false_iff.mp
    (hfree _ (Element.mem_placed_self (.flowElement e) (some x.id)))).1
  obtain ⟨o, ho⟩ := hx.mem_placed
  unfold Container.insert at hins
  split at hins
  · rename_i f hf
    have hchild := Element.flowElement_mem_children hc (List.mem_of_find?_eq_some hf)
    have hid : f.id = e.id := by simpa using List.find?_some hf
    have hmem : e.id ∈ s.placed.map Placed.id :=
      hid ▸ List.mem_map_of_mem (f := Placed.id) (child_mem_placed ho hchild)
    have hcont := (h.records.contains_iff e.id).mpr hmem
    exact absurd (hcont.symm.trans (Registry.contains_eq_false_iff.mpr hnone)) (by decide)
  · cases e <;> cases hins

theorem addFlowElement_spec (h : s.Agrees) (container : Id) (e : FlowElement) :
    s.AddsOrRefuses (some container) (.flowElement e) (addFlowElement container e s) := by
  rw [addFlowElement_run]
  rcases containerPath_cases h container with ⟨refusal, hp⟩ | ⟨path, x, c, hp, hx, rfl, hxc, hat⟩
  · rw [hp]
    exact .inl ⟨refusal, rfl⟩
  · rw [hp]
    simp only
    cases hr : s.registry.register (.flowElement e) (some x.id) with
    | error refusal => exact .inl ⟨refusal, rfl⟩
    | ok registry =>
      simp only [hat]
      cases hins : c.insert e with
      | error refusal => exact absurd hins (h.insert_ne_error hx hxc hr refusal)
      | ok c' =>
        obtain ⟨flows, hmem⟩ := Container.mem_elements_of_insert hins
        exact .inr ⟨_, rfl, h.adds_to_container hr hx.getLast? hat (Container.slots_insert x.id hins)
          ⟨flows, List.mem_append_left _ (List.mem_map_of_mem hmem)⟩⟩

/-- **An addition succeeds exactly where the tree can be registered under a container of the scope**,
which then holds the element. -/
theorem addFlowElement_eq_ok_iff (h : s.Agrees) {owner id : Id} {e : FlowElement} :
    addFlowElement owner e s = .ok id t ↔
      id = e.id ∧ ∃ path x k k' registry, s.OwnerPath path x ∧ x.id = owner ∧
        x.container? = some k ∧ k.insert e = .ok k' ∧
        s.registry.register (.flowElement e) (some owner) = .ok registry ∧
        t = { s.replaceContainer path k' with registry } := by
  constructor
  · intro run
    rw [addFlowElement_run] at run
    rcases containerPath_cases h owner with ⟨refusal, hp⟩ | ⟨path, x, k, hp, hx, hid, hk, hat⟩
    · rw [hp] at run
      cases run
    · rw [hp] at run
      simp only [hat] at run
      cases hreg : s.registry.register (.flowElement e) (some owner) with
      | error refusal =>
        rw [hreg] at run
        cases run
      | ok registry =>
        rw [hreg] at run
        cases hins : k.insert e with
        | error refusal =>
          rw [hins] at run
          cases run
        | ok k' =>
          rw [hins] at run
          cases run
          exact ⟨rfl, path, x, k, k', registry, hx, hid, hk, hins, rfl, rfl⟩
  · rintro ⟨rfl, path, x, k, k', registry, hx, rfl, hk, hins, hreg, rfl⟩
    rw [addFlowElement_run, containerPath_eq h hx hk]
    simp only [hreg, h.containerAt?_eq hx hk, hins]

theorem Agrees.of_addFlowElement (h : s.Agrees) {owner id : Id} {e : FlowElement}
    (run : addFlowElement owner e s = .ok id t) : t.Agrees := by
  rcases addFlowElement_spec h owner e with ⟨refusal, hspec⟩ | ⟨t', hspec, hadds⟩
  · rw [run] at hspec
    cases hspec
  · rw [run] at hspec
    cases hspec
    exact hadds.agrees h

theorem addLaneSet_run (s : Scope) (container : Id) (laneSet : LaneSet) :
    addLaneSet container laneSet s =
      match containerPath container s with
      | .error refusal s => .error refusal s
      | .ok path s =>
        match s.registry.register (.laneSet laneSet) (some container) with
        | .error refusal => .error refusal s
        | .ok registry =>
          match s.containerAt? path with
          | none => .ok laneSet.identity.id { s with registry }
          | some c =>
            .ok laneSet.identity.id
              { s.replaceContainer path (c.pushLaneSet laneSet) with registry } := by
  unfold addLaneSet
  simp only [bind, EStateM.bind, registerTree]
  cases containerPath container s with
  | error refusal s => rfl
  | ok path s =>
    simp only
    cases s.registry.register (.laneSet laneSet) (some container) with
    | error refusal => rfl
    | ok registry =>
      show EStateM.Result.ok laneSet.identity.id (match s.containerAt? path with
        | none => { s with registry }
        | some c => replaceContainer { s with registry } path (c.pushLaneSet laneSet)) = _
      cases s.containerAt? path with
      | none => rfl
      | some c =>
        simp only
        rw [← replaceContainer_with_registry]

theorem addLaneSet_spec (h : s.Agrees) (container : Id) (laneSet : LaneSet) :
    s.AddsOrRefuses (some container) (.laneSet laneSet) (addLaneSet container laneSet s) := by
  rw [addLaneSet_run]
  rcases containerPath_cases h container with ⟨refusal, hp⟩ | ⟨path, x, c, hp, hx, rfl, hxc, hat⟩
  · rw [hp]
    exact .inl ⟨refusal, rfl⟩
  · rw [hp]
    simp only
    cases hr : s.registry.register (.laneSet laneSet) (some x.id) with
    | error refusal => exact .inl ⟨refusal, rfl⟩
    | ok registry =>
      simp only [hat]
      have hslots := List.Perm.of_eq (Container.slots_pushLaneSet x.id c laneSet)
      refine .inr ⟨_, rfl, h.adds_to_container hr hx.getLast? hat hslots ⟨[], ?_⟩⟩
      refine List.mem_append_right _ (List.mem_map_of_mem ?_)
      exact List.mem_append_right _ (List.mem_singleton_self _)

/-- A root element with one more child takes the place of the one that was there. -/
theorem Agrees.adds_to_root (h : s.Agrees) {r new : Root} {e : Element} {registry : Registry}
    (hroot : s.root? new.id = some r) (hkind : new.kind = r.kind)
    (hr : s.registry.register e (some new.id) = .ok registry)
    (hchildren : (Element.root new).children.Perm ((Element.root r).children ++ [e]))
    (hwired : e.wired [] = e) :
    s.Adds (some new.id) e { s.replaceRoot new with registry } := by
  have hid : r.id = new.id := (root?_mem hroot).2
  have hslots := Root.slots_of_children hid.symm hkind hchildren
  rw [hid, ← List.append_nil ((Element.root new).slots none)] at hslots
  have hgrow := h.slots_replaceRoot hroot hslots
  rw [List.append_nil] at hgrow
  refine ⟨hr, hgrow, ⟨[], ?_⟩, rfl, rfl, rfl⟩
  rw [hwired]
  have hnew : ⟨none, .root new⟩ ∈ (s.replaceRoot new).placed :=
    mem_placed_of_topLevel (mem_topLevel_root.mpr (mem_roots_replaceRoot hroot))
  rw [← Element.id_root]
  exact child_mem_placed hnew (hchildren.mem_iff.mpr (by simp))

theorem addOperation_run (s : Scope) (interface : Id) (operation : Operation) :
    addOperation interface operation s =
      match s.objection? interface (.kind .interface) with
      | some refusal => .error refusal s
      | none =>
        match s.registry.register (.operation operation) (some interface) with
        | .error refusal => .error refusal s
        | .ok registry =>
          match s.root? interface with
          | some (.interface i) =>
            .ok operation.id { s.replaceRoot (.interface (i.push operation)) with registry }
          | _ => .ok operation.id { s with registry } := by
  unfold addOperation
  simp only [bind, EStateM.bind, expect]
  cases s.objection? interface (.kind .interface) with
  | some refusal => rfl
  | none =>
    simp only [registerTree]
    cases s.registry.register (.operation operation) (some interface) with
    | error refusal => rfl
    | ok registry =>
      show EStateM.Result.ok operation.id (match s.root? interface with
        | some (.interface i) => replaceRoot { s with registry } (.interface (i.push operation))
        | _ => { s with registry }) = _
      cases s.root? interface with
      | none => rfl
      | some r => cases r <;> rfl

theorem addOperation_spec (h : s.Agrees) (interface : Id) (operation : Operation) :
    s.AddsOrRefuses (some interface) (.operation operation)
      (addOperation interface operation s) := by
  rw [addOperation_run]
  cases ho : s.objection? interface (.kind .interface) with
  | some refusal => exact .inl ⟨refusal, rfl⟩
  | none =>
    cases hr : s.registry.register (.operation operation) (some interface) with
    | error refusal => exact .inl ⟨refusal, rfl⟩
    | ok registry =>
      obtain ⟨path, x, hx, rfl, hmet⟩ := h.exists_of_objection?_eq_none ho
      obtain ⟨i, rfl⟩ := Element.eq_interface_of_kind (by simpa [Requirement.isMetBy] using hmet)
      have hroot : s.root? (Element.root (.interface i)).id = some (.interface i) :=
        h.root?_eq hx.mem_roots.1
      simp only [hroot]
      have hnew : s.root? (Root.interface (i.push operation)).id = some (.interface i) := hroot
      exact .inr ⟨_, rfl, h.adds_to_root hnew rfl hr (.of_eq (i.children_push operation)) rfl⟩

theorem addToCollaboration_run (s : Scope) (collaboration : Id) (child : Element)
    (store : Collaboration → Collaboration) :
    addToCollaboration collaboration child store s =
      match s.objection? collaboration .anyCollaboration with
      | some refusal => .error refusal s
      | none =>
        match s.registry.register child (some collaboration) with
        | .error refusal => .error refusal s
        | .ok registry =>
          match s.root? collaboration with
          | some (.collaboration c) =>
            .ok child.id { s.replaceRoot (.collaboration (store c)) with registry }
          | _ => .error (.danglingReference collaboration .anyCollaboration) { s with registry } := by
  unfold addToCollaboration
  simp only [bind, EStateM.bind, expect]
  cases s.objection? collaboration .anyCollaboration with
  | some refusal => rfl
  | none =>
    simp only [registerTree]
    cases s.registry.register child (some collaboration) with
    | error refusal => rfl
    | ok registry =>
      simp only [get_run]
      show (match s.root? collaboration with
        | some (.collaboration c) => _
        | _ => _ : Edit Id) _ = _
      cases s.root? collaboration with
      | none => rfl
      | some r => cases r <;> rfl

/-- What is stored is all that tells the four operations on collaborations apart. -/
theorem addToCollaboration_spec (h : s.Agrees) (collaboration : Id) (part : Collaboration.Part) :
    s.AddsOrRefuses (some collaboration) part.element
      (addToCollaboration collaboration part.element (·.add part) s) := by
  rw [addToCollaboration_run]
  cases ho : s.objection? collaboration .anyCollaboration with
  | some refusal => exact .inl ⟨refusal, rfl⟩
  | none =>
    cases hr : s.registry.register part.element (some collaboration) with
    | error refusal => exact .inl ⟨refusal, rfl⟩
    | ok registry =>
      obtain ⟨path, x, hx, rfl, hmet⟩ := h.exists_of_objection?_eq_none ho
      obtain ⟨c, rfl⟩ := Element.eq_collaboration_of_kind hmet
      have hroot : s.root? (Element.root (.collaboration c)).id = some (.collaboration c) :=
        h.root?_eq hx.mem_roots.1
      simp only [hroot]
      have hid : (Root.collaboration (c.add part)).id = (Element.root (.collaboration c)).id :=
        congrArg Identity.id (c.identity_add part)
      have hwired : part.element.wired [] = part.element := by cases part <;> rfl
      rw [← hid] at hr hroot ⊢
      exact .inr ⟨_, rfl, h.adds_to_root hroot (c.kind_add part) hr (c.children_add part) hwired⟩

theorem addParticipant_spec (h : s.Agrees) (collaboration : Id) (p : Participant) :
    s.AddsOrRefuses (some collaboration) (.participant p) (addParticipant collaboration p s) :=
  addToCollaboration_spec h collaboration (.participant p)

theorem addMessageFlow_spec (h : s.Agrees) (collaboration : Id) (f : MessageFlow) :
    s.AddsOrRefuses (some collaboration) (.messageFlow f) (addMessageFlow collaboration f s) :=
  addToCollaboration_spec h collaboration (.messageFlow f)

theorem addConversation_spec (h : s.Agrees) (collaboration : Id) (n : ConversationNode) :
    s.AddsOrRefuses (some collaboration) (.conversationNode n)
      (addConversation collaboration n s) :=
  addToCollaboration_spec h collaboration (.conversation n)

theorem addLink_spec (h : s.Agrees) (collaboration : Id) (l : ConversationLink) :
    s.AddsOrRefuses (some collaboration) (.conversationLink l) (addLink collaboration l s) :=
  addToCollaboration_spec h collaboration (.link l)

/-! ## Removals -/

/-- The element was taken out of the tree and of the registry; all else is as before. -/
structure Removes (s : Scope) (owner : Option Id) (e : Element) (t : Scope) : Prop where
  unregistered : t.registry = (s.registry.unregister e).2
  slots : s.slots.Perm (t.slots ++ e.slots owner)
  header : t.header = s.header
  imports : t.imports = s.imports
  extensions : t.extensions = s.extensions

theorem Removes.agrees {owner : Option Id} {e : Element} (h : s.Agrees) (hr : s.Removes owner e t) :
    t.Agrees :=
  h.shrink hr.unregistered (by rw [id, id, hr.header]) hr.slots

theorem removeRoot_spec (s : Scope) (id : Id) :
    (s.root? id = none ∧ removeRoot id s = .ok none s) ∨
      ∃ r t, s.root? id = some r ∧ removeRoot id s = .ok (some r) t ∧
        s.Removes none (.root r) t ∧ t.roots = s.roots.eraseP (·.id = id) := by
  unfold removeRoot
  cases hr : s.root? id with
  | none => exact .inl ⟨rfl, rfl⟩
  | some r =>
    refine .inr ⟨r, _, rfl, rfl, ⟨rfl, ?_, rfl, rfl, rfl⟩, rfl⟩
    have hp := (perm_cons_eraseP_of_find? hr).flatMap_right fun r => (Element.root r).slots none
    rw [List.flatMap_cons] at hp
    rw [slots_eq, slots_eq]
    refine (hp.append_right _).trans ?_
    rw [List.append_assoc]
    exact List.perm_append_comm

theorem removeFlowElement_run (s : Scope) (id : Id) :
    removeFlowElement id s =
      match (s.registry.slot? id).bind Slot.owner with
      | none => .error (.danglingReference id .anyFlowElement) s
      | some owner =>
        match (s.containerAt? (s.registry.path owner)).bind (·.remove? id) with
        | none => .error (.danglingReference id .anyFlowElement) s
        | some (e, c) =>
          .ok e { s.replaceContainer (s.registry.path owner) c with
            registry := (s.registry.unregister (.flowElement e)).2 } := by
  unfold removeFlowElement
  simp only [bind, EStateM.bind, get_run]
  cases (s.registry.slot? id).bind Slot.owner with
  | none => rfl
  | some owner =>
    simp only
    cases (s.containerAt? (s.registry.path owner)).bind (·.remove? id) with
    | none => rfl
    | some result =>
      obtain ⟨e, c⟩ := result
      have hreg := s.registry_replaceContainer (s.registry.path owner) c
      exact congrArg (fun r => EStateM.Result.ok e { s.replaceContainer (s.registry.path owner) c with
        registry := (r.unregister (.flowElement e)).2 }) hreg

theorem Agrees.removes_from_container (h : s.Agrees) {path : List Id} {owner id : Id}
    {c c' : Container} {e : FlowElement} (hlast : path.getLast? = some owner)
    (hat : s.containerAt? path = some c) (hrem : c.remove? id = some (e, c')) :
    s.Removes (some owner) (.flowElement e) { s.replaceContainer path c' with
      registry := (s.registry.unregister (.flowElement e)).2 } := by
  obtain ⟨roots, hroots⟩ := s.replaceContainer_cases path c'
  have hslots : (c'.slots owner ++ (Element.flowElement e).slots (some owner)).Perm
      (c.slots owner ++ []) := by
    rw [List.append_nil]
    exact (Container.slots_remove? owner hrem).symm
  have hshrink := h.slots_replaceContainer hat hlast hslots
  rw [List.append_nil] at hshrink
  refine ⟨rfl, hshrink.symm, ?_, ?_, ?_⟩ <;> rw [hroots]

/-- What is removed leaves the container that the path of its owner leads to. -/
theorem removeFlowElement_spec (h : s.Agrees) (id : Id) :
    (∃ refusal, removeFlowElement id s = .error refusal s) ∨
      ∃ owner path c e c', s.containerAt? path = some c ∧ c.remove? id = some (e, c') ∧
        removeFlowElement id s = .ok e { s.replaceContainer path c' with
          registry := (s.registry.unregister (.flowElement e)).2 } ∧
        s.Removes (some owner) (.flowElement e) { s.replaceContainer path c' with
          registry := (s.registry.unregister (.flowElement e)).2 } := by
  rw [removeFlowElement_run]
  cases howner : (s.registry.slot? id).bind Slot.owner with
  | none => exact .inl ⟨_, rfl⟩
  | some owner =>
    simp only
    cases hrem : (s.containerAt? (s.registry.path owner)).bind (·.remove? id) with
    | none => exact .inl ⟨_, rfl⟩
    | some result =>
      obtain ⟨e, c'⟩ := result
      obtain ⟨c, hat, hremove⟩ := Option.bind_eq_some_iff.mp hrem
      obtain ⟨slot, hslot, hslotowner⟩ := Option.bind_eq_some_iff.mp howner
      obtain ⟨p, hp, -, rfl⟩ := h.records.exists_of_slot? hslot
      obtain ⟨powner, element⟩ := p
      cases hslotowner
      obtain ⟨o, y, hy, rfl, -⟩ := owner_of_mem_placed hp
      obtain ⟨path, hpath⟩ := exists_ownerPath hy
      rw [h.records.path_eq hpath] at hat ⊢
      exact .inr ⟨y.id, path, c, e, c', hat, hremove, rfl,
        h.removes_from_container hpath.getLast? hat hremove⟩

/-- What a container holds is registered under the owner of the container. -/
theorem Agrees.slot?_of_mem_elements (h : s.Agrees) {path : List Id} {x : Element} {k : Container}
    {e : FlowElement} (hx : s.OwnerPath path x) (hk : x.container? = some k) (he : e ∈ k.elements) :
    s.registry.slot? e.id = some ⟨e.kind, some x.id⟩ := by
  obtain ⟨o, ho⟩ := hx.mem_placed
  exact h.records.slot?_eq (child_mem_placed ho (Element.flowElement_mem_children hk he))

/-- **A removal succeeds exactly where a container of the scope holds the element.** -/
theorem removeFlowElement_eq_ok_iff (h : s.Agrees) {id : Id} {e : FlowElement} :
    removeFlowElement id s = .ok e t ↔
      ∃ path x k k', s.OwnerPath path x ∧ x.container? = some k ∧ k.remove? id = some (e, k') ∧
        t = { s.replaceContainer path k' with
          registry := (s.registry.unregister (.flowElement e)).2 } := by
  constructor
  · intro run
    rcases removeFlowElement_spec h id with
      ⟨refusal, hspec⟩ | ⟨owner, path, k, e', k', hat, hrem, hspec, -⟩
    · rw [run] at hspec
      cases hspec
    · rw [run] at hspec
      cases hspec
      obtain ⟨x, hx, hk⟩ := exists_of_containerAt? hat
      exact ⟨path, x, k, k', hx, hk, hrem, rfl⟩
  · rintro ⟨path, x, k, k', hx, hk, hrem, rfl⟩
    obtain ⟨hfind, -⟩ := Container.remove?_cases hrem
    have hid : e.id = id := by simpa using List.find?_some hfind
    have hslot := h.slot?_of_mem_elements hx hk (List.mem_of_find?_eq_some hfind)
    rw [removeFlowElement_run, ← hid, hslot, Option.bind_some, hid]
    simp only [h.records.path_eq hx, h.containerAt?_eq hx hk, Option.bind_some, hrem]

end Scope

end BpmnModel
