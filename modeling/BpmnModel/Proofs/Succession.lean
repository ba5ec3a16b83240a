import BpmnModel.Proofs.Completeness

/-!
# What an owner contains, before and after an edit

* `Scope.contents?` — what the process or sub-process with an identifier contains.
* `Container.Follows` — one container after another in one edit: the same, edited itself, or changed
  somewhere within.
* `Scope.OwnerPath.eq_of_slots` — an element keeps its path while the registry grows or shrinks.
* `Change.follows` — what an owner contains after an edit follows what it contained before.
-/

namespace BpmnModel

/-! ## Containers -/

/-- What becomes of a container in one edit of a scope. -/
inductive Container.Follows (c : Change) (k : Container) : Container → Prop where
  | same : Follows c k k
  | edited {k' : Container} (edit : k.Edited c k') : Follows c k k'
  | inner (step : Id) (f : Container → Container) :
    Follows c k ⟨k.elements.map fun e => if e.id = step then e.mapContainer f else e, k.laneSets⟩

namespace FlowElement

@[simp]
theorem container?_mapEdges (f : Edges → Edges) (e : FlowElement) :
    (e.mapEdges f).container? = e.container? := by
  cases e <;> rfl

theorem container?_mapContainer (f : Container → Container) (e : FlowElement) :
    (e.mapContainer f).container? = e.container?.map f := by
  cases e <;> rfl

theorem container?_foldl_attach (flows : List SequenceFlow) (e : FlowElement) :
    (flows.foldl attach e).container? = e.container? := by
  rw [foldl_attach_eq, container?_mapEdges]

theorem foldl_attach_mapContainer (f : Container → Container) (flows : List SequenceFlow)
    (e : FlowElement) :
    flows.foldl attach (e.mapContainer f) = (flows.foldl attach e).mapContainer f := by
  induction flows generalizing e with
  | nil => rfl
  | cons flow flows ih => rw [List.foldl_cons, List.foldl_cons, attach_mapContainer, ih]

end FlowElement

namespace Container

variable {c : Change} {k k' inner new outer : Container}

/-- An edit of a container leaves alone what the elements that stay contain. -/
theorem Edited.container?_eq (h : k.Edited c k') (hnd : (k.elements.map FlowElement.id).Nodup)
    {id : Id} {e e' : FlowElement} (he : k.find? id = some e) (he' : k'.find? id = some e') :
    e'.container? = e.container? := by
  have hid : e.id = id := by simpa using List.find?_some he
  have hid' : e'.id = id := by simpa using List.find?_some he'
  have hmem := List.mem_of_find?_eq_some he
  have hmem' := List.mem_of_find?_eq_some he'
  have huniq {x : FlowElement} (hx : x ∈ k.elements) (hxid : x.id = id) : x = e :=
    List.inj_on_of_nodup_map hnd hx hmem (hxid.trans hid.symm)
  cases h with
  | @inserted _ x _ change run =>
    have hnew : x.id ≠ id := by
      intro heq
      have hfind := (insert_cases run).1
      rw [heq, he] at hfind
      cases hfind
    obtain ⟨-, ⟨flow, rfl, rfl⟩ | ⟨-, rfl⟩⟩ := insert_cases run
    · rcases List.mem_append.mp hmem' with hm | hm
      · obtain ⟨y, hy, rfl⟩ := List.mem_map.mp hm
        rw [FlowElement.id_attach] at hid'
        rw [huniq hy hid', FlowElement.attach, FlowElement.container?_mapEdges]
      · rw [List.mem_singleton.mp hm] at hid'
        exact absurd hid' hnew
    · rcases List.mem_append.mp hmem' with hm | hm
      · rw [huniq hm hid']
      · rw [List.mem_singleton.mp hm, FlowElement.id_foldl_attach] at hid'
        exact absurd hid' hnew
  | removed run =>
    obtain ⟨-, ⟨flow, rfl, rfl⟩ | ⟨-, rfl⟩⟩ := remove?_cases run
    · obtain ⟨y, hy, rfl⟩ := List.mem_map.mp hmem'
      rw [FlowElement.id_detach] at hid'
      rw [huniq (List.mem_of_mem_eraseP hy) hid', FlowElement.detach,
        FlowElement.container?_mapEdges]
    · rw [huniq (List.mem_of_mem_eraseP hmem') hid']
  | extended laneSet =>
    rw [huniq hmem' hid']

/-- Whatever stands at an address after a container at another address was edited. -/
theorem follows_of_descend? {path address : List Id} (hd : outer.descend? path = some inner)
    (edit : inner.Edited c new) (hnd : (inner.elements.map FlowElement.id).Nodup)
    (hk : outer.descend? address = some k)
    (hk' : (replaceAt new path outer).descend? address = some k') : k.Follows c k' := by
  induction path generalizing outer address with
  | nil =>
    cases hd
    cases address with
    | nil =>
      cases hk
      cases hk'
      exact .edited edit
    | cons step rest =>
      -- the address leads into an element of the edited container
      rw [descend?] at hk
      rw [replaceAt, descend?] at hk'
      cases he : inner.find? step with
      | none =>
        rw [he] at hk
        cases hk
      | some e =>
        cases he' : new.find? step with
        | none =>
          rw [he'] at hk'
          cases hk'
        | some e' =>
          rw [he, Option.bind_some] at hk
          rw [he', Option.bind_some, edit.container?_eq hnd he he', hk, Option.some.injEq] at hk'
          exact hk' ▸ .same
  | cons step rest ih =>
    rw [descend?] at hd
    cases hmid : (outer.find? step).bind FlowElement.container? with
    | none =>
      rw [hmid] at hd
      cases hd
    | some mid =>
      rw [hmid] at hd
      cases address with
      | nil =>
        cases hk
        cases hk'
        exact .inner step (replaceAt new rest)
      | cons next address =>
        rw [descend?] at hk
        rw [descend?, find?_replaceAt] at hk'
        cases he : outer.find? next with
        | none =>
          rw [he] at hk
          cases hk
        | some e =>
          have hid : e.id = next := by simpa using List.find?_some he
          rw [he, Option.bind_some] at hk
          rw [he, Option.map_some, Option.bind_some, hid] at hk'
          by_cases hnext : next = step
          · subst hnext
            rw [he, Option.bind_some] at hmid
            rw [if_pos rfl, FlowElement.container?_mapContainer, hmid, Option.map_some] at hk'
            rw [hmid] at hk
            exact ih hd hk hk'
          · rw [if_neg hnext, hk, Option.some.injEq] at hk'
            exact hk' ▸ .same

end Container

namespace Scope

variable {s t : Scope} {c : Change}

/-! ## Root elements -/

theorem root?_replaceRoot_of_ne {new : Root} {id : Id} (hne : id ≠ new.id) :
    (s.replaceRoot new).root? id = s.root? id := by
  rw [root?, replaceRoot, List.find?_map]
  have hname : ((fun r : Root => decide (r.id = id)) ∘
      fun r => if r.id = new.id then new else r) = fun r => decide (r.id = id) := by
    funext r
    simp only [Function.comp_apply]
    split
    · rename_i heq
      rw [heq]
    · rfl
  rw [hname]
  cases hr : s.root? id with
  | none =>
    show Option.map _ (s.root? id) = _
    rw [hr, Option.map_none]
  | some r =>
    show Option.map _ (s.root? id) = _
    rw [hr, Option.map_some, if_neg ((root?_mem hr).2 ▸ hne)]

theorem root?_congr (h : t.roots = s.roots) (id : Id) : t.root? id = s.root? id := by
  rw [root?, root?, h]

theorem replaceContainer_of_process {top : Id} {p : Process}
    (hp : s.root? top = some (.process p)) (rest : List Id) (new : Container) :
    s.replaceContainer (top :: rest) new =
      s.replaceRoot (.process { p with container := new.replaceAt rest p.container }) := by
  rw [replaceContainer, hp]

/-- Of two replacements of a root element the second counts. -/
theorem replaceRoot_replaceRoot (s : Scope) {new new' : Root} (hid : new.id = new'.id) :
    (s.replaceRoot new).replaceRoot new' = s.replaceRoot new' := by
  simp only [replaceRoot, List.map_map]
  congr 1
  refine List.map_congr_left fun r _ => ?_
  rw [Function.comp_apply, hid]
  by_cases hr : r.id = new'.id
  · rw [if_pos hr, if_pos hr, if_pos hid]
  · rw [if_neg hr, if_neg hr]

/-- Putting a container in place and another one below it is one replacement. -/
theorem replaceContainer_replaceContainer {path : List Id} {c : Container}
    (hc : s.containerAt? path = some c) (k new : Container) (rest : List Id) :
    (s.replaceContainer path k).replaceContainer (path ++ rest) new =
      s.replaceContainer path (new.replaceAt rest k) := by
  obtain ⟨top, below, p, rfl, hp, -⟩ := containerAt?_eq_some_iff.mp hc
  obtain rfl : p.identity.id = top := (root?_mem hp).2
  have hroot : (s.replaceRoot (.process { p with container := k.replaceAt below p.container })).root?
      p.identity.id = some (.process { p with container := k.replaceAt below p.container }) :=
    root?_replaceRoot (r := .process p) hp
  rw [List.cons_append, replaceContainer_of_process hp, replaceContainer_of_process hroot,
    replaceContainer_of_process hp]
  refine (replaceRoot_replaceRoot s ?_).trans ?_
  · rfl
  simp only [Container.replaceAt_replaceAt]

/-- **What stands at an address after an edit follows what stood there before.** -/
theorem Reshapes.follows (h : s.Reshapes c t) (hs : s.Agrees) (hcomplete : s.Complete)
    {address : List Id} {k k' : Container} (hk : s.containerAt? address = some k)
    (hk' : t.containerAt? address = some k') : k.Follows c k' := by
  obtain ⟨top, rest, p, rfl, hp, hd⟩ := containerAt?_eq_some_iff.mp hk
  obtain ⟨_, _, p', heq, hp', hd'⟩ := containerAt?_eq_some_iff.mp hk'
  cases heq
  -- where the process is the same there is nothing to show
  have unchanged (hroot : t.root? top = s.root? top) : k.Follows c k' := by
    rw [hroot, hp, Option.some.injEq] at hp'
    cases hp'
    rw [hd, Option.some.injEq] at hd'
    exact hd' ▸ .same
  cases h with
  | kept roots => exact unchanged (root?_congr roots top)
  | @added r change roots =>
    refine unchanged ?_
    rw [root?, roots, List.find?_append]
    show (s.root? top).or _ = _
    rw [hp]
    rfl
  | removed roots =>
    refine unchanged ?_
    obtain ⟨hmem, hid⟩ := root?_mem hp'
    rw [hp', ← hs.root?_eq (List.mem_of_mem_eraseP (roots ▸ hmem)), hid]
  | @replaced new plain roots =>
    refine unchanged ?_
    rw [root?_congr roots]
    refine root?_replaceRoot_of_ne ?_
    rintro rfl
    rw [root?_congr roots, root?_replaceRoot hp, Option.some.injEq] at hp'
    rw [hp'] at plain
    cases plain
  | @edited path inner new found edit roots =>
    have hwired := (hcomplete.containerAt? found).wired
    obtain ⟨top', rest', q, rfl, hq, hdown⟩ := containerAt?_eq_some_iff.mp found
    rw [replaceContainer_of_process hq] at roots
    obtain ⟨r, hr⟩ :
        ∃ r, r = Root.process { q with container := new.replaceAt rest' q.container } := ⟨_, rfl⟩
    have hrid : r.id = top' := by
      rw [hr]
      exact (root?_mem hq).2
    rw [← hr] at roots
    by_cases htop : top = top'
    · subst htop
      rw [root?_congr roots, ← hrid, root?_replaceRoot (hrid ▸ hq), Option.some.injEq] at hp'
      rw [hp, Option.some.injEq] at hq
      cases hq
      rw [hr] at hp'
      cases hp'
      exact Container.follows_of_descend? hdown edit hwired.nodup hd hd'
    · refine unchanged ?_
      rw [root?_congr roots]
      exact root?_replaceRoot_of_ne (hrid ▸ htop)

/-! ## Paths -/

/-- What is registered keeps its owner, so all the owners above it, while nothing else than that
which is registered comes in or goes out. -/
theorem OwnerPath.eq_of_slots (ht : t.Agrees) (hslots : ∀ slot ∈ s.slots, slot ∈ t.slots)
    {path path' : List Id} {x x' : Element} (hx : s.OwnerPath path x) (hx' : t.OwnerPath path' x')
    (hid : x'.id = x.id) : path' = path := by
  have howner {o o' : Option Id} {y y' : Element} (hy : ⟨o, y⟩ ∈ s.placed)
      (hy' : ⟨o', y'⟩ ∈ t.placed) (hid : y'.id = y.id) : o' = o := by
    obtain ⟨q, hq, hslot⟩ := List.mem_map.mp (hslots _ (List.mem_map_of_mem hy))
    obtain ⟨hqid, hqslot⟩ := Prod.mk.inj hslot
    have heq := ht.records.eq_of_id hy' hq (hid.trans hqid.symm)
    subst heq
    exact congrArg Slot.owner hqslot
  induction hx generalizing path' x' with
  | @top e he =>
    cases hx' with
    | top he' => rw [hid]
    | child above' hc' =>
      obtain ⟨o, ho⟩ := above'.mem_placed
      cases howner (mem_placed_of_topLevel he) (child_mem_placed ho hc') hid
  | @child path e d above hd ih =>
    obtain ⟨o, ho⟩ := above.mem_placed
    cases hx' with
    | top he' => cases howner (child_mem_placed ho hd) (mem_placed_of_topLevel he') hid
    | @child path' e' _ above' hd' =>
      obtain ⟨o', ho'⟩ := above'.mem_placed
      have hup := howner (child_mem_placed ho hd) (child_mem_placed ho' hd') hid
      rw [Option.some.injEq] at hup
      rw [ih above' hup, hid]

/-! ## Owners -/

/-- What the process or sub-process with this identifier contains. -/
def contents? (s : Scope) (owner : Id) : Option Container :=
  (s.get? owner).bind Element.container?

theorem Agrees.contents?_eq_some_iff (h : s.Agrees) {owner : Id} {k : Container} :
    s.contents? owner = some k ↔
      ∃ path x, s.OwnerPath path x ∧ x.id = owner ∧ x.container? = some k := by
  rw [contents?, Option.bind_eq_some_iff]
  simp only [h.get?_eq_some_iff]
  constructor
  · rintro ⟨x, ⟨hid, path, hx⟩, hk⟩
    exact ⟨path, x, hx, hid, hk⟩
  · rintro ⟨path, x, hx, hid, hk⟩
    exact ⟨x, ⟨hid, path, hx⟩, hk⟩

end Scope

open Scope

variable {s : Scope}

/-- An edit only adds slots or only takes some out. -/
theorem Change.slots_after (h : s.Agrees) (c : Change) :
    (∀ slot ∈ s.slots, slot ∈ (c.after s).slots) ∨ ∀ slot ∈ (c.after s).slots, slot ∈ s.slots := by
  have hcases := c.perform_cases h
  unfold Change.after
  generalize c.perform s = result at hcases
  cases hcases with
  | refused refusal => exact .inl fun _ hslot => hslot
  | kept _ htop =>
    refine .inl fun _ hslot => ?_
    rw [slots, placed, htop]
    exact hslot
  | absent => exact .inl fun _ hslot => hslot
  | added _ hadds => exact .inl fun _ hslot =>
      hadds.slots.mem_iff.mpr (List.mem_append_left _ hslot)
  | removed _ hremoves => exact .inr fun _ hslot =>
      hremoves.slots.mem_iff.mpr (List.mem_append_left _ hslot)

/-- **What an owner contains after an edit follows what it contained before.** -/
theorem Change.follows (h : s.Agrees) (hcomplete : s.Complete) (c : Change) {owner : Id}
    {k k' : Container} (hk : s.contents? owner = some k)
    (hk' : (c.after s).contents? owner = some k') : k.Follows c k' := by
  have h' := c.agrees_after h
  obtain ⟨path, x, hx, hid, hxk⟩ := h.contents?_eq_some_iff.mp hk
  obtain ⟨path', x', hx', hid', hxk'⟩ := h'.contents?_eq_some_iff.mp hk'
  have hpath : path' = path := by
    rcases c.slots_after h with hslots | hslots
    · exact hx.eq_of_slots h' hslots hx' (hid'.trans hid.symm)
    · exact (hx'.eq_of_slots h hslots hx (hid.trans hid'.symm)).symm
  subst hpath
  exact (c.reshapes s).follows h hcomplete (h.containerAt?_eq hx hxk) (h'.containerAt?_eq hx' hxk')

end BpmnModel
