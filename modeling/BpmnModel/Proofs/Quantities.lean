import BpmnModel.Proofs.RoundTrip
import BpmnModel.Proofs.Tally
import Mathlib.Algebra.Group.Int.Defs

/-!
# Numbers at the border of the model

The numbers of documents are signed and of 64 bits, the counts of the model unsigned and of 32.

* `Quantity.ofInt_cases`, `Multiplicity.ofInts_cases`, `Loop.ofNode_set_maximum` — which numbers are
  taken, and that they are taken as they are.
* `Activity.NumberedBy`, `Participant.NumberedBy` — a node has the numbers of what it was written
  from.
* `Scope.written_in_nodes` — every activity and every participant of a scope is written somewhere in
  its document.
* `Scope.numbers_kept` — no number changes on the way into the model, to a document and back.
-/

namespace BpmnModel

/-! ## Counts -/

/-- The integer fits 32 unsigned bits. -/
def IsCount (n : Int) : Prop := 0 ≤ n ∧ n ≤ 2 ^ 32 - 1

/-- The integer is a number of tokens. -/
def IsQuantity (n : Int) : Prop := 1 ≤ n ∧ n ≤ 2 ^ 32 - 1

instance (n : Int) : Decidable (IsCount n) := inferInstanceAs (Decidable (_ ∧ _))

instance (n : Int) : Decidable (IsQuantity n) := inferInstanceAs (Decidable (_ ∧ _))

theorem countOfInt?_of_isCount {n : Int} (h : IsCount n) :
    ∃ c, countOfInt? n = some c ∧ (c.toNat : Int) = n := by
  obtain ⟨hleast, hmost⟩ := h
  refine ⟨UInt32.ofNat n.toNat, if_pos ⟨hleast, by omega⟩, ?_⟩
  rw [UInt32.toNat_ofNat_of_lt' (by show n.toNat < 2 ^ 32; omega), Int.toNat_of_nonneg hleast]

theorem countOfInt?_of_not_isCount {n : Int} (h : ¬IsCount n) : countOfInt? n = none :=
  if_neg fun hn => h ⟨hn.1, by omega⟩

/-! ## Which numbers are taken -/

/-- **A quantity is taken as it is, or refused.** -/
theorem Quantity.ofInt_cases (element : Id) (field : String) (n : Int) :
    (IsQuantity n ∧ ∃ q, ofInt element field n = .ok q ∧ (q.count.toNat : Int) = n) ∨
      (¬IsQuantity n ∧ ∃ message,
        ofInt element field n = .error (.multiplicity element.text field message)) := by
  unfold ofInt
  by_cases hleast : n < 1
  · rw [if_pos hleast]
    exact .inr ⟨fun h => by have := h.1; omega, _, rfl⟩
  · rw [if_neg hleast]
    by_cases hcount : IsCount n
    · obtain ⟨c, hc, hn⟩ := countOfInt?_of_isCount hcount
      have hone : 1 ≤ c := UInt32.le_iff_toNat_le.mpr (by show 1 ≤ c.toNat; omega)
      rw [hc]
      exact .inl ⟨⟨by omega, hcount.2⟩, ⟨c, hone⟩, dif_pos hone, hn⟩
    · rw [countOfInt?_of_not_isCount hcount]
      exact .inr ⟨fun h => hcount ⟨by have := h.1; omega, h.2⟩, _, rfl⟩

namespace Activity

variable (a : Activity) {start completion : Int}

theorem withQuantities_of_fit (hstart : IsQuantity start) (hcompletion : IsQuantity completion) :
    ∃ p q, a.withQuantities start completion =
        .ok { a with startQuantity := p, completionQuantity := q } ∧
      (p.count.toNat : Int) = start ∧ (q.count.toNat : Int) = completion := by
  obtain ⟨-, p, hp, hpn⟩ | ⟨hnot, -⟩ := Quantity.ofInt_cases a.base.id "startQuantity" start
  · obtain ⟨-, q, hq, hqn⟩ | ⟨hnot, -⟩ :=
      Quantity.ofInt_cases a.base.id "completionQuantity" completion
    · refine ⟨p, q, ?_, hpn, hqn⟩
      rw [withQuantities, hp, ok_bind, hq, ok_bind]
      rfl
    · exact absurd hcompletion hnot
  · exact absurd hstart hnot

/-- The start quantity is checked first. -/
theorem withQuantities_of_misfit (h : ¬(IsQuantity start ∧ IsQuantity completion)) :
    ∃ message, a.withQuantities start completion = .error (.multiplicity a.base.id.text
      (if IsQuantity start then "completionQuantity" else "startQuantity") message) := by
  obtain ⟨hstart, p, hp, -⟩ | ⟨hstart, message, hmessage⟩ :=
    Quantity.ofInt_cases a.base.id "startQuantity" start
  · obtain ⟨hcompletion, -⟩ | ⟨-, message, hmessage⟩ :=
      Quantity.ofInt_cases a.base.id "completionQuantity" completion
    · exact absurd ⟨hstart, hcompletion⟩ h
    · refine ⟨message, ?_⟩
      rw [if_pos hstart, withQuantities, hp, ok_bind, hmessage]
      rfl
  · refine ⟨message, ?_⟩
    rw [if_neg hstart, withQuantities, hmessage]
    rfl

end Activity

namespace Multiplicity

/-- The bounds are counts in order, the upper one at least one. -/
structure Fits (minimum : Int) (maximum : Option Int) : Prop where
  isCount : IsCount minimum
  bound : ∀ m ∈ maximum, IsQuantity m ∧ minimum ≤ m

theorem ofInts_of_fits {minimum : Int} {maximum : Option Int} (h : Fits minimum maximum) :
    ∃ m, ofInts minimum maximum = .ok m ∧ (m.minimum.toNat : Int) = minimum ∧
      (m.maximum.map fun c => (c.toNat : Int)) = maximum := by
  obtain ⟨least, hleast, hminimum⟩ := countOfInt?_of_isCount h.isCount
  cases maximum with
  | none => exact ⟨_, ofInts_none hleast, hminimum, rfl⟩
  | some n =>
    obtain ⟨⟨hone, hbound⟩, hle⟩ := h.bound n rfl
    obtain ⟨most, hmost, hmaximum⟩ := countOfInt?_of_isCount (n := n) ⟨by omega, hbound⟩
    have hcounts : 1 ≤ most ∧ least ≤ most :=
      ⟨UInt32.le_iff_toNat_le.mpr (by show 1 ≤ most.toNat; omega),
        UInt32.le_iff_toNat_le.mpr (by omega)⟩
    exact ⟨_, ofInts_of_counts hleast hmost (by omega) (by omega) hcounts, hminimum,
      congrArg some hmaximum⟩

/-- The minimum is checked first, by itself. -/
theorem ofInts_of_misfit {minimum : Int} {maximum : Option Int} (h : ¬Fits minimum maximum) :
    ∃ message, ofInts minimum maximum = .error (.multiplicity "participantMultiplicity"
      (if IsCount minimum then "maximum" else "minimum") message) := by
  unfold ofInts
  by_cases hminimum : IsCount minimum
  · obtain ⟨least, hleast, hmin⟩ := countOfInt?_of_isCount hminimum
    rw [hleast, if_pos hminimum]
    cases maximum with
    | none => exact absurd ⟨hminimum, nofun⟩ h
    | some n =>
      have hn : ¬(IsQuantity n ∧ minimum ≤ n) := fun hn =>
        h ⟨hminimum, fun m hm => Option.some.inj hm ▸ hn⟩
      simp only
      split
      · exact ⟨_, rfl⟩
      · split
        · exact ⟨_, rfl⟩
        · have hcount : ¬IsCount n := fun hc => hn ⟨⟨by omega, hc.2⟩, by omega⟩
          rw [countOfInt?_of_not_isCount hcount]
          exact ⟨_, rfl⟩
  · rw [countOfInt?_of_not_isCount hminimum, if_neg hminimum]
    exact ⟨_, rfl⟩

end Multiplicity

namespace Loop

variable {n : Node} {testBefore : Bool} {maximum : Option UInt32} {condition : Option Expression}

/-- Of the node only the label matters, which a refusal names. -/
theorem expressionsOfNodes_congr {m : Node} (h : m.label = n.label) (roles : List String)
    (ns : List Node) (found : List (String × Expression)) :
    expressionsOfNodes m roles ns found = expressionsOfNodes n roles ns found := by
  induction ns generalizing found with
  | nil => rfl
  | cons c cs ih => simp only [expressionsOfNodes, ih, Node.unknownChild, h]

/-- **A maximum is read as it is, or refused**: what else a loop says does not matter to it. -/
theorem ofNode_set_maximum (hlabel : n.label = "standardLoopCharacteristics")
    (h : ofNode n = .ok (standard testBefore maximum condition)) (i : Int64) :
    (IsCount i.toInt → ∃ c, ofNode (n.set "loopMaximum" (.integer i)) =
        .ok (standard testBefore (some c) condition) ∧ (c.toNat : Int) = i.toInt) ∧
      (¬IsCount i.toInt → ofNode (n.set "loopMaximum" (.integer i)) =
        .error (.invalidValue n.label "loopMaximum" .count (.integer i))) := by
  rw [ofNode, if_pos hlabel] at h
  simp only [bind_eq_ok, pure_eq_ok, Except.ok.injEq] at h
  obtain ⟨b, hb, m, -, found, hfound, ⟨⟩, hfinish, heq⟩ := h
  obtain ⟨rfl, -, rfl⟩ :
      b = testBefore ∧ m = maximum ∧ found.lookup "loopCondition" = condition := by
    simpa using heq
  let changed := n.set? "loopMaximum" (some (.integer i))
  have hflag : changed.flag "testBefore" false = .ok b := by
    rw [← hb]
    simp [changed, Node.flag]
  have hfinish : changed.finish ["testBefore", "loopMaximum"] = .ok () :=
    changed.finish_of_closed ((n.closed_set? (by simp) _).mpr (n.finish_eq_ok.mp hfinish))
  have hcount : changed.count? "loopMaximum" =
      Value.readCount n.label "loopMaximum" (some (.integer i)) := by
    simp [changed]
  rw [ofNode, Node.set_eq, Node.label_set?, if_pos hlabel, hflag, ok_bind, Node.children_set?,
    expressionsOfNodes_congr (Node.label_set? ..), hfound, hcount, hfinish]
  constructor
  · intro hcount
    obtain ⟨c, hc, hi⟩ := countOfInt?_of_isCount hcount
    refine ⟨c, ?_, hi⟩
    rw [Value.readCount, hc]
    rfl
  · intro hcount
    rw [Value.readCount, countOfInt?_of_not_isCount hcount]
    rfl

end Loop

/-! ## Numbers that were written -/

namespace Node

/-- The attribute is this number, or is not there where there is none. -/
def Numbers (n : Node) (name : String) (number : Option UInt32) : Prop :=
  match number with
  | none => n.attribute? name = none
  | some c => ∃ i, n.attribute? name = some (.integer i) ∧ i.toInt = c.toNat

variable {n : Node} {name : String} {number : Option UInt32}

theorem numbers_of_attribute? (h : n.attribute? name = number.map .ofCount) :
    n.Numbers name number := by
  cases number with
  | none => exact h
  | some c => exact ⟨_, h, Value.toInt_ofCount c⟩

end Node

/-- The number that a node has for a quantity: none for one token. -/
def Quantity.written (q : Quantity) : Option UInt32 :=
  if q = .one then none else some q.count

/-- The node has the numbers of the activity. -/
structure Activity.NumberedBy (a : Activity) (n : Node) : Prop where
  start : n.Numbers "startQuantity" a.startQuantity.written
  completion : n.Numbers "completionQuantity" a.completionQuantity.written
  maximum : ∀ testBefore most condition, a.loop = some (.standard testBefore most condition) →
    ∃ c ∈ n.children, c.label = "standardLoopCharacteristics" ∧ c.Numbers "loopMaximum" most

/-- The node has the numbers of the participant. -/
def Participant.NumberedBy (p : Participant) (n : Node) : Prop :=
  ∀ m, p.multiplicity = some m → ∃ c ∈ n.children, c.label = "participantMultiplicity" ∧
    c.Numbers "minimum" (some m.minimum) ∧ c.Numbers "maximum" m.maximum

theorem Loop.numbers_toNode (testBefore : Bool) (most : Option UInt32)
    (condition : Option Expression) :
    (standard testBefore most condition).toNode.Numbers "loopMaximum" most := by
  refine Node.numbers_of_attribute? ?_
  cases most <;> simp [toNode]

namespace Activity

variable {a : Activity} {n : Node}

theorem eq_node_of_toNode {label : String} (h : a.toNode label = .ok n) : n = a.node label := by
  rcases a.toNode_writes label with ⟨m, hm, ⟨rfl, -⟩, -⟩ | ⟨id, f, herror, -⟩
  · exact Except.ok.inj (h.symm.trans hm)
  · cases h.symm.trans herror

/-- What is added to the node of an activity after its numbers leaves them alone. -/
theorem numberedBy_pushAll {label : String} {fields : List String} {m : Node}
    (h : (a.node label).DiffersIn fields m) (hstart : "startQuantity" ∉ fields)
    (hcompletion : "completionQuantity" ∉ fields) (cs : List Node) :
    a.NumberedBy (m.pushAll (a.loopNodes ++ cs)) := by
  have hquantity (name : String) (q : Quantity)
      (hname : (a.node label).attribute? name = if q = .one then none else some (.ofCount q.count))
      (hm : m.attribute? name = (a.node label).attribute? name) :
      (m.pushAll (a.loopNodes ++ cs)).Numbers name q.written := by
    refine Node.numbers_of_attribute? ((hm.trans hname).trans ?_)
    rw [Quantity.written]
    split <;> rfl
  refine ⟨hquantity _ _ ?_ (h.attribute? _ hstart), hquantity _ _ ?_ (h.attribute? _ hcompletion),
    fun testBefore most condition hloop => ?_⟩
  · simp [node, quantityOnNode, Edges.onNode, FlowBase.attribute?_node]
  · simp [node, quantityOnNode, Edges.onNode, FlowBase.attribute?_node]
  · refine ⟨_, ?_, ?_, Loop.numbers_toNode testBefore most condition⟩
    · simp [loopNodes, hloop]
    · simp [Loop.toNode]

end Activity

namespace FlowElement

/-- **An activity is written with its numbers.** -/
theorem numberedBy_of_toNode {e : FlowElement} {a : Activity} {n : Node} (ha : e.activity? = some a)
    (h : e.toNode = .ok n) : a.NumberedBy n := by
  cases e with
  | task b w =>
    cases ha
    rw [toNode] at h
    obtain ⟨x, hx, heq⟩ := bind_eq_ok.mp h
    cases heq
    cases Activity.eq_node_of_toNode hx
    obtain ⟨fields, read, -, hfields, hon⟩ := w.read_onNode
    rw [← List.append_nil a.loopNodes]
    exact Activity.numberedBy_pushAll (hon _).1 (hfields _ (by simp)) (hfields _ (by simp)) []
  | callActivity b called =>
    cases ha
    rw [toNode] at h
    obtain ⟨x, hx, heq⟩ := bind_eq_ok.mp h
    cases heq
    cases Activity.eq_node_of_toNode hx
    rw [← List.append_nil a.loopNodes, Node.setRef?_eq]
    exact Activity.numberedBy_pushAll ((Node.DiffersIn.refl ["calledElement"] _).set? (by simp))
      (by simp) (by simp) []
  | subProcess b t es ls as =>
    cases ha
    rw [toNode] at h
    simp only [bind_eq_ok, pure_eq_ok, Except.ok.injEq] at h
    obtain ⟨x, hx, ens, hens, lns, hlns, ans, hans, rfl⟩ := h
    cases Activity.eq_node_of_toNode hx
    rw [Node.pushAll_pushAll, Node.setFlag_eq]
    exact Activity.numberedBy_pushAll ((Node.DiffersIn.refl ["triggeredByEvent"] _).set? (by simp))
      (by simp) (by simp) _
  | _ => cases ha

end FlowElement

/-- **A participant is written with its numbers.** -/
theorem Participant.numberedBy_of_toNode {p : Participant} {n : Node} (h : p.toNode = .ok n) :
    p.NumberedBy n := by
  intro m hm
  obtain ⟨x, -, heq⟩ := bind_eq_ok.mp h
  cases heq
  refine ⟨m.toNode, by simp [hm], m.label_toNode, Node.numbers_of_attribute? ?_,
    Node.numbers_of_attribute? ?_⟩
  · simp [Multiplicity.toNode]
  · simp [Multiplicity.toNode]

/-! ## Everything is written somewhere -/

theorem Node.mem_nodes_self (n : Node) : n ∈ n.nodes := by
  rw [nodes_eq]
  exact List.mem_cons_self

theorem Node.child_mem_nodes {r n c : Node} (hn : n ∈ r.nodes) (hc : c ∈ n.children) :
    c ∈ r.nodes := by
  induction r using children_induction with
  | step r ih =>
    rw [nodes_eq] at hn ⊢
    rcases List.mem_cons.mp hn with rfl | hn
    · exact List.mem_cons_of_mem _ (List.mem_flatMap.mpr ⟨c, hc, c.mem_nodes_self⟩)
    · obtain ⟨b, hb, hn⟩ := List.mem_flatMap.mp hn
      exact List.mem_cons_of_mem _ (List.mem_flatMap.mpr ⟨b, hb, ih b hb hn⟩)

/-- What is written in turn is written somewhere. -/
theorem exists_written_of_mapM {α : Type} {write : α → Except DocumentError Node} {xs : List α}
    {ns : List Node} (h : xs.mapM write = .ok ns) {x : α} (hx : x ∈ xs) :
    ∃ n ∈ ns, write x = .ok n := by
  induction xs generalizing ns with
  | nil => cases hx
  | cons y xs ih =>
    simp only [List.mapM_cons, bind_eq_ok, pure_eq_ok, Except.ok.injEq] at h
    obtain ⟨n, hn, ms, hms, rfl⟩ := h
    rcases List.mem_cons.mp hx with rfl | hx
    · exact ⟨n, List.mem_cons_self, hn⟩
    · obtain ⟨m, hm, hwrite⟩ := ih hms hx
      exact ⟨m, List.mem_cons_of_mem n hm, hwrite⟩

/-- The flow elements of a process are written below it. -/
theorem Process.exists_of_toNode {p : Process} {n : Node} (h : p.toNode = .ok n) :
    ∃ ens, p.container.elements.mapM FlowElement.toNode = .ok ens ∧ ∀ m ∈ ens, m ∈ n.children := by
  unfold toNode at h
  cases hr : p.resources with
  | cons r rs =>
    rw [hr] at h
    cases h
  | nil =>
    cases hs : p.subscriptions with
    | cons r rs =>
      rw [hr, hs] at h
      cases h
    | nil =>
      rw [hr, hs, FlowElement.allToNodes_eq] at h
      obtain ⟨x, -, h⟩ := bind_eq_ok.mp h
      obtain ⟨ens, hens, h⟩ := bind_eq_ok.mp h
      obtain ⟨lns, -, h⟩ := bind_eq_ok.mp h
      obtain ⟨ans, -, heq⟩ := bind_eq_ok.mp h
      cases heq
      exact ⟨ens, hens, fun m hm => by simp [hm]⟩

/-- So are those of a sub-process. -/
theorem FlowElement.exists_of_subProcess {a : Activity} {triggeredByEvent : Bool}
    {es : List FlowElement} {ls : List LaneSet} {as : List Artifact} {n : Node}
    (h : (subProcess a triggeredByEvent es ls as).toNode = .ok n) :
    ∃ ens, es.mapM toNode = .ok ens ∧ ∀ m ∈ ens, m ∈ n.children := by
  rw [toNode, allToNodes_eq] at h
  obtain ⟨x, -, h⟩ := bind_eq_ok.mp h
  obtain ⟨ens, hens, h⟩ := bind_eq_ok.mp h
  obtain ⟨lns, -, h⟩ := bind_eq_ok.mp h
  obtain ⟨ans, -, heq⟩ := bind_eq_ok.mp h
  cases heq
  exact ⟨ens, hens, fun m hm => by simp [hm]⟩

/-- The participants of a collaboration are written below it. -/
theorem Collaboration.exists_of_toNode {c : Collaboration} {n : Node} (h : c.toNode = .ok n) :
    ∃ pns, c.participants.items.mapM Participant.toNode = .ok pns ∧ ∀ m ∈ pns, m ∈ n.children := by
  unfold toNode at h
  cases hk : c.correlationKeys with
  | cons k ks =>
    rw [hk] at h
    cases h
  | nil =>
    rw [hk] at h
    by_cases hm : (!c.participantAssociations.isEmpty || !c.messageFlowAssociations.isEmpty ||
        !c.conversationAssociations.isEmpty) = true
    · rw [hm] at h
      cases h
    · rw [Bool.eq_false_iff.mpr hm] at h
      obtain ⟨x, -, h⟩ := bind_eq_ok.mp h
      obtain ⟨pns, hpns, h⟩ := bind_eq_ok.mp h
      obtain ⟨fns, -, h⟩ := bind_eq_ok.mp h
      obtain ⟨cns, -, h⟩ := bind_eq_ok.mp h
      obtain ⟨lns, -, h⟩ := bind_eq_ok.mp h
      obtain ⟨ans, -, heq⟩ := bind_eq_ok.mp h
      cases heq
      exact ⟨pns, hpns, fun m hm => by simp [hm]⟩

namespace Element

/-- Root elements, participants and flow elements have a node in the document. -/
def WrittenIn (d : Document) : Element → Prop
  | root r => ∃ n ∈ d.root.nodes, r.toNode = .ok n
  | participant p => ∃ n ∈ d.root.nodes, p.toNode = .ok n
  | flowElement e => ∃ n ∈ d.root.nodes, e.toNode = .ok n
  | _ => True

namespace WrittenIn

variable {d : Document} {e : Element}

theorem flowElement {f : FlowElement} (h : e.WrittenIn d) {c : Container}
    (hc : e.container? = some c) (hf : f ∈ c.elements) : (Element.flowElement f).WrittenIn d := by
  obtain ⟨n, hn, ens, hens, hbelow⟩ : ∃ n ∈ d.root.nodes, ∃ ens,
      c.elements.mapM FlowElement.toNode = .ok ens ∧ ∀ m ∈ ens, m ∈ n.children := by
    cases e with
    | root r =>
      cases r with
      | process p =>
        cases hc
        obtain ⟨n, hn, hwrite⟩ := h
        exact ⟨n, hn, Process.exists_of_toNode hwrite⟩
      | _ => cases hc
    | flowElement x =>
      cases x with
      | subProcess a t es ls as =>
        cases hc
        obtain ⟨n, hn, hwrite⟩ := h
        exact ⟨n, hn, FlowElement.exists_of_subProcess hwrite⟩
      | _ => cases hc
    | _ => cases hc
  obtain ⟨m, hm, hwrite⟩ := exists_written_of_mapM hens hf
  exact ⟨m, Node.child_mem_nodes hn (hbelow m hm), hwrite⟩

theorem participant {p : Participant} (h : e.WrittenIn d) (hp : .participant p ∈ e.children) :
    (Element.participant p).WrittenIn d := by
  obtain ⟨c, rfl, hmem⟩ : ∃ c, e = .root (.collaboration c) ∧ p ∈ c.participants.items := by
    cases e with
    | root r => cases r <;> simp_all [children, Container.owned]
    | flowElement f => cases f <;> simp_all [children, Container.owned]
    | _ => simp_all [children]
  obtain ⟨n, hn, hwrite⟩ := h
  obtain ⟨pns, hpns, hbelow⟩ := Collaboration.exists_of_toNode hwrite
  obtain ⟨m, hm, hwrite⟩ := exists_written_of_mapM hpns hmem
  exact ⟨m, Node.child_mem_nodes hn (hbelow m hm), hwrite⟩

/-- What has a node in the document has those of its children there that have one at all. -/
theorem child {c : Element} (h : e.WrittenIn d) (hc : c ∈ e.children) : c.WrittenIn d := by
  cases c with
  | root r => cases root?_of_mem_children hc
  | participant p => exact h.participant hc
  | flowElement f =>
    obtain ⟨k, hk, hf⟩ := mem_container_of_mem_children hc
    exact h.flowElement hk hf
  | _ => trivial

end WrittenIn

end Element

namespace Scope

variable {s : Scope} {d : Document}

/-- **Every activity and every participant of a scope is written somewhere in its document.** -/
theorem written_in_nodes (h : s.toDocument = .ok d) : ∀ p ∈ s.placed, p.element.WrittenIn d := by
  have htop : ∀ e ∈ s.topLevel, e.WrittenIn d := by
    unfold toDocument at h
    cases he : s.extensions with
    | cons e es =>
      rw [he] at h
      cases h
    | nil =>
      rw [he] at h
      obtain ⟨x, -, h⟩ := bind_eq_ok.mp h
      obtain ⟨rns, hrns, h⟩ := bind_eq_ok.mp h
      obtain ⟨lns, -, heq⟩ := bind_eq_ok.mp h
      cases heq
      intro e he
      rcases List.mem_append.mp he with he | he
      · obtain ⟨r, hr, rfl⟩ := List.mem_map.mp he
        obtain ⟨n, hn, hwrite⟩ := exists_written_of_mapM hrns hr
        exact ⟨n, Node.child_mem_nodes (Node.mem_nodes_self _) (by simp [hn]), hwrite⟩
      · obtain ⟨r, -, rfl⟩ := List.mem_map.mp he
        trivial
  intro p hp
  obtain ⟨e, he, hp⟩ := mem_placed.mp hp
  exact Element.forall_mem_placed (fun _ h _ => h.child) (htop e he) none p hp

/-- What was written comes back under its identifier. -/
theorem exists_get?_of_toDocument (h : Reachable s) (hd : s.toDocument = .ok d) :
    ∃ t, ofDocument d = .ok t ∧
      ∀ p ∈ s.placed, t.get? p.id = some p.element.reread := by
  rcases writes_reread h.complete with ⟨d', hd', hwritten, -⟩ | ⟨id, f, herror, -⟩
  · cases hd.symm.trans hd'
    obtain ⟨registry, hof⟩ := ofDocument_of_describedBy h.agrees.reread hwritten.describedBy
    refine ⟨_, hof, fun p hp => ?_⟩
    have hplaced : ⟨p.owner, p.element.reread⟩ ∈ s.reread.placed := by
      rw [placed_reread]
      exact List.mem_map_of_mem hp
    exact ((readAt_of_ofDocument hof).reachable.agrees.get?_iff _ _).mpr
      ⟨p.element.id_reread, p.owner, hplaced⟩
  · cases hd.symm.trans herror

/-- **Numbers do not change at the border of the model.** Quantities of tokens, bounds of
multiplicities and maxima of loops are taken exactly if they lie in their range, and then as they
are; a refusal names the first number that does not.  When a scope is written, each activity and
each participant, wherever it stands, is written with these numbers, or without the quantity that
goes without saying, and the document gives the same activity and participant back. -/
theorem numbers_kept (origin : Reachable s ∨ ∃ d, ofDocument d = .ok s) :
    (∀ (a : Activity) (start completion : Int),
      (IsQuantity start ∧ IsQuantity completion → ∃ p q, a.withQuantities start completion =
          .ok { a with startQuantity := p, completionQuantity := q } ∧
        (p.count.toNat : Int) = start ∧ (q.count.toNat : Int) = completion) ∧
      (¬(IsQuantity start ∧ IsQuantity completion) → ∃ message,
        a.withQuantities start completion = .error (.multiplicity a.base.id.text
          (if IsQuantity start then "completionQuantity" else "startQuantity") message))) ∧
    (∀ (minimum : Int) (maximum : Option Int),
      (Multiplicity.Fits minimum maximum → ∃ m, Multiplicity.ofInts minimum maximum = .ok m ∧
        (m.minimum.toNat : Int) = minimum ∧
          (m.maximum.map fun c => (c.toNat : Int)) = maximum) ∧
      (¬Multiplicity.Fits minimum maximum → ∃ message, Multiplicity.ofInts minimum maximum =
        .error (.multiplicity "participantMultiplicity"
          (if IsCount minimum then "maximum" else "minimum") message))) ∧
    (∀ n testBefore most condition, n.label = "standardLoopCharacteristics" →
      Loop.ofNode n = .ok (.standard testBefore most condition) → ∀ i : Int64,
        (IsCount i.toInt → ∃ c, Loop.ofNode (n.set "loopMaximum" (.integer i)) =
            .ok (.standard testBefore (some c) condition) ∧ (c.toNat : Int) = i.toInt) ∧
          (¬IsCount i.toInt → Loop.ofNode (n.set "loopMaximum" (.integer i)) =
            .error (.invalidValue n.label "loopMaximum" .count (.integer i)))) ∧
    ∀ d, s.toDocument = .ok d → ∃ t, ofDocument d = .ok t ∧
      (∀ owner e a, ⟨owner, .flowElement e⟩ ∈ s.placed → e.activity? = some a →
        (∃ n ∈ d.root.nodes, e.toNode = .ok n ∧ a.NumberedBy n) ∧
          ∃ e', t.get? e.id = some (.flowElement e') ∧ e'.activity? = some a) ∧
      ∀ owner p, ⟨owner, .participant p⟩ ∈ s.placed →
        (∃ n ∈ d.root.nodes, p.toNode = .ok n ∧ p.NumberedBy n) ∧
          t.get? p.id = some (.participant p) := by
  refine ⟨fun a start completion => ⟨fun h => a.withQuantities_of_fit h.1 h.2,
      a.withQuantities_of_misfit⟩,
    fun minimum maximum => ⟨Multiplicity.ofInts_of_fits, Multiplicity.ofInts_of_misfit⟩,
    fun n testBefore most condition => Loop.ofNode_set_maximum, fun d hd => ?_⟩
  obtain ⟨t, ht, hget⟩ := exists_get?_of_toDocument (reachable_of_origin origin) hd
  have hwritten := written_in_nodes hd
  refine ⟨t, ht, fun owner e a he ha => ⟨?_, e.reread, hget _ he, ?_⟩,
    fun owner p hp => ⟨?_, hget _ hp⟩⟩
  · obtain ⟨n, hn, hwrite⟩ := hwritten _ he
    exact ⟨n, hn, hwrite, FlowElement.numberedBy_of_toNode ha hwrite⟩
  · rw [← ha]
    cases e <;> rfl
  · obtain ⟨n, hn, hwrite⟩ := hwritten _ hp
    exact ⟨n, hn, hwrite, Participant.numberedBy_of_toNode hwrite⟩

/-- An activity whose numbers are as large as they can be. -/
def busiest : Activity :=
  { Activity.bare ⟨"t"⟩ with
    startQuantity := ⟨4294967295, by decide⟩
    loop := some (.standard false (some 4294967295) none) }

/-- A scope with this activity. -/
def busy : Scope :=
  (Change.addFlowElement ⟨"p"⟩ (.task busiest .plain)).after <|
    (Change.addRoot (.process (.bare ⟨"p"⟩))).after (fresh ⟨"Defs"⟩ "urn:t")

/-- It is written and comes back, and one token more would be refused. -/
theorem numbers_kept_busy :
    (∃ d t, busy.toDocument = .ok d ∧ ofDocument d = .ok t ∧
      (∃ n ∈ d.root.nodes, busiest.NumberedBy n) ∧
      ∃ e, t.get? ⟨"t"⟩ = some (.flowElement e) ∧ e.activity? = some busiest) ∧
    ∃ message, busiest.withQuantities 4294967295 4294967296 =
      .error (.multiplicity "t" "completionQuantity" message) := by
  have hs : Reachable busy :=
    .after _ (.task _ _) nofun <| .after _ ⟨[], [], nofun, rfl⟩ nofun (.fresh _ _)
  have hd : ∃ d, busy.toDocument = .ok d := ⟨_, rfl⟩
  have hplaced : ⟨some ⟨"p"⟩, .flowElement (.task busiest .plain)⟩ ∈ busy.placed :=
    List.mem_of_getElem? (i := 1) rfl
  obtain ⟨d, hd⟩ := hd
  obtain ⟨hquantities, -, -, hdocument⟩ := numbers_kept (.inl hs)
  obtain ⟨t, ht, hactivities, -⟩ := hdocument d hd
  obtain ⟨⟨n, hn, -, hnumbered⟩, e, he, ha⟩ := hactivities _ _ busiest hplaced rfl
  exact ⟨⟨d, t, hd, ht, ⟨n, hn, hnumbered⟩, e, he, ha⟩, (hquantities _ _ _).2 (by decide)⟩

end Scope

end BpmnModel
