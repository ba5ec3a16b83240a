import BpmnModel.Proofs.Reordering

/-!
# Elements that are read in any order

Readers of elements find the same in two nodes that differ in the order of what they hold, or refuse
both. Where a reader keeps only the last of several children, these are of one family.

* `Node.Reordered.only_iff` — children that must all have one label.
* `RetrievalExpression.pathOfNodes_eq_ok_iff`, `SequenceFlow.conditionOfNodes_eq_ok_iff`,
  `Loop.expressionsOfNodes_eq_ok_iff` — of several expressions for one purpose the last counts.
* `Loop.ofChildren_eq_ok_iff`, `Participant.multiplicityOfNodes_eq_ok_iff` — children that may not be
  repeated.
* `Event.ofNode_reordered`, `Activity.ofNode_reordered` — flow nodes.
-/

namespace BpmnModel

variable {n n' : Node}

/-! ## Artifacts -/

theorem Association.ofNode_reordered (h : n.Reordered n') (a : Association) :
    ofNode n' = .ok a ↔ ofNode n = .ok a := by
  simp only [ofNode, bind_eq_ok, h.fields_eq, h.checks_iff]

theorem Group.ofNode_reordered (h : n.Reordered n') (g : Group) :
    ofNode n' = .ok g ↔ ofNode n = .ok g := by
  simp only [ofNode, bind_eq_ok, h.fields_eq, h.checks_iff]

theorem TextNote.ofNode_reordered (h : n.Reordered n') (t : TextNote) :
    ofNode n' = .ok t ↔ ofNode n = .ok t := by
  simp only [ofNode, bind_eq_ok, h.fields_eq, h.checks_iff]

theorem Artifact.read_reordered (h : n.Reordered n') {label : String}
    {read : Node → Reading Artifact} (hread : reader? label = some read) (a : Artifact) :
    read n' = .ok a ↔ read n = .ok a := by
  unfold reader? at hread
  split at hread <;> cases hread
  · simp only [map_eq_ok, Association.ofNode_reordered h]
  · simp only [map_eq_ok, Group.ofNode_reordered h]
  · simp only [map_eq_ok, TextNote.ofNode_reordered h]

/-! ## Shared definitions -/

/-- Children that all have the same label are of one family. -/
theorem Node.Reordered.only_iff {α : Type} {read : Node → Reading α} (h : n.Reordered n')
    (label : String) (hread : ∀ c c' : Node, c.Reordered c' → ∀ x, read c' = .ok x ↔ read c = .ok x)
    (xs : List α) : n'.only label read = .ok xs ↔ n.only label read = .ok xs := by
  refine h.mapM_content_iff (f := Family.of n.label label) (fun c x hx => ?_)
    (fun c _ c' hcc' x => ?_) xs
  · split at hx
    · rename_i heq
      rw [heq]
    · cases hx
  · rw [hcc'.label_eq, ite_eq_iff', ite_eq_iff', hread c c' hcc']
    simp only [reduceCtorEq]

theorem EndPoint.ofNode_reordered (h : n.Reordered n') (e : EndPoint) :
    ofNode n' = .ok e ↔ ofNode n = .ok e := by
  simp only [ofNode, bind_eq_ok, h.fields_eq, h.checks_iff]

theorem Message.ofNode_reordered (h : n.Reordered n') (m : Message) :
    ofNode n' = .ok m ↔ ofNode n = .ok m := by
  simp only [ofNode, bind_eq_ok, h.fields_eq, h.checks_iff]

theorem ItemDefinition.ofNode_reordered (h : n.Reordered n') (d : ItemDefinition) :
    ofNode n' = .ok d ↔ ofNode n = .ok d := by
  simp only [ofNode, bind_eq_ok, h.fields_eq, h.checks_iff]

theorem ErrorDefinition.ofNode_reordered (h : n.Reordered n') (e : ErrorDefinition) :
    ofNode n' = .ok e ↔ ofNode n = .ok e := by
  simp only [ofNode, bind_eq_ok, h.fields_eq, h.checks_iff]

theorem Escalation.ofNode_reordered (h : n.Reordered n') (e : Escalation) :
    ofNode n' = .ok e ↔ ofNode n = .ok e := by
  simp only [ofNode, bind_eq_ok, h.fields_eq, h.checks_iff]

theorem ResourceParameter.ofNode_reordered (h : n.Reordered n') (p : ResourceParameter) :
    ofNode n' = .ok p ↔ ofNode n = .ok p := by
  simp only [ofNode, bind_eq_ok, h.fields_eq, h.checks_iff]

theorem Resource.ofNode_reordered (h : n.Reordered n') (r : Resource) :
    ofNode n' = .ok r ↔ ofNode n = .ok r := by
  simp only [ofNode, bind_eq_ok, h.fields_eq, h.checks_iff,
    h.only_iff _ fun _ _ => ResourceParameter.ofNode_reordered]

theorem CategoryValue.ofNode_reordered (h : n.Reordered n') (v : CategoryValue) :
    ofNode n' = .ok v ↔ ofNode n = .ok v := by
  simp only [ofNode, bind_eq_ok, h.fields_eq, h.checks_iff]

theorem Category.ofNode_reordered (h : n.Reordered n') (c : Category) :
    ofNode n' = .ok c ↔ ofNode n = .ok c := by
  simp only [ofNode, bind_eq_ok, h.fields_eq, h.checks_iff,
    h.only_iff _ fun _ _ => CategoryValue.ofNode_reordered]

theorem Operation.ofNode_reordered (h : n.Reordered n') (o : Operation) :
    ofNode n' = .ok o ↔ ofNode n = .ok o := by
  simp only [ofNode, bind_eq_ok, h.fields_eq, h.checks_iff]

theorem Interface.ofNode_reordered (h : n.Reordered n') (i : Interface) :
    ofNode n' = .ok i ↔ ofNode n = .ok i := by
  simp only [ofNode, bind_eq_ok, h.fields_eq, h.checks_iff,
    h.only_iff _ fun _ _ => Operation.ofNode_reordered]

namespace RetrievalExpression

/-- Reads one child as the path. -/
def readPath (owner : Id) (n child : Node) : Reading FormalExpression := do
  if child.label = "messagePath" then
    match ← Expression.ofNode child with
    | .formal e => return e
    | .informal _ =>
      throw (.model (.configuration owner.text "a message path must be a formal expression"))
  else throw (n.unknownChild child.label)

theorem pathOfNodes_eq_ok_iff {owner : Id} {cs : List Node} {found : Option FormalExpression}
    {path : FormalExpression} : pathOfNodes owner n cs found = .ok path ↔
      ∃ es, cs.mapM (readPath owner n) = .ok es ∧ es.getLast?.or found = some path := by
  induction cs generalizing found with
  | nil =>
    cases found <;> simp [pathOfNodes]
  | cons c cs ih =>
    rw [pathOfNodes, List.mapM_cons, readPath]
    split
    · cases Expression.ofNode c with
      | error e => simp
      | ok e =>
        cases e with
        | formal e => simp [ih, bind_eq_ok, List.getLast?_cons]
        | informal body => simp
    · simp

theorem ofNode_reordered (h : n.Reordered n') (owner : Id) (e : RetrievalExpression) :
    ofNode owner n' = .ok e ↔ ofNode owner n = .ok e := by
  have hpaths (es : List FormalExpression) :
      n'.children.mapM (readPath owner n') = .ok es ↔
        n.children.mapM (readPath owner n) = .ok es := by
    rw [← List.filter_true n'.children, ← List.filter_true n.children]
    refine h.mapM_iff (f := Family.of n.label "messagePath") (fun _ _ _ => rfl)
      (fun c e _ he => ?_) (fun c _ _ c' hcc' e => ?_) es
    · unfold readPath at he
      split at he
      · rename_i heq
        rw [heq]
      · cases he
    · simp only [readPath, hcc'.fields_eq, h.fields_eq]
      split
      · simp only [bind_eq_ok, Expression.ofNode_reordered hcc']
      · rfl
  simp only [ofNode, bind_eq_ok, pathOfNodes_eq_ok_iff, hpaths, h.fields_eq, h.checks_iff]

end RetrievalExpression

theorem CorrelationProperty.ofNode_reordered (h : n.Reordered n') (p : CorrelationProperty) :
    ofNode n' = .ok p ↔ ofNode n = .ok p := by
  simp only [ofNode, bind_eq_ok, h.fields_eq, h.checks_iff,
    h.only_iff _ fun _ _ hcc' => RetrievalExpression.ofNode_reordered hcc' _]

theorem Relationship.ofNode_reordered (h : n.Reordered n') (r : Relationship) :
    ofNode n' = .ok r ↔ ofNode n = .ok r := by
  simp only [ofNode, bind_eq_ok, h.fields_eq, h.checks_iff]

theorem ImportDeclaration.ofNode_reordered (h : n.Reordered n') (d : ImportDeclaration) :
    ofNode n' = .ok d ↔ ofNode n = .ok d := by
  simp only [ofNode, bind_eq_ok, h.fields_eq, h.checks_iff]

/-! ## Flow nodes -/

theorem FlowBase.ofNode_reordered (h : n.Reordered n') (b : FlowBase) :
    ofNode n' = .ok b ↔ ofNode n = .ok b := by
  simp only [ofNode, bind_eq_ok, h.fields_eq, h.checks_iff]

theorem Edges.ofNode_reordered (h : n.Reordered n') (e : Edges) :
    ofNode n' = .ok e ↔ ofNode n = .ok e := by
  simp only [ofNode, bind_eq_ok, h.fields_eq]

namespace SequenceFlow

/-- Of several conditions the last counts. -/
theorem conditionOfNodes_eq_ok_iff {condition : Option Expression} :
    conditionOfNodes n n.content none = .ok condition ↔
      ∃ es, n.only "conditionExpression" Expression.ofNode = .ok es ∧ es.getLast? = condition := by
  suffices hgeneral : ∀ (cs : List Node) (found : Option Expression),
      conditionOfNodes n cs found = .ok condition ↔
        ∃ es, (cs.mapM fun child => if child.label = "conditionExpression" then
            Expression.ofNode child else .error (n.unknownChild child.label)) = .ok es ∧
          es.getLast?.or found = condition by
    simpa [Node.only] using hgeneral n.content none
  intro cs
  induction cs with
  | nil => simp [conditionOfNodes]
  | cons c cs ih =>
    intro found
    rw [conditionOfNodes, List.mapM_cons]
    split
    · cases Expression.ofNode c with
      | error e => simp
      | ok e => simp [ih, bind_eq_ok, List.getLast?_cons]
    · simp

theorem ofNode_reordered (h : n.Reordered n') (f : SequenceFlow) :
    ofNode n' = .ok f ↔ ofNode n = .ok f := by
  simp only [ofNode, bind_eq_ok, conditionOfNodes_eq_ok_iff, h.fields_eq, h.checks_iff,
    FlowBase.ofNode_reordered h, h.only_iff _ fun _ _ => Expression.ofNode_reordered]

end SequenceFlow

theorem Gateway.ofNode_reordered (h : n.Reordered n') (type : GatewayType) (g : Gateway) :
    ofNode type n' = .ok g ↔ ofNode type n = .ok g := by
  simp only [ofNode, bind_eq_ok, h.fields_eq, h.checks_iff, FlowBase.ofNode_reordered h,
    Edges.ofNode_reordered h]

theorem EventPosition.read_reordered (h : n.Reordered n') {label : String}
    {form : List String × (Node → Reading EventPosition)} (hform : form? label = some form)
    (p : EventPosition) : form.2 n' = .ok p ↔ form.2 n = .ok p := by
  unfold form? at hform
  split at hform <;> cases hform <;> simp only [map_eq_ok, bind_eq_ok, h.fields_eq]

namespace EventDefinition

theorem isLabel_of_read {parent : String} {d : EventDefinition} (h : ofNode parent n = .ok d) :
    isLabel n.label = true := by
  unfold ofNode at h
  split at h
  case h_5 => cases h
  all_goals rename_i heq; rw [heq]; decide

theorem ofNode_reordered (h : n.Reordered n') (parent : String) (d : EventDefinition) :
    ofNode parent n' = .ok d ↔ ofNode parent n = .ok d := by
  simp only [ofNode, h.fields_eq]
  split <;> simp only [bind_eq_ok, h.checks_iff]

end EventDefinition

theorem Event.ofNode_reordered (h : n.Reordered n')
    {form : List String × (Node → Reading EventPosition)}
    (hform : EventPosition.form? n.label = some form) (e : Event) :
    ofNode form n' = .ok e ↔ ofNode form n = .ok e := by
  have hdefinitions (ds : List EventDefinition) :
      n'.content.mapM (EventDefinition.ofNode n.label) = .ok ds ↔
        n.content.mapM (EventDefinition.ofNode n.label) = .ok ds :=
    h.mapM_content_iff
      (fun _ _ hd => Family.of_eventDefinition hform (EventDefinition.isLabel_of_read hd))
      (fun _ _ _ hcc' => EventDefinition.ofNode_reordered hcc' _) ds
  simp only [ofNode, bind_eq_ok, h.fields_eq, h.checks_iff, FlowBase.ofNode_reordered h,
    Edges.ofNode_reordered h, EventPosition.read_reordered h hform, hdefinitions]

theorem TaskWork.read_reordered (h : n.Reordered n') {label : String} {fields : List String}
    {read : Node → Reading TaskWork} (hform : form? label = some (fields, read)) (w : TaskWork) :
    read n' = .ok w ↔ read n = .ok w := by
  unfold form? at hform
  split at hform <;> cases hform <;>
    simp only [map_eq_ok, bind_eq_ok, Implementation.ofNode, h.fields_eq]

namespace Loop

/-- Reads one child as the expression of a role. -/
def readRole (n : Node) (roles : List String) (child : Node) : Reading (String × Expression) := do
  if roles.contains child.label then
    return (child.label, ← Expression.ofNode child)
  else throw (n.unknownChild child.label)

theorem expressionsOfNodes_eq_ok_iff {roles : List String} {cs : List Node}
    {found result : List (String × Expression)} :
    expressionsOfNodes n roles cs found = .ok result ↔
      ∃ ps, cs.mapM (readRole n roles) = .ok ps ∧ ps.reverse ++ found = result := by
  induction cs generalizing found with
  | nil => simp [expressionsOfNodes]
  | cons c cs ih =>
    rw [expressionsOfNodes, List.mapM_cons, readRole]
    split
    · cases Expression.ofNode c with
      | error e => simp
      | ok e => simp [ih, bind_eq_ok]
    · simp

/-- The family of the expression in a role. -/
def roleFamily (parent : String) (p : String × Expression) : Family := Family.of parent p.1

/-- Of several expressions in one role the last counts. -/
theorem lookup_reverse_eq {parent : String} {ps qs : List (String × Expression)}
    (h : Family.Agree (roleFamily parent) ps qs) (role : String) :
    ps.reverse.lookup role = qs.reverse.lookup role := by
  let inRole (p : String × Expression) : Option Expression := if role == p.1 then some p.2 else none
  have hlast (rs : List (String × Expression)) :
      rs.reverse.lookup role = (rs.filterMap inRole).getLast? := by
    rw [List.lookup_eq_findSome?, ← List.head?_filterMap, List.filterMap_reverse,
      List.head?_reverse]
  rw [hlast, hlast, h.filterMap_eq inRole (Family.of parent role)]
  intro p e he
  simp only [inRole, Option.ite_none_right_eq_some, beq_iff_eq] at he
  rw [roleFamily, he.1]

/-- The expressions are the same in every role. -/
theorem exists_expressions_iff (h : n.Reordered n') (roles : List String)
    {P : List (String × Expression) → Prop}
    (hP : ∀ ps qs : List (String × Expression),
      (∀ role, ps.lookup role = qs.lookup role) → (P qs ↔ P ps)) :
    (∃ found, expressionsOfNodes n' roles n'.children [] = .ok found ∧ P found) ↔
      ∃ found, expressionsOfNodes n roles n.children [] = .ok found ∧ P found := by
  simp only [expressionsOfNodes_eq_ok_iff, List.append_nil, ↓existsAndEq, and_true]
  rw [← List.filter_true n'.children, ← List.filter_true n.children]
  refine h.exists_mapM_iff (roleFamily n.label) (fun _ _ _ => rfl) (fun c p _ hp => ?_)
    (fun c _ _ c' hcc' p => ?_) fun ps qs hsame => hP _ _ (lookup_reverse_eq hsame)
  · unfold readRole at hp
    split at hp
    · obtain ⟨e, -, heq⟩ := map_eq_ok.mp hp
      rw [← heq, roleFamily]
    · cases hp
  · simp only [readRole, hcc'.fields_eq, h.fields_eq]
    split
    · simp only [bind_eq_ok, Expression.ofNode_reordered hcc']
    · rfl

theorem ofNode_reordered (h : n.Reordered n') (l : Loop) :
    ofNode n' = .ok l ↔ ofNode n = .ok l := by
  simp only [ofNode, ite_eq_iff', bind_eq_ok, h.fields_eq, h.checks_iff]
  -- what comes before the expressions is read alike; of these only lookups by role are used
  refine and_congr (imp_congr_right fun _ => ?_) (imp_congr_right fun _ => ?_)
  · refine exists_congr fun _ => and_congr_right fun _ => exists_congr fun _ =>
      and_congr_right fun _ => exists_expressions_iff h _ fun ps qs hlookup => ?_
    simp only [hlookup]
  · refine exists_congr fun _ => and_congr_right fun _ =>
      exists_expressions_iff h _ fun ps qs hlookup => ?_
    simp only [hlookup]

/-- An activity has at most one loop. -/
theorem ofChildren_eq_ok_iff {owner : Id} {l : Option Loop} :
    ofChildren owner n = .ok l ↔ (n.content.filter isLoop).mapM ofNode = .ok l.toList := by
  unfold ofChildren
  match n.content.filter isLoop with
  | [] => cases l <;> simp
  | [c] => cases l <;> simp [map_eq_ok, bind_eq_ok]
  | c :: d :: cs => cases l <;> simp [bind_eq_ok]

theorem ofChildren_reordered (h : n.Reordered n') (hlabel : Activity.isLabel n.label = true)
    (owner : Id) (l : Option Loop) : ofChildren owner n' = .ok l ↔ ofChildren owner n = .ok l := by
  simp only [ofChildren_eq_ok_iff, Node.content, List.filter_filter]
  refine h.mapM_iff (f := .loops) (fun c c' hc => by simp [Node.isDocumentation, isLoop, hc])
    (fun c x hk _ => Family.of_loop hlabel ?_) (fun c _ _ c' hcc' => ofNode_reordered hcc') _
  exact (Bool.and_eq_true .. ▸ hk).1

end Loop

theorem Activity.ofNode_reordered (h : n.Reordered n') (hlabel : isLabel n.label = true)
    (d : ActivityDraft) : ofNode n' = .ok d ↔ ofNode n = .ok d := by
  simp only [ofNode, bind_eq_ok, h.fields_eq, FlowBase.ofNode_reordered h,
    Edges.ofNode_reordered h, Loop.ofChildren_reordered h hlabel]

theorem Activity.noContent_reordered (h : n.Reordered n') (u : Unit) :
    noContent n' = .ok u ↔ noContent n = .ok u := by
  have hnil {m : Node} : noContent m = .ok u ↔ m.content.filter (!Loop.isLoop ·) = [] := by
    unfold noContent
    cases m.content.filter (!Loop.isLoop ·) <;> simp
  simp only [hnil, Node.content, List.filter_filter]
  exact h.filter_eq_nil_iff fun c c' hc => by simp [Node.isDocumentation, Loop.isLoop, hc]

/-! ## Lane sets and the parts of collaborations -/

theorem Lane.ofNode_reordered (h : n.Reordered n') (l : Lane) :
    ofNode n' = .ok l ↔ ofNode n = .ok l := by
  simp only [ofNode, bind_eq_ok, h.fields_eq, h.checks_iff]

theorem LaneSet.ofNode_reordered (h : n.Reordered n') (s : LaneSet) :
    ofNode n' = .ok s ↔ ofNode n = .ok s := by
  have hlanes (m : Node) : (m.content.mapM fun child => if child.label = "lane" then
      Lane.ofNode child else throw (m.unknownChild child.label)) = m.only "lane" Lane.ofNode := rfl
  simp only [ofNode, bind_eq_ok, hlanes]
  simp only [h.fields_eq, h.checks_iff, h.only_iff _ fun _ _ => Lane.ofNode_reordered]

theorem Multiplicity.ofNode_reordered (h : n.Reordered n') (m : Multiplicity) :
    ofNode n' = .ok m ↔ ofNode n = .ok m := by
  simp only [ofNode, bind_eq_ok, h.fields_eq, h.checks_iff]

namespace Participant

/-- A participant has at most one multiplicity. -/
theorem multiplicityOfNodes_eq_ok_iff {m : Option Multiplicity} :
    multiplicityOfNodes n n.content none = .ok m ↔
      n.only "participantMultiplicity" Multiplicity.ofNode = .ok m.toList := by
  have hfull (k : Multiplicity) (cs : List Node) :
      multiplicityOfNodes n cs (some k) = .ok m ↔ cs = [] ∧ m = some k := by
    cases cs <;> simp [multiplicityOfNodes, eq_comm]
  rw [Node.only]
  cases n.content with
  | nil => cases m <;> simp [multiplicityOfNodes]
  | cons c cs =>
    simp only [multiplicityOfNodes, Option.isNone_none, Bool.and_true, decide_eq_true_eq,
      List.mapM_cons]
    split
    · cases Multiplicity.ofNode c with
      | error e => simp
      | ok k =>
        rw [ok_bind, hfull]
        cases cs with
        | nil => cases m <;> simp [eq_comm]
        | cons d ds => cases m <;> simp [bind_eq_ok]
    · simp

theorem ofNode_reordered (h : n.Reordered n') (p : Participant) :
    ofNode n' = .ok p ↔ ofNode n = .ok p := by
  simp only [ofNode, bind_eq_ok, multiplicityOfNodes_eq_ok_iff, h.fields_eq, h.checks_iff,
    h.only_iff _ fun _ _ => Multiplicity.ofNode_reordered]

end Participant

theorem MessageFlow.ofNode_reordered (h : n.Reordered n') (f : MessageFlow) :
    ofNode n' = .ok f ↔ ofNode n = .ok f := by
  simp only [ofNode, bind_eq_ok, h.fields_eq, h.checks_iff]

theorem ConversationLink.ofNode_reordered (h : n.Reordered n') (l : ConversationLink) :
    ofNode n' = .ok l ↔ ofNode n = .ok l := by
  simp only [ofNode, bind_eq_ok, h.fields_eq, h.checks_iff]

theorem Header.ofNode_reordered (h : n.Reordered n') (x : Header) :
    ofNode n' = .ok x ↔ ofNode n = .ok x := by
  simp only [ofNode, bind_eq_ok, h.fields_eq, h.checks_iff]

end BpmnModel
