import BpmnModel.Document.Description

/-!
# Setting and reading fields

Every setter of a node is an instance of `Node.set?`, and every reader looks at one attribute only.
The simp lemmas of this file bring setters into that form and readers into a function of the value
they find, so that what was written can be read back field by field.

* `Node.attribute?_set?` — the value of an attribute after one was set.
* `Value.readText` and its like — what a reader makes of a value, with the lemmas that undo the
  encodings of the setters.
* `Node.Closed` — all attributes are among the known ones, so that `Node.finish` has no objection.
* `Node.content_pushAll`, `Node.documentation_pushAll` — children, sorted from documentation.
-/

namespace BpmnModel

/-! ## Results -/

@[simp]
theorem ok_bind {ε α β : Type} (a : α) (f : α → Except ε β) : (Except.ok a >>= f) = f a := rfl

@[simp]
theorem error_bind {ε α β : Type} (e : ε) (f : α → Except ε β) :
    ((Except.error e : Except ε α) >>= f) = .error e := rfl

@[simp]
theorem map_ok {ε α β : Type} (f : α → β) (a : α) : f <$> (Except.ok a : Except ε α) = .ok (f a) :=
  rfl

@[simp]
theorem pure_eq_ok {ε α : Type} (a : α) : (pure a : Except ε α) = .ok a := rfl

theorem bind_eq_ok {ε α β : Type} {x : Except ε α} {f : α → Except ε β} {b : β} :
    (x >>= f) = .ok b ↔ ∃ a, x = .ok a ∧ f a = .ok b := by
  cases x with
  | error e => simp
  | ok a => simp

theorem map_eq_ok {ε α β : Type} {x : Except ε α} {f : α → β} {b : β} :
    f <$> x = .ok b ↔ ∃ a, x = .ok a ∧ f a = b := by
  cases x with
  | error e => exact ⟨nofun, fun ⟨_, h, _⟩ => nomatch h⟩
  | ok a => simp

@[simp]
theorem checked_ok {α : Type} (a : α) : checked (.ok a) = .ok a := rfl

theorem checked_eq_ok {α : Type} {r : Except ModelError α} {a : α} :
    checked r = .ok a ↔ r = .ok a := by
  cases r with
  | error e => exact ⟨nofun, nofun⟩
  | ok b => simp

/-! ## Attributes -/

namespace Attributes

theorem lookup_insertEntry (a b : String) (v : Value) (es : List (String × Value)) :
    (insertEntry a v es).lookup b = if a = b then some v else es.lookup b := by
  induction es with
  | nil =>
    rw [insertEntry, List.lookup_cons]
    by_cases h : a = b
    · simp [h]
    · simp [h, show (b == a) = false by simpa using fun h' => h h'.symm]
  | cons e es ih =>
    obtain ⟨n, w⟩ := e
    rw [insertEntry]
    by_cases hn : n = a
    · subst hn
      rw [if_pos rfl, List.lookup_cons, List.lookup_cons]
      by_cases h : n = b
      · simp [h]
      · simp [h, show (b == n) = false by simpa using fun h' => h h'.symm]
    · rw [if_neg hn, List.lookup_cons, List.lookup_cons, ih]
      by_cases h : n = b
      · subst h
        simp [show ¬ a = n from fun h => hn h.symm]
      · simp [show (b == n) = false by simpa using fun h' => h h'.symm]

theorem get?_insert (as : Attributes) (a b : String) (v : Value) :
    (as.insert a v).get? b = if a = b then some v else as.get? b :=
  lookup_insertEntry a b v as.entries

theorem mem_names_insert (as : Attributes) (a x : String) (v : Value) :
    x ∈ (as.insert a v).names ↔ x ∈ as.names ∨ x = a :=
  mem_names_insertEntry

end Attributes

namespace Value

/-- The list of texts as setters write it: an empty one is left out. -/
def ofTexts? (texts : List String) : Option Value :=
  if texts.isEmpty then none else some (.list texts)

/-- What a reader of an optional text makes of a value. -/
def readText (label name : String) : Option Value → Reading (Option String)
  | none => .ok none
  | some (.text s) => .ok (some s)
  | some v => .error (.invalidValue label name .string v)

/-- What a reader of texts makes of a value. -/
def readTexts (label name : String) : Option Value → Reading (List String)
  | none => .ok []
  | some (.list items) => .ok items
  | some v => .error (.invalidValue label name .list v)

/-- What a reader of an optional flag makes of a value. -/
def readFlag (label name : String) : Option Value → Reading (Option Bool)
  | none => .ok none
  | some (.flag b) => .ok (some b)
  | some v => .error (.invalidValue label name .boolean v)

/-- What a reader of an optional integer makes of a value. -/
def readInteger (label name : String) : Option Value → Reading (Option Int)
  | none => .ok none
  | some (.integer i) => .ok (some i.toInt)
  | some v => .error (.invalidValue label name .integer v)

/-- What a reader of an optional count makes of a value. -/
def readCount (label name : String) : Option Value → Reading (Option UInt32)
  | none => .ok none
  | some (.integer i) =>
    match countOfInt? i.toInt with
    | some c => .ok (some c)
    | none => .error (.invalidValue label name .count (.integer i))
  | some v => .error (.invalidValue label name .count v)

end Value

namespace Node

variable (n : Node)

/-! ## Setters -/

@[simp]
theorem set_eq (a : String) (v : Value) : n.set a v = n.set? a (some v) := rfl

@[simp]
theorem setText_eq (a t : String) : n.setText a t = n.set? a (some (.text t)) := rfl

@[simp]
theorem setText?_eq (a : String) (t : Option String) : n.setText? a t = n.set? a (t.map .text) := rfl

@[simp]
theorem setId_eq (a : String) (id : Id) : n.setId a id = n.set? a (some (.text id.text)) := rfl

@[simp]
theorem setRef_eq {r : Requirement} (a : String) (ref : Ref r) :
    n.setRef a ref = n.set? a (some (.text ref.id.text)) := rfl

@[simp]
theorem setRef?_eq {r : Requirement} (a : String) (ref : Option (Ref r)) :
    n.setRef? a ref = n.set? a (ref.map fun ref => .text ref.id.text) := rfl

/-- A setter that leaves out a value in one case. -/
@[simp]
theorem ite_set? (p : Prop) [Decidable p] (a : String) (v : Option Value) :
    (if p then n else n.set? a v) = n.set? a (if p then none else v) := by
  split <;> rfl

@[simp]
theorem setTexts_eq (a : String) (texts : List String) :
    n.setTexts a texts = n.set? a (Value.ofTexts? texts) := by
  rw [setTexts, Value.ofTexts?]
  split <;> rfl

@[simp]
theorem setRefs_eq {r : Requirement} (a : String) (refs : List (Ref r)) :
    n.setRefs a refs = n.set? a (Value.ofTexts? (refs.map fun ref => ref.id.text)) := by
  rw [← setTexts_eq, setRefs, setIds, setTexts, Ref.ids]
  simp only [List.isEmpty_map, List.map_map]
  rfl

@[simp]
theorem setFlag_eq (a : String) (b standard : Bool) :
    n.setFlag a b standard = n.set? a (if b = standard then none else some (.flag b)) := by
  rw [setFlag]
  split <;> rfl

@[simp]
theorem setWord_eq {α : Type} [Vocabulary α] [Inhabited α] [DecidableEq α] (a : String) (w : α) :
    n.setWord a w = n.set? a (if w = default then none else some (.text (Vocabulary.spell w))) := by
  rw [setWord]
  split <;> rfl

@[simp]
theorem push_eq (c : Node) : n.push c = n.pushAll [c] := rfl

/-! ## What setters change -/

@[simp]
theorem label_set? (a : String) (v : Option Value) : (n.set? a v).label = n.label := by
  cases v <;> rfl

@[simp]
theorem children_set? (a : String) (v : Option Value) : (n.set? a v).children = n.children := by
  cases v <;> rfl

@[simp]
theorem attribute?_set? (a b : String) (v : Option Value) :
    (n.set? a v).attribute? b = if a = b then v.or (n.attribute? b) else n.attribute? b := by
  cases v with
  | none => simp [set?]
  | some v =>
    rw [set?, attribute?, set, Attributes.get?_insert]
    rfl

@[simp]
theorem label_pushAll (cs : List Node) : (n.pushAll cs).label = n.label := rfl

@[simp]
theorem children_pushAll (cs : List Node) : (n.pushAll cs).children = n.children ++ cs := rfl

theorem pushAll_pushAll (cs ds : List Node) : (n.pushAll cs).pushAll ds = n.pushAll (cs ++ ds) := by
  rw [pushAll, pushAll, pushAll, List.append_assoc]

@[simp]
theorem attribute?_pushAll (cs : List Node) (a : String) :
    (n.pushAll cs).attribute? a = n.attribute? a := rfl

@[simp]
theorem label_bare (label : String) : (bare label).label = label := rfl

@[simp]
theorem children_bare (label : String) : (bare label).children = [] := rfl

@[simp]
theorem attribute?_bare (label a : String) : (bare label).attribute? a = none := rfl

/-- All attributes are among `known`. -/
def Closed (known : List String) (n : Node) : Prop :=
  ∀ a ∈ n.attributes.names, a ∈ known

theorem closed_set? {known : List String} {a : String} (ha : a ∈ known) (v : Option Value) :
    (n.set? a v).Closed known ↔ n.Closed known := by
  cases v with
  | none => rfl
  | some v =>
    simp only [Closed, set?, set, Attributes.mem_names_insert]
    constructor
    · exact fun h x hx => h x (.inl hx)
    · rintro h x (hx | rfl)
      · exact h x hx
      · exact ha

theorem closed_pushAll (known : List String) (cs : List Node) :
    (n.pushAll cs).Closed known ↔ n.Closed known := Iff.rfl

theorem closed_bare (known : List String) (label : String) : (bare label).Closed known := by
  intro a ha
  cases ha

attribute [simp] closed_set? closed_pushAll closed_bare

theorem finish_eq_ok {known : List String} : n.finish known = .ok () ↔ n.Closed known := by
  unfold finish stranger?
  cases hs : n.attributes.names.find? (fun name => !known.contains name) with
  | none => simpa [Closed] using List.find?_eq_none.mp hs
  | some name =>
    have hname : name ∉ known := by simpa using List.find?_some hs
    simp only [reduceCtorEq, false_iff]
    exact fun h => hname (h name (List.mem_of_find?_eq_some hs))

@[simp]
theorem finish_of_closed {known : List String} (h : n.Closed known) : n.finish known = .ok () :=
  n.finish_eq_ok.mpr h

/-! ## Readers -/

variable {n}

theorem text?_eq (a : String) : n.text? a = Value.readText n.label a (n.attribute? a) := rfl

theorem texts_eq (a : String) : n.texts a = Value.readTexts n.label a (n.attribute? a) := rfl

theorem flag?_eq (a : String) : n.flag? a = Value.readFlag n.label a (n.attribute? a) := rfl

theorem integer?_eq (a : String) : n.integer? a = Value.readInteger n.label a (n.attribute? a) := rfl

theorem count?_eq (a : String) : n.count? a = Value.readCount n.label a (n.attribute? a) := rfl

attribute [simp] text?_eq texts_eq flag?_eq integer?_eq count?_eq
attribute [simp] text ref? ref id refs flag

end Node

namespace Value

variable (label name : String)

@[simp]
theorem readText_none : readText label name none = .ok none := rfl

@[simp]
theorem readText_text (t : String) : readText label name (some (.text t)) = .ok (some t) := rfl

@[simp]
theorem readText_map (t : Option String) : readText label name (t.map .text) = .ok t := by
  cases t <;> rfl

@[simp]
theorem readText_ref {r : Requirement} (ref : Option (Ref r)) :
    readText label name (ref.map fun ref => .text ref.id.text) =
      .ok (ref.map fun ref => ref.id.text) := by
  cases ref <;> rfl

@[simp]
theorem readText_ite (p : Prop) [Decidable p] (t : String) :
    readText label name (if p then none else some (.text t)) =
      .ok (if p then none else some t) := by
  split <;> rfl

@[simp]
theorem readTexts_ofTexts? (texts : List String) :
    readTexts label name (ofTexts? texts) = .ok texts := by
  cases texts <;> rfl

@[simp]
theorem readFlag_map (b : Option Bool) : readFlag label name (b.map .flag) = .ok b := by
  cases b <;> rfl

@[simp]
theorem readFlag_flag (b : Bool) : readFlag label name (some (.flag b)) = .ok (some b) := rfl

@[simp]
theorem readFlag_none : readFlag label name none = .ok none := rfl

@[simp]
theorem readFlag_ite (b standard : Bool) :
    readFlag label name (if b = standard then none else some (.flag b)) =
      .ok (if b = standard then none else some b) := by
  split <;> rfl

@[simp]
theorem readInteger_none : readInteger label name none = .ok none := rfl

theorem toInt_ofCount (c : UInt32) : (Int64.ofNat c.toNat).toInt = c.toNat := by
  have := c.toNat_lt
  rw [Int64.toInt_ofNat_of_lt]
  omega

@[simp]
theorem readInteger_ofCount (c : UInt32) :
    readInteger label name (some (.ofCount c)) = .ok (some c.toNat) := by
  rw [ofCount, readInteger, toInt_ofCount]

@[simp]
theorem readInteger_map (c : Option UInt32) :
    readInteger label name (c.map .ofCount) = .ok (c.map fun c => (c.toNat : Int)) := by
  cases c with
  | none => rfl
  | some c => exact readInteger_ofCount label name c

@[simp]
theorem readInteger_ite (p : Prop) [Decidable p] (c : UInt32) :
    readInteger label name (if p then none else some (.ofCount c)) =
      .ok (if p then none else some (c.toNat : Int)) := by
  split
  · rfl
  · exact readInteger_ofCount label name c

end Value

@[simp]
theorem countOfInt?_toNat (c : UInt32) : countOfInt? c.toNat = some c := by
  have := c.toNat_lt
  rw [countOfInt?, if_pos (by omega), Int.toNat_natCast, UInt32.ofNat_toNat]

@[simp]
theorem Value.readCount_map (label name : String) (c : Option UInt32) :
    readCount label name (c.map .ofCount) = .ok c := by
  cases c with
  | none => rfl
  | some c =>
    rw [Option.map_some, ofCount, readCount, toInt_ofCount, countOfInt?_toNat]

/-- A default that was left out comes back. -/
@[simp]
theorem getD_ite_eq {α : Type} [DecidableEq α] (x standard : α) :
    (if x = standard then none else some x).getD standard = x := by
  split
  · simp [*]
  · rfl

namespace Ref

variable {r : Requirement}

/-- A reference is its text. -/
@[simp]
theorem mk_comp_text : ((fun s => (⟨⟨s⟩⟩ : Ref r)) ∘ fun ref => ref.id.text) = fun ref => ref := rfl

end Ref

/-! ## Vocabularies -/

@[simp]
theorem AssociationDirection.parse_spell (d : AssociationDirection) :
    Vocabulary.parse (Vocabulary.spell d) = .ok d := by
  cases d <;> rfl

@[simp]
theorem ItemKind.parse_spell (k : ItemKind) : Vocabulary.parse (Vocabulary.spell k) = .ok k := by
  cases k <;> rfl

@[simp]
theorem GatewayDirection.parse_spell (d : GatewayDirection) :
    Vocabulary.parse (Vocabulary.spell d) = .ok d := by
  cases d <;> rfl

@[simp]
theorem ProcessType.parse_spell (t : ProcessType) :
    Vocabulary.parse (Vocabulary.spell t) = .ok t := by
  cases t <;> rfl

@[simp]
theorem RelationshipDirection.parse_spell (d : RelationshipDirection) :
    Vocabulary.parse (Vocabulary.spell d) = .ok d := by
  cases d <;> rfl

/-- What a reader of a word makes of a value. -/
def Value.readWord {α : Type} [Vocabulary α] [Inhabited α] (label name : String)
    (v : Option Value) : Reading α := do
  match ← readText label name v with
  | none => return default
  | some s => checked (Vocabulary.parse s)

section Words

variable {α : Type} [Vocabulary α] [Inhabited α]

@[simp]
theorem Node.word_eq (n : Node) (a : String) :
    (n.word a : Reading α) = Value.readWord n.label a (n.attribute? a) := rfl

/-- A word is read back, and the default where none was written. -/
@[simp]
theorem Value.readWord_ite [DecidableEq α] (label name : String) {w : α}
    (h : Vocabulary.parse (Vocabulary.spell w) = .ok w) :
    readWord label name (if w = default then none else some (.text (Vocabulary.spell w))) =
      .ok w := by
  rw [readWord, readText_ite]
  split
  · simp [*]
  · simp [h]

end Words

/-! ## Children -/

namespace Node

variable (n : Node)

@[simp]
theorem content_set? (a : String) (v : Option Value) : (n.set? a v).content = n.content := by
  rw [content, children_set?, content]

@[simp]
theorem content_bare (label : String) : (bare label).content = [] := rfl

@[simp]
theorem documentation_set? (a : String) (v : Option Value) :
    (n.set? a v).documentation = n.documentation := by
  rw [documentation, children_set?, documentation]

/-- Children none of which documents its parent. -/
def AllContent (cs : List Node) : Prop := ∀ c ∈ cs, c.isDocumentation = false

@[simp]
theorem allContent_nil : AllContent [] := nofun

@[simp]
theorem allContent_cons (c : Node) (cs : List Node) :
    AllContent (c :: cs) ↔ c.isDocumentation = false ∧ AllContent cs := List.forall_mem_cons

@[simp]
theorem allContent_append (cs ds : List Node) :
    AllContent (cs ++ ds) ↔ AllContent cs ∧ AllContent ds := List.forall_mem_append

@[simp]
theorem content_pushAll {cs : List Node} (h : AllContent cs) :
    (n.pushAll cs).content = n.content ++ cs := by
  rw [content, children_pushAll, List.filter_append, content, List.append_cancel_left_eq,
    List.filter_eq_self]
  simpa [AllContent] using h

@[simp]
theorem documentation_pushAll {cs : List Node} (h : AllContent cs) :
    (n.pushAll cs).documentation = n.documentation := by
  have hnone : cs.filter isDocumentation = [] :=
    List.filter_eq_nil_iff.mpr (by simpa [AllContent] using h)
  rw [documentation, children_pushAll, List.filter_append, hnone, List.append_nil, documentation]

theorem noContent_eq_ok : n.noContent = .ok () ↔ n.content = [] := by
  unfold noContent
  cases n.content <;> simp

@[simp]
theorem noContent_of_content (h : n.content = []) : n.noContent = .ok () :=
  n.noContent_eq_ok.mpr h

end Node

/-! ## Other fields -/

/-- One node comes from another by setting some of these fields. -/
structure Node.DiffersIn (fields : List String) (n m : Node) : Prop where
  label : m.label = n.label
  children : m.children = n.children
  attribute? : ∀ a ∉ fields, m.attribute? a = n.attribute? a
  closed : ∀ known, (∀ a ∈ fields, a ∈ known) → n.Closed known → m.Closed known

namespace Node.DiffersIn

variable {fields : List String} {n m : Node} {a : String}

theorem refl (fields : List String) (n : Node) : n.DiffersIn fields n :=
  ⟨rfl, rfl, fun _ _ => rfl, fun _ _ h => h⟩

theorem set? (h : n.DiffersIn fields m) (ha : a ∈ fields) : n.DiffersIn fields (m.set? a v) where
  label := by rw [label_set?, h.label]
  children := by rw [children_set?, h.children]
  attribute? b hb := by
    have hne : a ≠ b := fun heq => hb (heq ▸ ha)
    rw [attribute?_set?, if_neg hne, h.attribute? b hb]
  closed known hknown hn := by
    rw [closed_set? m (hknown a ha)]
    exact h.closed known hknown hn

theorem pushAll (h : n.DiffersIn fields m) (cs : List Node) :
    (n.pushAll cs).DiffersIn fields (m.pushAll cs) where
  label := h.label
  children := by rw [children_pushAll, h.children, children_pushAll]
  attribute? := h.attribute?
  closed := h.closed

theorem content (h : n.DiffersIn fields m) : m.content = n.content := by
  rw [Node.content, h.children, Node.content]

theorem documentation (h : n.DiffersIn fields m) : m.documentation = n.documentation := by
  rw [Node.documentation, h.children, Node.documentation]

theorem text? (h : n.DiffersIn fields m) (ha : a ∉ fields) : m.text? a = n.text? a := by
  rw [text?_eq, text?_eq, h.label, h.attribute? a ha]

theorem text (h : n.DiffersIn fields m) (ha : a ∉ fields) : m.text a = n.text a := by
  rw [Node.text, Node.text, h.text? ha, h.label]

end Node.DiffersIn

end BpmnModel
