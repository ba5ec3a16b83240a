import BpmnModel.Proofs.JsonTokens

/-!
# JSON values, printed and read back

* `Json.Layout.IsBlank` — the layout puts nothing but blanks between tokens.
* `Json.readValue_renderAt` — a printed value is read in front of any rest.
* `Json.parse_render` — a whole text.
-/

namespace BpmnModel

namespace Json

/-! ## Layouts -/

/-- Nothing but blanks between tokens. -/
structure Layout.IsBlank (l : Layout) : Prop where
  lineBreak : ∀ depth, ∀ c ∈ l.lineBreak depth, isBlank c = true
  colon : ∃ bs, l.colon = ':' :: bs ∧ ∀ c ∈ bs, isBlank c = true

theorem Layout.isBlank_compact : Layout.compact.IsBlank :=
  ⟨fun _ _ hc => by simp [compact] at hc, [], rfl, by simp⟩

theorem Layout.isBlank_pretty : Layout.pretty.IsBlank := by
  refine ⟨fun depth c hc => ?_, [' '], rfl, by simp [isBlank]⟩
  rcases List.mem_cons.mp hc with rfl | hc
  · rfl
  · rw [List.eq_of_mem_replicate hc]
    rfl

/-! ## First characters -/

theorem exists_quote? (text : Option String) : ∃ cs, quote? text = '"' :: cs := by
  cases text with
  | none => exact ⟨_, rfl⟩
  | some s => exact ⟨_, rfl⟩

/-- Numbers start with a digit or a minus sign. -/
theorem exists_digits (n : Int) : ∃ c cs, digits n = c :: cs ∧ (c.isDigit ∨ c = '-') := by
  unfold digits
  split
  · exact ⟨'-', _, rfl, .inr rfl⟩
  · cases hds : Nat.toDigits 10 n.natAbs with
    | nil => exact absurd hds Nat.toDigits_ne_nil
    | cons d ds =>
      refine ⟨d, ds, rfl, .inl ?_⟩
      exact Nat.isDigit_of_mem_toDigits (n := n.natAbs) (b := 10) (by decide) (by decide)
        (hds ▸ List.mem_cons_self)

theorem not_blank_of_number {c : Char} (h : c.isDigit ∨ c = '-') :
    isBlank c = false ∧ c ≠ ']' := by
  have hclosed {d : Char} (hd : ¬ (d.isDigit ∨ d = '-')) : c ≠ d := fun heq => hd (heq ▸ h)
  refine ⟨?_, hclosed (by decide)⟩
  simp only [isBlank, Bool.or_eq_false_iff, decide_eq_false_iff_not]
  exact ⟨⟨⟨hclosed (by decide), hclosed (by decide)⟩, hclosed (by decide)⟩, hclosed (by decide)⟩

/-- A printed value starts neither with a blank nor with a closing bracket. -/
theorem exists_renderAt (l : Layout) (depth : Nat) (j : Json) :
    ∃ c cs, renderAt l depth j = c :: cs ∧ isBlank c = false ∧ c ≠ ']' := by
  cases j with
  | null => exact ⟨'n', _, rfl, rfl, by decide⟩
  | flag b => cases b <;> exact ⟨_, _, rfl, rfl, by decide⟩
  | integer n =>
    obtain ⟨c, cs, hcs, hc⟩ := exists_digits n
    exact ⟨c, cs, hcs, not_blank_of_number hc⟩
  | real => exact ⟨'-', _, rfl, rfl, by decide⟩
  | text s =>
    obtain ⟨cs, hcs⟩ := exists_quote? s
    exact ⟨'"', cs, hcs, rfl, by decide⟩
  | array items => cases items <;> exact ⟨'[', _, rfl, rfl, by decide⟩
  | object members =>
    cases members with
    | nil => exact ⟨'{', _, rfl, rfl, by decide⟩
    | cons m ms => exact ⟨'{', _, rfl, rfl, by decide⟩

/-! ## Values -/

/-- What holds of a value if it holds of its parts holds of all values. -/
theorem value_induction {P : Json → Prop}
    (null : P .null) (flag : ∀ b, P (.flag b)) (integer : ∀ n, P (.integer n)) (real : P .real)
    (text : ∀ s, P (.text s)) (array : ∀ items, (∀ j ∈ items, P j) → P (.array items))
    (object : ∀ members, (∀ m ∈ members, P m.2) → P (.object members)) : ∀ j, P j
  | .null => null
  | .flag b => flag b
  | .integer n => integer n
  | .real => real
  | .text s => text s
  | .array items => array items fun j (_ : j ∈ items) =>
    value_induction null flag integer real text array object j
  | .object members => object members fun m (_ : m ∈ members) =>
    value_induction null flag integer real text array object m.2
termination_by j => sizeOf j
decreasing_by
  · have hlt := List.sizeOf_lt_of_mem ‹j ∈ items›
    simp only [Json.array.sizeOf_spec]
    omega
  · have hlt := List.sizeOf_lt_of_mem ‹m ∈ members›
    obtain ⟨key, value⟩ := m
    simp only [Json.object.sizeOf_spec, Prod.mk.sizeOf_spec] at hlt ⊢
    omega

/-- Every layout of blanks and every rest at which a number may end. -/
def ReadsBack (l : Layout) (j : Json) : Prop :=
  ∀ (depth : Nat) (bs rest : List Char) (fuel : Nat), (∀ c ∈ bs, isBlank c = true) → Ends rest →
    2 * (renderAt l depth j).length ≤ fuel →
      readValue fuel (bs ++ (renderAt l depth j ++ rest)) = some (j, rest)

variable {l : Layout}

theorem ends_cons {c : Char} (h : c.isDigit = false ∧ c ≠ '.' ∧ c ≠ 'e' ∧ c ≠ 'E')
    (rest : List Char) : Ends (c :: rest) := by
  rintro d ⟨⟩
  exact h

theorem Ends.append {bs rest : List Char} (hbs : ∀ c ∈ bs, isBlank c = true) (h : Ends rest) :
    Ends (bs ++ rest) := by
  cases bs with
  | nil => exact h
  | cons b bs => exact .of_blank (hbs b List.mem_cons_self) (bs ++ rest)

/-- A token is looked at after the blanks in front of it. -/
theorem skipBlanks_token {bs cs : List Char} {c : Char} (hbs : ∀ c ∈ bs, isBlank c = true)
    (hc : isBlank c = false) : skipBlanks (bs ++ c :: cs) = c :: cs := by
  rw [skipBlanks_append hbs, skipBlanks_cons hc]

/-- There is fuel for a first step. -/
theorem exists_succ_of_length {c : Char} {cs : List Char} {fuel : Nat}
    (h : 2 * (c :: cs).length ≤ fuel) : ∃ f, fuel = f + 1 := by
  rw [List.length_cons] at h
  exact Nat.exists_eq_add_one.mpr (by omega)

theorem readsBack_of_number {j : Json} {c : Char} {cs : List Char} (hc : c.isDigit ∨ c = '-')
    (hrender : ∀ depth, renderAt l depth j = c :: cs)
    (hread : ∀ rest, Ends rest → readNumber (c :: cs ++ rest) = some (j, rest)) :
    ReadsBack l j := by
  intro depth bs rest fuel hbs hrest hfuel
  rw [hrender] at hfuel ⊢
  obtain ⟨f, rfl⟩ := exists_succ_of_length hfuel
  have hne {d : Char} (hd : ¬ (d.isDigit ∨ d = '-')) : c ≠ d := fun heq => hd (heq ▸ hc)
  rw [readValue, List.cons_append, skipBlanks_token hbs (not_blank_of_number hc).1]
  split
  · exact absurd (List.cons.inj ‹_›).1 (hne (by decide))
  · exact absurd (List.cons.inj ‹_›).1 (hne (by decide))
  · exact absurd (List.cons.inj ‹_›).1 (hne (by decide))
  · exact absurd (List.cons.inj ‹_›).1 (hne (by decide))
  · exact absurd (List.cons.inj ‹_›).1 (hne (by decide))
  · exact absurd (List.cons.inj ‹_›).1 (hne (by decide))
  · exact hread rest hrest

theorem readsBack_null : ReadsBack l .null := by
  intro depth bs rest fuel hbs hrest hfuel
  obtain ⟨f, rfl⟩ := exists_succ_of_length hfuel
  rw [readValue, renderAt, List.cons_append, skipBlanks_token hbs rfl]
  rfl

theorem readsBack_flag (b : Bool) : ReadsBack l (.flag b) := by
  intro depth bs rest fuel hbs hrest hfuel
  cases b with
  | true =>
    obtain ⟨f, rfl⟩ := exists_succ_of_length hfuel
    rw [readValue, renderAt, List.cons_append, skipBlanks_token hbs rfl]
    rfl
  | false =>
    obtain ⟨f, rfl⟩ := exists_succ_of_length hfuel
    rw [readValue, renderAt, List.cons_append, skipBlanks_token hbs rfl]
    rfl

theorem readsBack_text (s : Option String) : ReadsBack l (.text s) := by
  intro depth bs rest fuel hbs hrest hfuel
  obtain ⟨cs, hcs⟩ := exists_quote? s
  have hread : readText (cs ++ rest) = some (s, rest) :=
    readText_quote? (by rw [hcs, List.cons_append])
  rw [renderAt, hcs] at hfuel ⊢
  obtain ⟨f, rfl⟩ := exists_succ_of_length hfuel
  rw [readValue, List.cons_append, skipBlanks_token hbs rfl]
  simp only [hread, Option.map_some]

/-! ## Items and members -/

/-- What follows an item: another one after a comma, or the closing bracket. -/
theorem ends_renderItems (depth : Nat) (items : List Json) {bs rest : List Char}
    (hbs : ∀ c ∈ bs, isBlank c = true) :
    Ends (renderItems l depth items ++ (bs ++ ']' :: rest)) := by
  cases items with
  | nil =>
    rw [renderItems, List.nil_append]
    exact .append hbs (ends_cons (by decide) _)
  | cons item items =>
    rw [renderItems, List.cons_append]
    exact ends_cons (by decide) _

theorem ends_renderMembers (depth : Nat) (members : List (Option String × Json))
    {bs rest : List Char} (hbs : ∀ c ∈ bs, isBlank c = true) :
    Ends (renderMembers l depth members ++ (bs ++ '}' :: rest)) := by
  cases members with
  | nil =>
    rw [renderMembers, List.nil_append]
    exact .append hbs (ends_cons (by decide) _)
  | cons m members =>
    rw [renderMembers, List.cons_append]
    exact ends_cons (by decide) _

/-- Items are read up to the closing bracket. -/
theorem readItems_renderItems (hl : l.IsBlank) {item : Json} {items : List Json}
    (h : ReadsBack l item) (hitems : ∀ j ∈ items, ReadsBack l j) {depth : Nat}
    {before after rest : List Char} (hbefore : ∀ c ∈ before, isBlank c = true)
    (hafter : ∀ c ∈ after, isBlank c = true) {fuel : Nat}
    (hfuel : 2 * ((renderAt l depth item).length + (renderItems l depth items).length) + 1 ≤ fuel) :
    readItems fuel (before ++ (renderAt l depth item ++
      (renderItems l depth items ++ (after ++ ']' :: rest)))) = some (item :: items, rest) := by
  induction items generalizing item before fuel with
  | nil =>
    obtain ⟨f, rfl⟩ := Nat.exists_eq_add_one.mpr (show 0 < fuel by omega)
    rw [readItems, h depth before _ f hbefore (ends_renderItems depth [] hafter) (by omega),
      renderItems, List.nil_append]
    simp only [skipBlanks_token hafter (show isBlank ']' = false from rfl)]
  | cons next items ih =>
    obtain ⟨f, rfl⟩ := Nat.exists_eq_add_one.mpr (show 0 < fuel by omega)
    rw [List.forall_mem_cons] at hitems
    have hlength : 2 * ((renderAt l depth next).length + (renderItems l depth items).length) + 1 ≤
        f := by
      rw [renderItems, List.length_cons] at hfuel
      simp only [List.length_append] at hfuel
      omega
    have hrest := ih hitems.1 hitems.2 (hl.lineBreak depth) hlength
    have hends : Ends (renderItems l depth (next :: items) ++ (after ++ ']' :: rest)) :=
      ends_renderItems depth _ hafter
    rw [readItems, h depth before _ f hbefore hends (by omega), renderItems, List.cons_append]
    simp only [skipBlanks_cons (show isBlank ',' = false from rfl), List.append_assoc, hrest,
      Option.map_some]

/-- A key is read with the colon after it. -/
theorem readKey_quote? {key : Option String} {before rest : List Char}
    (hbefore : ∀ c ∈ before, isBlank c = true) :
    readKey (before ++ (quote? key ++ ':' :: rest)) = some (key, rest) := by
  obtain ⟨cs, hcs⟩ := exists_quote? key
  have hread : readText (cs ++ ':' :: rest) = some (key, ':' :: rest) :=
    readText_quote? (by rw [hcs, List.cons_append])
  rw [readKey, hcs, List.cons_append, skipBlanks_token hbefore rfl]
  simp only [hread, skipBlanks_cons (show isBlank ':' = false from rfl)]

/-- Members are read up to the closing brace. -/
theorem readMembers_renderMembers (hl : l.IsBlank) {key : Option String} {value : Json}
    {members : List (Option String × Json)} (h : ReadsBack l value)
    (hmembers : ∀ m ∈ members, ReadsBack l m.2) {depth : Nat} {before after rest : List Char}
    (hbefore : ∀ c ∈ before, isBlank c = true) (hafter : ∀ c ∈ after, isBlank c = true) {fuel : Nat}
    (hfuel : 2 * ((renderAt l depth value).length + (renderMembers l depth members).length) + 1 ≤
      fuel) :
    readMembers fuel (before ++ (quote? key ++ (l.colon ++ (renderAt l depth value ++
      (renderMembers l depth members ++ (after ++ '}' :: rest)))))) =
        some ((key, value) :: members, rest) := by
  obtain ⟨bs, hcolon, hbs⟩ := hl.colon
  induction members generalizing key value before fuel with
  | nil =>
    obtain ⟨f, rfl⟩ := Nat.exists_eq_add_one.mpr (show 0 < fuel by omega)
    rw [hcolon, List.cons_append, readMembers, readKey_quote? hbefore]
    simp only [h depth bs _ f hbs (ends_renderMembers depth [] hafter) (by omega)]
    rw [renderMembers, List.nil_append]
    simp only [skipBlanks_token hafter (show isBlank '}' = false from rfl)]
  | cons next members ih =>
    obtain ⟨nextKey, nextValue⟩ := next
    obtain ⟨f, rfl⟩ := Nat.exists_eq_add_one.mpr (show 0 < fuel by omega)
    rw [List.forall_mem_cons] at hmembers
    have hlength : 2 * ((renderAt l depth nextValue).length +
        (renderMembers l depth members).length) + 1 ≤ f := by
      rw [renderMembers, List.length_cons] at hfuel
      simp only [List.length_append] at hfuel
      omega
    have hrest : readMembers f (l.lineBreak depth ++ (quote? nextKey ++ (l.colon ++
        (renderAt l depth nextValue ++ (renderMembers l depth members ++ (after ++ '}' :: rest)))))) =
          some ((nextKey, nextValue) :: members, rest) :=
      ih hmembers.1 hmembers.2 (hl.lineBreak depth) hlength
    have hends : Ends (renderMembers l depth ((nextKey, nextValue) :: members) ++
        (after ++ '}' :: rest)) := ends_renderMembers depth _ hafter
    rw [hcolon, List.cons_append, readMembers, readKey_quote? hbefore]
    simp only [h depth bs _ f hbs hends (by omega)]
    rw [renderMembers, List.cons_append]
    simp only [skipBlanks_cons (show isBlank ',' = false from rfl), List.append_assoc, hrest,
      Option.map_some]

/-! ## Whole texts -/

theorem readsBack_array (hl : l.IsBlank) {items : List Json} (h : ∀ j ∈ items, ReadsBack l j) :
    ReadsBack l (.array items) := by
  intro depth bs rest fuel hbs hrest hfuel
  cases items with
  | nil =>
    obtain ⟨f, rfl⟩ := exists_succ_of_length hfuel
    rw [readValue, renderAt, List.cons_append, skipBlanks_token hbs rfl]
    rfl
  | cons item items =>
    rw [List.forall_mem_cons] at h
    rw [renderAt] at hfuel ⊢
    obtain ⟨f, rfl⟩ := exists_succ_of_length hfuel
    obtain ⟨c, cs, hcs, hblank, hopen⟩ := exists_renderAt l (depth + 1) item
    have hlength : 2 * ((renderAt l (depth + 1) item).length +
        (renderItems l (depth + 1) items).length) + 1 ≤ f := by
      simp only [List.length_cons, List.length_append] at hfuel
      omega
    have hread : readItems f ([] ++ (renderAt l (depth + 1) item ++
        (renderItems l (depth + 1) items ++ (l.lineBreak depth ++ ']' :: rest)))) =
          some (item :: items, rest) :=
      readItems_renderItems hl h.1 h.2 (List.forall_mem_nil _) (hl.lineBreak depth) hlength
    rw [hcs, List.nil_append, List.cons_append] at hread
    rw [readValue, List.cons_append, skipBlanks_token hbs rfl]
    simp only [List.append_assoc, skipBlanks_append (hl.lineBreak (depth + 1)), hcs,
      List.cons_append, skipBlanks_cons hblank]
    split
    · exact absurd (List.cons.inj ‹_›).1 hopen
    · rw [List.nil_append, hread, Option.map_some]

theorem readsBack_object (hl : l.IsBlank) {members : List (Option String × Json)}
    (h : ∀ m ∈ members, ReadsBack l m.2) : ReadsBack l (.object members) := by
  intro depth bs rest fuel hbs hrest hfuel
  cases members with
  | nil =>
    obtain ⟨f, rfl⟩ := exists_succ_of_length hfuel
    rw [readValue, renderAt, List.cons_append, skipBlanks_token hbs rfl]
    rfl
  | cons m members =>
    obtain ⟨key, value⟩ := m
    rw [List.forall_mem_cons] at h
    rw [renderAt] at hfuel ⊢
    obtain ⟨f, rfl⟩ := exists_succ_of_length hfuel
    obtain ⟨cs, hcs⟩ := exists_quote? key
    have hlength : 2 * ((renderAt l (depth + 1) value).length +
        (renderMembers l (depth + 1) members).length) + 1 ≤ f := by
      simp only [List.length_cons, List.length_append] at hfuel
      omega
    have hread : readMembers f ([] ++ (quote? key ++ (l.colon ++ (renderAt l (depth + 1) value ++
        (renderMembers l (depth + 1) members ++ (l.lineBreak depth ++ '}' :: rest)))))) =
          some ((key, value) :: members, rest) :=
      readMembers_renderMembers hl h.1 h.2 (List.forall_mem_nil _) (hl.lineBreak depth) hlength
    rw [hcs, List.nil_append, List.cons_append] at hread
    rw [readValue, List.cons_append, skipBlanks_token hbs rfl]
    simp only [List.append_assoc, skipBlanks_append (hl.lineBreak (depth + 1)), hcs,
      List.cons_append, skipBlanks_cons (show isBlank '"' = false from rfl)]
    split
    · cases (List.cons.inj ‹_›).1
    · rw [List.nil_append, hread, Option.map_some]

/-- **A printed value is read in front of any rest.** -/
theorem readsBack (hl : l.IsBlank) (j : Json) : ReadsBack l j := by
  induction j using value_induction with
  | null => exact readsBack_null
  | flag b => exact readsBack_flag b
  | integer n =>
    obtain ⟨c, cs, hcs, hc⟩ := exists_digits n
    have hrender : ∀ depth, renderAt l depth (integer n) = c :: cs := fun _ => hcs
    apply readsBack_of_number hc hrender
    intro rest hrest
    rw [← hcs]
    exact readNumber_digits hrest
  | real => exact readsBack_of_number (.inr rfl) (fun _ => rfl) fun rest => readNumber_real
  | text s => exact readsBack_text s
  | array items ih => exact readsBack_array hl ih
  | object members ih => exact readsBack_object hl ih

/-- **A printed text is parsed back to its value.** -/
theorem parse_render (hl : l.IsBlank) (j : Json) : parse (j.render l) = some j := by
  have hread := readsBack hl j 0 [] [] (2 * (renderAt l 0 j).length + 2) (List.forall_mem_nil _)
    ends_nil (by omega)
  rw [List.nil_append, List.append_nil] at hread
  simp only [parse, render, String.toList_ofList, hread]
  rfl

end Json

end BpmnModel
