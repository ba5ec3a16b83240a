import BpmnModel.ModelError

/-!
# Quantities

* `countOfInt?` — the integers that fit 32 unsigned bits.
* `Quantity` — a number of tokens, at least one; `Quantity.ofInt` is the check. Models `quantity`,
  by which `Activity.new` checks its two quantities.
* `Multiplicity` — how many instances of a participant take part; `Multiplicity.ofInts` is the
  check. Models `ParticipantMultiplicity.new`.
-/

namespace BpmnModel

/-- The integer as a count, if it is neither negative nor above `2 ^ 32 - 1`. -/
def countOfInt? (n : Int) : Option UInt32 :=
  if 0 ≤ n ∧ n < 4294967296 then some (UInt32.ofNat n.toNat) else none

/-- A number of tokens: at least one. -/
structure Quantity where
  count : UInt32
  one_le : 1 ≤ count
deriving DecidableEq

namespace Quantity

/-- One token, the quantity of an activity that names none. -/
def one : Quantity := ⟨1, by decide⟩

/-- Checks a quantity given in `field` of `element`. -/
def ofInt (element : Id) (field : String) (n : Int) : Except ModelError Quantity :=
  if n < 1 then
    .error (.multiplicity element.text field s!"must be at least 1, got {n}")
  else
    match countOfInt? n with
    | none => .error (.multiplicity element.text field s!"{n} is out of range")
    | some count =>
      if h : 1 ≤ count then .ok ⟨count, h⟩
      else .error (.multiplicity element.text field s!"{n} is out of range")

end Quantity

/-- How many instances of a participant take part in an interaction. -/
structure Multiplicity where
  minimum : UInt32
  /-- No maximum means no bound. -/
  maximum : Option UInt32
  one_le_of_maximum : ∀ m ∈ maximum, 1 ≤ m
  minimum_le_of_maximum : ∀ m ∈ maximum, minimum ≤ m
deriving DecidableEq

namespace Multiplicity

private def refuse (field message : String) : Except ModelError Multiplicity :=
  .error (.multiplicity "participantMultiplicity" field message)

/-- A multiplicity without an upper bound. -/
def unbounded (minimum : UInt32) : Multiplicity :=
  ⟨minimum, none, by simp, by simp⟩

/-- Checks the bounds: the minimum first, then the maximum by itself, against the minimum, and for
its size. -/
def ofInts (minimum : Int) (maximum : Option Int) : Except ModelError Multiplicity :=
  match countOfInt? minimum with
  | none => refuse "minimum" s!"must be at least 0, got {minimum}"
  | some least =>
    match maximum with
    | none => .ok (unbounded least)
    | some n =>
      if n < 1 then refuse "maximum" s!"must be at least 1, got {n}"
      else if n < minimum then
        refuse "maximum" s!"must be at least the minimum {minimum}, got {n}"
      else
        match countOfInt? n with
        | none => refuse "maximum" s!"{n} is out of range"
        | some most =>
          if h : 1 ≤ most ∧ least ≤ most then
            .ok ⟨least, some most, by simpa using h.1, by simpa using h.2⟩
          else refuse "maximum" s!"{n} is out of range"

end Multiplicity

end BpmnModel
