/-!
# Digits

* `Digit.value?` — what a digit stands for, in a base of at most sixteen.
* `Digit.number?` — the number that digits spell.
-/

namespace BpmnModel

namespace Digit

/-- The value of a digit. Letters of either case stand for ten and more. -/
def value? (base : Nat) (c : Char) : Option Nat :=
  let value :=
    if '0' ≤ c ∧ c ≤ '9' then c.toNat - 48
    else if 'a' ≤ c ∧ c ≤ 'f' then c.toNat - 87
    else if 'A' ≤ c ∧ c ≤ 'F' then c.toNat - 55
    else base
  if value < base then some value else none

/-- The number with these digits, the most significant one first. -/
def ofValues (base : Nat) (values : List Nat) : Nat :=
  values.foldl (fun n value => base * n + value) 0

/-- The number that a text of nothing but digits spells. -/
def number? (base : Nat) (cs : List Char) : Option Nat :=
  (cs.mapM (value? base)).map (ofValues base)

end Digit

end BpmnModel
