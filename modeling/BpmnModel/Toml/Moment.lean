import BpmnModel.Digit

/-!
# Dates and times in TOML

`isMoment` tells whether a whole word is a date of the Gregorian calendar, a time of day, or both with
an offset from universal time or without. Seconds may be left out, and only they have fractions.

Each `skip` function takes what is left of the word and gives what is left after the part that it
names.
-/

namespace BpmnModel

namespace Toml

/-- Whether February has a leap day: every fourth year, but of the centuries only every fourth. -/
def isLeapYear (year : Nat) : Bool :=
  year % 4 = 0 && (year % 100 ≠ 0 || year % 400 = 0)

/-- How many days a month has. -/
def daysInMonth (year month : Nat) : Nat :=
  if month = 2 then if isLeapYear year then 29 else 28
  else if month ∈ [4, 6, 9, 11] then 30
  else 31

/-- A number of so many decimal digits, and what is left after it. -/
def readFixed (width : Nat) (cs : List Char) : Option (Nat × List Char) :=
  if width ≤ cs.length then (Digit.number? 10 (cs.take width)).map (·, cs.drop width) else none

/-- What is left after a date. -/
def skipDate (cs : List Char) : Option (List Char) :=
  match readFixed 4 cs with
  | some (year, '-' :: rest) =>
    match readFixed 2 rest with
    | some (month, '-' :: rest) =>
      match readFixed 2 rest with
      | some (day, rest) =>
        if 1 ≤ month ∧ month ≤ 12 ∧ 1 ≤ day ∧ day ≤ daysInMonth year month then some rest else none
      | none => none
    | _ => none
  | _ => none

/-- What is left after hours and minutes. -/
def skipClock (cs : List Char) : Option (List Char) :=
  match readFixed 2 cs with
  | some (hour, ':' :: rest) =>
    match readFixed 2 rest with
    | some (minute, rest) => if hour < 24 ∧ minute < 60 then some rest else none
    | none => none
  | _ => none

/-- What is left after a fraction of a second, if there is one. -/
def skipFraction : List Char → Option (List Char)
  | '.' :: c :: rest => if c.isDigit then some (rest.dropWhile Char.isDigit) else none
  | cs => some cs

/-- What is left after seconds, if there are any. There may be a leap second. -/
def skipSeconds : List Char → Option (List Char)
  | ':' :: rest =>
    match readFixed 2 rest with
    | some (second, rest) => if second ≤ 60 then skipFraction rest else none
    | none => none
  | cs => some cs

/-- What is left after a time of day. -/
def skipTime (cs : List Char) : Option (List Char) :=
  (skipClock cs).bind skipSeconds

/-- What is left after an offset from universal time, if there is one. -/
def skipOffset : List Char → Option (List Char)
  | 'Z' :: rest => some rest
  | 'z' :: rest => some rest
  | '+' :: rest => skipClock rest
  | '-' :: rest => skipClock rest
  | cs => some cs

/-- Whether a whole word is a date, a time of day or both. -/
def isMoment (word : List Char) : Bool :=
  match skipDate word with
  | some [] => true
  | some (c :: rest) =>
    (c = 'T' || c = 't' || c = ' ') && decide ((skipTime rest).bind skipOffset = some [])
  | none => decide (skipTime word = some [])

end Toml

end BpmnModel
