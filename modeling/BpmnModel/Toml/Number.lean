import BpmnModel.Digit

/-!
# Numbers in TOML

`Number.ofWord?` reads a whole word as a number: an integer, decimal with a sign or of another base
without one, a decimal fraction, infinity or not a number. Digits may have single underscores between
them.

`Number.fits` tells which numbers can be held: integers of 128 bits, signed or not, and fractions
that round to a finite binary number of 64 bits.
-/

namespace BpmnModel

namespace Toml

/-- A number, the sign of fractions aside. -/
inductive Number where
  | integer (value : Int)
  /-- A coefficient times a power of ten. -/
  | decimal (coefficient : Nat) (exponent : Int)
  | infinite
  | notANumber
deriving DecidableEq, Repr

/-- The values of digits, at least one, with single underscores between some of them. -/
def digits? (base : Nat) : List Char → Option (List Nat)
  | [] => none
  | [c] => (Digit.value? base c).map fun d => [d]
  | c :: '_' :: rest =>
    match Digit.value? base c, digits? base rest with
    | some d, some ds => some (d :: ds)
    | _, _ => none
  | c :: rest =>
    match Digit.value? base c, digits? base rest with
    | some d, some ds => some (d :: ds)
    | _, _ => none

/-- The values of decimal digits without a zero in front of others. -/
def wholeDigits? (cs : List Char) : Option (List Nat) :=
  match digits? 10 cs with
  | some (0 :: _ :: _) => none
  | ds => ds

/-- Whether a word begins with a minus, and what is left of it after its sign. -/
def splitSign : List Char → Bool × List Char
  | '-' :: rest => (true, rest)
  | '+' :: rest => (false, rest)
  | cs => (false, cs)

/-- A number and whether a minus stands in front of it. -/
def signed (negative : Bool) (n : Nat) : Int :=
  if negative then -n else n

/-- Whether a character may stand in decimal digits. -/
def isDigitPart (c : Char) : Bool :=
  c.isDigit || c = '_'

namespace Number

/-- Reads the digits after a point, if there is one. -/
def readFraction : List Char → Option (Option (List Nat) × List Char)
  | '.' :: rest =>
    (digits? 10 (rest.takeWhile isDigitPart)).map fun ds => (some ds, rest.dropWhile isDigitPart)
  | cs => some (none, cs)

/-- Reads an exponent that goes on to the end of the word, if there is one. -/
def exponent? : List Char → Option (Option Int)
  | [] => some none
  | c :: rest =>
    if c = 'e' ∨ c = 'E' then
      let (negative, ds) := splitSign rest
      (digits? 10 ds).map fun ds => some (signed negative (Digit.ofValues 10 ds))
    else none

/-- Reads a word after its sign as decimal digits, with a fraction and an exponent or without. -/
def ofDecimal? (negative : Bool) (cs : List Char) : Option Number := do
  let whole ← wholeDigits? (cs.takeWhile isDigitPart)
  let (places, rest) ← readFraction (cs.dropWhile isDigitPart)
  let exponent ← exponent? rest
  if places.isNone && exponent.isNone then
    return integer (signed negative (Digit.ofValues 10 whole))
  else
    let places := places.getD []
    return decimal (Digit.ofValues 10 (whole ++ places)) (exponent.getD 0 - places.length)

/-- Reads a whole word as a number. -/
def ofWord? (word : List Char) : Option Number :=
  match word with
  | '0' :: 'x' :: ds => (digits? 16 ds).map fun ds => integer (Digit.ofValues 16 ds)
  | '0' :: 'o' :: ds => (digits? 8 ds).map fun ds => integer (Digit.ofValues 8 ds)
  | '0' :: 'b' :: ds => (digits? 2 ds).map fun ds => integer (Digit.ofValues 2 ds)
  | word =>
    let (negative, cs) := splitSign word
    if cs = ['i', 'n', 'f'] then some infinite
    else if cs = ['n', 'a', 'n'] then some notANumber
    else ofDecimal? negative cs

/-- The least number that does not round to a finite one with 53 binary digits below `2 ^ 1024`: it is
half-way from the largest of those to `2 ^ 1024`. -/
def tooLarge : Nat := Nat.pow 2 1024 - Nat.pow 2 970

/-- Whether a coefficient times a power of ten is below the least number that is too large. An exponent
that is far from settling that is not worked out. -/
def isFinite (coefficient : Nat) : (exponent : Int) → Bool
  | .ofNat e => coefficient = 0 || (e < 400 && coefficient * Nat.pow 10 e < tooLarge)
  | .negSucc e =>
    coefficient.log2 < 3 * (e + 1) || coefficient < tooLarge * Nat.pow 10 (e + 1)

/-- Whether a number can be held. -/
def fits : Number → Bool
  | integer n => -(Nat.pow 2 127 : Int) ≤ n && n < (Nat.pow 2 128 : Int)
  | decimal coefficient exponent => isFinite coefficient exponent
  | infinite | notANumber => true

end Number

end Toml

end BpmnModel
