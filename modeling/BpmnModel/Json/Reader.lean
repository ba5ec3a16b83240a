import BpmnModel.Digit
import BpmnModel.Json.Basic

/-!
# Reading JSON

`Json.parse` reads a text that is one JSON value between blanks, by the strict grammar: no comments,
no trailing commas, no raw control characters in strings, no leading zeros. Nesting is not limited
here.

Each reader takes what is left of the text and gives a value with what is left after it.
-/

namespace BpmnModel

namespace Json

/-- The blanks that may stand between tokens. -/
def isBlank (c : Char) : Bool :=
  c = ' ' || c = '\n' || c = '\r' || c = '\t'

/-- What is left after blanks. -/
def skipBlanks (cs : List Char) : List Char :=
  cs.dropWhile isBlank

/-- A piece of a string: a character, or a 16-bit unit that was spelled by its number. -/
inductive Piece where
  | char (c : Char)
  | unit (n : Nat)

/-- The character that a single letter after a backslash stands for. -/
def unescape? (c : Char) : Option Char :=
  match c with
  | '"' => some '"'
  | '\\' => some '\\'
  | '/' => some '/'
  | 'b' => some '\x08'
  | 'f' => some '\x0c'
  | 'n' => some '\n'
  | 'r' => some '\r'
  | 't' => some '\t'
  | _ => none

/-- Reads a string after its opening quote, up to and including the closing one. The pieces read so
far are in `done`, last one first. -/
def readPieces (done : List Piece) : List Char → Option (List Piece × List Char)
  | [] => none
  | '"' :: rest => some (done.reverse, rest)
  | '\\' :: 'u' :: a :: b :: c :: d :: rest =>
    match Digit.number? 16 [a, b, c, d] with
    | some n => readPieces (.unit n :: done) rest
    | none => none
  | '\\' :: c :: rest =>
    match unescape? c with
    | some c => readPieces (.char c :: done) rest
    | none => none
  | c :: rest => if c.toNat < 32 ∨ c = '\\' then none else readPieces (.char c :: done) rest

/-- The text that pieces denote: numbered units are characters, or pairs of surrogates that make
one. There is none if a surrogate stands alone. -/
def joinPieces : List Piece → Option (List Char)
  | [] => some []
  | .char c :: rest => (joinPieces rest).map (c :: ·)
  | .unit high :: rest =>
    if 0xD800 ≤ high ∧ high < 0xDC00 then
      match rest with
      | .unit low :: rest =>
        if 0xDC00 ≤ low ∧ low < 0xE000 then
          (joinPieces rest).map
            (Char.ofNat (0x10000 + (high - 0xD800) * 0x400 + (low - 0xDC00)) :: ·)
        else none
      | _ => none
    else if 0xDC00 ≤ high ∧ high < 0xE000 then none
    else (joinPieces rest).map (Char.ofNat high :: ·)

/-- Reads a string after its opening quote. -/
def readText (cs : List Char) : Option (Option String × List Char) :=
  (readPieces [] cs).map fun (pieces, rest) => ((joinPieces pieces).map String.ofList, rest)

/-- What is left after at least one digit. -/
def skipDigits1 (cs : List Char) : Option (List Char) :=
  match cs with
  | [] => none
  | c :: rest => if c.isDigit then some (rest.dropWhile Char.isDigit) else none

/-- What is left after the fraction of a number, if one is there, and whether it is. -/
def skipFraction : List Char → Option (Bool × List Char)
  | '.' :: rest => (skipDigits1 rest).map (true, ·)
  | cs => some (false, cs)

/-- What is left after a sign, if one is there. -/
def skipSign : List Char → List Char
  | '+' :: rest => rest
  | '-' :: rest => rest
  | cs => cs

/-- What is left after the exponent of a number, if one is there, and whether it is. -/
def skipExponent : List Char → Option (Bool × List Char)
  | 'e' :: rest => (skipDigits1 (skipSign rest)).map (true, ·)
  | 'E' :: rest => (skipDigits1 (skipSign rest)).map (true, ·)
  | cs => some (false, cs)

/-- Reads a number after its sign. -/
def readUnsigned (negative : Bool) (cs : List Char) : Option (Json × List Char) :=
  let ds := cs.takeWhile Char.isDigit
  let finish (n : Nat) : Option (Json × List Char) :=
    match skipFraction (cs.dropWhile Char.isDigit) with
    | none => none
    | some (fraction, rest) =>
      match skipExponent rest with
      | none => none
      | some (exponent, rest) =>
        if fraction || exponent || (negative && n == 0) then some (real, rest)
        else some (integer (if negative then -(n : Int) else n), rest)
  match ds with
  | [] => none
  | '0' :: _ :: _ => none
  | ds => (Digit.number? 10 ds).bind finish

/-- Reads a number. -/
def readNumber : List Char → Option (Json × List Char)
  | '-' :: rest => readUnsigned true rest
  | cs => readUnsigned false cs

/-- Reads a key and the colon after it, from the opening quote on. -/
def readKey (cs : List Char) : Option (Option String × List Char) :=
  match skipBlanks cs with
  | '"' :: rest =>
    match readText rest with
    | none => none
    | some (key, rest) =>
      match skipBlanks rest with
      | ':' :: rest => some (key, rest)
      | _ => none
  | _ => none

mutual

/-- Reads a value, blanks before it included. -/
def readValue : (fuel : Nat) → List Char → Option (Json × List Char)
  | 0, _ => none
  | fuel + 1, cs =>
    match skipBlanks cs with
    | 'n' :: 'u' :: 'l' :: 'l' :: rest => some (null, rest)
    | 't' :: 'r' :: 'u' :: 'e' :: rest => some (flag true, rest)
    | 'f' :: 'a' :: 'l' :: 's' :: 'e' :: rest => some (flag false, rest)
    | '"' :: rest => (readText rest).map fun (s, rest) => (text s, rest)
    | '[' :: rest =>
      match skipBlanks rest with
      | ']' :: rest => some (array [], rest)
      | rest => (readItems fuel rest).map fun (items, rest) => (array items, rest)
    | '{' :: rest =>
      match skipBlanks rest with
      | '}' :: rest => some (object [], rest)
      | rest => (readMembers fuel rest).map fun (members, rest) => (object members, rest)
    | rest => readNumber rest

/-- Reads items up to and including the closing bracket. -/
def readItems : (fuel : Nat) → List Char → Option (List Json × List Char)
  | 0, _ => none
  | fuel + 1, cs =>
    match readValue fuel cs with
    | none => none
    | some (item, rest) =>
      match skipBlanks rest with
      | ',' :: rest => (readItems fuel rest).map fun (items, rest) => (item :: items, rest)
      | ']' :: rest => some ([item], rest)
      | _ => none

/-- Reads members up to and including the closing brace. -/
def readMembers : (fuel : Nat) → List Char → Option (List (Option String × Json) × List Char)
  | 0, _ => none
  | fuel + 1, cs =>
    match readKey cs with
    | none => none
    | some (key, rest) =>
      match readValue fuel rest with
      | none => none
      | some (value, rest) =>
        match skipBlanks rest with
        | ',' :: rest =>
          (readMembers fuel rest).map fun (members, rest) => ((key, value) :: members, rest)
        | '}' :: rest => some ([(key, value)], rest)
        | _ => none

end

/-- The value that a whole text denotes. Two steps for each character are enough. -/
def parse (s : String) : Option Json :=
  let cs := s.toList
  match readValue (2 * cs.length + 2) cs with
  | none => none
  | some (json, rest) => if (skipBlanks rest).isEmpty then some json else none

end Json

end BpmnModel
