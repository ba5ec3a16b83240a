/-!
# Blanks, comments and line breaks in TOML

What may stand between the parts of a document. A line ends with a line feed, alone or after a
carriage return, or with the document; a carriage return alone ends nothing.

Each function takes what is left of the text and gives what is left after the part that it names.
-/

namespace BpmnModel

namespace Toml

/-- Blanks inside a line. -/
def isBlank (c : Char) : Bool :=
  c = ' ' || c = '\t'

/-- Whether a character may stand in comments and strings as itself: all but the control characters,
of which only the tab may. -/
def isPlain (c : Char) : Bool :=
  c = '\t' || (32 ≤ c.toNat && c.toNat ≠ 127)

/-- What is left after blanks. -/
def skipBlanks (cs : List Char) : List Char :=
  cs.dropWhile isBlank

/-- What is left after blanks and a comment. -/
def skipComment (cs : List Char) : List Char :=
  match skipBlanks cs with
  | '#' :: rest => rest.dropWhile isPlain
  | rest => rest

/-- What is left after a line break, which has to be there. -/
def skipBreak? : List Char → Option (List Char)
  | '\n' :: rest => some rest
  | '\r' :: '\n' :: rest => some rest
  | _ => none

/-- What is left after a line break, if there is one. -/
def skipBreak (cs : List Char) : List Char :=
  (skipBreak? cs).getD cs

/-- What is left after the rest of a line that has nothing but blanks and a comment on it. -/
def skipLine? (cs : List Char) : Option (List Char) :=
  match skipComment cs with
  | [] => some []
  | rest => skipBreak? rest

/-- What is left after blanks and line breaks. -/
def skipSpace : List Char → List Char
  | [] => []
  | '\r' :: '\n' :: rest => skipSpace rest
  | c :: rest => if isBlank c || c = '\n' then skipSpace rest else c :: rest

/-- What is left after blanks, comments and line breaks, where the text begins inside a comment or
not. -/
def skipLines (inComment : Bool) : List Char → List Char
  | [] => []
  | '\r' :: '\n' :: rest => skipLines false rest
  | '\n' :: rest => skipLines false rest
  | c :: rest =>
    if inComment then if isPlain c then skipLines true rest else c :: rest
    else if c = '#' then skipLines true rest
    else if isBlank c then skipLines false rest
    else c :: rest

end Toml

end BpmnModel
