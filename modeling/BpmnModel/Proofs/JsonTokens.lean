import BpmnModel.Json.Reader
import Mathlib.Data.List.TakeWhile

/-!
# Strings and numbers of JSON, printed and read back

A reader gets what was printed in front of any rest and gives the rest back.  A number has to be
told from what follows it (`Json.Ends`).

* `Json.skipBlanks_append` — blanks before a token do not matter.
* `Json.readText_quote?` — strings, also those that denote no text.
* `Json.readNumber_digits` — integers of any size.
-/

namespace BpmnModel

/-! ## Digits -/

namespace Digit

theorem value?_of_isDigit {c : Char} (h : c.isDigit) : value? 10 c = some (c.toNat - 48) := by
  simp only [Char.isDigit, Bool.and_eq_true, decide_eq_true_eq] at h
  have hle : '0' ≤ c ∧ c ≤ '9' := h
  have h9 : c.toNat ≤ 57 := h.2
  rw [value?]
  simp only [hle, and_self, if_true]
  rw [if_pos (by omega)]

theorem number?_of_isDigit {cs : List Char} (h : ∀ c ∈ cs, c.isDigit) :
    number? 10 cs = some (Nat.ofDigitChars 10 cs 0) := by
  have hvalues : cs.mapM (value? 10) = some (cs.map fun c => c.toNat - 48) := by
    induction cs with
    | nil => rfl
    | cons c cs ih =>
      rw [List.forall_mem_cons] at h
      rw [List.mapM_cons, value?_of_isDigit h.1, ih h.2]
      rfl
  rw [number?, hvalues, Option.map_some, ofValues, List.foldl_map, Nat.ofDigitChars_eq_foldl]
  rfl

/-- The digits of a number spell it. -/
theorem number?_toDigits (n : Nat) : number? 10 (Nat.toDigits 10 n) = some n := by
  have hdigits : ∀ c ∈ Nat.toDigits 10 n, c.isDigit := fun c hc =>
    Nat.isDigit_of_mem_toDigits (by decide) (by decide) hc
  rw [number?_of_isDigit hdigits, Nat.ofDigitChars_ten_toDigits]

/-- Only zero is spelled with a zero in front. -/
theorem exists_toDigits {n : Nat} (hn : 0 < n) :
    ∃ c cs, Nat.toDigits 10 n = c :: cs ∧ c ≠ '0' := by
  induction n using Nat.strongRecOn with
  | ind n ih =>
    rw [Nat.toDigits_eq_if (by decide)]
    split
    · rename_i hlt
      have hne : ∀ m < 10, 0 < m → m.digitChar ≠ '0' := by decide
      exact ⟨n.digitChar, [], rfl, hne n hlt hn⟩
    · rename_i hge
      obtain ⟨c, cs, hcs, hne⟩ := ih (n / 10) (by omega) (by omega)
      exact ⟨c, cs ++ [(n % 10).digitChar], by rw [hcs, List.cons_append], hne⟩

theorem toDigits_ne_zero_cons (n : Nat) (c : Char) (cs : List Char) :
    Nat.toDigits 10 n ≠ '0' :: c :: cs := by
  rcases Nat.eq_zero_or_pos n with rfl | hn
  · rw [Nat.toDigits_zero]
    simp
  · obtain ⟨d, ds, hds, hne⟩ := exists_toDigits hn
    rw [hds]
    simp [hne]

end Digit

namespace Json

/-! ## Blanks -/

theorem skipBlanks_append {bs cs : List Char} (h : ∀ c ∈ bs, isBlank c = true) :
    skipBlanks (bs ++ cs) = skipBlanks cs := by
  rw [skipBlanks, List.dropWhile_append_of_pos h, skipBlanks]

theorem skipBlanks_cons {c : Char} (h : isBlank c = false) (cs : List Char) :
    skipBlanks (c :: cs) = c :: cs := by
  rw [skipBlanks, List.dropWhile_cons_of_neg (by simp [h])]

/-! ## Strings -/

/-- How a character is read after it was printed. -/
def piece (c : Char) : Piece :=
  if c.toNat < 32 ∧ c ≠ '\x08' ∧ c ≠ '\x0c' ∧ c ≠ '\n' ∧ c ≠ '\r' ∧ c ≠ '\t' then .unit c.toNat
  else .char c

theorem number?_hexDigit {n : Nat} (h : n < 32) :
    Digit.number? 16 ['0', '0', hexDigit (n / 16), hexDigit (n % 16)] = some n := by
  revert n
  decide

theorem readPieces_escape (done : List Piece) (c : Char) (rest : List Char) :
    readPieces done (escape c ++ rest) = readPieces (piece c :: done) rest := by
  by_cases h₁ : c = '"'
  · subst h₁
    simp [escape, readPieces, unescape?, piece]
  by_cases h₂ : c = '\\'
  · subst h₂
    simp [escape, readPieces, unescape?, piece]
  by_cases h₃ : c = '\x08'
  · subst h₃
    simp [escape, readPieces, unescape?, piece]
  by_cases h₄ : c = '\x0c'
  · subst h₄
    simp [escape, readPieces, unescape?, piece]
  by_cases h₅ : c = '\n'
  · subst h₅
    simp [escape, readPieces, unescape?, piece]
  by_cases h₆ : c = '\r'
  · subst h₆
    simp [escape, readPieces, unescape?, piece]
  by_cases h₇ : c = '\t'
  · subst h₇
    simp [escape, readPieces, unescape?, piece]
  by_cases h : c.toNat < 32
  · simp [escape, readPieces, number?_hexDigit h, piece, *]
  · simp [escape, readPieces, piece, *]

theorem readPieces_escapes (done : List Piece) (cs rest : List Char) :
    readPieces done (cs.flatMap escape ++ '"' :: rest) =
      some (done.reverse ++ cs.map piece, rest) := by
  induction cs generalizing done with
  | nil => simp [readPieces]
  | cons c cs ih =>
    rw [List.flatMap_cons, List.append_assoc, readPieces_escape, ih]
    simp

/-- A unit that is no surrogate is a character by itself. -/
theorem joinPieces_unit {n : Nat} (h : n < 0xD800) (rest : List Piece) :
    joinPieces (.unit n :: rest) = (joinPieces rest).map (Char.ofNat n :: ·) := by
  rw [joinPieces.eq_def]
  simp only
  rw [if_neg (by omega), if_neg (by omega)]

theorem joinPieces_map_piece (cs : List Char) : joinPieces (cs.map piece) = some cs := by
  induction cs with
  | nil => rfl
  | cons c cs ih =>
    rw [List.map_cons, piece]
    split
    · rename_i h
      rw [joinPieces_unit (by omega), ih, Char.ofNat_toNat, Option.map_some]
    · rw [joinPieces, ih, Option.map_some]

theorem readText_quote (s : String) (rest : List Char) :
    readText (s.toList.flatMap escape ++ '"' :: rest) = some (some s, rest) := by
  rw [readText, readPieces_escapes, Option.map_some, List.reverse_nil, List.nil_append]
  simp only [joinPieces_map_piece, Option.map_some, String.ofList_toList]

/-- What follows the opening quote of a printed string. -/
theorem readText_quote? {text : Option String} {rest cs : List Char}
    (h : quote? text ++ rest = '"' :: cs) : readText cs = some (text, rest) := by
  cases text with
  | some s =>
    rw [quote?, quote, List.cons_append, List.cons.injEq] at h
    rw [← h.2, List.append_assoc]
    exact readText_quote s rest
  | none =>
    rw [quote?, List.cons_append, List.cons.injEq] at h
    have hnumber : Digit.number? 16 ['d', '8', '0', '0'] = some 0xD800 := by decide
    have hjoin : joinPieces [.unit 0xD800] = none := by
      rw [joinPieces.eq_def]
      simp
    rw [← h.2]
    simp [readText, readPieces, hnumber, hjoin]

/-! ## Numbers -/

/-- A number may end here. -/
def Ends (rest : List Char) : Prop :=
  ∀ c ∈ rest.head?, c.isDigit = false ∧ c ≠ '.' ∧ c ≠ 'e' ∧ c ≠ 'E'

theorem ends_nil : Ends [] := nofun

theorem Ends.of_blank {c : Char} (h : isBlank c = true) (rest : List Char) : Ends (c :: rest) := by
  rintro d ⟨⟩
  simp only [isBlank, Bool.or_eq_true, decide_eq_true_eq] at h
  rcases h with ((rfl | rfl) | rfl) | rfl <;> decide

namespace Ends

variable {rest : List Char}

theorem takeWhile_eq_nil (h : Ends rest) : rest.takeWhile Char.isDigit = [] := by
  cases rest with
  | nil => rfl
  | cons c cs => rw [List.takeWhile_cons_of_neg (by simp [(h c rfl).1])]

theorem dropWhile_eq_self (h : Ends rest) : rest.dropWhile Char.isDigit = rest := by
  cases rest with
  | nil => rfl
  | cons c cs => rw [List.dropWhile_cons_of_neg (by simp [(h c rfl).1])]

theorem skipFraction_eq (h : Ends rest) : skipFraction rest = some (false, rest) := by
  unfold skipFraction
  split
  · exact absurd rfl (h _ rfl).2.1
  · rfl

theorem skipExponent_eq (h : Ends rest) : skipExponent rest = some (false, rest) := by
  unfold skipExponent
  split
  · exact absurd rfl (h _ rfl).2.2.1
  · exact absurd rfl (h _ rfl).2.2.2
  · rfl

end Ends

theorem readUnsigned_digits {negative : Bool} {n : Nat} {rest : List Char} (hrest : Ends rest) :
    readUnsigned negative (Nat.toDigits 10 n ++ rest) =
      some (if negative && n == 0 then real else integer (if negative then -(n : Int) else n),
        rest) := by
  have hdigits : ∀ c ∈ Nat.toDigits 10 n, c.isDigit := fun c hc =>
    Nat.isDigit_of_mem_toDigits (by decide) (by decide) hc
  have htake : (Nat.toDigits 10 n ++ rest).takeWhile Char.isDigit = Nat.toDigits 10 n := by
    rw [List.takeWhile_append_of_pos hdigits, hrest.takeWhile_eq_nil, List.append_nil]
  have hdrop : (Nat.toDigits 10 n ++ rest).dropWhile Char.isDigit = rest := by
    rw [List.dropWhile_append_of_pos hdigits, hrest.dropWhile_eq_self]
  unfold readUnsigned
  rw [htake, hdrop, hrest.skipFraction_eq]
  simp only [hrest.skipExponent_eq]
  split
  · exact absurd ‹_› Nat.toDigits_ne_nil
  · exact absurd ‹_› (Digit.toDigits_ne_zero_cons n _ _)
  · rw [Digit.number?_toDigits, Option.bind_some]
    simp only [Bool.or_self, Bool.false_or]
    split <;> rfl

theorem readNumber_digits {n : Int} {rest : List Char} (hrest : Ends rest) :
    readNumber (digits n ++ rest) = some (integer n, rest) := by
  unfold digits
  split
  · rename_i hneg
    have hn : -(n.natAbs : Int) = n := by omega
    have hzero : (n.natAbs == 0) = false := beq_false_of_ne (by omega)
    rw [List.cons_append, readNumber, readUnsigned_digits hrest]
    simp only [hzero, Bool.and_false, Bool.false_eq_true, if_false, if_true, hn]
  · rename_i hpos
    have hn : (n.natAbs : Int) = n := by omega
    unfold readNumber
    split
    · rename_i cs hcs
      have hdigit : '-'.isDigit := by
        cases hds : Nat.toDigits 10 n.natAbs with
        | nil => exact absurd hds Nat.toDigits_ne_nil
        | cons d ds =>
          rw [hds, List.cons_append, List.cons.injEq] at hcs
          rw [← hcs.1]
          exact Nat.isDigit_of_mem_toDigits (n := n.natAbs) (b := 10) (by decide) (by decide)
            (hds ▸ List.mem_cons_self)
      cases hdigit
    · rw [readUnsigned_digits hrest]
      simp only [Bool.false_and, Bool.false_eq_true, if_false, hn]

theorem readNumber_real {rest : List Char} (hrest : Ends rest) :
    readNumber ('-' :: '0' :: rest) = some (real, rest) := by
  have h : readUnsigned true (Nat.toDigits 10 0 ++ rest) = some (real, rest) :=
    readUnsigned_digits hrest
  rw [readNumber]
  simpa using h

end Json

end BpmnModel
