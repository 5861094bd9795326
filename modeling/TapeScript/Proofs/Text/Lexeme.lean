import Mathlib.Data.List.TakeWhile

/-! Texts made of numbers and single marks. If no two numbers follow each other, the text determines them: a
number ends where its digits do. -/
namespace TapeScript

/-- The marks in the readable text of a stream. -/
inductive Mark where
  | plus | minus | greater | less | openBracket | closeBracket | dot | comma
  | atSign | question | equals | slash | openBrace | closeBrace | space
  deriving DecidableEq, Repr

def Mark.char : Mark → Char
  | plus => '+'
  | minus => '-'
  | greater => '>'
  | less => '<'
  | openBracket => '['
  | closeBracket => ']'
  | dot => '.'
  | comma => ','
  | atSign => '@'
  | question => '?'
  | equals => '='
  | slash => '/'
  | openBrace => '\x7b'
  | closeBrace => '\x7d'
  | space => ' '

inductive Lexeme where
  | number (n : Nat)
  | symbol (mark : Mark)
  deriving DecidableEq, Repr

namespace Lexeme

def characters : Lexeme → List Char
  | number n => Nat.toDigits 10 n
  | symbol mark => [mark.char]

/-- The text of lexemes one after the other. -/
def spell (lexemes : List Lexeme) : List Char := lexemes.flatMap characters

@[simp] theorem spell_nil : spell [] = [] := rfl

@[simp] theorem spell_number (n : Nat) (lexemes : List Lexeme) :
    spell (number n :: lexemes) = Nat.toDigits 10 n ++ spell lexemes := rfl

@[simp] theorem spell_symbol (mark : Mark) (lexemes : List Lexeme) :
    spell (symbol mark :: lexemes) = mark.char :: spell lexemes := rfl

@[simp] theorem spell_append (lexemes others : List Lexeme) :
    spell (lexemes ++ others) = spell lexemes ++ spell others := List.flatMap_append

/-- No number comes first. -/
def Clear : List Lexeme → Prop
  | number _ :: _ => False
  | _ => True

/-- No number comes right after another. -/
def Separated : List Lexeme → Prop
  | [] => True
  | number _ :: lexemes => Clear lexemes ∧ Separated lexemes
  | symbol _ :: lexemes => Separated lexemes

/-- The inverse of a mark's character. -/
private def ofChar : Char → Option Mark
  | '+' => some .plus
  | '-' => some .minus
  | '>' => some .greater
  | '<' => some .less
  | '[' => some .openBracket
  | ']' => some .closeBracket
  | '.' => some .dot
  | ',' => some .comma
  | '@' => some .atSign
  | '?' => some .question
  | '=' => some .equals
  | '/' => some .slash
  | '\x7b' => some .openBrace
  | '\x7d' => some .closeBrace
  | ' ' => some .space
  | _ => none

private theorem ofChar_char (mark : Mark) : ofChar mark.char = some mark := by cases mark <;> rfl

theorem char_injective {first second : Mark} (same : first.char = second.char) : first = second := by
  have marks := congrArg ofChar same
  rwa [ofChar_char, ofChar_char, Option.some.injEq] at marks

theorem not_digit (mark : Mark) : mark.char.isDigit = false := by cases mark <;> rfl

variable {lexemes others : List Lexeme}

theorem head_not_digit (clear : Clear lexemes) : ∀ c ∈ (spell lexemes).head?, c.isDigit = false := by
  match lexemes with
  | [] => simp
  | symbol mark :: _ => simp [not_digit]

/-- The digits at the start of a text are those of the number at its start. -/
theorem span_digits (n : Nat) (clear : Clear lexemes) :
    (spell (number n :: lexemes)).takeWhile Char.isDigit = Nat.toDigits 10 n ∧
      (spell (number n :: lexemes)).dropWhile Char.isDigit = spell lexemes := by
  have digits : ∀ c ∈ Nat.toDigits 10 n, c.isDigit = true := fun c member =>
    Nat.isDigit_of_mem_toDigits (by decide) (by decide) member
  have stops : (spell lexemes).takeWhile Char.isDigit = [] ∧
      (spell lexemes).dropWhile Char.isDigit = spell lexemes := by
    have head := head_not_digit clear
    cases text : spell lexemes with
    | nil => exact ⟨rfl, rfl⟩
    | cons c rest =>
      have plain : c.isDigit = false := head c (by simp [text])
      simp [plain]
  rw [spell_number]
  constructor
  · rw [List.takeWhile_append_of_pos digits, stops.1, List.append_nil]
  · rw [List.dropWhile_append_of_pos digits, stops.2]

theorem toDigits_injective {first second : Nat} (same : Nat.toDigits 10 first = Nat.toDigits 10 second) :
    first = second := by
  rw [← Nat.ofDigitChars_ten_toDigits (n := first), same, Nat.ofDigitChars_ten_toDigits]

private theorem number_ne_symbol (n : Nat) (mark : Mark) (lexemes others : List Lexeme) :
    spell (number n :: lexemes) ≠ spell (symbol mark :: others) := by
  intro same
  obtain ⟨digit, digits, split⟩ := List.exists_cons_of_ne_nil (Nat.toDigits_ne_nil (n := n) (b := 10))
  have isDigit : digit.isDigit = true :=
    Nat.isDigit_of_mem_toDigits (b := 10) (n := n) (by decide) (by decide) (by simp [split])
  rw [spell_number, spell_symbol, split] at same
  rw [(List.cons.inj same).1, not_digit] at isDigit
  cases isDigit

/-- Lexemes are read off their text. -/
theorem spell_injective (separated : Separated lexemes) (separatedOther : Separated others)
    (same : spell lexemes = spell others) : lexemes = others := by
  induction lexemes generalizing others with
  | nil =>
    match others with
    | [] => rfl
    | number n :: _ =>
      rw [spell_number] at same
      exact absurd (List.append_eq_nil_iff.mp same.symm).1 Nat.toDigits_ne_nil
    | symbol _ :: _ => cases same
  | cons lexeme lexemes ih =>
    match lexeme, others with
    | number n, [] =>
      rw [spell_number] at same
      exact absurd (List.append_eq_nil_iff.mp same).1 Nat.toDigits_ne_nil
    | symbol _, [] => cases same
    | number n, number m :: others =>
      obtain ⟨digits, rest⟩ := span_digits n separated.1
      obtain ⟨digitsOther, restOther⟩ := span_digits m separatedOther.1
      rw [same] at digits rest
      obtain rfl := toDigits_injective (digits.symm.trans digitsOther)
      rw [ih separated.2 separatedOther.2 (rest.symm.trans restOther)]
    | number n, symbol mark :: others => exact absurd same (number_ne_symbol n mark lexemes others)
    | symbol mark, number n :: others => exact absurd same.symm (number_ne_symbol n mark others lexemes)
    | symbol first, symbol second :: others =>
      rw [spell_symbol, spell_symbol] at same
      obtain ⟨head, tail⟩ := List.cons.inj same
      have rest : Separated others := separatedOther
      rw [char_injective head, ih separated rest tail]

end Lexeme

end TapeScript
