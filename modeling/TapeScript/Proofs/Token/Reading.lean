import TapeScript.Proofs.Token.Lexemes

/-! The text of a stream is read back one token at a time. Numbers are read as a whole, and what follows a number or
a sign decides between the forms that begin alike. -/
namespace TapeScript

open Lexeme

namespace Reading

variable {lexemes rest : List Lexeme}

abbrev Reader (α : Type) := List Lexeme → Option (α × List Lexeme)

def readWhole : Reader Int
  | .number n :: rest => some (n, rest)
  | .symbol .minus :: .number n :: rest => some (-n, rest)
  | _ => none

def readSigned : Reader Int
  | .symbol .plus :: .number n :: rest => some (n, rest)
  | .symbol .minus :: .number n :: rest => some (-n, rest)
  | _ => none

/-- What stands behind the offset of a cell. -/
def readChange (offset : Int) : Reader Token
  | .symbol .equals :: .number _ :: rest => some (.clearAt offset, rest)
  | .symbol .question :: .symbol .equals :: .number _ :: rest => some (.condClear offset, rest)
  | .symbol .question :: rest => do
    let (amount, rest) ← readSigned rest
    some (.condAdd offset amount, rest)
  | .symbol .plus :: .symbol .equals :: rest => do
    let (amount, rest) ← readWhole rest
    let (divisor, rest) ← readWhole rest.tail
    some ({ kind := .mulAdd, amount, offset, divisor? := some divisor }, rest)
  | lexemes => do
    let (amount, rest) ← readSigned lexemes
    some ({ kind := .addAt, amount, offset }, rest)

/-- What stands behind a move. -/
def readMoved (shift : Int) : Reader Token
  | .symbol .equals :: .number _ :: rest => some (.moveClear shift, rest)
  | lexemes => do
    let (amount, rest) ← readSigned lexemes
    some (.moveAdd shift amount, rest)

/-- What stands behind a number with a sign. -/
def readStepped (amount : Int) : Reader Token
  | .symbol .greater :: rest => some ({ kind := .addMove, amount, offset := 1 }, rest)
  | .symbol .less :: rest => some ({ kind := .addMove, amount, offset := -1 }, rest)
  | lexemes => readMoved amount lexemes

/-- What stands behind a number without one. -/
def readCounted (n : Nat) : Reader Token
  | .symbol .plus :: .number m :: rest => some (.moveAdd n m, rest)
  | .symbol .minus :: .number m :: rest => some (.moveAdd n (-m), rest)
  | .symbol .plus :: rest => some (.counted .inc n, rest)
  | .symbol .minus :: rest => some (.counted .dec n, rest)
  | .symbol .greater :: rest => some (.counted .right n, rest)
  | .symbol .less :: rest => some (.counted .left n, rest)
  | lexemes => readMoved n lexemes

/-- A token other than a reduced loop. -/
def readToken : Reader Token
  | .symbol .atSign :: rest => do
    let (offset, rest) ← readWhole rest
    readChange offset rest
  | .number n :: rest => readCounted n rest
  | .symbol .plus :: .number n :: rest => readStepped n rest
  | .symbol .minus :: .number n :: rest => readStepped (-n) rest
  | .symbol .plus :: rest => some (.single .inc, rest)
  | .symbol .minus :: rest => some (.single .dec, rest)
  | .symbol .greater :: rest => some (.single .right, rest)
  | .symbol .less :: rest => some (.single .left, rest)
  | .symbol .openBracket :: .symbol .minus :: .symbol .closeBracket :: rest => some (.single .clear, rest)
  | .symbol .openBracket :: .symbol .greater :: .symbol .closeBracket :: rest => some (.single .scanRight, rest)
  | .symbol .openBracket :: .symbol .less :: .symbol .closeBracket :: rest => some (.single .scanLeft, rest)
  | .symbol .openBracket :: rest => some (.single .loopOpen, rest)
  | .symbol .closeBracket :: rest => some (.single .loopClose, rest)
  | .symbol .dot :: rest => some (.single .output, rest)
  | .symbol .comma :: rest => some (.single .input, rest)
  | _ => none

/-- The end of a token: the end of the text, a space, or the end of a reduced loop. -/
def Boundary : List Lexeme → Prop
  | [] | .symbol .space :: _ | .symbol .closeBrace :: _ => True
  | _ => False

theorem readWhole_whole (n : Int) (rest : List Lexeme) : readWhole (whole n ++ rest) = some (n, rest) := by
  cases n <;> rfl

theorem Boundary.cases (boundary : Boundary rest) : rest = [] ∨ (∃ more, rest = symbol .space :: more) ∨
    ∃ more, rest = symbol .closeBrace :: more := by
  match rest with
  | [] => exact .inl rfl
  | .symbol .space :: more => exact .inr (.inl ⟨more, rfl⟩)
  | .symbol .closeBrace :: more => exact .inr (.inr ⟨more, rfl⟩)

theorem readToken_single {kind : TokenKind} (source : kind ∈ Token.sourceKinds) (boundary : Boundary rest) :
    readToken (Token.marks kind ++ rest) = some (.single kind, rest) := by
  rcases Token.mem_sourceKinds.mp source with rfl | rfl | rfl | rfl | rfl | rfl | rfl | rfl | rfl | rfl | rfl <;>
    rcases boundary.cases with rfl | ⟨more, rfl⟩ | ⟨more, rfl⟩ <;> rfl

theorem readToken_counted {kind : TokenKind} {n : Nat} (foldable : (Token.counted kind n).isFoldable = true)
    (boundary : Boundary rest) : readToken (number n :: Token.marks kind ++ rest) = some (.counted kind n, rest) := by
  rcases Token.kind_of_foldable foldable with same | same | same | same
  all_goals
    cases same
    rcases boundary.cases with rfl | ⟨more, rfl⟩ | ⟨more, rfl⟩ <;> rfl

theorem readToken_offset (offset : Int) (rest : List Lexeme) :
    readToken (symbol .atSign :: (whole offset ++ rest)) = readChange offset rest := by
  simp only [readToken, readWhole_whole, Option.bind_eq_bind, Option.bind_some]

theorem readToken_inLoop {token : Token} (statement : token.InLoop) (rest : List Lexeme) :
    readToken (token.flatLexemes ++ rest) = some (token, rest) := by
  cases statement with
  | clearAt offset | condClear offset =>
    simp only [Token.flatLexemes, Token.clearAt, Token.condClear, List.cons_append, List.append_assoc, readToken_offset]
    rfl
  | condAdd offset amount =>
    simp only [Token.flatLexemes, Token.condAdd, List.cons_append, List.append_assoc, readToken_offset]
    cases amount <;> rfl
  | @mulAdd offset amount divisor _ made =>
    obtain rfl := Token.mulAdd_eq made
    simp only [Token.flatLexemes, List.cons_append, List.append_assoc, readToken_offset, readChange, readWhole_whole,
      Option.bind_eq_bind, Option.bind_some, List.tail_cons, Option.getD_some]

theorem readToken_flat {token : Token} (flat : token.Flat) (boundary : Boundary rest) :
    readToken (token.flatLexemes ++ rest) = some (token, rest) := by
  cases flat with
  | @counted kind amount foldable positive =>
    obtain ⟨n, rfl⟩ := Int.eq_ofNat_of_zero_le (Int.le_trans (by decide) positive)
    have source := Token.source_of_foldable foldable
    rw [Token.flatLexemes_source source]
    by_cases one : n = 1
    · subst one
      exact readToken_single source boundary
    · rw [if_neg (by omega)]
      exact readToken_counted foldable boundary
  | single source =>
    rw [Token.single, Token.flatLexemes_source source]
    exact readToken_single source boundary
  | @addAt _ amount _ made =>
    obtain rfl := Token.addAt_eq made
    simp only [Token.flatLexemes, List.cons_append, List.append_assoc, readToken_offset]
    cases amount <;> rfl
  | @addMove amount _ _ made =>
    obtain ⟨rfl, rfl | rfl⟩ := Token.addMove_eq made <;> cases amount <;> rfl
  | moveAdd shift amount =>
    cases shift <;> cases amount <;> rfl
  | moveClear shift => cases shift <;> rfl
  | inLoop statement => exact readToken_inLoop statement rest

/-- The end of a stream: the end of the text, or of a reduced loop. -/
def Ends : List Lexeme → Prop
  | [] | .symbol .closeBrace :: _ => True
  | _ => False

theorem Ends.boundary (ends : Ends rest) : Boundary rest := by
  match rest with
  | [] => trivial
  | .symbol .closeBrace :: _ => trivial

theorem readToken_ends (ends : Ends rest) : readToken rest = none := by
  match rest with
  | [] => rfl
  | .symbol .closeBrace :: _ => rfl

end Reading

end TapeScript
