import TapeScript.Proofs.Result
import TapeScript.Proofs.Stream.Update
import TapeScript.Proofs.Text.Lexeme
import TapeScript.Token.Text

/-! The text of a stream as numbers and marks: the lexemes of every form of token, and that the text spells them. -/
namespace TapeScript

variable {rest : List Lexeme}

namespace Lexeme

/-- A number as it is written. -/
def whole : Int → List Lexeme
  | .ofNat n => [number n]
  | .negSucc n => [symbol .minus, number (n + 1)]

/-- A number that always shows its sign. -/
def signed : Int → List Lexeme
  | .ofNat n => [symbol .plus, number n]
  | .negSucc n => [symbol .minus, number (n + 1)]

theorem spell_whole (n : Int) : spell (whole n) = (toString n).toList := by
  cases n with
  | ofNat n =>
    have digits : (toString (Int.ofNat n)).toList = n.repr.toList := rfl
    rw [digits, Nat.toList_repr, whole, spell_number, spell_nil, List.append_nil]
  | negSucc n =>
    have digits : (toString (Int.negSucc n)).toList = ("-" ++ (n + 1).repr).toList := rfl
    rw [digits, String.toList_append, Nat.toList_repr, whole, spell_symbol, spell_number, spell_nil, List.append_nil]
    rfl

theorem spell_signed (n : Int) : spell (signed n) = (Token.withSign n).toList := by
  cases n with
  | ofNat n =>
    have positive : ¬Int.ofNat n < 0 := Int.not_lt.mpr (Int.natCast_nonneg n)
    rw [Token.withSign, if_neg positive, String.toList_append, ← spell_whole]
    rfl
  | negSucc n =>
    rw [Token.withSign, if_pos (Int.negSucc_lt_zero n), ← spell_whole]
    rfl

theorem separated_whole (n : Int) (clear : Clear rest) (separated : Separated rest) : Separated (whole n ++ rest) := by
  cases n <;> exact ⟨clear, separated⟩

theorem separated_signed (n : Int) (clear : Clear rest) (separated : Separated rest) :
    Separated (signed n ++ rest) := by
  cases n <;> exact ⟨clear, separated⟩

theorem clear_signed (n : Int) (rest : List Lexeme) : Clear (signed n ++ rest) := by cases n <;> trivial

end Lexeme

open Lexeme

namespace Token

/-- Kinds that are written as in the source. -/
def sourceKinds : List TokenKind :=
  [.inc, .dec, .right, .left, .clear, .loopOpen, .loopClose, .scanRight, .scanLeft, .input, .output]

/-- A statement of a reduced loop. -/
inductive InLoop : Token → Prop where
  | clearAt (offset : Int) : InLoop (.clearAt offset)
  | mulAdd {offset amount divisor : Int} {token : Token} (made : Token.mulAdd offset amount divisor = .ok token) :
      InLoop token
  | condAdd (offset amount : Int) : InLoop (.condAdd offset amount)
  | condClear (offset : Int) : InLoop (.condClear offset)

/-- A token as the stages make them, other than a reduced loop. -/
inductive Flat : Token → Prop where
  | counted {kind : TokenKind} {amount : Int} (foldable : (counted kind amount).isFoldable = true)
      (positive : 1 ≤ amount) : Flat (.counted kind amount)
  | single {kind : TokenKind} (source : kind ∈ sourceKinds) : Flat (.single kind)
  | addAt {offset amount : Int} {token : Token} (made : Token.addAt offset amount = .ok token) : Flat token
  | addMove {amount step : Int} {token : Token} (made : Token.addMove amount step = .ok token) : Flat token
  | moveAdd (shift amount : Int) : Flat (.moveAdd shift amount)
  | moveClear (shift : Int) : Flat (.moveClear shift)
  | inLoop {token : Token} (statement : token.InLoop) : Flat token

/-- A token as the stages make them, extensions aside. -/
inductive Built : Token → Prop where
  | flat {token : Token} (flat : token.Flat) : Built token
  | reduced {body : List Token} (statements : ∀ token ∈ body, token.InLoop) : Built (.reduced body)

theorem addAt_eq {offset amount : Int} {token : Token} (made : Token.addAt offset amount = .ok token) :
    token = { kind := .addAt, amount, offset } := by
  obtain ⟨_, _, made⟩ := bind_ok_iff.mp made
  exact (Except.ok.inj made).symm

theorem addMove_eq {amount step : Int} {token : Token} (made : Token.addMove amount step = .ok token) :
    token = { kind := .addMove, amount, offset := step } ∧ (step = 1 ∨ step = -1) := by
  obtain ⟨_, neighbour, made⟩ := bind_ok_iff.mp made
  refine ⟨(Except.ok.inj made).symm, ?_⟩
  rw [Error.require] at neighbour
  split at neighbour
  · rename_i possible
    simpa using possible
  · cases neighbour

theorem mulAdd_eq {offset amount divisor : Int} {token : Token}
    (made : Token.mulAdd offset amount divisor = .ok token) :
    token = { kind := .mulAdd, amount, offset, divisor? := some divisor } := by
  obtain ⟨_, _, made⟩ := bind_ok_iff.mp made
  exact (Except.ok.inj made).symm

/-- The marks of a source-level token. -/
def marks : TokenKind → List Lexeme
  | .inc => [symbol .plus]
  | .dec => [symbol .minus]
  | .right => [symbol .greater]
  | .left => [symbol .less]
  | .loopOpen => [symbol .openBracket]
  | .loopClose => [symbol .closeBracket]
  | .output => [symbol .dot]
  | .input => [symbol .comma]
  | .clear => [symbol .openBracket, symbol .minus, symbol .closeBracket]
  | .scanRight => [symbol .openBracket, symbol .greater, symbol .closeBracket]
  | .scanLeft => [symbol .openBracket, symbol .less, symbol .closeBracket]
  | _ => []

/-- The lexemes of a token other than a reduced loop. -/
def flatLexemes (token : Token) : List Lexeme :=
  match token.kind with
  | .addAt => symbol .atSign :: whole token.offset ++ signed token.amount
  | .clearAt => symbol .atSign :: whole token.offset ++ [symbol .equals, number 0]
  | .addMove => signed token.amount ++ [symbol (if 0 < token.offset then .greater else .less)]
  | .moveAdd => whole token.offset ++ signed token.amount
  | .moveClear => whole token.offset ++ [symbol .equals, number 0]
  | .mulAdd => symbol .atSign :: whole token.offset ++ symbol .plus :: symbol .equals :: whole token.amount ++
      symbol .slash :: whole (token.divisor?.getD 0)
  | .condAdd => symbol .atSign :: whole token.offset ++ symbol .question :: signed token.amount
  | .condClear => symbol .atSign :: whole token.offset ++ [symbol .question, symbol .equals, number 0]
  | kind => (if token.amount = 1 then [] else whole token.amount) ++ marks kind

theorem mem_sourceKinds {kind : TokenKind} : kind ∈ sourceKinds ↔ kind = .inc ∨ kind = .dec ∨ kind = .right ∨
    kind = .left ∨ kind = .clear ∨ kind = .loopOpen ∨ kind = .loopClose ∨ kind = .scanRight ∨ kind = .scanLeft ∨
    kind = .input ∨ kind = .output := by
  simp [sourceKinds]

theorem source_of_foldable {kind : TokenKind} {amount : Int} (foldable : (counted kind amount).isFoldable = true) :
    kind ∈ sourceKinds := by
  rcases kind_of_foldable foldable with same | same | same | same <;> cases same <;> decide

theorem flatLexemes_source {kind : TokenKind} (source : kind ∈ sourceKinds) (amount : Int) :
    (counted kind amount).flatLexemes = (if amount = 1 then [] else whole amount) ++ marks kind := by
  rcases mem_sourceKinds.mp source with rfl | rfl | rfl | rfl | rfl | rfl | rfl | rfl | rfl | rfl | rfl <;> rfl

end Token

/-- Tokens with a space before each. -/
def spacedLexemes (written : Token → List Lexeme) (tokens : List Token) : List Lexeme :=
  tokens.flatMap fun token => symbol .space :: written token

/-- The lexemes of a stream. -/
def streamLexemes (written : Token → List Lexeme) : List Token → List Lexeme
  | [] => []
  | token :: tokens => written token ++ spacedLexemes written tokens

theorem spacedLexemes_cons (written : Token → List Lexeme) (token : Token) (tokens : List Token) (rest : List Lexeme) :
    spacedLexemes written (token :: tokens) ++ rest =
      symbol .space :: (written token ++ (spacedLexemes written tokens ++ rest)) := by
  simp [spacedLexemes]

/-- The lexemes of a token; a reduced loop is a stream between braces. -/
def Token.lexemes (token : Token) : List Lexeme :=
  if token.kind = .reduced then
    symbol .openBrace :: (streamLexemes Token.flatLexemes token.body ++ [symbol .closeBrace])
  else token.flatLexemes

theorem Token.not_reduced_of_flat {token : Token} (flat : token.Flat) : token.kind ≠ .reduced := by
  cases flat with
  | counted foldable => rcases kind_of_foldable foldable with kind | kind | kind | kind <;> simp [kind]
  | @single kind source =>
    rintro rfl
    simp [sourceKinds] at source
  | addAt made => simp [addAt_eq made]
  | addMove made => simp [(addMove_eq made).1]
  | moveAdd | moveClear => simp [moveAdd, moveClear]
  | inLoop statement =>
    cases statement with
    | mulAdd made => simp [mulAdd_eq made]
    | clearAt | condAdd | condClear => simp [clearAt, condAdd, condClear]

theorem Token.lexemes_flat {token : Token} (flat : token.Flat) : token.lexemes = token.flatLexemes :=
  if_neg (not_reduced_of_flat flat)

theorem lexemes_reduced_append (body : List Token) (rest : List Lexeme) : (Token.reduced body).lexemes ++ rest =
    symbol .openBrace :: (streamLexemes Token.flatLexemes body ++ symbol .closeBrace :: rest) := by
  have form : (Token.reduced body).lexemes =
    symbol .openBrace :: (streamLexemes Token.flatLexemes body ++ [symbol .closeBrace]) := rfl
  simp [form]

theorem Token.clear_marks (kind : TokenKind) (clear : Clear rest) : Clear (marks kind ++ rest) := by
  cases kind <;> first | exact clear | trivial

theorem Token.separated_marks (kind : TokenKind) (separated : Separated rest) : Separated (marks kind ++ rest) := by
  cases kind <;> exact separated

theorem Token.separated_flat (token : Token) (clear : Clear rest) (separated : Separated rest) :
    Separated (token.flatLexemes ++ rest) := by
  rw [flatLexemes]
  split
  -- The cases stand in the order of the definition.
  · simp only [List.cons_append, List.append_assoc]
    exact separated_whole token.offset (clear_signed _ _) (separated_signed _ clear separated)
  · simp only [List.cons_append, List.append_assoc]
    exact separated_whole token.offset trivial ⟨clear, separated⟩
  · rw [List.append_assoc]
    exact separated_signed _ trivial separated
  · rw [List.append_assoc]
    exact separated_whole _ (clear_signed _ _) (separated_signed _ clear separated)
  · rw [List.append_assoc]
    exact separated_whole token.offset trivial ⟨clear, separated⟩
  · simp only [List.cons_append, List.append_assoc]
    exact separated_whole token.offset trivial
      (separated_whole token.amount trivial (separated_whole _ clear separated))
  · simp only [List.cons_append, List.append_assoc]
    exact separated_whole token.offset trivial (separated_signed _ clear separated)
  · simp only [List.cons_append, List.append_assoc]
    exact separated_whole token.offset trivial ⟨clear, separated⟩
  · split
    · exact separated_marks _ separated
    · rw [List.append_assoc]
      exact separated_whole _ (clear_marks _ clear) (separated_marks _ separated)

variable {written : Token → List Lexeme}

theorem clear_spaced (tokens : List Token) (clear : Clear rest) : Clear (spacedLexemes written tokens ++ rest) := by
  cases tokens with
  | nil => exact clear
  | cons => trivial

theorem separated_spaced (each : ∀ (token : Token) (rest : List Lexeme), Clear rest → Separated rest →
    Separated (written token ++ rest)) (tokens : List Token) (clear : Clear rest) (separated : Separated rest) :
    Separated (spacedLexemes written tokens ++ rest) := by
  induction tokens with
  | nil => exact separated
  | cons token tokens ih =>
    rw [spacedLexemes_cons]
    exact each token _ (clear_spaced tokens clear) ih

theorem separated_stream (each : ∀ (token : Token) (rest : List Lexeme), Clear rest → Separated rest →
    Separated (written token ++ rest)) (tokens : List Token) (clear : Clear rest) (separated : Separated rest) :
    Separated (streamLexemes written tokens ++ rest) := by
  cases tokens with
  | nil => exact separated
  | cons token tokens =>
    rw [streamLexemes, List.append_assoc]
    exact each token _ (clear_spaced tokens clear) (separated_spaced each tokens clear separated)

theorem Token.separated_lexemes (token : Token) (clear : Clear rest) (separated : Separated rest) :
    Separated (token.lexemes ++ rest) := by
  rw [lexemes]
  split
  · rw [List.cons_append, List.append_assoc]
    exact separated_stream (fun token _ => token.separated_flat) token.body trivial separated
  · exact token.separated_flat clear separated

theorem Token.text_source {kind : TokenKind} (source : kind ∈ sourceKinds) (amount : Int) :
    ∃ text, (counted kind amount).text = .ok text ∧ text.toList = spell (counted kind amount).flatLexemes := by
  rw [flatLexemes_source source]
  rcases mem_sourceKinds.mp source with rfl | rfl | rfl | rfl | rfl | rfl | rfl | rfl | rfl | rfl | rfl <;>
    refine ⟨_, rfl, ?_⟩ <;> split <;> simp [marks, spell_whole, Mark.char]

theorem Token.text_inLoop {token : Token} (statement : token.InLoop) :
    ∃ text, token.text = .ok text ∧ text.toList = spell token.flatLexemes := by
  cases statement with
  | clearAt | condAdd | condClear =>
    refine ⟨_, rfl, ?_⟩
    simp [flatLexemes, Token.clearAt, condAdd, condClear, spell_whole, spell_signed, Mark.char, toString]
  | mulAdd made =>
    obtain rfl := mulAdd_eq made
    refine ⟨_, rfl, ?_⟩
    simp [flatLexemes, spell_whole, Mark.char, toString]

theorem Token.text_flat {token : Token} (flat : token.Flat) :
    ∃ text, token.text = .ok text ∧ text.toList = spell token.flatLexemes := by
  cases flat with
  | counted foldable => exact text_source (source_of_foldable foldable) _
  | single source => exact text_source source 1
  | addAt made =>
    obtain rfl := addAt_eq made
    refine ⟨_, rfl, ?_⟩
    simp [flatLexemes, spell_whole, spell_signed, Mark.char, toString]
  | addMove made =>
    obtain ⟨rfl, -⟩ := addMove_eq made
    refine ⟨_, rfl, ?_⟩
    simp only [flatLexemes]
    split <;> simp [spell_signed, Mark.char]
  | moveAdd | moveClear =>
    refine ⟨_, rfl, ?_⟩
    simp [flatLexemes, Token.moveAdd, moveClear, spell_whole, spell_signed, Mark.char, toString]
  | inLoop statement => exact text_inLoop statement

theorem Token.toList_joined (first : String) (others : List String) :
    (joined (first :: others)).toList = first.toList ++ others.flatMap fun text => ' ' :: text.toList := by
  induction others generalizing first with
  | nil => simp [joined]
  | cons next others ih =>
    have step : joined (first :: next :: others) = first ++ " " ++ joined (next :: others) :=
      String.intercalate_cons_cons
    simp [step, ih]

/-- The texts of tokens with a space before each. -/
theorem Token.texts_spaced {tokens : List Token}
    (each : ∀ token ∈ tokens, ∃ text, token.text = .ok text ∧ text.toList = spell (written token)) :
    ∃ texts, Token.texts tokens = .ok texts ∧
      texts.flatMap (fun text => ' ' :: text.toList) = spell (spacedLexemes written tokens) := by
  induction tokens with
  | nil => exact ⟨[], rfl, rfl⟩
  | cons token tokens ih =>
    obtain ⟨⟨first, made, spelled⟩, later⟩ := List.forall_mem_cons.mp each
    obtain ⟨others, madeOthers, spelledOthers⟩ := ih later
    refine ⟨first :: others, by rw [texts, made, madeOthers]; rfl, ?_⟩
    have form : spacedLexemes written (token :: tokens) =
      symbol .space :: (written token ++ spacedLexemes written tokens) := rfl
    simp [form, spelled, spelledOthers, Mark.char]

theorem Token.texts_stream {tokens : List Token}
    (each : ∀ token ∈ tokens, ∃ text, token.text = .ok text ∧ text.toList = spell (written token)) :
    ∃ texts, Token.texts tokens = .ok texts ∧ (joined texts).toList = spell (streamLexemes written tokens) := by
  cases tokens with
  | nil => exact ⟨[], rfl, rfl⟩
  | cons token tokens =>
    obtain ⟨⟨first, made, spelled⟩, later⟩ := List.forall_mem_cons.mp each
    obtain ⟨others, madeOthers, spelledOthers⟩ := texts_spaced later
    refine ⟨first :: others, by rw [texts, made, madeOthers]; rfl, ?_⟩
    rw [toList_joined, streamLexemes, spell_append, spelled, spelledOthers]

theorem Token.text_built {token : Token} (built : token.Built) :
    ∃ text, token.text = .ok text ∧ text.toList = spell token.lexemes := by
  cases built with
  | flat flat =>
    rw [lexemes_flat flat]
    exact text_flat flat
  | @reduced body statements =>
    obtain ⟨texts, made, spelled⟩ := texts_stream fun token member => text_inLoop (statements token member)
    refine ⟨"\x7b" ++ joined texts ++ "\x7d", ?_, ?_⟩
    · have form : (Token.reduced body).text = (Token.texts body >>= fun statements =>
        .ok ("\x7b" ++ joined statements ++ "\x7d")) := rfl
      rw [form, made]
      rfl
    · have form := lexemes_reduced_append body []
      rw [List.append_nil] at form
      simp [form, spelled, Mark.char]

theorem streamText_built {tokens : List Token} (built : ∀ token ∈ tokens, token.Built) :
    ∃ text, streamText tokens = .ok text ∧ text.toList = spell (streamLexemes Token.lexemes tokens) := by
  obtain ⟨texts, made, spelled⟩ := Token.texts_stream fun token member => Token.text_built (built token member)
  exact ⟨Token.joined texts, by rw [streamText, made]; rfl, spelled⟩

end TapeScript
