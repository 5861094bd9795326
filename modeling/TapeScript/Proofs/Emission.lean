import TapeScript.Compilation
import TapeScript.Proofs.Stream.Fusion
import TapeScript.Proofs.Stream.Reduction

/-! Every token that compilation makes has a text, so nothing is given up for want of one. -/
namespace TapeScript

/-- A token with a template and a readable text. -/
structure Token.Printable (dialect : Dialect) (token : Token) : Prop where
  template : ∃ text, token.template dialect = .ok text
  text : ∃ text, token.text = .ok text

namespace Token

variable {dialect : Dialect}

/-- Kinds that are printed whatever the other fields are. -/
def Common (token : Token) : Prop :=
  token.kind ≠ .extension ∧ token.kind ≠ .reduced ∧ ∀ code, token.kind ≠ .unknown code

theorem Common.printable {token : Token} (common : token.Common) : token.Printable dialect := by
  obtain ⟨kind, amount, offset, divisor?, body?, symbol?⟩ := token
  obtain ⟨plain, single, known⟩ := common
  cases kind with
  | extension => exact absurd rfl plain
  | reduced => exact absurd rfl single
  | unknown code => exact absurd rfl (known code)
  | _ => exact ⟨⟨_, rfl⟩, ⟨_, rfl⟩⟩

theorem common_of_foldable {token : Token} (foldable : token.isFoldable = true) : token.Common := by
  rcases kind_of_foldable foldable with kind | kind | kind | kind <;> simp [Common, kind]

theorem common_of_marker {token : Token} (marker : token.isMarker = true) : token.Common := by
  rcases isMarker_iff.mp marker with kind | kind <;> simp [Common, kind]

/-- An extension is printed if some extension has its symbol. -/
theorem printable_extension {token : Token} (kind : token.kind = .extension)
    (found : (Extension.template? dialect.extensions token.symbol?).isSome = true) : token.Printable dialect := by
  obtain ⟨_, amount, offset, divisor?, body?, symbol?⟩ := token
  cases kind
  obtain ⟨template, found⟩ := Option.isSome_iff_exists.mp found
  refine ⟨⟨template, ?_⟩, ?_⟩
  · simp only [Token.template, found]
  · simp only [Token.text, TokenKind.symbol?]
    split <;> exact ⟨_, rfl⟩

theorem templates_ok {tokens : List Token} (printable : ∀ token ∈ tokens, token.Printable dialect) :
    ∃ texts, templates dialect tokens = .ok texts := by
  induction tokens with
  | nil => exact ⟨[], rfl⟩
  | cons token tokens ih =>
    obtain ⟨first, made⟩ := (printable token (by simp)).template
    obtain ⟨others, madeOthers⟩ := ih fun other member => printable other (by simp [member])
    exact ⟨first :: others, by simp only [templates, made, madeOthers, bind, Except.bind]⟩

theorem texts_ok {tokens : List Token} (printable : ∀ token ∈ tokens, token.Printable dialect) :
    ∃ found, texts tokens = .ok found := by
  induction tokens with
  | nil => exact ⟨[], rfl⟩
  | cons token tokens ih =>
    obtain ⟨first, made⟩ := (printable token (by simp)).text
    obtain ⟨others, madeOthers⟩ := ih fun other member => printable other (by simp [member])
    exact ⟨first :: others, by simp only [texts, made, madeOthers, bind, Except.bind]⟩

end Token

theorem Fusion.Fused.common {token : Token} (fused : Fused token) : token.Common := by
  rcases fused with kind | kind | kind | kind | kind <;> simp [Token.Common, kind]

namespace Reduction

theorem change_common (change : Change) (once : Bool) (divisor : Int) : (change.token once divisor).Common := by
  cases change with
  | clear | settled => simp [Change.token, Token.condClear, Token.condAdd, Token.Common]
  | scaled offset delta =>
    cases once <;> simp [Change.token, Token.condAdd, Token.Common]

/-- The statements of a reduced loop are printed, and the count before them if there is one. -/
theorem Countable.printable {dialect : Dialect} {token : Token} (countable : Countable token) :
    token.Printable dialect := by
  obtain ⟨walk, ends, bound, rfl⟩ := countable
  have statements : ∀ token ∈ walk.body, token.Printable dialect := by
    intro token member
    rcases List.mem_append.mp member with inside | last
    · obtain ⟨change, _, rfl⟩ := List.mem_map.mp inside
      exact (change_common change _ _).printable
    · rw [List.mem_singleton.mp last]
      exact Token.Common.printable (by simp [Token.Common, Token.clearAt])
  obtain ⟨lines, templates⟩ := Token.templates_ok statements
  obtain ⟨texts, made⟩ := Token.texts_ok statements
  have count : ∃ lines, Token.countStatement (.reduced walk.body) = .ok lines := by
    unfold Token.countStatement
    split
    · exact ⟨[], rfl⟩
    · rename_i divides
      rcases loopDivisor_cases walk ends with ⟨divisor, _⟩ | ⟨none, _⟩
      · rw [divisor] at divides ⊢
        obtain ⟨_, _, formula, _, computed, _⟩ := CountFormula.solves_iff divides bound
        exact ⟨_, by simp only [computed, bind, Except.bind]; rfl⟩
      · exact absurd none divides
  obtain ⟨first, count⟩ := count
  refine ⟨⟨"\n".intercalate (first ++ lines), ?_⟩, ⟨"\x7b" ++ Token.joined texts ++ "\x7d", ?_⟩⟩
  · have whole : (Token.reduced walk.body).template dialect = (do
        let lines ← Token.templates dialect walk.body
        let count ← Token.countStatement (.reduced walk.body)
        .ok ("\n".intercalate (count ++ lines))) := rfl
    rw [whole, templates, count]
    rfl
  · have whole : (Token.reduced walk.body).text = (do
        let statements ← Token.texts walk.body
        .ok ("\x7b" ++ Token.joined statements ++ "\x7d")) := rfl
    rw [whole, made]
    rfl

end Reduction

/-- A stream of printable tokens is emitted as a program. -/
theorem emitProgram_ok {dialect : Dialect} {tokens : List Token} (printable : ∀ token ∈ tokens, token.Printable dialect)
    (numbers : List Int) : ∃ script, emitProgram dialect numbers tokens = .ok script := by
  have emits (tokens : List Token) (emission : Emission) (printable : ∀ token ∈ tokens, token.Printable dialect) :
      ∃ last, tokens.foldlM (Emission.add dialect) emission = .ok last := by
    induction tokens generalizing emission with
    | nil => exact ⟨emission, rfl⟩
    | cons token tokens ih =>
      obtain ⟨text, made⟩ := (printable token (by simp)).template
      have added : ∃ next, emission.add dialect token = .ok next :=
        ⟨_, by simp only [Emission.add, Token.emit, made, bind, Except.bind]; rfl⟩
      obtain ⟨next, added⟩ := added
      obtain ⟨last, emitted⟩ := ih next fun other member => printable other (by simp [member])
      refine ⟨last, ?_⟩
      rw [List.foldlM_cons, added]
      exact emitted
  obtain ⟨last, emitted⟩ := emits tokens {} printable
  exact ⟨_, by simp only [emitProgram, emitStatements, emitted, bind, Except.bind]; rfl⟩

theorem describe_ok {dialect : Dialect} {stages : Stages}
    (printable : ∀ token ∈ stages.fused, token.Printable dialect) :
    ∃ lines, stages.describe = .ok lines := by
  obtain ⟨texts, made⟩ := Token.texts_ok printable
  exact ⟨_, by simp only [Stages.describe, streamText, made, bind, Except.bind]; rfl⟩

end TapeScript
