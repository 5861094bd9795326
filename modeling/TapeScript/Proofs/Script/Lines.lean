import TapeScript.Proofs.Result
import TapeScript.Proofs.Script.Count
import TapeScript.Script.Emit

/-! Lines of an emitted program. Every statement is a line, whatever numbers are in it, and nesting keeps the
number of lines, so a program has as many lines as statements are counted for its stream. -/
namespace TapeScript

namespace Text

/-- How many lines a text has whose last line is ended as well. -/
def lineCount (text : String) : Nat := text.toList.count '\n'

/-- A text that stays on its line. -/
def OneLine (text : String) : Prop := '\n' ∉ text.toList

instance (text : String) : Decidable (OneLine text) := inferInstanceAs (Decidable ('\n' ∉ text.toList))

variable {first second text : String}

@[simp] theorem lineCount_append (first second : String) :
    lineCount (first ++ second) = lineCount first + lineCount second := by
  simp [lineCount]

theorem lineCount_oneLine (single : OneLine text) : lineCount text = 0 := List.count_eq_zero.mpr single

@[simp] theorem oneLine_append : OneLine (first ++ second) ↔ OneLine first ∧ OneLine second := by
  simp [OneLine, not_or]

@[simp] theorem oneLine_toString : OneLine (toString text) ↔ OneLine text := Iff.rfl

theorem newline_not_mem_toDigits {base : Nat} (several : 1 < base) (n : Nat) : '\n' ∉ Nat.toDigits base n := by
  have digit (n : Nat) : '\n' ≠ n.digitChar := (Nat.digitChar_ne '\n' (by decide)).symm
  induction n using Nat.strongRecOn with
  | _ n ih =>
    by_cases small : n < base
    · rw [Nat.toDigits_of_lt_base small, List.mem_singleton]
      exact digit n
    · rw [Nat.toDigits_of_base_le several (by omega), List.mem_append, not_or, List.mem_singleton]
      exact ⟨ih _ (Nat.div_lt_self (by omega) several), digit _⟩

@[simp] theorem oneLine_nat (n : Nat) : OneLine n.repr := by
  rw [OneLine, Nat.repr_eq_ofList_toDigits, String.toList_ofList]
  exact newline_not_mem_toDigits (by decide) n

@[simp] theorem oneLine_int (n : Int) : OneLine n.repr := by
  rw [Int.repr_eq_if]
  split
  · exact oneLine_nat _
  · exact oneLine_append.mpr ⟨by decide, oneLine_nat _⟩

/-- How many lines some texts have, each on lines of its own. -/
def lineCounts : List String → Nat
  | [] => 0
  | line :: lines => lineCount (line ++ "\n") + lineCounts lines

theorem lineCounts_append (lines others : List String) :
    lineCounts (lines ++ others) = lineCounts lines + lineCounts others := by
  induction lines with
  | nil => exact (Nat.zero_add _).symm
  | cons line lines ih => rw [List.cons_append, lineCounts, lineCounts, ih, Nat.add_assoc]

theorem lineCount_joined {lines : List String} (several : lines ≠ []) :
    lineCount ("\n".intercalate lines ++ "\n") = lineCounts lines := by
  induction lines with
  | nil => exact absurd rfl several
  | cons line lines ih =>
    cases lines with
    | nil => simp [lineCounts]
    | cons next lines =>
      rw [String.intercalate_cons_cons, String.append_assoc, lineCount_append, ih (by simp)]
      rfl

/-- The last line of a text is ended. -/
def Ended (text : String) : Prop := text.toList.getLast? = some '\n'

theorem ended_line (text : String) : Ended (text ++ "\n") := by simp [Ended]

theorem Ended.append (first : String) (ended : Ended second) : Ended (first ++ second) := by
  rw [Ended] at ended
  simp [Ended, ended]

theorem lineCount_nest (ended : Ended text) : lineCount (nest text) = lineCount text ∧ Ended (nest text) := by
  have breaks (chars : List Char) : (nestBreaks chars).count '\n' = chars.count '\n' := by
    induction chars with
    | nil => rfl
    | cons c chars ih =>
      rw [nestBreaks, List.flatMap_cons, List.count_append, ← nestBreaks, ih, List.count_cons]
      split <;> simp_all [margin]
      omega
  obtain ⟨front, split⟩ := List.getLast?_eq_some_iff.mp ended
  constructor
  · rw [lineCount, lineCount, nest, String.toList_ofList, nestChars, dropFinalBreak, if_pos (by exact ended), split]
    simp [breaks, margin]
  · rw [Ended, nest, String.toList_ofList]
    exact List.getLast?_eq_some_iff.mpr ⟨_, rfl⟩

/-- Nesting keeps the number of lines. -/
theorem lineCount_nestBy (ended : Ended text) (levels : Nat) :
    lineCount (nestBy levels text) = lineCount text ∧ Ended (nestBy levels text) := by
  induction levels with
  | zero => exact ⟨rfl, ended⟩
  | succ levels ih =>
    obtain ⟨count, last⟩ := lineCount_nest ih.2
    exact ⟨count.trans ih.1, last⟩

end Text

open Text

namespace Script

variable {target : String}

@[simp] theorem oneLine_cellAt (offset : Int) : OneLine (cellAt offset) := by
  unfold cellAt
  split
  · decide
  · split <;> simp +decide

@[simp] theorem oneLine_cellAfterMove (shift : Int) : OneLine (cellAfterMove shift) := by
  unfold cellAfterMove
  repeat' split
  all_goals simp +decide

theorem oneLine_increase (single : OneLine target) (delta : Int) : OneLine (increase target delta) := by
  unfold increase
  repeat' split
  all_goals simp +decide [single]

theorem oneLine_movePointer (shift : Int) : OneLine (movePointer shift) := oneLine_increase (by decide) shift

theorem oneLine_input (eof : EndOfInput) : OneLine (input eof) := by cases eof <;> decide

theorem oneLine_scaledAdd (single : OneLine target) (factor : Int) : OneLine (scaledAdd target factor) := by
  have sign : OneLine (if factor < 0 then "-=" else "+=") := by split <;> decide
  have product : OneLine (if factor.natAbs = 1 then "d[p]" else s!"d[p] * {factor.natAbs}") := by
    split <;> simp +decide
  simp only [scaledAdd, oneLine_append, oneLine_toString]
  exact ⟨⟨⟨⟨⟨single, by decide⟩, sign⟩, by decide⟩, product⟩, by decide⟩

theorem oneLine_countedAdd (single : OneLine target) (factor : Int) : OneLine (countedAdd target factor) := by
  unfold countedAdd
  repeat' split
  all_goals simp +decide [single]

theorem Expression.oneLine (expression : Expression) : OneLine expression.text := by
  induction expression with
  | cell => exact oneLine_cellAt 0
  | decimal value => simp [text]
  | hexadecimal value =>
    have digits : OneLine (String.ofList (Nat.toDigits 16 value)) := by
      rw [OneLine, String.toList_ofList]
      exact newline_not_mem_toDigits (by decide) value
    simp +decide [text, digits]
  | product left right ihLeft ihRight => simp +decide [text, ihLeft, ihRight]
  | shiftRight operand distance ih => simp +decide [text, ih]
  | conjunction left right ihLeft ihRight => simp +decide [text, ihLeft, ihRight]

end Script

namespace Token

variable {dialect : Dialect} {token : Token} {text : String}

/-- The lines of the statements of one token. -/
def Laid (dialect : Dialect) (token : Token) : Prop :=
  ∀ text, token.template dialect = .ok text → lineCount (text ++ "\n") = token.statementCount

/-- Extensions whose statements are a line each. -/
def OneLiners (dialect : Dialect) : Prop := ∀ extension ∈ dialect.extensions, OneLine extension.template

theorem lineCount_line {text : String} (single : OneLine text) : lineCount (text ++ "\n") = 1 := by
  rw [lineCount_append, lineCount_oneLine single]
  rfl

theorem oneLine_extension (oneLiners : OneLiners dialect) {symbol? : Option String}
    (found : Extension.template? dialect.extensions symbol? = some text) : OneLine text := by
  rw [Extension.template?] at found
  obtain ⟨extension, same, rfl⟩ := Option.map_eq_some_iff.mp found
  exact oneLiners extension (List.mem_of_find?_eq_some same)

theorem oneLine_multiply (offset amount divisor : Int) : OneLine (multiplyStatement offset amount divisor) := by
  unfold multiplyStatement
  split
  · exact Script.oneLine_scaledAdd (Script.oneLine_cellAt offset) _
  · exact Script.oneLine_countedAdd (Script.oneLine_cellAt offset) _

/-- Every token but a reduced loop is one statement on one line, or two of them. -/
theorem laid_of_straight (oneLiners : OneLiners dialect) (straight : token.kind ≠ .reduced) : token.Laid dialect := by
  intro text made
  obtain ⟨kind, amount, offset, divisor?, body?, symbol?⟩ := token
  cases kind with
  | reduced => exact absurd rfl straight
  | unknown => cases made
  | extension =>
    simp only [template] at made
    split at made
    · rename_i found
      cases made
      exact lineCount_line (oneLine_extension oneLiners found)
    · cases made
  | addMove =>
    cases made
    have cell : OneLine "d[p]" := by decide
    have update := lineCount_line (Script.oneLine_increase cell amount)
    have move := lineCount_line (Script.oneLine_movePointer offset)
    rw [String.append_assoc, lineCount_append, update, move]
    rfl
  | inc | dec =>
    cases made
    exact lineCount_line (Script.oneLine_increase (by decide) _)
  | right | left =>
    cases made
    exact lineCount_line (Script.oneLine_movePointer _)
  | clear | loopOpen | loopClose | scanRight | scanLeft | output =>
    cases made
    exact lineCount_line (by decide)
  | input =>
    cases made
    exact lineCount_line (Script.oneLine_input _)
  | addAt =>
    cases made
    exact lineCount_line (Script.oneLine_increase (Script.oneLine_cellAt _) _)
  | moveAdd =>
    cases made
    exact lineCount_line (Script.oneLine_increase (Script.oneLine_cellAfterMove _) _)
  | mulAdd =>
    cases made
    exact lineCount_line (oneLine_multiply _ _ _)
  | clearAt =>
    cases made
    exact lineCount_line (oneLine_append.mpr ⟨Script.oneLine_cellAt _, by decide⟩)
  | moveClear =>
    cases made
    exact lineCount_line (oneLine_append.mpr ⟨Script.oneLine_cellAfterMove _, by decide⟩)
  | condAdd =>
    cases made
    exact lineCount_line (oneLine_append.mpr ⟨by decide, Script.oneLine_increase (Script.oneLine_cellAt _) _⟩)
  | condClear =>
    cases made
    exact lineCount_line (oneLine_append.mpr ⟨oneLine_append.mpr ⟨by decide, Script.oneLine_cellAt _⟩, by decide⟩)

theorem lineCount_templates {tokens : List Token} {lines : List String} (laid : ∀ token ∈ tokens, token.Laid dialect)
    (made : templates dialect tokens = .ok lines) :
    lineCounts lines = totalStatements tokens ∧ lines.length = tokens.length := by
  induction tokens generalizing lines with
  | nil =>
    cases made
    exact ⟨rfl, rfl⟩
  | cons token tokens ih =>
    obtain ⟨text, first, made⟩ := bind_ok_iff.mp made
    obtain ⟨texts, others, made⟩ := bind_ok_iff.mp made
    cases made
    obtain ⟨count, length⟩ := ih (fun other member => laid other (by simp [member])) others
    have here := laid token (by simp) text first
    rw [lineCounts, totalStatements, here, count, List.length_cons, List.length_cons, length]
    exact ⟨rfl, rfl⟩

/-- The statement of the count is on a line of its own, where there is one. -/
theorem lineCount_countStatement {lines : List String} (made : token.countStatement = .ok lines) :
    lineCounts lines = if token.loopDivisor = 0 then 0 else 1 := by
  rw [countStatement] at made
  split at made
  · rename_i none
    cases made
    rw [if_pos none]
    rfl
  · rename_i some
    obtain ⟨count, _, made⟩ := bind_ok_iff.mp made
    cases made
    have single : OneLine count.text := by
      rw [← CountFormula.text_expression]
      exact Script.Expression.oneLine _
    have statement : OneLine ("n = " ++ count.text ++ ";") := by simp +decide [single]
    rw [if_neg some, lineCounts, lineCount_line statement]
    rfl

/-- A reduced loop has the lines of its statements, and that of the count before them. A body without a
statement would be a line all the same. -/
theorem laid_reduced {body : List Token} (some : body ≠ []) (laid : ∀ token ∈ body, token.Laid dialect) :
    (Token.reduced body).Laid dialect := by
  intro text made
  have whole : (Token.reduced body).template dialect = (do
      let lines ← templates dialect body
      let count ← countStatement (.reduced body)
      .ok ("\n".intercalate (count ++ lines))) := rfl
  rw [whole] at made
  obtain ⟨lines, inner, made⟩ := bind_ok_iff.mp made
  obtain ⟨count, counted, made⟩ := bind_ok_iff.mp made
  cases made
  obtain ⟨statements, length⟩ := lineCount_templates laid inner
  -- Joining adds a line break between lines only, so the last line needs one to be there.
  have several : count ++ lines ≠ [] := by
    intro none
    rw [(List.append_eq_nil_iff.mp none).2] at length
    exact some (List.eq_nil_of_length_eq_zero length.symm)
  have counts : (Token.reduced body).statementCount =
      totalStatements body + if (Token.reduced body).loopDivisor = 0 then 0 else 1 := rfl
  rw [lineCount_joined several, lineCounts_append, statements, lineCount_countStatement counted, counts, Nat.add_comm]

end Token

/-- Text that is made of whole lines. -/
def Text.Whole (text : String) : Prop := text = "" ∨ Ended text

variable {dialect : Dialect} {tokens : List Token}

theorem Emission.add_lines {emission next : Emission} {token : Token} (laid : token.Laid dialect)
    (added : emission.add dialect token = .ok next) :
    lineCount next.text = lineCount emission.text + token.statementCount ∧ Ended next.text := by
  obtain ⟨line, emitted, added⟩ := bind_ok_iff.mp added
  obtain ⟨text, made, emitted⟩ := bind_ok_iff.mp emitted
  cases emitted
  cases added
  obtain ⟨count, ended⟩ := lineCount_nestBy (ended_line text)
    (if token.kind = .loopClose then emission.depth - 1 else emission.depth).toNat
  rw [laid text made] at count
  exact ⟨(lineCount_append _ _).trans (by rw [count]), ended.append _⟩

/-- A program has as many lines as statements are counted. -/
theorem lineCount_emitStatements {text : String} (laid : ∀ token ∈ tokens, token.Laid dialect)
    (emitted : emitStatements dialect tokens = .ok text) :
    lineCount text = Token.totalStatements tokens ∧ Text.Whole text := by
  -- The depth may be anything on the way: nesting keeps the number of lines.
  have lines (tokens : List Token) (emission last : Emission) (laid : ∀ token ∈ tokens, token.Laid dialect)
      (whole : Text.Whole emission.text) (added : tokens.foldlM (Emission.add dialect) emission = .ok last) :
      lineCount last.text = lineCount emission.text + Token.totalStatements tokens ∧ Text.Whole last.text := by
    induction tokens generalizing emission with
    | nil =>
      cases added
      exact ⟨rfl, whole⟩
    | cons token tokens ih =>
      rw [List.foldlM_cons] at added
      obtain ⟨next, first, added⟩ := bind_ok_iff.mp added
      obtain ⟨here, ended⟩ := Emission.add_lines (laid token (by simp)) first
      obtain ⟨count, wholeLast⟩ := ih next (fun other member => laid other (by simp [member])) (.inr ended) added
      rw [count, here, Token.totalStatements, Nat.add_assoc]
      exact ⟨rfl, wholeLast⟩
  obtain ⟨last, added, emitted⟩ := bind_ok_iff.mp emitted
  cases emitted
  obtain ⟨count, whole⟩ := lines tokens {} last laid (.inl rfl) added
  exact ⟨count.trans (Nat.zero_add _), whole⟩

end TapeScript
