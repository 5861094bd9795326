import TapeScript.Compilation
import TapeScript.Proofs.Result

/-! The causes for which compilation gives up. Each stage has a few of its own; a mismatch, a fault of the
surroundings or a wrong use of the command is none of them. -/
namespace TapeScript

theorem Extension.checkAfter_staged (seen : List String) (extensions : List Extension) :
    Staged (checkAfter seen extensions) := by
  induction extensions generalizing seen with
  | nil => exact .ok ()
  | cons extension extensions ih =>
    exact (Staged.require rfl).bind fun _ => (Staged.require rfl).bind fun _ => (Staged.require rfl).bind fun _ => ih _

theorem skipLoops_staged (depth : Nat) (tokens : List Token) : Staged (skipLoops depth tokens) := by
  fun_induction skipLoops depth tokens with
  | case1 | case3 => exact .ok _
  | case4 => exact .error rfl
  | case2 _ _ _ ih | case5 _ _ _ _ ih | case6 _ _ _ _ _ ih | case7 _ _ _ _ _ ih => exact ih

theorem Source.parse_staged (extensions : List Extension) (source : String) : Staged (parse extensions source) :=
  (Extension.checkAfter_staged [] extensions).bind fun _ => skipLoops_staged 0 _

namespace Token

theorem addAt_staged (offset delta : Int) : Staged (addAt offset delta) := (Staged.require rfl).bind fun _ => .ok _

theorem addMove_staged (delta step : Int) : Staged (addMove delta step) := (Staged.require rfl).bind fun _ => .ok _

theorem mulAdd_staged (offset delta divisor : Int) : Staged (mulAdd offset delta divisor) :=
  (Staged.require rfl).bind fun _ => .ok _

end Token

namespace Reduction

theorem statement_staged (once : Bool) (divisor : Int) (change : Change) : Staged (change.statement once divisor) := by
  cases change with
  | clear | settled => exact .ok _
  | scaled offset delta => exact .ite (.ok _) (Token.mulAdd_staged _ _ _)

theorem statements_staged (once : Bool) (divisor : Int) (changes : List Change) :
    Staged (statements once divisor changes) := by
  induction changes with
  | nil => exact .ok _
  | cons change changes ih => exact (statement_staged once divisor change).bind fun _ => ih.bind fun _ => .ok _

theorem reduceBody_staged (body : List Token) : Staged (reduceBody body) := by
  unfold reduceBody
  refine .ite ?_ (.ok _)
  split
  · exact .ok _
  · exact .ite ((statements_staged _ _ _).bind fun _ => .ok _) (.ok _)

theorem closeLoop_staged (progress : Progress) (marker : Token) : Staged (progress.closeLoop marker) := by
  unfold Progress.closeLoop
  split
  · exact .error rfl
  · refine .ite ((reduceBody_staged _).bind fun reduced? => ?_) (.ok _)
    cases reduced? <;> exact .ok _

theorem take_staged (progress : Progress) (token : Token) : Staged (progress.take token) := by
  unfold Progress.take
  split
  · exact .ok _
  · exact closeLoop_staged _ _
  · exact .ok _

theorem reduceStream_staged (tokens : List Token) : Staged (reduceStream tokens) :=
  (Staged.foldlM take_staged tokens {}).bind fun _ => (Staged.require rfl).bind fun _ => .ok _

end Reduction

theorem TokenKind.inverse_staged (kind : TokenKind) : Staged kind.inverse := by
  cases kind <;> first | exact .ok _ | exact .error rfl

namespace Fusion

theorem thereAndBack_staged (tokens : List Token) : Staged (thereAndBack tokens) := by
  unfold thereAndBack
  split
  · refine .ite ?_ (.ok _)
    exact (TokenKind.inverse_staged _).bind fun _ =>
      .ite (.ite (.ok _) ((Token.addAt_staged _ _).bind fun _ => .ok _)) (.ok _)
  · exact .ok _

theorem updateThenStep_staged (tokens : List Token) : Staged (updateThenStep tokens) := by
  unfold updateThenStep
  split
  · exact .ite ((Token.addMove_staged _ _).bind fun _ => .ok _) (.ok _)
  · exact .ok _

theorem moveThenUpdate_staged (tokens : List Token) : Staged (moveThenUpdate tokens) := by
  unfold moveThenUpdate
  split
  · exact .ite (.ite (.ok _) (.ok _)) (.ok _)
  · exact .ok _

theorem replacement?_staged (tokens : List Token) (rules : List Rule) (each : ∀ rule ∈ rules, Staged (rule tokens)) :
    Staged (replacement? tokens rules) := by
  induction rules with
  | nil => exact .ok _
  | cons rule rules ih =>
    refine (each rule (by simp)).bind fun found? => ?_
    cases found? with
    | some found => exact .ok _
    | none => exact ih fun rule member => each rule (by simp [member])

theorem rules_staged (tokens : List Token) : ∀ rule ∈ rules, Staged (rule tokens) := by
  simp only [rules, List.forall_mem_cons]
  exact ⟨thereAndBack_staged tokens, updateThenStep_staged tokens, moveThenUpdate_staged tokens, by simp⟩

theorem replaceAfter_staged (taken : Nat) (tokens : List Token) : Staged (replaceAfter taken tokens) := by
  induction tokens generalizing taken with
  | nil =>
    cases taken <;> exact .ok _
  | cons token tokens ih =>
    cases taken with
    | succ taken => exact ih taken
    | zero =>
      refine (replacement?_staged _ _ (rules_staged _)).bind fun found? => ?_
      cases found? <;> exact (ih _).bind fun _ => .ok _

end Fusion

theorem Stages.optimized_staged (source : List Token) : Staged (optimized source) :=
  (Reduction.reduceStream_staged _).bind fun _ => (Fusion.replaceAfter_staged 0 _).bind fun _ => .ok _

namespace Token

mutual

private theorem text_staged : (token : Token) → Staged token.text
  | ⟨kind, amount, offset, divisor?, body?, symbol?⟩ => by
    unfold text
    split
    · exact .ok _
    · cases kind with
      | reduced => exact (bodyTexts_staged body?).bind fun _ => .ok _
      | extension =>
        dsimp only
        split <;> exact .ok _
      | addAt | clearAt | addMove | moveAdd | moveClear | mulAdd | condAdd | condClear => exact .ok _
      | _ => exact .error rfl

private theorem bodyTexts_staged : (body? : Option (List Token)) → Staged (bodyTexts body?)
  | none => .ok _
  | some tokens => texts_staged tokens

private theorem texts_staged : (tokens : List Token) → Staged (texts tokens)
  | [] => .ok _
  | token :: tokens => (text_staged token).bind fun _ => (texts_staged tokens).bind fun _ => .ok _

end

variable {dialect : Dialect}

private theorem countStatement_staged (token : Token) : Staged token.countStatement := by
  have inverse (m : Int) : Staged (Numeric.oddInverse m) := .ite (.ok _) (.error rfl)
  have formula (divisor : Int) : Staged (CountFormula.ofDivisor divisor) := (inverse _).bind fun _ => .ok _
  exact .ite (.ok _) ((formula _).bind fun _ => .ok _)

mutual

private theorem template_staged : (token : Token) → Staged (token.template dialect)
  | ⟨kind, amount, offset, divisor?, body?, symbol?⟩ => by
    cases kind with
    | reduced =>
      exact (bodyTemplates_staged body?).bind fun _ => (countStatement_staged _).bind fun _ => .ok _
    | extension =>
      unfold template
      dsimp only
      split
      · exact .ok _
      · exact .error rfl
    | unknown code => exact .error rfl
    | _ => exact .ok _

private theorem bodyTemplates_staged : (body? : Option (List Token)) → Staged (bodyTemplates dialect body?)
  | none => .ok _
  | some tokens => templates_staged tokens

private theorem templates_staged : (tokens : List Token) → Staged (templates dialect tokens)
  | [] => .ok _
  | token :: tokens => (template_staged token).bind fun _ => (templates_staged tokens).bind fun _ => .ok _

end

end Token

theorem Stages.describe_staged (stages : Stages) : Staged stages.describe := by
  have text : Staged (streamText stages.fused) := (Token.texts_staged _).bind fun _ => .ok _
  exact text.bind fun _ => .ok _

theorem emitProgram_staged (dialect : Dialect) (numbers : List Int) (tokens : List Token) :
    Staged (emitProgram dialect numbers tokens) := by
  have add (emission : Emission) (token : Token) : Staged (emission.add dialect token) := by
    have emit : Staged (token.emit dialect) := (Token.template_staged token).bind fun _ => .ok _
    exact emit.bind fun _ => .ok _
  have statements : Staged (emitStatements dialect tokens) := (Staged.foldlM add tokens {}).bind fun _ => .ok _
  exact statements.bind fun _ => .ok _

/-- Whatever the source text and the options, compilation fails for a cause of its own. -/
theorem compile_staged (source : String) (given : CompileOptions) : Staged (compile source given) := by
  -- The rest is the same for the four ways through the two choices on optimization.
  have finish (stages : Stages) (description : List String) :
      Staged (do
        let script ← emitProgram given.withDefaults.dialect
          ((Literal.buffer given.withDefaults.input?).map fun byte => (byte.toNat : Int)) stages.fused
        Except.ok (Compilation.mk given.withDefaults stages.fused stages.stats script description)) :=
    (emitProgram_staged _ _ _).bind fun _ => .ok _
  refine (Source.parse_staged _ _).bind fun parsed => ?_
  have described (stages : Stages) := (stages.describe_staged).bind (finish stages)
  exact .ite ((Stages.optimized_staged parsed).bind fun stages => .ite (described stages) (finish stages []))
    (.ite (described _) (finish _ []))

end TapeScript
