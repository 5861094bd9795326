import TapeScript.Proofs.Optimization
import TapeScript.Proofs.Result
import TapeScript.Proofs.Source

/-! Compilation succeeds on every source text with accepted extensions, and what it makes is read as a
tree that depends on the brackets and idioms of the source alone. -/
namespace TapeScript

namespace Extension

private theorem single_of_check {seen : List String} {extensions : List Extension}
    (accepted : checkAfter seen extensions = .ok ()) :
    ∀ extension ∈ extensions, Text.length16 extension.symbol = 1 := by
  induction extensions generalizing seen with
  | nil => simp
  | cons extension extensions ih =>
    simp only [checkAfter, Error.require, bind, Except.bind] at accepted
    split at accepted
    · cases accepted
    · rename_i single
      have length : Text.length16 extension.symbol = 1 := by
        split at single
        · simpa using ‹(Text.length16 extension.symbol == 1) = true›
        · cases single
      split at accepted
      · cases accepted
      · split at accepted
        · cases accepted
        · intro other member
          rcases List.mem_cons.mp member with rfl | later
          · exact length
          · exact ih accepted other later

/-- A text of one code unit is any of its characters. -/
theorem symbol_eq {symbol : String} {c : Char} (length : Text.length16 symbol = 1) (member : c ∈ symbol.toList) :
    symbol = String.singleton c := by
  have unit (c : Char) : 1 ≤ (Text.charUnits c).length := by
    simp only [Text.charUnits]
    split <;> simp
  apply String.toList_inj.mp
  rw [String.toList_singleton]
  rw [Text.length16, Text.units] at length
  cases chars : symbol.toList with
  | nil => simp [chars] at member
  | cons first rest =>
    rw [chars, List.flatMap_cons, List.length_append] at length
    have here := unit first
    cases rest with
    | nil =>
      rw [chars] at member
      rw [List.mem_singleton.mp member]
    | cons second rest =>
      rw [List.flatMap_cons, List.length_append] at length
      have there := unit second
      omega

/-- Every instruction that is an extension has a template. -/
theorem template_found {extensions : List Extension} {c : Char} (accepted : check extensions = .ok ())
    (found : extensions.any (·.symbol.toList.contains c) = true) :
    (template? extensions (some (String.singleton c))).isSome = true := by
  obtain ⟨extension, member, has⟩ := List.any_eq_true.mp found
  have symbol := symbol_eq (single_of_check accepted extension member) (by simpa using has)
  rw [template?, Option.isSome_map, List.find?_isSome]
  exact ⟨extension, member, by simp [symbol]⟩

end Extension

namespace Source

variable {extensions : List Extension}

private theorem sourced_instruction {c : Char} (eof : EndOfInput) (accepted : Extension.check extensions = .ok ())
    (instruction : isInstruction extensions c = true) : (ofInstruction c).Sourced { eof, extensions } := by
  unfold ofInstruction
  split
  case h_9 =>
    refine ⟨rfl, Token.printable_extension rfl (Extension.template_found accepted ?_)⟩
    have other : coreSymbols.toList.contains c = false := by
      have symbols : coreSymbols.toList = ['+', '-', '<', '>', '[', ']', '.', ','] := by decide
      rw [symbols]
      simp
      refine ⟨?_, ?_, ?_, ?_, ?_, ?_, ?_, ?_⟩ <;> assumption
    rwa [isInstruction, other, Bool.false_or] at instruction
  all_goals exact ⟨rfl, Token.Common.printable (by simp [Token.Common, Token.single, Token.counted])⟩

private theorem mem_tokens {chars : List Char} : ∀ token ∈ tokens chars, (∃ c ∈ chars, token = ofInstruction c) ∨
    token = .single .clear ∨ token = .single .scanLeft ∨ token = .single .scanRight := by
  induction chars using tokens.induct with
  | case1 => simp [tokens]
  | case2 rest ih | case3 rest ih | case4 rest ih | case5 rest ih =>
    intro token member
    rw [tokens] at member
    rcases List.mem_cons.mp member with rfl | later
    · simp
    · rcases ih token later with ⟨c, inside, same⟩ | idiom
      · exact .inl ⟨c, by simp [inside], same⟩
      · exact .inr idiom
  | case6 c rest _ _ _ _ ih =>
    intro token member
    rw [tokens] at member
    · rcases List.mem_cons.mp member with rfl | later
      · exact .inl ⟨c, by simp, rfl⟩
      · rcases ih token later with ⟨c, inside, same⟩ | idiom
        · exact .inl ⟨c, by simp [inside], same⟩
        · exact .inr idiom
    all_goals assumption

theorem length_tokens (chars : List Char) : (tokens chars).length ≤ chars.length := by
  induction chars using tokens.induct with
  | case1 => simp [tokens]
  | case2 rest ih | case3 rest ih | case4 rest ih | case5 rest ih =>
    rw [tokens]
    simp only [List.length_cons]
    omega
  | case6 c rest _ _ _ _ ih =>
    rw [tokens]
    · exact Nat.succ_le_succ ih
    all_goals assumption

/-- The tree of a source text: its instructions without the stray brackets, one by one. -/
def Grows (extensions : List Extension) (source : String) (raw : Code) : Prop :=
  ∃ kept, Brackets.Sifted (· == '[') (· == ']') false (instructions extensions source) kept ∧
    Reads (kept.map ofInstruction) raw ∧ Reads (tokens kept) raw.idiomize

theorem exists_grows (extensions : List Extension) (source : String) : ∃ raw, Grows extensions source raw := by
  obtain ⟨kept, sifted⟩ := Brackets.exists_sifted (· == '[') (· == ']') (instructions extensions source)
  obtain ⟨raw, reads, readsTokens⟩ := reads_tokens sifted.balanced
  exact ⟨raw, kept, sifted, reads, readsTokens⟩

theorem mem_of_sifted {opens closes : α → Bool} {waits : Bool} {items kept : List α}
    (sifted : Brackets.Sifted opens closes waits items kept) : kept.Sublist items := by
  induction sifted with
  | nil => exact .slnil
  | other _ _ _ ih => exact ih.cons_cons _
  | pair _ _ _ _ _ ih => exact (List.Sublist.refl _).append (ih.cons_cons _)
  | closer _ _ _ ih | opener _ _ ih => exact ih.cons _

/-- The stream of a source text is read as its tree with tokens for the idioms, less the leading loops. -/
theorem parse_ok {source : String} {raw : Code} (eof : EndOfInput) (accepted : Extension.check extensions = .ok ())
    (grows : Grows extensions source raw) :
    ∃ parsed, parse extensions source = .ok parsed ∧ Reads parsed raw.idiomize.skipLoops ∧
      (∀ token ∈ parsed, token.Sourced { eof, extensions }) ∧ parsed.length ≤ source.length := by
  obtain ⟨kept, sifted, _, reads⟩ := grows
  have siftedTokens := sifted_tokens sifted
  obtain ⟨parsed, skipped, readsParsed, suffix⟩ := reads.skipLeadingLoops
  refine ⟨parsed, ?_, readsParsed, ?_, ?_⟩
  · rw [parse, accepted, pairedOnly_eq siftedTokens]
    exact skipped
  · intro token member
    rcases mem_tokens token (suffix.subset member) with ⟨c, inside, rfl⟩ | rfl | rfl | rfl
    · have instruction : c ∈ instructions extensions source := (mem_of_sifted sifted).subset inside
      exact sourced_instruction eof accepted (List.mem_filter.mp instruction).2
    all_goals exact ⟨rfl, Token.Common.printable (by simp [Token.Common, Token.single, Token.counted])⟩
  · calc parsed.length ≤ (tokens kept).length := suffix.length_le
      _ ≤ (tokens (instructions extensions source)).length := (mem_of_sifted siftedTokens).length_le
      _ ≤ (instructions extensions source).length := length_tokens _
      _ ≤ source.toList.length := List.length_filter_le _ _
      _ = source.length := String.length_toList

/-- A source text that is read has accepted extensions, and the tokens of its stream are among those of its
instructions. -/
theorem parse_cases {source : String} {parsed : List Token} (parses : parse extensions source = .ok parsed) :
    Extension.check extensions = .ok () ∧ parsed ⊆ tokens (instructions extensions source) := by
  obtain ⟨_, accepted, skips⟩ := bind_ok_iff.mp parses
  obtain ⟨raw, kept, sifted, _, reads⟩ := exists_grows extensions source
  obtain ⟨other, skipped, _, suffix⟩ := reads.skipLeadingLoops
  have siftedTokens := sifted_tokens sifted
  rw [pairedOnly_eq siftedTokens] at skips
  obtain rfl := Except.ok.inj (skipped.symm.trans skips)
  exact ⟨accepted, fun _ member => (mem_of_sifted siftedTokens).subset (suffix.subset member)⟩

/-- The loops of a source that is read nest. -/
theorem reads_of_parse {source : String} {parsed : List Token} (parses : parse extensions source = .ok parsed) :
    ∃ code, Reads parsed code := by
  obtain ⟨raw, grows⟩ := exists_grows extensions source
  obtain ⟨other, parsesOther, reads, _⟩ := parse_ok .halt (parse_cases parses).1 grows
  obtain rfl := Except.ok.inj (parsesOther.symm.trans parses)
  exact ⟨_, reads⟩

/-- No token stands for more than one instruction of the source, and none for a loop that was reduced. -/
theorem single_of_parse {source : String} {parsed : List Token} (parses : parse extensions source = .ok parsed) :
    ∀ token ∈ parsed, token.amount = 1 ∧ token.kind ≠ .reduced := by
  have instruction (c : Char) : (ofInstruction c).amount = 1 ∧ (ofInstruction c).kind ≠ .reduced := by
    unfold ofInstruction
    split <;> exact ⟨rfl, nofun⟩
  intro token member
  rcases mem_tokens token ((parse_cases parses).2 member) with ⟨c, _, rfl⟩ | rfl | rfl | rfl
  · exact instruction c
  all_goals exact ⟨rfl, nofun⟩

end Source

/-- The weight of a tree is that of its stream. -/
theorem Reads.weight_eq {tokens : List Token} {code : Code} (reads : Reads tokens code) :
    code.weight = Token.weight tokens := by
  induction reads with
  | halt => rfl
  | token _ _ ih => simp [Code.weight, ih, Token.weight]
  | loop opening _ closing _ ihInner ih =>
    simp [Code.weight, ihInner, ih, Token.weight, Token.weight_append, Token.cellChange, opening, closing]

theorem Token.weight_of_sourced {dialect : Dialect} {tokens : List Token}
    (sourced : ∀ token ∈ tokens, token.Sourced dialect) : weight tokens ≤ tokens.length := by
  induction tokens with
  | nil => simp [weight]
  | cons token tokens ih =>
    have later := ih fun other member => sourced other (by simp [member])
    have small : token.cellChange.natAbs ≤ 1 := by
      have single := (sourced token (by simp)).single
      unfold cellChange
      split <;> simp [single]
    simp only [weight, List.length_cons] at later ⊢
    omega

/-- The tree of a compiled program. -/
def Code.compiled (raw : Code) (optimize : Bool) : Code :=
  if optimize then raw.idiomize.skipLoops.optimized else raw.idiomize.skipLoops

/-- Compilation succeeds. Without optimization no length matters. -/
theorem compile_ok {source : String} {raw : Code} (given : CompileOptions)
    (accepted : Extension.check given.extensions = .ok ()) (grows : Source.Grows given.extensions source raw)
    (short : given.optimize = true → source.length < UInt32.size) :
    ∃ compilation, compile source given = .ok compilation ∧ compilation.options = given.withDefaults ∧
      Reads compilation.tokens (raw.compiled given.optimize) := by
  obtain ⟨parsed, parses, reads, sourced, length⟩ := Source.parse_ok given.eof accepted grows
  have dialect : given.withDefaults.dialect = { eof := given.eof, extensions := given.extensions } := rfl
  have parses : Source.parse given.withDefaults.extensions source = .ok parsed := parses
  have optimize : given.withDefaults.optimize = given.optimize := rfl
  cases choice : given.optimize with
  | false =>
    obtain ⟨script, emitted⟩ := emitProgram_ok (fun token member => (sourced token member).printable)
      ((Literal.buffer given.withDefaults.input?).map fun byte => (byte.toNat : Int))
    refine ⟨{ options := given.withDefaults, tokens := parsed, stats := (Stages.plain parsed).stats, script
              description := [] }, ?_, rfl, reads⟩
    simp only [compile, parses, optimize, choice, Bool.false_eq_true, if_false, dialect, Stages.plain, emitted, bind,
      Except.bind]
  | true =>
    have light : raw.idiomize.skipLoops.weight < UInt32.size := by
      have weight := Token.weight_of_sourced sourced
      have bound := short choice
      rw [reads.weight_eq]
      omega
    obtain ⟨stages, optimized, readsFused, printable⟩ := Optimization.optimized_ok reads sourced light
    obtain ⟨lines, described⟩ := describe_ok printable
    obtain ⟨script, emitted⟩ := emitProgram_ok printable
      ((Literal.buffer given.withDefaults.input?).map fun byte => (byte.toNat : Int))
    refine ⟨{ options := given.withDefaults, tokens := stages.fused, stats := stages.stats, script
              description := lines }, ?_, rfl, readsFused⟩
    simp only [compile, parses, optimize, choice, if_true, dialect, optimized, described, emitted, bind, Except.bind]

/-- What compilation goes through, stage by stage. -/
theorem compile_ok_iff {source : String} {given : CompileOptions} {compilation : Compilation} :
    compile source given = .ok compilation ↔ ∃ parsed stages description script,
      Source.parse given.extensions source = .ok parsed ∧
      (if given.optimize then Stages.optimized parsed else .ok (Stages.plain parsed)) = .ok stages ∧
      (if given.optimize then stages.describe else .ok []) = .ok description ∧
      emitProgram given.dialect ((Literal.buffer given.input?).map fun byte => (byte.toNat : Int)) stages.fused =
        .ok script ∧
      { options := given.withDefaults, tokens := stages.fused, stats := stages.stats, script, description } =
        compilation := by
  have optimize : given.withDefaults.optimize = given.optimize := rfl
  rw [compile]
  cases choice : given.optimize <;> simp only [optimize, choice, Bool.false_eq_true, if_true, if_false, bind_ok_iff,
    Except.ok.injEq, exists_and_left, exists_eq_left'] <;> rfl

/-- A program is compiled only with extensions that keep the rules. -/
theorem Extension.check_of_compile {source : String} {given : CompileOptions} {compilation : Compilation}
    (compiled : compile source given = .ok compilation) : check given.extensions = .ok () := by
  have extensions : given.withDefaults.extensions = given.extensions := rfl
  cases accepted : check given.extensions with
  | ok => rfl
  | error => simp [compile, Source.parse, extensions, accepted, bind, Except.bind] at compiled

/-- A compiled program knows the options it was compiled with. -/
theorem options_of_compile {source : String} {given : CompileOptions} {compilation : Compilation}
    (compiled : compile source given = .ok compilation) : compilation.options = given.withDefaults := by
  obtain ⟨_, _, _, _, _, _, _, _, rfl⟩ := compile_ok_iff.mp compiled
  rfl

/-- A program whose stages are known. -/
theorem compile_of_stages {source : String} {given : CompileOptions} {parsed : List Token} {stages : Stages}
    (parses : Source.parse given.extensions source = .ok parsed) (optimize : given.optimize = true)
    (optimized : Stages.optimized parsed = .ok stages) (short : source.length < UInt32.size) :
    ∃ compilation, compile source given = .ok compilation ∧ compilation.options = given.withDefaults ∧
      compilation.tokens = stages.fused := by
  obtain ⟨raw, grows⟩ := Source.exists_grows given.extensions source
  obtain ⟨compilation, compiled, options, _⟩ := compile_ok given (Source.parse_cases parses).1 grows fun _ => short
  refine ⟨compilation, compiled, options, ?_⟩
  obtain ⟨_, _, _, _, parsesOther, made, _, _, rfl⟩ := compile_ok_iff.mp compiled
  obtain rfl := Except.ok.inj (parses.symm.trans parsesOther)
  rw [optimize] at made
  obtain rfl := Except.ok.inj (optimized.symm.trans made)
  rfl

/-- Without optimization the stream is that of the source text. -/
theorem tokens_of_plain {source : String} {given : CompileOptions} {compilation : Compilation}
    (optimize : given.optimize = false) (compiled : compile source given = .ok compilation) :
    Source.parse given.extensions source = .ok compilation.tokens ∧ compilation.options = given.withDefaults := by
  obtain ⟨parsed, stages, _, _, parses, made, _, _, rfl⟩ := compile_ok_iff.mp compiled
  rw [optimize] at made
  cases made
  exact ⟨parses, rfl⟩

/-- The tree that is compiled, as the stages take it. -/
theorem each_inner {source : String} {extensions : List Extension} {raw : Code} (eof : EndOfInput)
    (accepted : Extension.check extensions = .ok ()) (grows : Source.Grows extensions source raw) :
    raw.idiomize.skipLoops.Each (Token.Inner { eof, extensions }) ∧ raw.idiomize.skipLoops.weight ≤ source.length := by
  obtain ⟨parsed, _, reads, sourced, length⟩ := Source.parse_ok eof accepted grows
  constructor
  · exact (reads.each_plain fun token member _ => sourced token member).imp fun _ holds =>
      ⟨holds.1, Optimization.counted_of_sourced holds.2, holds.2.printable⟩
  · rw [reads.weight_eq]
    exact Nat.le_trans (Token.weight_of_sourced sourced) length

end TapeScript
