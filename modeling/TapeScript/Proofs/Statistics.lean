import TapeScript.Proofs.Compilation
import TapeScript.Proofs.Script.Lines
import TapeScript.Proofs.Stream.Lasting
import TapeScript.Proofs.Stream.Restoration

/-! The statistics of a compilation. They are taken at different stages and told by functions of their own; all
the same they are those of the program that is emitted. -/
namespace TapeScript

open Reduction (Reduces reduceBody reducedCount)

variable {tokens made parsed : List Token} {token : Token} {dialect : Dialect} {reduced kept : Nat}

/-- Before reduction no loop is made or taken away, and after it neither a loop nor a reduced one. -/
theorem countP_counted {kind : TokenKind} (lasts : kind.lasts = true) (tokens : List Token) :
    (RunLength.compress (Cancellation.normalForm tokens)).countP (·.kind == kind) = tokens.countP (·.kind == kind) :=
  countP_of_lasting lasts ((RunLength.lasting_compress _).trans (Cancellation.lasting_normalForm tokens))

theorem countP_fused {kind : TokenKind} (lasts : kind.lasts = true) (replaced : Fusion.replaceAll tokens = .ok made) :
    made.countP (·.kind == kind) = tokens.countP (·.kind == kind) :=
  countP_of_lasting lasts (Fusion.lasting_replaceAll replaced)

theorem reducedCount_eq_zero_iff : reducedCount tokens = 0 ↔ ∀ token ∈ tokens, token.kind ≠ .reduced := by
  simp [reducedCount, List.countP_eq_zero]

/-- A token of a stream that was reduced is one of the stream, or it is a reduced loop. -/
theorem Reduction.Reduces.mem (reduces : Reduces tokens made reduced kept) (member : token ∈ made) :
    token ∈ tokens ∨ ∃ body, reduceBody body = .ok (some token) := by
  induction reduces with
  | nil => cases member
  | token _ _ ih =>
    rcases List.mem_cons.mp member with rfl | later
    · exact .inl (by simp)
    · exact (ih later).imp_left fun old => by simp [old]
  | reduce _ reduces _ _ ih =>
    rcases List.mem_cons.mp member with rfl | later
    · exact .inr ⟨_, reduces⟩
    · exact (ih later).imp_left fun old => by simp [old]
  | keep _ _ _ _ _ ihInner ih =>
    simp only [List.mem_cons, List.mem_append] at member
    rcases member with rfl | inside | rfl | later
    · exact .inl (by simp)
    · exact (ihInner inside).imp_left fun old => by simp [old]
    · exact .inl (by simp)
    · exact (ih later).imp_left fun old => by simp [old]

theorem Reduction.Reduces.counted (reduces : Reduces tokens made reduced kept)
    (counted : ∀ token ∈ tokens, token.Counted) : ∀ token ∈ made, token.Counted := by
  intro token member foldable
  rcases reduces.mem member with old | ⟨body, shortens⟩
  · exact counted token old foldable
  · rcases Token.kind_of_foldable foldable with kind | kind | kind | kind <;>
      simp [kind_of_reduceBody shortens] at kind

theorem Reduction.laid_of_reduceBody {body : List Token} (oneLiners : Token.OneLiners dialect)
    (reduces : reduceBody body = .ok (some token)) : token.Laid dialect := by
  obtain ⟨walk, _, rfl⟩ := reducible_of_reduceBody reduces
  refine Token.laid_reduced (by simp [Walk.body]) fun statement member => ?_
  apply Token.laid_of_straight oneLiners
  rcases List.mem_append.mp member with inside | last
  · obtain ⟨change, _, rfl⟩ := List.mem_map.mp inside
    exact (change_common change _ _).2.1
  · simp [List.mem_singleton.mp last, Token.clearAt]

/-- The reduced loops of an optimized stream were made by reduction. -/
theorem reduced_of_fused {fused : List Token} (reduces : Reduces tokens made reduced kept)
    (counted : ∀ token ∈ tokens, token.Counted) (straight : ∀ token ∈ tokens, token.kind ≠ .reduced)
    (replaced : Fusion.replaceAll made = .ok fused) :
    ∀ token ∈ fused, token.kind ≠ .reduced ∨ ∃ body, reduceBody body = .ok (some token) := by
  intro token member
  have countedMade := reduces.counted counted
  obtain rfl := Except.ok.inj ((Fusion.replaceAll_ok countedMade).symm.trans replaced)
  rcases Fusion.mem_fuse countedMade member with old | fused
  · exact (reduces.mem old).imp_left (straight token)
  · exact .inl fused.common.2.1

/-- The tokens of an optimized stream have as many lines as they are counted for. -/
theorem laid_fused {fused : List Token} (oneLiners : Token.OneLiners dialect)
    (reduces : Reduces tokens made reduced kept)
    (counted : ∀ token ∈ tokens, token.Counted) (straight : ∀ token ∈ tokens, token.kind ≠ .reduced)
    (replaced : Fusion.replaceAll made = .ok fused) : ∀ token ∈ fused, token.Laid dialect := by
  intro token member
  rcases reduced_of_fused reduces counted straight replaced token member with straight | ⟨body, shortens⟩
  · exact Token.laid_of_straight oneLiners straight
  · exact Reduction.laid_of_reduceBody oneLiners shortens

/-- What the statistics say of the stream of a source, the stream of its program and the statements of that. -/
structure Stats.Accounts (stats : Stats) (parsed tokens : List Token) (text : String) : Prop where
  instructions : stats.instructions = parsed.length
  cancelled : stats.cancelled ≤ stats.instructions
  counted : stats.tokens ≤ stats.cancelled
  loops : stats.reducedLoops + stats.keptLoops = loopCount parsed
  keptLoops : stats.keptLoops = loopCount tokens
  reducedLoops : stats.reducedLoops = reducedCount tokens
  statements : stats.statements = Text.lineCount text
  whole : Text.Whole text

/-- The loops and sizes of some stages, and the lines of what they end with. -/
structure Stages.Sound (stages : Stages) (parsed : List Token) (dialect : Dialect) : Prop where
  source : stages.source = parsed
  cancelled : stages.cancelled.length ≤ parsed.length
  counted : stages.counted.length ≤ stages.cancelled.length
  loops : stages.reduction.reduced + stages.reduction.kept = loopCount parsed
  kept : stages.reduction.kept = loopCount stages.fused
  reduced : stages.reduction.reduced = reducedCount stages.fused
  laid : ∀ token ∈ stages.fused, token.Laid dialect

theorem Stages.Sound.accounts {stages : Stages} {text : String} (sound : stages.Sound parsed dialect)
    (emitted : emitStatements dialect stages.fused = .ok text) : stages.stats.Accounts parsed stages.fused text := by
  obtain ⟨lines, whole⟩ := lineCount_emitStatements sound.laid emitted
  exact {
    instructions := congrArg List.length sound.source
    cancelled := by simpa only [stats, sound.source] using sound.cancelled
    counted := sound.counted
    loops := sound.loops
    keptLoops := sound.kept
    reducedLoops := sound.reduced
    statements := lines.symm
    whole }

/-- A stream that is left as it is. -/
theorem Stages.sound_plain (oneLiners : Token.OneLiners dialect) (straight : ∀ token ∈ parsed, token.kind ≠ .reduced) :
    (Stages.plain parsed).Sound parsed dialect where
  source := rfl
  cancelled := Nat.le_refl _
  counted := Nat.le_refl _
  loops := Nat.zero_add _
  kept := rfl
  reduced := (reducedCount_eq_zero_iff.mpr straight).symm
  laid := fun token member => Token.laid_of_straight oneLiners (straight token member)

/-- The stages of a stream of single tokens. It holds no reduced loop before reduction. -/
theorem Stages.optimized_cases {stages : Stages} {code : Code} (reads : Reads parsed code)
    (single : ∀ token ∈ parsed, token.amount = 1 ∧ token.kind ≠ .reduced)
    (optimized : Stages.optimized parsed = .ok stages) :
    ∃ counted made reduced kept fused,
      stages = ⟨parsed, Cancellation.normalForm parsed, counted, ⟨made, reduced, kept⟩, fused⟩ ∧
      counted = RunLength.compress (Cancellation.normalForm parsed) ∧ (∀ token ∈ counted, token.Counted) ∧
      (∀ token ∈ counted, token.kind ≠ .reduced) ∧ Reduces counted made reduced kept ∧
      Fusion.replaceAll made = .ok fused := by
  obtain ⟨reduction, passes, optimized⟩ := bind_ok_iff.mp optimized
  obtain ⟨fused, replaced, optimized⟩ := bind_ok_iff.mp optimized
  cases optimized
  have counted : ∀ token ∈ parsed, token.Counted := fun token member _ => Int.le_of_eq (single token member).1.symm
  have countedStages := RunLength.counted_compress (Cancellation.counted_normalForm counted)
  have readsCounted := (RunLength.stretchwise fun _ => True).reads
    (Cancellation.stretchwise.reads reads fun token member _ => counted token member) fun _ _ _ => trivial
  obtain ⟨made, reduced, kept, reduces, _⟩ := Reduction.exists_reduces readsCounted countedStages
  obtain rfl := Except.ok.inj (reduces.reduceStream_eq.symm.trans passes)
  have none : reducedCount (RunLength.compress (Cancellation.normalForm parsed)) = 0 :=
    (countP_counted rfl parsed).trans (reducedCount_eq_zero_iff.mpr fun token member => (single token member).2)
  exact ⟨_, made, reduced, kept, fused, rfl, rfl, countedStages, reducedCount_eq_zero_iff.mp none, reduces, replaced⟩

/-- A stream of single tokens that is optimized. -/
theorem Stages.sound_optimized {stages : Stages} {code : Code} (oneLiners : Token.OneLiners dialect)
    (reads : Reads parsed code) (single : ∀ token ∈ parsed, token.amount = 1 ∧ token.kind ≠ .reduced)
    (optimized : Stages.optimized parsed = .ok stages) : stages.Sound parsed dialect := by
  obtain ⟨counted, made, reduced, kept, fused, rfl, rfl, countedStages, straight, reduces, replaced⟩ :=
    Stages.optimized_cases reads single optimized
  -- The source holds no reduced loop, so those of the result are the ones that this pass made.
  have more := reduces.reduced_eq
  rw [reducedCount_eq_zero_iff.mpr straight, Nat.zero_add] at more
  exact {
    source := rfl
    cancelled := Cancellation.length_normalForm fun token member => (single token member).1
    counted := RunLength.length_compress _
    loops := reduces.loops_eq.trans (countP_counted rfl parsed)
    kept := reduces.kept_eq.trans (countP_fused rfl replaced).symm
    reduced := more.symm.trans (countP_fused rfl replaced).symm
    laid := laid_fused oneLiners reduces countedStages straight replaced }

/-- A source text with accepted extensions is compiled, and whenever it is, the statistics are those of the program:
as many statements as its text has lines, and as many loops and reduced loops as its stream. Together these are the
loops of the source, and no stage before reduction makes the stream longer. -/
theorem statistics_account (source : String) (given : CompileOptions)
    (oneLiners : ∀ extension ∈ given.extensions, Text.OneLine extension.template) :
    (Extension.check given.extensions = .ok () → (given.optimize = true → source.length < UInt32.size) →
      ∃ compilation, compile source given = .ok compilation) ∧
    ∀ compilation, compile source given = .ok compilation →
      ∃ parsed text, Source.parse given.extensions source = .ok parsed ∧
        emitStatements given.dialect compilation.tokens = .ok text ∧
        compilation.stats.Accounts parsed compilation.tokens text := by
  obtain ⟨raw, grows⟩ := Source.exists_grows given.extensions source
  constructor
  · intro accepted short
    obtain ⟨compilation, compiled, _⟩ := compile_ok given accepted grows short
    exact ⟨compilation, compiled⟩
  · intro compilation compiled
    obtain ⟨parsed, stages, _, _, parses, made, _, emitted, rfl⟩ := compile_ok_iff.mp compiled
    obtain ⟨text, emitted, _⟩ := bind_ok_iff.mp emitted
    have single := Source.single_of_parse parses
    obtain ⟨other, parsesOther, reads, _⟩ := Source.parse_ok given.eof (Source.parse_cases parses).1 grows
    obtain rfl := Except.ok.inj (parsesOther.symm.trans parses)
    have sound : stages.Sound other given.dialect := by
      cases choice : given.optimize with
      | true =>
        rw [choice] at made
        exact Stages.sound_optimized oneLiners reads single made
      | false =>
        rw [choice] at made
        cases made
        exact Stages.sound_plain oneLiners fun token member => (single token member).2
    exact ⟨other, text, parses, emitted, sound.accounts emitted⟩

/-- A line for the count of a loop, and two for a token that updates and moves. -/
theorem statistics_account_counted :
    ∃ compilation parsed text,
      compile "#++[-->+<]+>" { extensions? := some [⟨"#", "rt.write(42);"⟩] } = .ok compilation ∧
      compilation.stats.Accounts parsed compilation.tokens text ∧ compilation.stats = ⟨12, 12, 10, 1, 0, 7⟩ ∧
      text = "rt.write(42);\nd[p] += 2;\nn = d[p] >>> 1;\nd[p + 1] += n;\nd[p] = 0;\nd[p]++;\np++;\n" := by
  let given : CompileOptions := { extensions? := some [⟨"#", "rt.write(42);"⟩] }
  let source : List Token := [.extension "#", .single .inc, .single .inc, .single .loopOpen, .single .dec, .single .dec,
    .single .right, .single .inc, .single .left, .single .loopClose, .single .inc, .single .right]
  let counted : List Token := [.extension "#", .counted .inc 2, .single .loopOpen, .counted .dec 2, .single .right,
    .single .inc, .single .left, .single .loopClose, .single .inc, .single .right]
  let loop : Token := .reduced [{ kind := .mulAdd, amount := 1, offset := 1, divisor? := some 2 }, .clearAt 0]
  let reduction : Reduction.Result := ⟨[.extension "#", .counted .inc 2, loop, .single .inc, .single .right], 1, 0⟩
  let fused : List Token := [.extension "#", .counted .inc 2, loop, { kind := .addMove, amount := 1, offset := 1 }]
  have parsesSource : Source.parse given.extensions "#++[-->+<]+>" = .ok source := rfl
  have stages : Stages.optimized source = .ok ⟨source, source, counted, reduction, fused⟩ := rfl
  have text : emitStatements given.dialect fused =
    .ok "rt.write(42);\nd[p] += 2;\nn = d[p] >>> 1;\nd[p + 1] += n;\nd[p] = 0;\nd[p]++;\np++;\n" := rfl
  have accepted : Extension.check given.extensions = .ok () := rfl
  have short : "#++[-->+<]+>".length < UInt32.size := by decide
  obtain ⟨succeeds, accounts⟩ := statistics_account "#++[-->+<]+>" given (by decide)
  obtain ⟨compilation, compiled⟩ := succeeds accepted fun _ => short
  obtain ⟨parsed, program, parses, emitted, sound⟩ := accounts compilation compiled
  have made : compilation.tokens = fused ∧ compilation.stats = ⟨12, 12, 10, 1, 0, 7⟩ := by
    obtain ⟨_, _, _, _, parsesOther, optimized, _, _, rfl⟩ := compile_ok_iff.mp compiled
    obtain rfl := Except.ok.inj (parsesSource.symm.trans parsesOther)
    have optimized : Stages.optimized source = .ok _ := optimized
    obtain rfl := Except.ok.inj (stages.symm.trans optimized)
    exact ⟨rfl, rfl⟩
  rw [made.1] at emitted
  exact ⟨compilation, parsed, program, compiled, sound, made.2, (Except.ok.inj (text.symm.trans emitted)).symm⟩

end TapeScript
