import TapeScript.Proofs.Emission
import TapeScript.Proofs.Stream.Cancellation
import TapeScript.Proofs.Stream.RunLength

/-! The stages of optimization in a row. Each keeps what a program does; only reduction asks for
something, the pointer being inside the tape where a reduced loop starts. -/
namespace TapeScript

namespace Code

/-- The tree after runs have been counted. -/
def counted (code : Code) : Code := (code.rewrite Cancellation.normalForm []).rewrite RunLength.compress []

def optimized (code : Code) : Code := code.counted.reduce.rewrite Fusion.fuse []

/-- Whether optimization reduces the loop with this body. -/
def isReduced (body : Code) : Bool :=
  match body.tokens? with
  | some tokens => (Reduction.reduced? (RunLength.compress (Cancellation.normalForm tokens))).isSome
  | none => false

theorem isReduced_iff (body : Code) : body.counted.reducedLoop?.isSome = body.isReduced := by
  rw [counted, reducedLoop?, tokens?_rewrite, tokens?_rewrite, isReduced]
  cases body.tokens? <;> rfl

/-- Loops that are reduced start inside the tape. -/
def StartsInside {ρ : Type} (body : Code) (state : State ρ) : Prop :=
  body.isReduced = true → state.tape.Covers state.pointer

end Code

/-- Tokens that stand for themselves once, as source text makes them. -/
structure Token.Sourced (dialect : Dialect) (token : Token) : Prop where
  single : token.amount = 1
  printable : token.Printable dialect

/-- What the stages know of a token between two markers. -/
structure Token.Inner (dialect : Dialect) (token : Token) : Prop where
  plain : token.isMarker = false
  counted : token.Counted
  printable : token.Printable dialect

namespace Optimization

variable {dialect : Dialect}

theorem counted_of_sourced {token : Token} (sourced : token.Sourced dialect) : token.Counted := by
  intro _
  exact Int.le_of_eq sourced.single.symm

private theorem each_normalForm {tokens : List Token}
    (all : ∀ token ∈ tokens, token.Inner dialect) :
    ∀ token ∈ Cancellation.normalForm tokens, token.Inner dialect := by
  intro token member
  rcases Cancellation.mem_normalForm member with old | ⟨source, _, foldable, rfl⟩
  · exact all token old
  · have single : (Token.single source.kind).isFoldable = true := foldable
    exact ⟨Token.not_marker_of_foldable single, fun _ => Int.le_refl _, (Token.common_of_foldable single).printable⟩

private theorem each_compress {tokens : List Token}
    (all : ∀ token ∈ tokens, token.Inner dialect) :
    ∀ token ∈ RunLength.compress tokens, token.Inner dialect := by
  intro token member
  rcases RunLength.mem_compress member with old | ⟨source, _, count, foldable, positive, _, rfl⟩
  · exact all token old
  · have counted : (Token.counted source.kind count).isFoldable = true := foldable
    exact ⟨Token.not_marker_of_foldable counted, fun _ => by exact Int.ofNat_le.mpr positive,
      (Token.common_of_foldable counted).printable⟩

private theorem each_fuse {tokens : List Token}
    (all : ∀ token ∈ tokens, token.Inner dialect) :
    ∀ token ∈ Fusion.fuse tokens, token.Printable dialect := by
  intro token member
  rcases Fusion.mem_fuse (fun token member => (all token member).counted) member with old | fused
  · exact (all token old).printable
  · exact fused.common.printable

section

variable {source : List Token} {code : Code}

private theorem each_counted (each : code.Each (Token.Inner dialect)) :
    code.counted.Each (Token.Inner dialect) :=
  (each.rewrite (fun _ => each_normalForm) [] (by simp)).rewrite (fun _ => each_compress) [] (by simp)

private theorem weight_counted (each : code.Each (Token.Inner dialect)) :
    code.counted.weight ≤ code.weight := by
  have first := Code.weight_rewrite each (fun tokens all =>
    Cancellation.weight_normalForm fun token member => (all token member).counted) [] (by simp)
  have second := Code.weight_rewrite (each.rewrite (fun _ => each_normalForm) [] (by simp))
    (fun tokens _ => Nat.le_of_eq (RunLength.weight_compress tokens)) [] (by simp)
  simp only [Token.weight, Nat.zero_add] at first second
  exact Nat.le_trans second first

private theorem each_reduced (each : code.Each (Token.Inner dialect))
    (light : code.weight < UInt32.size) :
    code.counted.reduce.Each (Token.Inner dialect) := by
  have counted := each_counted each
  have bound := Nat.lt_of_le_of_lt (weight_counted each) light
  apply (Reduction.each_reduce counted (counted.imp fun _ holds => holds.counted) bound).imp
  rintro token (old | made)
  · exact old
  · refine ⟨?_, ?_, made.printable⟩ <;> obtain ⟨walk, _, _, rfl⟩ := made
    · rfl
    · intro foldable
      cases foldable

end

/-- Optimization succeeds on every stream of single tokens, and its result is read as the optimized tree. -/
theorem optimized_ok {source : List Token} {code : Code} (reads : Reads source code)
    (sourced : ∀ token ∈ source, token.Sourced dialect) (light : code.weight < UInt32.size) :
    ∃ stages, Stages.optimized source = .ok stages ∧ Reads stages.fused code.optimized ∧
      ∀ token ∈ stages.fused, token.Printable dialect := by
  have each : code.Each (Token.Inner dialect) :=
    (reads.each_plain fun token member _ => sourced token member).imp fun _ holds =>
      ⟨holds.1, counted_of_sourced holds.2, holds.2.printable⟩
  have readsCancelled := Cancellation.stretchwise.reads reads fun token member _ =>
    counted_of_sourced (sourced token member)
  have readsCounted := (RunLength.stretchwise fun _ => True).reads readsCancelled fun _ _ _ => trivial
  have markers (token : Token) (marker : token.isMarker = true) : token.Counted := by
    intro foldable
    rw [Token.not_foldable_of_marker marker] at foldable
    cases foldable
  have countedTokens := readsCounted.all ((each_counted each).imp fun _ holds => holds.counted) markers
  obtain ⟨reduction, reduced, readsReduced⟩ := Reduction.reduceStream_reads readsCounted countedTokens
  have reducedTokens := readsReduced.all ((each_reduced each light).imp fun _ holds => holds.counted) markers
  have fused := Fusion.replaceAll_ok reducedTokens
  have readsFused := Fusion.stretchwise.reads readsReduced fun token member _ => reducedTokens token member
  have printable := readsFused.all ((each_reduced each light).rewrite (fun _ => each_fuse) [] (by simp))
    fun token marker => (Token.common_of_marker marker).printable
  exact ⟨_, by simp only [Stages.optimized, reduced, fused, bind, Except.bind]; rfl, readsFused, printable⟩

variable {ρ : Type} [Host ρ] {meaning : Meaning ρ}

/-- What a program does it does optimized, if its reduced loops start inside the tape. -/
theorem runs_optimized {code : Code} {following : Nat} {state : State ρ} {whole : Behaviour ρ}
    (each : code.Each (Token.Inner dialect))
    (light : code.weight < UInt32.size) (runs : code.Runs Code.StartsInside meaning following state whole) :
    code.optimized.Runs Code.Unguarded meaning following state whole := by
  have eachCancelled := each.rewrite (fun _ => each_normalForm) [] (by simp)
  have guarded : code.counted.Runs Reduction.Inside meaning following state whole := by
    rw [Code.counted,
      (RunLength.stretchwise fun _ => True).runs _ (eachCancelled.imp fun _ holds => ⟨holds.plain, trivial⟩),
      Cancellation.stretchwise.runs _ (each.imp fun _ holds => ⟨holds.plain, holds.counted⟩)]
    apply runs.imp
    intro body state inside reduced
    exact inside (by rw [← Code.isReduced_iff]; exact reduced)
  have reduced := Reduction.runs_reduce ((each_counted each).imp fun _ holds => holds.counted)
    (Nat.lt_of_le_of_lt (weight_counted each) light) guarded
  rw [Code.optimized,
    Fusion.stretchwise.runs _ ((each_reduced each light).imp fun _ holds => ⟨holds.plain, holds.counted⟩)]
  exact reduced

end Optimization
end TapeScript
