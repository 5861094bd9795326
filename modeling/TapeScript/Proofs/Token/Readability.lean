import TapeScript.Proofs.Token.Reading

/-! The text of a stream tells streams apart. A token is known from its lexemes whatever follows it, so are the tokens
of a stream up to its end, and the lexemes are known from the text. -/
namespace TapeScript

open Lexeme Reading

variable {sort : Token → Prop} {written : Token → List Lexeme} {tokens others : List Token} {rest more : List Lexeme}

/-- Tokens of some sort are known from their lexemes, whatever follows, and from where a stream ends none begins. -/
structure Readable (sort : Token → Prop) (written : Token → List Lexeme) : Prop where
  unique {first second : Token} {rest more : List Lexeme} : sort first → sort second → Boundary rest → Boundary more →
    written first ++ rest = written second ++ more → first = second ∧ rest = more
  begins {token : Token} {rest more : List Lexeme} : sort token → Boundary rest → Ends more →
    written token ++ rest ≠ more

namespace Readable

private theorem boundary_spaced (tokens : List Token) (ends : Ends rest) :
    Boundary (spacedLexemes written tokens ++ rest) := by
  cases tokens with
  | nil => exact ends.boundary
  | cons => trivial

private theorem spaced_ne (token : Token) (tokens : List Token) (ends : Ends more) :
    spacedLexemes written (token :: tokens) ++ rest ≠ more := by
  rintro rfl
  exact ends

private theorem spaced (readable : Readable sort written) (sorted : ∀ token ∈ tokens, sort token)
    (sortedOther : ∀ token ∈ others, sort token) (ends : Ends rest) (endsOther : Ends more)
    (same : spacedLexemes written tokens ++ rest = spacedLexemes written others ++ more) :
    tokens = others ∧ rest = more := by
  induction tokens generalizing others with
  | nil =>
    cases others with
    | nil => exact ⟨rfl, same⟩
    | cons other others => exact absurd same.symm (spaced_ne other others ends)
  | cons token tokens ih =>
    cases others with
    | nil => exact absurd same (spaced_ne token tokens endsOther)
    | cons other others =>
      rw [spacedLexemes_cons, spacedLexemes_cons] at same
      obtain ⟨here, later⟩ := List.forall_mem_cons.mp sorted
      obtain ⟨hereOther, laterOther⟩ := List.forall_mem_cons.mp sortedOther
      obtain ⟨rfl, tail⟩ := readable.unique here hereOther (boundary_spaced tokens ends)
        (boundary_spaced others endsOther) (List.cons.inj same).2
      obtain ⟨rfl, equal⟩ := ih later laterOther tail
      exact ⟨rfl, equal⟩

/-- Streams of such tokens are known from their lexemes, up to the end. -/
theorem stream (readable : Readable sort written) (sorted : ∀ token ∈ tokens, sort token)
    (sortedOther : ∀ token ∈ others, sort token) (ends : Ends rest) (endsOther : Ends more)
    (same : streamLexemes written tokens ++ rest = streamLexemes written others ++ more) :
    tokens = others ∧ rest = more := by
  cases tokens with
  | nil =>
    cases others with
    | nil => exact ⟨rfl, same⟩
    | cons other others =>
      rw [streamLexemes, streamLexemes, List.append_assoc] at same
      exact absurd same.symm (readable.begins (sortedOther other (by simp)) (boundary_spaced others endsOther) ends)
  | cons token tokens =>
    cases others with
    | nil =>
      rw [streamLexemes, streamLexemes, List.append_assoc] at same
      exact absurd same (readable.begins (sorted token (by simp)) (boundary_spaced tokens ends) endsOther)
    | cons other others =>
      rw [streamLexemes, streamLexemes, List.append_assoc, List.append_assoc] at same
      obtain ⟨here, later⟩ := List.forall_mem_cons.mp sorted
      obtain ⟨hereOther, laterOther⟩ := List.forall_mem_cons.mp sortedOther
      obtain ⟨rfl, tail⟩ := readable.unique here hereOther (boundary_spaced tokens ends)
        (boundary_spaced others endsOther) same
      obtain ⟨rfl, equal⟩ := readable.spaced later laterOther ends endsOther tail
      exact ⟨rfl, equal⟩

end Readable

theorem readable_flat : Readable Token.Flat Token.flatLexemes where
  unique first second boundary boundaryOther same := by
    have read := readToken_flat first boundary
    rw [same, readToken_flat second boundaryOther] at read
    simpa [eq_comm] using read
  begins flat boundary ends same := by
    have read := readToken_flat flat boundary
    rw [same, readToken_ends ends] at read
    cases read

/-- A reduced loop begins like no other token. -/
theorem flat_ne_brace {token : Token} (flat : token.Flat) (boundary : Boundary rest) :
    token.flatLexemes ++ rest ≠ symbol .openBrace :: more := by
  intro same
  have read := readToken_flat flat boundary
  rw [same] at read
  cases read

theorem readable_built : Readable Token.Built Token.lexemes where
  unique {first second rest more} built builtOther boundary boundaryOther same := by
    cases built with
    | flat flat =>
      rw [Token.lexemes_flat flat] at same
      cases builtOther with
      | flat flatOther =>
        rw [Token.lexemes_flat flatOther] at same
        exact readable_flat.unique flat flatOther boundary boundaryOther same
      | reduced => exact absurd same (flat_ne_brace flat boundary)
    | @reduced body statements =>
      cases builtOther with
      | flat flatOther =>
        rw [Token.lexemes_flat flatOther] at same
        exact absurd same.symm (flat_ne_brace flatOther boundaryOther)
      | @reduced bodyOther statementsOther =>
        rw [lexemes_reduced_append, lexemes_reduced_append] at same
        have ends (rest : List Lexeme) : Ends (symbol .closeBrace :: rest) := trivial
        obtain ⟨rfl, tail⟩ := readable_flat.stream (fun token member => .inLoop (statements token member))
          (fun token member => .inLoop (statementsOther token member)) (ends rest) (ends more) (List.cons.inj same).2
        exact ⟨rfl, (List.cons.inj tail).2⟩
  begins built boundary ends same := by
    cases built with
    | flat flat =>
      rw [Token.lexemes_flat flat] at same
      exact readable_flat.begins flat boundary ends same
    | reduced =>
      rw [lexemes_reduced_append] at same
      exact absurd ends (same ▸ id)

/-- Streams without extensions have a text, and different streams have different texts. -/
theorem streamText_injective (built : ∀ token ∈ tokens, token.Built) (builtOther : ∀ token ∈ others, token.Built) :
    (∃ text, streamText tokens = .ok text) ∧ (streamText tokens = streamText others → tokens = others) := by
  obtain ⟨text, made, spelled⟩ := streamText_built built
  obtain ⟨textOther, madeOther, spelledOther⟩ := streamText_built builtOther
  refine ⟨⟨text, made⟩, fun same => ?_⟩
  obtain rfl : text = textOther := Except.ok.inj (made.symm.trans (same.trans madeOther))
  have separated (tokens : List Token) : Separated (streamLexemes Token.lexemes tokens ++ []) :=
    separated_stream (fun token _ => token.separated_lexemes) tokens trivial trivial
  have lexemes := spell_injective (separated tokens) (separated others) (by simp [← spelled, ← spelledOther])
  have ends : Ends [] := trivial
  exact (readable_built.stream built builtOther ends ends lexemes).1

/-- Two streams whose tokens begin alike, one of them with a reduced loop. -/
theorem streamText_injective_alike :
    let multiplied : Token := { kind := .mulAdd, amount := 2, offset := 1, divisor? := some (-3) }
    let tokens : List Token := [.moveAdd 3 (-1), .reduced [multiplied, .condAdd (-4) 5], .single .clear]
    let stepped : Token := { kind := .addMove, amount := -1, offset := -1 }
    let others : List Token := [.counted .dec 3, stepped, .single .loopOpen, .single .dec, .single .loopClose]
    (∀ token ∈ tokens, token.Built) ∧ (∀ token ∈ others, token.Built) ∧
      streamText tokens = .ok "3-1 \x7b@1+=2/-3 @-4?+5\x7d [-]" ∧ streamText others = .ok "3- -1< [ - ]" ∧
      streamText tokens ≠ streamText others := by
  intro multiplied tokens stepped others
  have statements : ∀ token ∈ [multiplied, .condAdd (-4) 5], token.InLoop := by
    intro token member
    simp only [List.mem_cons, List.not_mem_nil, or_false] at member
    rcases member with rfl | rfl
    · exact .mulAdd (show Token.mulAdd 1 2 (-3) = .ok multiplied from rfl)
    · exact .condAdd (-4) 5
  have built : ∀ token ∈ tokens, token.Built := by
    intro token member
    simp only [tokens, List.mem_cons, List.not_mem_nil, or_false] at member
    rcases member with rfl | rfl | rfl
    · exact .flat (.moveAdd 3 (-1))
    · exact .reduced statements
    · exact .flat (.single (by decide))
  have builtOther : ∀ token ∈ others, token.Built := by
    intro token member
    simp only [others, List.mem_cons, List.not_mem_nil, or_false] at member
    rcases member with rfl | rfl | rfl | rfl | rfl
    · exact .flat (.counted rfl (by decide))
    · exact .flat (.addMove (show Token.addMove (-1) (-1) = .ok stepped from rfl))
    all_goals exact .flat (.single (by decide))
  refine ⟨built, builtOther, rfl, rfl, fun same => ?_⟩
  have equal := (streamText_injective built builtOther).2 same
  exact absurd (congrArg List.length equal) (by decide)

/-- An extension can be spelled like another token. -/
example : streamText [.extension "+"] = streamText [.single .inc] := rfl

end TapeScript
