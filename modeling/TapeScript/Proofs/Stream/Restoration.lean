import TapeScript.Proofs.Stream.OpenLoops

/-! What one pass of reduction does to the loops of a stream. It counts them right, loops around others are still
there after it, the stream comes back once every reduced loop is written out, and a second pass finds nothing. -/
namespace TapeScript.Reduction

variable {opener closer token : Token} {tokens others made front inner body back : List Token} {reduced kept : Nat}

/-- How many reduced loops a stream holds. -/
def reducedCount (tokens : List Token) : Nat := tokens.countP (·.kind == .reduced)

/-- A loop of a stream, with what stands before and behind it. -/
structure LoopIn (tokens front : List Token) (opener : Token) (inner : List Token) (closer : Token)
    (back : List Token) : Prop where
  split : tokens = front ++ opener :: (inner ++ closer :: back)
  opening : opener.kind = .loopOpen
  inside : Nested inner
  closing : closer.kind = .loopClose

/-- A stream, and what it is when every reduced loop in it is replaced by a loop it is the reduced form of. -/
inductive Restores : List Token → List Token → Prop where
  | nil : Restores [] []
  | keep {token : Token} {made tokens : List Token} (other : token.kind ≠ .reduced) (rest : Restores made tokens) :
      Restores (token :: made) (token :: tokens)
  | loop {opener closer token : Token} {body made tokens : List Token} (opening : opener.kind = .loopOpen)
      (flat : ∀ token ∈ body, token.isMarker = false) (reduces : reduceBody body = .ok (some token))
      (closing : closer.kind = .loopClose) (rest : Restores made tokens) :
      Restores (token :: made) (opener :: (body ++ closer :: tokens))

theorem loopCount_flat (flat : ∀ token ∈ tokens, token.isMarker = false) : loopCount tokens = 0 := by
  apply List.countP_eq_zero.mpr
  intro token member
  simp [(Token.not_isMarker_iff.mp (flat token member)).1]

/-- Every loop is either reduced or kept. -/
theorem Reduces.loops_eq (reduces : Reduces tokens made reduced kept) : reduced + kept = loopCount tokens := by
  induction reduces with
  | nil => rfl
  | token plain _ ih => rw [loopCount_plain plain, ih]
  | reduce opening reduces closing _ ih =>
    rw [loopCount_loop opening closing, loopCount_flat (flat_of_reduceBody reduces)]
    omega
  | keep opening _ _ closing _ ihInner ih =>
    rw [loopCount_loop opening closing]
    omega

/-- The loops that are left are those that were kept. -/
theorem Reduces.kept_eq (reduces : Reduces tokens made reduced kept) : kept = loopCount made := by
  induction reduces with
  | nil => rfl
  | token plain _ ih => rw [loopCount_plain plain, ← ih]
  | reduce _ reduces _ _ ih =>
    have plain := not_marker_of_reduceBody reduces
    rw [loopCount_plain plain, ← ih]
  | keep opening _ _ closing _ ihInner ih => rw [loopCount_loop opening closing, ← ihInner, ← ih]

theorem reducedCount_loop (opening : opener.kind = .loopOpen) (closing : closer.kind = .loopClose)
    (inner tokens : List Token) :
    reducedCount (opener :: (inner ++ closer :: tokens)) = reducedCount inner + reducedCount tokens := by
  simp [reducedCount, List.countP_append, opening, closing]

theorem reducedCount_plain (plain : isPlain body = true) : reducedCount body = 0 := by
  apply List.countP_eq_zero.mpr
  intro token member
  rcases kind_of_plain plain member with foldable | clear
  · rcases Token.kind_of_foldable foldable with kind | kind | kind | kind <;> simp [kind]
  · simp [clear]

/-- A body with a reduced loop in it has no reduced form. -/
theorem reduceBody_of_reduced (inside : reducedCount body ≠ 0) : reduceBody body = .ok none := by
  have unfit : isPlain body = false := Bool.eq_false_iff.mpr fun plain => inside (reducedCount_plain plain)
  simp [reduceBody, unfit]

/-- As many reduced loops come into the stream as are reduced. -/
theorem Reduces.reduced_eq (reduces : Reduces tokens made reduced kept) :
    reducedCount made = reducedCount tokens + reduced := by
  induction reduces with
  | nil => rfl
  | token _ _ ih =>
    rw [reducedCount] at ih
    rw [reducedCount, List.countP_cons, ih, reducedCount, reducedCount, List.countP_cons, Nat.add_right_comm]
  | @reduce opener closer token inner tokens made reduced kept opening reduces closing _ ih =>
    obtain ⟨_, fits, _⟩ := reducible_of_reduceBody reduces
    have none := reducedCount_plain fits.plain
    have more : reducedCount (token :: made) = reducedCount made + 1 := by
      simp [reducedCount, kind_of_reduceBody reduces]
    rw [reducedCount_loop opening closing, none, more, ih]
    omega
  | keep opening _ _ closing _ ihInner ih =>
    rw [reducedCount_loop opening closing, reducedCount_loop opening closing, ihInner, ih]
    omega

/-- The result is its own result. A body whose loops were all reduced holds one of them, so it has no reduced form. -/
theorem Reduces.again (reduces : Reduces tokens made reduced kept) : Reduces made made 0 kept := by
  induction reduces with
  | nil => exact .nil
  | token plain _ ih => exact .token plain ih
  | reduce _ reduces _ _ ih => exact .token (not_marker_of_reduceBody reduces) ih
  | @keep opener closer inner tokens madeInner made reducedInner keptInner reduced kept opening inside stays
      closing _ ihInner ih =>
    have staysMade (loopless : loopCount madeInner = 0) : reduceBody madeInner = .ok none := by
      by_cases flat : loopCount inner = 0
      · rw [inside.of_loopless flat]
        exact stays flat
      · apply reduceBody_of_reduced
        have loops := inside.loops_eq
        have left := inside.kept_eq
        have more := inside.reduced_eq
        omega
    exact .keep opening ihInner staysMade closing ih

/-- The number of reduced loops never falls. -/
theorem Progress.reduced_le {progress next : Progress} (takes : progress.take token = .ok next) :
    progress.reduced ≤ next.reduced := by
  cases plain : token.isMarker with
  | false =>
    rw [take_plain plain] at takes
    cases takes
    exact Nat.le_refl _
  | true =>
    rcases Token.isMarker_iff.mp plain with opening | closing
    · rw [take_open opening, openLoop_eq] at takes
      cases takes
      exact Nat.le_refl _
    · rw [take_close closing] at takes
      obtain ⟨done, frames, reduced, kept⟩ := progress
      cases frames with
      | nil => cases takes
      | cons frame frames =>
        rcases closeLoop_cases frame frames done reduced kept token with stays | ⟨_, _, shortens⟩ | ⟨_, _, fails⟩
        · rw [stays] at takes
          cases takes
          exact Nat.le_refl _
        · rw [shortens] at takes
          cases takes
          exact Nat.le_succ _
        · rw [fails] at takes
          cases takes

theorem Progress.foldlM_reduced_le {progress last : Progress}
    (takes : tokens.foldlM Progress.take progress = .ok last) :
    progress.reduced ≤ last.reduced := by
  induction tokens generalizing progress with
  | nil =>
    cases takes
    exact Nat.le_refl _
  | cons token tokens ih =>
    rw [List.foldlM_cons] at takes
    obtain ⟨next, first, takes⟩ := bind_ok_iff.mp takes
    exact Nat.le_trans (Progress.reduced_le first) (ih takes)

theorem foldlM_of_reduceStream {result : Result} (ends : reduceStream tokens = .ok result) :
    ∃ last, tokens.foldlM Progress.take {} = .ok last ∧
      { tokens := last.done.reverse, reduced := last.reduced, kept := last.kept } = result := by
  obtain ⟨last, taken, ends⟩ := bind_ok_iff.mp ends
  obtain ⟨_, _, ends⟩ := bind_ok_iff.mp ends
  exact ⟨last, taken, Except.ok.inj ends⟩

/-- Where no loop was reduced none could be. -/
theorem irreducible_of_reduceStream {result : Result} (ends : reduceStream tokens = .ok result)
    (idle : result.reduced = 0) (loop : LoopIn tokens front opener inner closer back)
    (innermost : loopCount inner = 0) :
    reduceBody inner = .ok none := by
  obtain ⟨split, opening, inside, closing⟩ := loop
  obtain ⟨code, reads⟩ := inside.reads
  have flat := reads.flat_of_loopless innermost
  obtain ⟨last, taken, rfl⟩ := foldlM_of_reduceStream ends
  rw [split, List.foldlM_append] at taken
  obtain ⟨progress, _, taken⟩ := bind_ok_iff.mp taken
  rw [foldlM_take_innermost opening flat closing] at taken
  obtain ⟨reduced?, attempt, taken⟩ := bind_ok_iff.mp taken
  cases reduced? with
  | none => exact attempt
  | some token =>
    have none : last.reduced = 0 := idle
    have more : progress.reduced + 1 ≤ last.reduced := Progress.foldlM_reduced_le taken
    omega

namespace Restores

theorem append (first : Restores made tokens) (second : Restores others back) :
    Restores (made ++ others) (tokens ++ back) := by
  induction first with
  | nil => exact second
  | keep other _ ih => exact .keep other ih
  | loop opening flat reduces closing _ ih =>
    rw [List.cons_append, List.cons_append, List.append_assoc, List.cons_append]
    exact .loop opening flat reduces closing ih

/-- The first token of a stream stands for itself, or it opens a loop that was reduced. -/
theorem cons_cases {source : List Token} (restores : Restores made (token :: source)) :
    (∃ rest, made = token :: rest ∧ token.kind ≠ .reduced ∧ Restores rest source) ∨
      ∃ short rest body closer tokens, made = short :: rest ∧ token.kind = .loopOpen ∧
        (∀ token ∈ body, token.isMarker = false) ∧ reduceBody body = .ok (some short) ∧ closer.kind = .loopClose ∧
        source = body ++ closer :: tokens ∧ Restores rest tokens := by
  cases restores with
  | keep other rest => exact .inl ⟨_, rfl, other, rest⟩
  | loop opening flat reduces closing rest =>
    exact .inr ⟨_, _, _, _, _, rfl, opening, flat, reduces, closing, rfl, rest⟩

theorem cons_kept {source : List Token} (restores : Restores made (token :: source)) (other : token.kind ≠ .loopOpen) :
    ∃ rest, made = token :: rest ∧ token.kind ≠ .reduced ∧ Restores rest source := by
  rcases restores.cons_cases with kept | ⟨_, _, _, _, _, _, opening, _⟩
  · exact kept
  · exact absurd opening other

end Restores

theorem Reduces.restores (reduces : Reduces tokens made reduced kept)
    (whole : ∀ token ∈ tokens, token.kind ≠ .reduced) : Restores made tokens := by
  induction reduces with
  | nil => exact .nil
  | token _ _ ih => exact .keep (whole _ (by simp)) (ih fun token member => whole token (by simp [member]))
  | reduce opening reduces closing _ ih =>
    exact .loop opening (flat_of_reduceBody reduces) reduces closing
      (ih fun token member => whole token (by simp [member]))
  | @keep opener closer inner tokens madeInner made _ _ _ _ opening _ _ closing _ ihInner ih =>
    have inside := ihInner fun token member => whole token (by simp [member])
    have rest := ih fun token member => whole token (by simp [member])
    have last : Restores (closer :: made) (closer :: tokens) := .keep (by simp [closing]) rest
    exact .keep (by simp [opening]) (inside.append last)

/-- A body without loops and a nested one, both with a closer behind them, are the same. -/
private theorem flat_unique {last : Token} {rest : List Token} (flat : ∀ token ∈ body, token.isMarker = false)
    (inside : Nested inner) (closing : closer.kind = .loopClose) (closingLast : last.kind = .loopClose)
    (same : inner ++ last :: rest = body ++ closer :: back) : inner = body ∧ last = closer ∧ rest = back := by
  induction body generalizing inner with
  | nil =>
    cases inside with
    | nil => simpa using same
    | other _ plain _ =>
      obtain ⟨rfl, _⟩ := List.cons.inj same
      simp [closing] at plain
    | pair opening _ _ _ _ =>
      obtain ⟨rfl, _⟩ := List.cons.inj same
      simp [closing] at opening
  | cons token body ih =>
    have plain := Token.not_isMarker_iff.mp (flat token (by simp))
    cases inside with
    | nil =>
      obtain ⟨rfl, _⟩ := List.cons.inj same
      exact absurd closingLast plain.2
    | other _ _ inside =>
      obtain ⟨rfl, sameRest⟩ := List.cons.inj same
      obtain ⟨rfl, others⟩ := ih (fun other member => flat other (by simp [member])) inside sameRest
      exact ⟨rfl, others⟩
    | pair opening _ _ _ _ =>
      obtain ⟨rfl, _⟩ := List.cons.inj same
      exact absurd (beq_iff_eq.mp opening) plain.1

/-- No loop begins within a body without loops. -/
private theorem behind_flat (flat : ∀ token ∈ body, token.isMarker = false) (closing : closer.kind = .loopClose)
    (opening : opener.kind = .loopOpen) (same : body ++ closer :: tokens = front ++ opener :: back) :
    ∃ between, front = body ++ closer :: between ∧ tokens = between ++ opener :: back := by
  rcases List.append_eq_append_iff.mp same with ⟨between, rfl, split⟩ | ⟨between, rfl, split⟩
  · cases between with
    | nil =>
      obtain ⟨rfl, _⟩ := List.cons.inj split
      simp [closing] at opening
    | cons first between =>
      obtain ⟨rfl, rfl⟩ := List.cons.inj split
      exact ⟨between, rfl, rfl⟩
  · cases between with
    | nil =>
      obtain ⟨rfl, _⟩ := List.cons.inj split
      simp [closing] at opening
    | cons first between =>
      obtain ⟨rfl, _⟩ := List.cons.inj split
      have plain := flat opener (by simp)
      simp [Token.isMarker, opening] at plain

/-- Nested tokens at the beginning of a stream come back from a nested part of their own. -/
theorem Restores.split (nested : Nested tokens) (restores : Restores made (tokens ++ back)) :
    ∃ first rest, made = first ++ rest ∧ Nested first ∧ Restores first tokens ∧ Restores rest back := by
  induction nested generalizing made back with
  | nil => exact ⟨[], made, rfl, .nil, .nil, restores⟩
  | other opening closing _ ih =>
    obtain ⟨rest, rfl, other, restores⟩ := restores.cons_kept (by simpa using opening)
    obtain ⟨first, rest, rfl, nested, restoresFirst, restoresRest⟩ := ih restores
    exact ⟨_ :: first, rest, rfl, .other opening closing nested, .keep other restoresFirst, restoresRest⟩
  | @pair opener closer inner tokens opening inside plain closing _ ihInner ih =>
    have assoc : opener :: inner ++ closer :: tokens ++ back = opener :: (inner ++ closer :: (tokens ++ back)) := by
      simp
    rw [assoc] at restores
    rcases restores.cons_cases with ⟨rest, rfl, other, restores⟩ |
      ⟨short, rest, body, last, _, rfl, _, flat, reduces, closingLast, same, restores⟩
    · obtain ⟨madeInner, rest, rfl, nestedInner, restoresInner, restores⟩ := ihInner restores
      obtain ⟨rest, rfl, otherLast, restores⟩ := restores.cons_kept (by simpa using plain)
      obtain ⟨first, rest, rfl, nested, restoresFirst, restoresRest⟩ := ih restores
      exact ⟨opener :: madeInner ++ closer :: first, rest, by simp, .pair opening nestedInner plain closing nested,
        .keep other (restoresInner.append (.keep otherLast restoresFirst)), restoresRest⟩
    · obtain ⟨rfl, rfl, rfl⟩ := flat_unique flat inside closingLast (beq_iff_eq.mp closing) same
      obtain ⟨first, rest, rfl, nested, restoresFirst, restoresRest⟩ := ih restores
      exact ⟨short :: first, rest, rfl, .token (not_marker_of_reduceBody reduces) nested,
        .loop (beq_iff_eq.mp opening) flat reduces closingLast restoresFirst, restoresRest⟩

/-- A loop around others is still there, with what was made of its body and of what stands around it. -/
theorem Restores.around (restores : Restores made tokens) (loop : LoopIn tokens front opener inner closer back)
    (around : loopCount inner ≠ 0) :
    ∃ madeFront madeInner madeBack, LoopIn made madeFront opener madeInner closer madeBack ∧
      Restores madeFront front ∧ Restores madeInner inner ∧ Restores madeBack back := by
  obtain ⟨split, opening, inside, closing⟩ := loop
  induction restores generalizing front with
  | nil => simp at split
  | keep other rest ih =>
    cases front with
    | nil =>
      obtain ⟨rfl, rfl⟩ := List.cons.inj split
      obtain ⟨madeInner, rest, rfl, nested, restoresInner, restores⟩ := Restores.split inside rest
      obtain ⟨madeBack, rfl, _, restoresBack⟩ := restores.cons_kept (by simp [closing])
      exact ⟨[], madeInner, madeBack, ⟨rfl, opening, nested, closing⟩, .nil, restoresInner, restoresBack⟩
    | cons first front =>
      obtain ⟨rfl, rfl⟩ := List.cons.inj split
      obtain ⟨madeFront, madeInner, madeBack, ⟨rfl, _, nested, _⟩, restoresFront, others⟩ := ih rfl
      exact ⟨_ :: madeFront, madeInner, madeBack, ⟨rfl, opening, nested, closing⟩, .keep other restoresFront, others⟩
  | @loop first last token body made tokens openingFirst flat reduces closingLast rest ih =>
    cases front with
    | nil =>
      obtain ⟨rfl, same⟩ := List.cons.inj split
      obtain ⟨rfl, _⟩ := flat_unique flat inside closingLast closing same.symm
      exact absurd (loopCount_flat flat) around
    | cons _ front =>
      obtain ⟨rfl, same⟩ := List.cons.inj split
      obtain ⟨between, rfl, rfl⟩ := behind_flat flat closingLast opening same
      obtain ⟨madeFront, madeInner, madeBack, ⟨rfl, _, nested, _⟩, restoresFront, others⟩ := ih rfl
      exact ⟨token :: madeFront, madeInner, madeBack, ⟨rfl, opening, nested, closing⟩,
        .loop openingFirst flat reduces closingLast restoresFront, others⟩

/-- A stream is refused exactly when its loop markers do not nest. Otherwise the markers of what is made of it nest,
every loop was either reduced or kept, and the result holds as many reduced loops and loops; the stream comes back
when every reduced loop is written out, a loop around others is where it was, no innermost loop is left that has a
reduced form, and a second pass changes nothing. -/
theorem reduceStream_spec (counted : ∀ token ∈ tokens, token.Counted)
    (whole : ∀ token ∈ tokens, token.kind ≠ .reduced) :
    (reduceStream tokens = .error .unbalancedLoop ↔ ¬Nested tokens) ∧
      (Nested tokens → ∃ result, reduceStream tokens = .ok result ∧ Nested result.tokens ∧
        result.reduced + result.kept = loopCount tokens ∧ result.kept = loopCount result.tokens ∧
        result.reduced = reducedCount result.tokens ∧
        (∀ front opener inner closer back, LoopIn tokens front opener inner closer back → loopCount inner ≠ 0 →
          ∃ madeFront madeInner madeBack, LoopIn result.tokens madeFront opener madeInner closer madeBack ∧
            Restores madeFront front ∧ Restores madeInner inner ∧ Restores madeBack back) ∧
        Restores result.tokens tokens ∧
        (∀ front opener inner closer back, LoopIn result.tokens front opener inner closer back → loopCount inner = 0 →
          reduceBody inner = .ok none) ∧
        reduceStream result.tokens = .ok { tokens := result.tokens, reduced := 0, kept := result.kept }) := by
  have passes (nested : Nested tokens) : ∃ made reduced kept, Reduces tokens made reduced kept ∧ Nested made := by
    obtain ⟨code, reads⟩ := nested.reads
    obtain ⟨made, reduced, kept, reduces, readsMade⟩ := exists_reduces reads counted
    exact ⟨made, reduced, kept, reduces, readsMade.nested⟩
  refine ⟨⟨?_, (nested_or_refused counted).resolve_left⟩, ?_⟩
  · intro refused nested
    obtain ⟨made, reduced, kept, reduces, _⟩ := passes nested
    rw [reduces.reduceStream_eq] at refused
    cases refused
  · intro nested
    obtain ⟨made, reduced, kept, reduces, nestedMade⟩ := passes nested
    have none : reducedCount tokens = 0 := by
      apply List.countP_eq_zero.mpr
      intro token member
      simpa using whole token member
    have restores := reduces.restores whole
    have again := reduces.again.reduceStream_eq
    have counts := reduces.reduced_eq
    rw [none, Nat.zero_add] at counts
    refine ⟨{ tokens := made, reduced, kept }, reduces.reduceStream_eq, nestedMade, reduces.loops_eq, reduces.kept_eq,
      counts.symm, ?_, restores, ?_, again⟩
    · intro front opener inner closer back loop around
      exact restores.around loop around
    · intro front opener inner closer back loop innermost
      exact irreducible_of_reduceStream again rfl loop innermost

/-- The loop around another stays, although a reduced loop is all that is left in it. -/
theorem reduceStream_spec_around :
    reduceStream [.single .loopOpen, .single .loopOpen, .single .dec, .single .loopClose, .single .loopClose] =
        .ok { tokens := [.single .loopOpen, .reduced [.clearAt 0], .single .loopClose], reduced := 1, kept := 1 } ∧
      Restores [.single .loopOpen, .reduced [.clearAt 0], .single .loopClose]
        [.single .loopOpen, .single .loopOpen, .single .dec, .single .loopClose, .single .loopClose] ∧
      reduceStream [.single .loopOpen, .reduced [.clearAt 0], .single .loopClose] =
        .ok { tokens := [.single .loopOpen, .reduced [.clearAt 0], .single .loopClose], reduced := 0, kept := 1 } := by
  let tokens : List Token :=
    [.single .loopOpen, .single .loopOpen, .single .dec, .single .loopClose, .single .loopClose]
  have inner : Reads [.single .loopOpen, .single .dec, .single .loopClose] _ := .loop rfl (.token rfl .halt) rfl .halt
  have reads : Reads tokens _ := .loop rfl inner rfl .halt
  have counted : ∀ token ∈ tokens, token.Counted := by simp [tokens, Token.Counted, Token.single, Token.counted]
  have whole : ∀ token ∈ tokens, token.kind ≠ .reduced := by simp [tokens, Token.single, Token.counted]
  obtain ⟨result, ends, _, _, _, _, _, restores, _, again⟩ := (reduceStream_spec counted whole).2 reads.nested
  obtain rfl := Except.ok.inj ends
  exact ⟨ends, restores, again⟩

end TapeScript.Reduction
