import TapeScript.Host.Collector
import TapeScript.Proofs.Execution
import TapeScript.Proofs.Stream.Update
import TapeScript.Stream.Fusion

/-! Fusion keeps what every stream does. What a rule replaces does the same as the token in its place
from every state, also where the cell it passes by is outside the tape. -/
namespace TapeScript.Fusion

/-- Tokens that only fusion makes. -/
def Fused (token : Token) : Prop :=
  token.kind = .addAt ∨ token.kind = .clearAt ∨ token.kind = .addMove ∨ token.kind = .moveAdd ∨
    token.kind = .moveClear

theorem Fused.not_marker {token : Token} (fused : Fused token) : token.isMarker = false := by
  rcases fused with kind | kind | kind | kind | kind <;> simp [Token.isMarker, kind]

theorem Fused.not_extension {token : Token} (fused : Fused token) : token.kind ≠ .extension := by
  rcases fused with kind | kind | kind | kind | kind <;> simp [kind]

/-- A token that does what the tokens of a window do. -/
structure Replaces (token : Token) (window : List Token) : Prop where
  fused : Fused token
  several : 2 ≤ window.length
  alike : Alike window [token]

/-- A rule finds nothing to replace, or a token in place of a window. -/
def Finds (rule : List Token → Except Error (Option Replacement)) (tokens : List Token) : Prop :=
  rule tokens = .ok none ∨ ∃ token window rest, tokens = window ++ rest ∧
    rule tokens = .ok (some ⟨token, window.length⟩) ∧ Replaces token window

private theorem replaces {token : Token} {window : List Token} (fused : Fused token) (several : 2 ≤ window.length)
    (plain : ∀ token ∈ window, token.kind ≠ .extension)
    (acts : ∀ {ρ : Type} [Host ρ] (meaning : Meaning ρ) (following : Nat) (state : State ρ),
      Token.actAll meaning following window state = token.act meaning following state) : Replaces token window where
  fused := fused
  several := several
  alike :=
    { count := by
        have none : extensionCount window = 0 := List.countP_eq_zero.mpr fun token member => by
          simpa using plain token member
        rw [none]
        simp [extensionCount, fused.not_extension]
      acts := fun meaning following state => by
        rw [acts]
        simp [Token.actAll, extensionCount] }

theorem clear_or_addition {token : Token} (update : isUpdate token = true) :
    token.kind = .clear ∨ token.isAddition = true ∧ token.kind ≠ .clear := by
  rcases (by simpa [isUpdate] using update : token.isAddition = true ∨ token.kind = .clear) with addition | clear
  · refine .inr ⟨addition, fun clear => ?_⟩
    simp [Token.isAddition, clear] at addition
  · exact .inl clear

private theorem plain_of_move {token : Token} (move : token.isMove = true) : token.kind ≠ .extension :=
  Token.not_extension_of_foldable (Token.foldable_of_move move)

private theorem plain_of_addition {token : Token} (addition : token.isAddition = true) : token.kind ≠ .extension :=
  Token.not_extension_of_foldable (Token.foldable_of_addition addition)

private theorem inverse_of_move {go : Token} (move : go.isMove = true) : ∃ inverse, go.kind.inverse = .ok inverse := by
  rcases Token.kind_of_move move with kind | kind
  · exact ⟨.left, by rw [kind]; rfl⟩
  · exact ⟨.right, by rw [kind]; rfl⟩

/-- A move back undoes the move there. -/
private theorem moves_back {go back : Token} {inverse : TokenKind} (move : go.isMove = true)
    (inverted : go.kind.inverse = .ok inverse) (kind : back.kind = inverse) (amount : back.amount = go.amount) :
    back.isMove = true ∧ back.displacement = -go.displacement := by
  subst kind
  rcases Token.kind_of_move move with found | found <;> rw [found] at inverted <;>
    simp [Token.isMove, Token.displacement, found, amount, ← Except.ok.inj inverted]

private theorem clearAt_replaces {go update back : Token} (move : go.isMove = true) (clear : update.kind = .clear)
    (moveBack : back.isMove = true) (distance : back.displacement = -go.displacement) :
    Replaces (.clearAt go.displacement) [go, update, back] := by
  apply replaces (.inr (.inl rfl)) (by simp) (by simp [plain_of_move, *])
  intro ρ _ meaning following state
  have fused : (Token.clearAt go.displacement).act meaning following state =
      .stay (state.put go.displacement 0) := rfl
  simp only [Token.actAll, Token.act_move move, Token.act_clear clear, Token.act_move moveBack, Behaviour.stay_bind,
    fused, distance]
  simp only [State.move, State.put, Int.add_neg_cancel_right, Int.add_zero]

private theorem addAt_replaces {go update back : Token} (move : go.isMove = true) (addition : update.isAddition = true)
    (moveBack : back.isMove = true) (distance : back.displacement = -go.displacement) :
    Replaces { kind := .addAt, amount := update.cellChange, offset := go.displacement } [go, update, back] := by
  apply replaces (.inl rfl) (by simp) (by simp [plain_of_move, plain_of_addition, *])
  intro ρ _ meaning following state
  have fused : Token.act meaning following { kind := .addAt, amount := update.cellChange, offset := go.displacement }
      state = .stay (state.add go.displacement (Int32.ofInt update.cellChange)) := rfl
  simp only [Token.actAll, Token.act_move move, Token.act_addition addition, Token.act_move moveBack,
    Behaviour.stay_bind, fused, distance]
  simp only [State.move, State.add, Int.add_neg_cancel_right, Int.add_zero]

private theorem addMove_replaces {go update : Token} (addition : update.isAddition = true) (move : go.isMove = true) :
    Replaces { kind := .addMove, amount := update.cellChange, offset := go.displacement } [update, go] := by
  apply replaces (.inr (.inr (.inl rfl))) (by simp) (by simp [plain_of_move, plain_of_addition, *])
  intro ρ _ meaning following state
  have fused : Token.act meaning following
      { kind := .addMove, amount := update.cellChange, offset := go.displacement } state =
      .stay ((state.add 0 (Int32.ofInt update.cellChange)).move go.displacement) := rfl
  simp only [Token.actAll, Token.act_move move, Token.act_addition addition, Behaviour.stay_bind, fused]

private theorem moveClear_replaces {go update : Token} (move : go.isMove = true) (clear : update.kind = .clear) :
    Replaces (.moveClear go.displacement) [go, update] := by
  apply replaces (.inr (.inr (.inr (.inr rfl)))) (by simp) (by simp [plain_of_move, *])
  intro ρ _ meaning following state
  have fused : (Token.moveClear go.displacement).act meaning following state =
      .stay ((state.move go.displacement).put 0 0) := rfl
  simp only [Token.actAll, Token.act_move move, Token.act_clear clear, Behaviour.stay_bind, fused]

private theorem moveAdd_replaces {go update : Token} (move : go.isMove = true) (addition : update.isAddition = true) :
    Replaces (.moveAdd go.displacement update.cellChange) [go, update] := by
  apply replaces (.inr (.inr (.inr (.inl rfl)))) (by simp) (by simp [plain_of_move, plain_of_addition, *])
  intro ρ _ meaning following state
  have fused : (Token.moveAdd go.displacement update.cellChange).act meaning following state =
      .stay ((state.move go.displacement).add 0 (Int32.ofInt update.cellChange)) := rfl
  simp only [Token.actAll, Token.act_move move, Token.act_addition addition, Behaviour.stay_bind, fused]

theorem thereAndBack_finds (counted : ∀ token ∈ tokens, token.Counted) : Finds thereAndBack tokens := by
  match tokens with
  | [] | [_] | [_, _] => exact .inl rfl
  | go :: update :: back :: rest =>
    cases moves : go.isMove && isUpdate update with
    | false => exact .inl (by simp [thereAndBack, moves])
    | true =>
      obtain ⟨move, updates⟩ := (Bool.and_eq_true _ _).mp moves
      obtain ⟨inverse, inverted⟩ := inverse_of_move move
      by_cases returns : back.kind = inverse ∧ back.amount = go.amount
      · obtain ⟨moveBack, distance⟩ := moves_back move inverted returns.1 returns.2
        rcases clear_or_addition updates with clear | ⟨addition, notClear⟩
        · refine .inr ⟨_, [go, update, back], rest, rfl, ?_, clearAt_replaces move clear moveBack distance⟩
          simp [thereAndBack, moves, inverted, returns, clear, bind, Except.bind]
        · have changed := Token.cellChange_ne_zero addition (counted update (by simp))
          refine .inr ⟨_, [go, update, back], rest, rfl, ?_, addAt_replaces move addition moveBack distance⟩
          simp [thereAndBack, moves, inverted, returns, notClear, Token.addAt, Error.require, changed, bind,
            Except.bind]
      · exact .inl (by simp [thereAndBack, moves, inverted, returns, bind, Except.bind])

theorem updateThenStep_finds (tokens : List Token) : Finds updateThenStep tokens := by
  match tokens with
  | [] | [_] => exact .inl rfl
  | update :: go :: rest =>
    cases steps : update.isAddition && go.isMove && go.amount == 1 with
    | false => exact .inl (by simp [updateThenStep, steps])
    | true =>
      obtain ⟨⟨addition, move⟩, amount⟩ : (update.isAddition = true ∧ go.isMove = true) ∧ go.amount = 1 := by
        simpa using steps
      have distance : go.displacement = 1 ∨ go.displacement = -1 := by
        rcases Token.kind_of_move move with kind | kind <;> simp [Token.displacement, kind, amount]
      have made : Token.addMove update.cellChange go.displacement =
          .ok { kind := .addMove, amount := update.cellChange, offset := go.displacement } := by
        rcases distance with right | left <;> simp [Token.addMove, Error.require, bind, Except.bind, *]
      refine .inr ⟨_, [update, go], rest, rfl, ?_, addMove_replaces addition move⟩
      simp [updateThenStep, steps, made, bind, Except.bind]

theorem moveThenUpdate_finds (tokens : List Token) : Finds moveThenUpdate tokens := by
  match tokens with
  | [] | [_] => exact .inl rfl
  | go :: update :: rest =>
    cases moves : go.isMove && isUpdate update with
    | false => exact .inl (by simp [moveThenUpdate, moves])
    | true =>
      obtain ⟨move, updates⟩ := (Bool.and_eq_true _ _).mp moves
      rcases clear_or_addition updates with clear | ⟨addition, notClear⟩
      · refine .inr ⟨_, [go, update], rest, rfl, ?_, moveClear_replaces move clear⟩
        simp [moveThenUpdate, moves, clear]
      · refine .inr ⟨_, [go, update], rest, rfl, ?_, moveAdd_replaces move addition⟩
        simp [moveThenUpdate, moves, notClear]

/-- What the first rule that matches makes of a stream is as good as what it replaces. -/
theorem replacement?_finds (counted : ∀ token ∈ tokens, token.Counted) : Finds (replacement? · rules) tokens := by
  have orElse {rule : Rule} {others : List Rule} (first : Finds rule tokens)
      (second : Finds (replacement? · others) tokens) : Finds (replacement? · (rule :: others)) tokens := by
    rcases first with none | ⟨token, window, rest, rfl, found, replaces⟩
    · rcases second with noneAfter | ⟨token, window, rest, same, found, replaces⟩
      · exact .inl (by simp only [replacement?, none, bind, Except.bind, noneAfter])
      · exact .inr ⟨token, window, rest, same, by simp only [replacement?, none, bind, Except.bind, found], replaces⟩
    · exact .inr ⟨token, window, rest, rfl, by simp only [replacement?, found, bind, Except.bind], replaces⟩
  exact orElse (thereAndBack_finds counted) (orElse (updateThenStep_finds tokens)
    (orElse (moveThenUpdate_finds tokens) (.inl rfl)))

/-- The stream with its neighbours fused. -/
def fuse (tokens : List Token) : List Token := ((replaceAll tokens).toOption).getD tokens

private theorem replaceAfter_ok (taken : Nat) (counted : ∀ token ∈ tokens, token.Counted) :
    ∃ others, replaceAfter taken tokens = .ok others ∧ Alike others (tokens.drop taken) ∧
      ∀ token ∈ others, token ∈ tokens ∨ Fused token := by
  induction tokens generalizing taken with
  | nil => exact ⟨[], by cases taken <;> rfl, by simpa using Alike.refl _, by simp⟩
  | cons token tokens ih =>
    have later (count : Nat) := ih count fun other member => counted other (by simp [member])
    have kept {other : Token} (found : other ∈ tokens ∨ Fused other) : other ∈ token :: tokens ∨ Fused other :=
      found.imp_left (List.mem_cons_of_mem token)
    cases taken with
    | succ taken =>
      obtain ⟨others, replaced, alike, made⟩ := later taken
      exact ⟨others, replaced, alike, fun other member => kept (made other member)⟩
    | zero =>
      rcases replacement?_finds counted with none | ⟨fused, window, rest, same, found, replaces⟩
      · obtain ⟨others, replaced, alike, made⟩ := later 0
        refine ⟨token :: others, ?_, by simpa using alike.cons token, ?_⟩
        · simp only [replaceAfter, none, replaced, bind, Except.bind]
        · intro other member
          rcases List.mem_cons.mp member with rfl | old
          · exact .inl (by simp)
          · exact kept (made other old)
      · obtain ⟨others, replaced, alike, made⟩ := later (window.length - 1)
        refine ⟨fused :: others, ?_, ?_, ?_⟩
        · simp only [replaceAfter, found, replaced, bind, Except.bind]
        · have dropped : tokens.drop (window.length - 1) = rest := by
            have several := replaces.several
            have first := congrArg (List.drop window.length) same
            obtain ⟨count, length⟩ : ∃ count, window.length = count + 1 := ⟨window.length - 1, by omega⟩
            rw [List.drop_left] at first
            rw [length] at first ⊢
            simpa using first
          rw [List.drop_zero, same, ← dropped]
          exact replaces.alike.symm.append alike
        · intro other member
          rcases List.mem_cons.mp member with rfl | old
          · exact .inr replaces.fused
          · exact kept (made other old)

theorem replaceAll_ok (counted : ∀ token ∈ tokens, token.Counted) : replaceAll tokens = .ok (fuse tokens) := by
  obtain ⟨others, replaced, _⟩ := replaceAfter_ok 0 counted
  rw [fuse, replaceAll, replaced]
  rfl

theorem fuse_alike (counted : ∀ token ∈ tokens, token.Counted) : Alike (fuse tokens) tokens := by
  obtain ⟨others, replaced, alike, _⟩ := replaceAfter_ok 0 counted
  rw [fuse, replaceAll, replaced]
  exact alike

/-- Fusion makes the five kinds of its own, and passes the others on. -/
theorem mem_fuse (counted : ∀ token ∈ tokens, token.Counted) (member : token ∈ fuse tokens) :
    token ∈ tokens ∨ Fused token := by
  obtain ⟨others, replaced, _, made⟩ := replaceAfter_ok 0 counted
  rw [fuse, replaceAll, replaced] at member
  exact made token member

section

variable {marker : Token} (isMarker : marker.isMarker = true)
include isMarker

private theorem marker_plain : marker.isMove = false ∧ marker.isAddition = false ∧ isUpdate marker = false := by
  rcases Token.isMarker_iff.mp isMarker with kind | kind <;> simp [Token.isMove, Token.isAddition, isUpdate, kind]

private theorem replacement?_marker (tokens : List Token) : replacement? (marker :: tokens) rules = .ok none := by
  obtain ⟨move, addition, _⟩ := marker_plain isMarker
  have first : thereAndBack (marker :: tokens) = .ok none := by
    unfold thereAndBack
    split <;> simp_all
  have second : updateThenStep (marker :: tokens) = .ok none := by
    unfold updateThenStep
    split <;> simp_all
  have third : moveThenUpdate (marker :: tokens) = .ok none := by
    unfold moveThenUpdate
    split <;> simp_all
  simp only [rules, replacement?, first, second, third, bind, Except.bind]

/-- No rule takes a marker into its window. -/
private theorem replacement?_before (token : Token) (front tokens : List Token) :
    replacement? (token :: front ++ marker :: tokens) rules = replacement? (token :: front) rules := by
  obtain ⟨move, addition, update⟩ := marker_plain isMarker
  have first : thereAndBack (token :: front ++ marker :: tokens) = thereAndBack (token :: front) := by
    match front with
    | [] => cases tokens <;> simp [thereAndBack, update]
    | [second] =>
      simp only [List.cons_append, List.nil_append, thereAndBack]
      split
      · rename_i moves
        obtain ⟨goes, _⟩ := (Bool.and_eq_true _ _).mp moves
        obtain ⟨inverse, inverted⟩ := inverse_of_move goes
        have stays : ¬(marker.kind = inverse ∧ marker.amount = token.amount) := by
          rintro ⟨kind, amount⟩
          rw [(moves_back goes inverted kind amount).1] at move
          cases move
        simp [inverted, stays, bind, Except.bind]
      · rfl
    | second :: third :: rest => rfl
  have second : updateThenStep (token :: front ++ marker :: tokens) = updateThenStep (token :: front) := by
    cases front with
    | nil => simp [updateThenStep, move]
    | cons => rfl
  have third : moveThenUpdate (token :: front ++ marker :: tokens) = moveThenUpdate (token :: front) := by
    cases front with
    | nil => simp [moveThenUpdate, update]
    | cons => rfl
  simp only [rules, replacement?, first, second, third]

private theorem replaceAfter_split {taken : Nat} {front others tokens rest : List Token}
    (counted : ∀ token ∈ front, token.Counted) (bound : taken ≤ front.length)
    (replaced : replaceAfter taken front = .ok others) (replacedRest : replaceAfter 0 tokens = .ok rest) :
    replaceAfter taken (front ++ marker :: tokens) = .ok (others ++ marker :: rest) := by
  induction front generalizing taken others with
  | nil =>
    obtain rfl : taken = 0 := by simpa using bound
    cases replaced
    simp only [List.nil_append, replaceAfter, replacement?_marker isMarker, replacedRest, bind, Except.bind]
  | cons token front ih =>
    have countedRest : ∀ other ∈ front, other.Counted := fun other member => counted other (by simp [member])
    cases taken with
    | succ taken => exact ih countedRest (by simpa using bound) replaced
    | zero =>
      rw [List.cons_append, replaceAfter, ← List.cons_append, replacement?_before isMarker]
      rw [replaceAfter] at replaced
      rcases replacement?_finds counted with none | ⟨fused, window, behind, same, found, replaces⟩
      · simp only [none, bind, Except.bind] at replaced ⊢
        cases replacedAfter : replaceAfter 0 front with
        | error error => rw [replacedAfter] at replaced; cases replaced
        | ok after =>
          rw [replacedAfter] at replaced
          cases replaced
          rw [ih countedRest (Nat.zero_le _) replacedAfter]
          rfl
      · have inside : window.length - 1 ≤ front.length := by
          have lengths := congrArg List.length same
          simp at lengths
          omega
        simp only [found, bind, Except.bind] at replaced ⊢
        cases replacedAfter : replaceAfter (window.length - 1) front with
        | error error => rw [replacedAfter] at replaced; cases replaced
        | ok after =>
          rw [replacedAfter] at replaced
          cases replaced
          rw [ih countedRest inside replacedAfter]
          rfl

end

/-- Fusion works stretch by stretch. -/
theorem stretchwise : Stretchwise Token.Counted fuse where
  split front marker tokens counted countedRest isMarker := by
    have all {tokens : List Token} (counted : ∀ token ∈ tokens, token.isMarker = false → token.Counted) :
        ∀ token ∈ tokens, token.Counted := fun token member foldable =>
      counted token member (Token.not_marker_of_foldable foldable) foldable
    have whole := replaceAfter_split isMarker (all counted) (Nat.zero_le _) (replaceAll_ok (all counted))
      (replaceAll_ok (all countedRest))
    rw [fuse, replaceAll, whole]
    rfl
  flat tokens flat counted token member := by
    rcases mem_fuse counted member with old | fused
    · exact flat token old
    · exact fused.not_marker
  alike tokens _ counted := fuse_alike counted

/-- A stream whose loop markers nest can be fused, and its fusion does what the stream does, whatever the
extensions mean and whatever state it starts from: it ends from the same states, and in the same ways. -/
theorem fusion_preserves (tokens : List Token) (nested : Nested tokens) (counted : ∀ token ∈ tokens, token.Counted) :
    ∃ fused, replaceAll tokens = .ok fused ∧ Nested fused ∧
      ∀ {ρ : Type} [Host ρ] (meaning : Meaning ρ) (state : State ρ) (outcome : Outcome ρ),
        Token.Ends meaning fused state outcome ↔ Token.Ends meaning tokens state outcome := by
  obtain ⟨code, reads⟩ := nested.reads
  have countedPlain : ∀ token ∈ tokens, token.isMarker = false → token.Counted :=
    fun token member _ => counted token member
  have readsFused := stretchwise.reads reads countedPlain
  refine ⟨fuse tokens, replaceAll_ok counted, readsFused.nested, fun meaning state outcome => ?_⟩
  apply Token.ends_congr readsFused reads
  rw [stretchwise.runs code (reads.each_plain countedPlain)]
  rfl

/-- A loop that goes past the end of the tape and back in each of its two iterations, and a step after it. -/
theorem fusion_preserves_excursion :
    replaceAll [.single .loopOpen, .single .right, .counted .inc 3, .single .left, .single .dec, .single .loopClose,
        .single .inc, .single .right] =
      .ok [.single .loopOpen, { kind := .addAt, amount := 3, offset := 1 }, .single .dec, .single .loopClose,
        { kind := .addMove, amount := 1, offset := 1 }] ∧
      Token.Ends ⟨.halt, fun _ => .next⟩ [.single .loopOpen, { kind := .addAt, amount := 3, offset := 1 },
        .single .dec, .single .loopClose, { kind := .addMove, amount := 1, offset := 1 }]
        ⟨⟨#[2]⟩, 0, [], Collector.ofLines []⟩ (.ended ⟨⟨#[1]⟩, 1, [], Collector.ofLines []⟩) := by
  let tokens : List Token := [.single .loopOpen, .single .right, .counted .inc 3, .single .left, .single .dec,
    .single .loopClose, .single .inc, .single .right]
  have inner : Reads [.single .right, .counted .inc 3, .single .left, .single .dec] _ :=
    .token rfl (.token rfl (.token rfl (.token rfl .halt)))
  have reads : Reads tokens _ := .loop rfl inner rfl (.token rfl (.token rfl .halt))
  have counted : ∀ token ∈ tokens, token.Counted := by
    simp [tokens, Token.Counted, Token.single, Token.counted]
  obtain ⟨fused, made, _, same⟩ := fusion_preserves tokens reads.nested counted
  have found : replaceAll tokens = .ok [.single .loopOpen, { kind := .addAt, amount := 3, offset := 1 },
    .single .dec, .single .loopClose, { kind := .addMove, amount := 1, offset := 1 }] := rfl
  obtain rfl := Except.ok.inj (made.symm.trans found)
  exact ⟨found, (same _ _ _).mpr ⟨_, 30, reads.ofTokens?, rfl⟩⟩

end TapeScript.Fusion
