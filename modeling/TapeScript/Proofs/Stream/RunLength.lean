import TapeScript.Proofs.Stream.Update
import TapeScript.Stream.RunLength

/-! Counting repetitions keeps what every stream does. What is made of a stream is told run by run, and all that
follows of it is read off there. -/
namespace TapeScript.RunLength

/-- Whether a token is taken into a run. -/
def extendsRun (token : Token) : Bool := token.isFoldable && token.amount == 1

variable {token : Token} {tokens coded : List Token} {kind : TokenKind} {run : Run}

theorem extendsRun_iff : extendsRun token = true ↔ token.isFoldable = true ∧ token.amount = 1 := by
  simp [extendsRun]

/-- A run ends at a token that is not taken into it. -/
theorem compressAfter_split (other : extendsRun token = false) (front tokens : List Token) (run : Run) :
    compressAfter run (front ++ token :: tokens) = compressAfter run front ++ token :: compressAfter none tokens := by
  rw [extendsRun] at other
  induction front generalizing run with
  | nil => simp [compressAfter, other]
  | cons first front ih =>
    simp only [List.cons_append, compressAfter]
    split
    · split
      · split
        · rw [ih]
        · rw [ih, List.append_assoc]
      · rw [ih]
    · simp [ih]

theorem compress_other (other : extendsRun token = false) (tokens : List Token) :
    compress (token :: tokens) = token :: compress tokens :=
  compressAfter_split other [] tokens none

theorem compress_single (single : extendsRun token = true) (tokens : List Token) :
    compress (token :: tokens) = compressAfter (some (token.kind, 1)) tokens := by
  rw [extendsRun] at single
  rw [compress, compressAfter, if_pos single]

theorem compressAfter_same (single : extendsRun token = true) (length : Nat) (tokens : List Token) :
    compressAfter (some (token.kind, length)) (token :: tokens) =
      compressAfter (some (token.kind, length + 1)) tokens := by
  rw [extendsRun] at single
  simp [compressAfter, single]

/-- A run is over where the next token is not taken into it. -/
theorem compressAfter_flush
    (apart : ∀ item ∈ run, ∀ next ∈ tokens.head?, extendsRun next = true → item.1 ≠ next.kind) :
    compressAfter run tokens = run.tokens ++ compress tokens := by
  cases run with
  | none => rfl
  | some item =>
    obtain ⟨kind, length⟩ := item
    cases tokens with
    | nil => exact (List.append_nil _).symm
    | cons token tokens =>
      cases single : extendsRun token with
      | true =>
        have other : kind ≠ token.kind := apart (kind, length) rfl token rfl single
        rw [compress_single single]
        rw [extendsRun] at single
        simp [compressAfter, single, other, Run.tokens]
      | false =>
        rw [compress_other single]
        exact compressAfter_split single [] tokens _

/-- A run goes on with the first token of a stream, or is over, however long it is. -/
theorem run_continues_or_ends (kind : TokenKind) (tokens : List Token) :
    (∃ token rest, tokens = token :: rest ∧ extendsRun token = true ∧ kind = token.kind) ∨
      ∀ length, compressAfter (some (kind, length)) tokens = ofRun kind length ++ compress tokens := by
  by_cases continues : ∃ token rest, tokens = token :: rest ∧ extendsRun token = true ∧ kind = token.kind
  · exact .inl continues
  · right
    intro length
    apply compressAfter_flush
    intro item same next found single sameKind
    obtain rfl : (kind, length) = item := by simpa using same
    cases tokens with
    | nil => simp at found
    | cons token rest =>
      obtain rfl : token = next := by simpa using found
      exact continues ⟨token, rest, rfl, single, sameKind⟩

/-- The single tokens of a run. -/
def Singles (kind : TokenKind) (run : List Token) : Prop :=
  ∀ token ∈ run, extendsRun token = true ∧ token.kind = kind

/-- A stream and what is made of it: the tokens of each run together, every other one by itself. -/
inductive Codes : List Token → List Token → Prop where
  | nil : Codes [] []
  | other {token : Token} {tokens coded : List Token} (other : extendsRun token = false) (rest : Codes tokens coded) :
      Codes (token :: tokens) (token :: coded)
  | run {kind : TokenKind} {run tokens coded : List Token} (singles : Singles kind run) (rest : Codes tokens coded) :
      Codes (run ++ tokens) (ofRun kind run.length ++ coded)

/-- All of the run that is under way is found in front. -/
private theorem compressAfter_run (kind : TokenKind) (length : Nat) (tokens : List Token) :
    ∃ run rest, tokens = run ++ rest ∧ Singles kind run ∧
      compressAfter (some (kind, length)) tokens = ofRun kind (length + run.length) ++ compress rest := by
  induction tokens generalizing length with
  | nil => exact ⟨[], [], rfl, by simp [Singles], (List.append_nil _).symm⟩
  | cons token tokens ih =>
    rcases run_continues_or_ends kind (token :: tokens) with ⟨_, _, split, single, rfl⟩ | ends
    · obtain ⟨rfl, rfl⟩ := List.cons.inj split
      obtain ⟨run, rest, rfl, singles, made⟩ := ih (length + 1)
      refine ⟨token :: run, rest, rfl, List.forall_mem_cons.mpr ⟨⟨single, rfl⟩, singles⟩, ?_⟩
      rw [compressAfter_same single, made, List.length_cons, Nat.add_right_comm, Nat.add_assoc]
    · exact ⟨[], token :: tokens, rfl, by simp [Singles], ends length⟩

theorem codes_compress (tokens : List Token) : Codes tokens (compress tokens) := by
  match tokens with
  | [] => exact .nil
  | token :: tokens =>
    cases single : extendsRun token with
    | false =>
      rw [compress_other single]
      exact .other single (codes_compress tokens)
    | true =>
      obtain ⟨run, rest, split, singles, made⟩ := compressAfter_run token.kind 1 tokens
      have whole : Singles token.kind (token :: run) := List.forall_mem_cons.mpr ⟨⟨single, rfl⟩, singles⟩
      have shorter : rest.length < (token :: tokens).length := by
        rw [split, List.length_cons, List.length_append]
        omega
      rw [compress_single single, made, split, Nat.add_comm]
      exact .run whole (codes_compress rest)
termination_by tokens.length

private theorem counted_alike (foldable : (Token.single kind).isFoldable = true) (count : Nat) :
    Alike [.counted kind count] (List.replicate count (.single kind)) :=
  (Alike.replicate foldable count).symm

/-- The tokens of a run are as good as the single tokens it was made of. -/
theorem ofRun_alike (foldable : (Token.single kind).isFoldable = true) (length : Nat) :
    Alike (ofRun kind length) (List.replicate length (.single kind)) := by
  have full (count : Nat) : Alike (List.replicate count (.counted kind maxCount))
      (List.replicate (count * maxCount) (.single kind)) := by
    induction count with
    | zero => simpa using Alike.refl []
    | succ count ih =>
      rw [List.replicate_succ', Nat.succ_mul, ← List.replicate_append_replicate]
      exact ih.append (counted_alike foldable maxCount)
  have rest : Alike (if length % maxCount = 0 then [] else [.counted kind (length % maxCount : Nat)])
      (List.replicate (length % maxCount) (.single kind)) := by
    split
    · rename_i exact'
      rw [exact']
      exact .refl []
    · exact counted_alike foldable _
  have parts : length / maxCount * maxCount + length % maxCount = length := Nat.div_add_mod' length maxCount
  have whole := (full (length / maxCount)).append rest
  rw [List.replicate_append_replicate, parts] at whole
  exact whole

private theorem run_alike {run : List Token} (singles : Singles kind run) : Alike (ofRun kind run.length) run := by
  cases run with
  | nil => exact .refl []
  | cons first run =>
    obtain ⟨⟨single, rfl⟩, _⟩ := List.forall_mem_cons.mp singles
    have foldable := (extendsRun_iff.mp single).1
    have each (run : List Token) (singles : Singles first.kind run) :
        Alike (List.replicate run.length (.single first.kind)) run := by
      induction run with
      | nil => exact .refl []
      | cons token run ih =>
        obtain ⟨⟨single, kind⟩, rest⟩ := List.forall_mem_cons.mp singles
        obtain ⟨foldableToken, amount⟩ := extendsRun_iff.mp single
        have same : Alike [.single first.kind] [token] := by
          have foldableSingle : (Token.single first.kind).isFoldable = true := foldable
          apply Alike.of_changes foldableSingle foldableToken <;>
            simp [Token.cellChange, Token.displacement, Token.single, Token.counted, amount, kind]
        exact same.append (ih rest)
    exact (ofRun_alike foldable _).trans (each _ singles)

theorem Codes.alike (codes : Codes tokens coded) : Alike coded tokens := by
  induction codes with
  | nil => exact .refl []
  | other _ _ ih => exact ih.cons _
  | run singles _ ih => exact (run_alike singles).append ih

theorem compress_alike (tokens : List Token) : Alike (compress tokens) tokens := (codes_compress tokens).alike

private theorem weight_ofRun (kind : TokenKind) (length : Nat) :
    Token.weight (ofRun kind length) = length * (Token.single kind).cellChange.natAbs := by
  have counted (count : Nat) : (Token.counted kind count).cellChange.natAbs =
      count * (Token.single kind).cellChange.natAbs := by
    cases kind <;> simp [Token.counted, Token.single, Token.cellChange]
  have rest : Token.weight (if length % maxCount = 0 then [] else [.counted kind (length % maxCount : Nat)]) =
      length % maxCount * (Token.single kind).cellChange.natAbs := by
    split
    · rename_i exact'
      simp [Token.weight, exact']
    · simp only [Token.weight, Nat.add_zero, counted]
  rw [ofRun, Token.weight_append, rest, Token.weight_replicate, counted, ← Nat.mul_assoc, ← Nat.add_mul,
    Nat.div_add_mod']

private theorem weight_run {run : List Token} (singles : Singles kind run) :
    Token.weight run = run.length * (Token.single kind).cellChange.natAbs := by
  induction run with
  | nil => simp [Token.weight]
  | cons token run ih =>
    obtain ⟨⟨single, rfl⟩, rest⟩ := List.forall_mem_cons.mp singles
    have same : token.cellChange = (Token.single token.kind).cellChange := by
      simp [Token.cellChange, Token.single, Token.counted, (extendsRun_iff.mp single).2]
    rw [Token.weight, ih rest, List.length_cons, Nat.succ_mul, same, Nat.add_comm]

theorem Codes.weight_eq (codes : Codes tokens coded) : Token.weight coded = Token.weight tokens := by
  induction codes with
  | nil => rfl
  | other _ _ ih => rw [Token.weight, ih, Token.weight]
  | run singles _ ih => rw [Token.weight_append, Token.weight_append, weight_ofRun, weight_run singles, ih]

/-- Counting changes nothing about the weight. -/
theorem weight_compress (tokens : List Token) : Token.weight (compress tokens) = Token.weight tokens :=
  (codes_compress tokens).weight_eq

theorem mem_ofRun {length : Nat} (member : token ∈ ofRun kind length) :
    0 < length ∧ ∃ count : Nat, 1 ≤ count ∧ count ≤ maxCount ∧ token = .counted kind count := by
  have some' : 0 < length := by
    apply Nat.pos_of_ne_zero
    intro none
    rw [none] at member
    cases member
  refine ⟨some', ?_⟩
  rcases List.mem_append.mp member with full | rest
  · exact ⟨maxCount, by decide, Nat.le_refl _, (List.mem_replicate.mp full).2⟩
  · split at rest
    · simp at rest
    · rename_i left
      have bound : length % maxCount < maxCount := Nat.mod_lt _ (by decide)
      exact ⟨length % maxCount, Nat.pos_of_ne_zero left, Nat.le_of_lt bound, List.mem_singleton.mp rest⟩

theorem Codes.mem (codes : Codes tokens coded) (member : token ∈ coded) :
    token ∈ tokens ∨ ∃ source ∈ tokens, ∃ count : Nat, source.isFoldable = true ∧ 1 ≤ count ∧ count ≤ maxCount ∧
      token = .counted source.kind count := by
  induction codes with
  | nil => cases member
  | other _ _ ih =>
    rcases List.mem_cons.mp member with rfl | member
    · exact .inl (by simp)
    · rcases ih member with old | ⟨source, present, made⟩
      · exact .inl (by simp [old])
      · exact .inr ⟨source, by simp [present], made⟩
  | @run kind run tokens coded singles _ ih =>
    rcases List.mem_append.mp member with inRun | member
    · obtain ⟨some', count, positive, bound, rfl⟩ := mem_ofRun inRun
      obtain ⟨first, present⟩ := List.exists_mem_of_length_pos some'
      obtain ⟨single, rfl⟩ := singles first present
      exact .inr ⟨first, by simp [present], count, (extendsRun_iff.mp single).1, positive, bound, rfl⟩
    · rcases ih member with old | ⟨source, present, made⟩
      · exact .inl (by simp [old])
      · exact .inr ⟨source, by simp [present], made⟩

/-- Counting makes tokens of up to the largest count, of the kinds there are, and passes the others on. -/
theorem mem_compress (member : token ∈ compress tokens) :
    token ∈ tokens ∨ ∃ source ∈ tokens, ∃ count : Nat, source.isFoldable = true ∧ 1 ≤ count ∧ count ≤ maxCount ∧
      token = .counted source.kind count :=
  (codes_compress tokens).mem member

/-- Counting works stretch by stretch. -/
theorem stretchwise (holds : Token → Prop) : Stretchwise holds compress where
  split front marker tokens _ _ isMarker :=
    compressAfter_split (by simp [extendsRun, Token.not_foldable_of_marker isMarker]) front tokens none
  flat tokens flat _ token member := by
    rcases mem_compress member with old | ⟨source, _, count, foldable, _, _, rfl⟩
    · exact flat token old
    · exact Token.not_marker_of_foldable foldable
  alike tokens _ _ := compress_alike tokens

end TapeScript.RunLength
