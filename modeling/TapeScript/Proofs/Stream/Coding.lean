import Mathlib.Algebra.Order.Floor.Div
import TapeScript.Proofs.Stream.Expansion

/-! Counting repetitions as a code for streams. Expansion gives back what was counted, every run is coded by
itself in full tokens and one last token, and no code with counts of the same size is shorter. -/
namespace TapeScript.RunLength

/-- A run of equal single tokens in a stream, with none of its kind on either side. -/
structure MaximalRun (kind : TokenKind) (length : Nat) (front back tokens : List Token) : Prop where
  split : tokens = front ++ (List.replicate length (.single kind) ++ back)
  foldable : (Token.single kind).isFoldable = true
  positive : 0 < length
  before : ∀ token ∈ front.getLast?, token.kind ≠ kind
  after : ∀ token ∈ back.head?, token.kind ≠ kind

variable {token : Token} {tokens front rest : List Token} {kind : TokenKind} {run : Run}

theorem extendsRun_single (foldable : (Token.single kind).isFoldable = true) : extendsRun (.single kind) = true := by
  rw [extendsRun, foldable]
  rfl

/-- To have seen none of a kind is to have no run under way. -/
theorem compressAfter_zero (kind : TokenKind) (tokens : List Token) :
    compressAfter (some (kind, 0)) tokens = compress tokens := by
  rcases run_continues_or_ends kind tokens with ⟨token, rest, rfl, single, rfl⟩ | ends
  · rw [compressAfter_same single, compress_single single]
  · exact ends 0

theorem compressAfter_replicate (foldable : (Token.single kind).isFoldable = true) (length count : Nat)
    (tokens : List Token) :
    compressAfter (some (kind, length)) (List.replicate count (.single kind) ++ tokens) =
      compressAfter (some (kind, length + count)) tokens := by
  induction count generalizing length with
  | zero => rfl
  | succ count ih =>
    rw [List.replicate_succ, List.cons_append]
    refine (compressAfter_same (extendsRun_single foldable) length _).trans ?_
    refine (ih (length + 1)).trans ?_
    rw [Nat.add_right_comm, Nat.add_assoc]

theorem compress_replicate (foldable : (Token.single kind).isFoldable = true) (length : Nat) (tokens : List Token) :
    compress (List.replicate length (.single kind) ++ tokens) = compressAfter (some (kind, length)) tokens := by
  rw [← compressAfter_zero kind, compressAfter_replicate foldable, Nat.zero_add]

theorem expand_counted (foldable : (Token.single kind).isFoldable = true) (count : Nat) (tokens : List Token) :
    expand (.counted kind count :: tokens) = List.replicate count (.single kind) ++ expand tokens := by
  have foldableCounted : (Token.counted kind count).isFoldable = true := foldable
  rw [expand_foldable foldableCounted]
  rfl

theorem expand_ofRun (foldable : (Token.single kind).isFoldable = true) (length : Nat) :
    expand (ofRun kind length) = List.replicate length (.single kind) := by
  have full (count : Nat) (tokens : List Token) : expand (List.replicate count (.counted kind maxCount) ++ tokens) =
      List.replicate (count * maxCount) (.single kind) ++ expand tokens := by
    induction count with
    | zero => simp
    | succ count ih =>
      rw [List.replicate_succ, List.cons_append, expand_counted foldable, ih, ← List.append_assoc,
        List.replicate_append_replicate, Nat.succ_mul, Nat.add_comm]
  have last : expand (if length % maxCount = 0 then [] else [.counted kind (length % maxCount : Nat)]) =
      List.replicate (length % maxCount) (.single kind) := by
    split
    · rename_i exact'
      rw [exact']
      rfl
    · rw [expand_counted foldable]
      exact List.append_nil _
  rw [ofRun, full, last, List.replicate_append_replicate, Nat.div_add_mod']

private theorem expand_run {run : List Token} (singles : Singles kind run) :
    expand (ofRun kind run.length) = expand run := by
  cases run with
  | nil => rfl
  | cons first run =>
    obtain ⟨⟨single, rfl⟩, _⟩ := List.forall_mem_cons.mp singles
    have foldable : (Token.single first.kind).isFoldable = true := (extendsRun_iff.mp single).1
    have each (run : List Token) (singles : Singles first.kind run) :
        expand run = List.replicate run.length (.single first.kind) := by
      induction run with
      | nil => rfl
      | cons token run ih =>
        obtain ⟨⟨single, kind⟩, rest⟩ := List.forall_mem_cons.mp singles
        obtain ⟨foldableToken, amount⟩ := extendsRun_iff.mp single
        rw [expand_foldable foldableToken, ih rest, amount, kind]
        rfl
    rw [expand_ofRun foldable, each _ singles]

theorem Codes.expand_eq {coded : List Token} (codes : Codes tokens coded) : expand coded = expand tokens := by
  induction codes with
  | nil => rfl
  | @other token tokens coded _ _ ih =>
    have cons (tokens : List Token) : expand (token :: tokens) = expand [token] ++ expand tokens :=
      expand_append [token] tokens
    rw [cons, cons tokens, ih]
  | run singles _ ih => rw [expand_append, expand_append, expand_run singles, ih]

/-- Expansion gives back what was counted. -/
theorem expand_compress (tokens : List Token) : expand (compress tokens) = expand tokens :=
  (codes_compress tokens).expand_eq

theorem compressAfter_append (apartRun : front = [] → ∀ item ∈ run, ∀ next ∈ rest.head?, item.1 ≠ next.kind)
    (apart : ∀ last ∈ front.getLast?, ∀ next ∈ rest.head?, last.kind ≠ next.kind) :
    compressAfter run (front ++ rest) = compressAfter run front ++ compress rest := by
  induction front generalizing run with
  | nil =>
    rw [List.nil_append, compressAfter]
    exact compressAfter_flush fun item same next found _ => apartRun rfl item same next found
  | cons token front ih =>
    have later : ∀ last ∈ front.getLast?, ∀ next ∈ rest.head?, last.kind ≠ next.kind := by
      intro last found
      cases front with
      | nil => simp at found
      | cons => exact apart last (by simpa [List.getLast?_cons_cons] using found)
    have under (length : Nat) : compressAfter (some (token.kind, length)) (front ++ rest) =
        compressAfter (some (token.kind, length)) front ++ compress rest := by
      apply ih _ later
      rintro rfl item same
      obtain rfl : (token.kind, length) = item := by simpa using same
      exact apart token rfl
    simp only [List.cons_append, compressAfter]
    split
    · split
      · split
        · rename_i same
          subst same
          exact under _
        · rw [under, List.append_assoc]
      · exact under 1
    · rw [ih (fun _ item none => by simp at none) later, List.append_assoc]
      rfl

/-- How many tokens a run takes: the full ones, and one for what is left. -/
theorem ceilDiv_maxCount (length : Nat) :
    length ⌈/⌉ maxCount = length / maxCount + if length % maxCount = 0 then 0 else 1 := by
  rw [Nat.ceilDiv_eq_add_pred_div, maxCount]
  split <;> omega

theorem length_ofRun (kind : TokenKind) (length : Nat) : (ofRun kind length).length = length ⌈/⌉ maxCount := by
  rw [ceilDiv_maxCount, ofRun, List.length_append, List.length_replicate]
  split <;> rfl

/-- A run is coded in tokens that are full, but for the last. -/
theorem ofRun_eq (kind : TokenKind) {length : Nat} (positive : 0 < length) :
    ∃ last : Nat, 1 ≤ last ∧ last ≤ maxCount ∧ (length ⌈/⌉ maxCount - 1) * maxCount + last = length ∧
      ofRun kind length =
        List.replicate (length ⌈/⌉ maxCount - 1) (.counted kind maxCount) ++ [.counted kind last] := by
  have parts : length / maxCount * maxCount + length % maxCount = length := Nat.div_add_mod' length maxCount
  rw [ceilDiv_maxCount, ofRun]
  split
  · rename_i exact'
    obtain ⟨full, more⟩ : ∃ full, length / maxCount = full + 1 :=
      have whole : maxCount ≤ length := Nat.le_of_dvd positive (Nat.dvd_of_mod_eq_zero exact')
      Nat.exists_eq_add_one.mpr (Nat.div_pos whole (by decide))
    rw [exact', more, Nat.succ_mul] at parts
    refine ⟨maxCount, by decide, Nat.le_refl _, ?_, ?_⟩
    · rw [more]
      exact parts
    · rw [more, List.replicate_succ', List.append_nil]
      rfl
  · rename_i rest
    exact ⟨length % maxCount, Nat.pos_of_ne_zero rest, Nat.le_of_lt (Nat.mod_lt _ (by decide)), parts, rfl⟩

/-- A maximal run is coded by itself. -/
theorem compress_run {length : Nat} {back : List Token} (found : MaximalRun kind length front back tokens) :
    compress tokens = compress front ++ (ofRun kind length ++ compress back) := by
  have first : ∀ next ∈ (List.replicate length (Token.single kind) ++ back).head?, next.kind = kind := by
    obtain ⟨count, rfl⟩ : ∃ count, length = count + 1 := Nat.exists_eq_add_one.mpr found.positive
    intro next same
    rw [List.replicate_succ, List.cons_append, List.head?_cons, Option.mem_some_iff] at same
    rw [← same]
    rfl
  have flush : compressAfter (some (kind, length)) back = ofRun kind length ++ compress back := by
    apply compressAfter_flush
    intro item same next head _ sameKind
    obtain rfl : (kind, length) = item := by simpa using same
    exact found.after next head sameKind.symm
  rw [found.split, compress, compressAfter_append (by simp)]
  · rw [compress_replicate found.foldable, flush]
    rfl
  · intro last same next head
    rw [first next head]
    exact found.before last same

theorem add_ceilDiv_maxCount (first second : Nat) :
    (first + second) ⌈/⌉ maxCount ≤ first ⌈/⌉ maxCount + second ⌈/⌉ maxCount := by
  simp only [Nat.ceilDiv_eq_add_pred_div, maxCount]
  omega

/-- Nothing is saved by breaking a run in two. -/
private theorem length_compressAfter_add (kind : TokenKind) (first second : Nat) (tokens : List Token) :
    (compressAfter (some (kind, first + second)) tokens).length ≤
      first ⌈/⌉ maxCount + (compressAfter (some (kind, second)) tokens).length := by
  induction tokens generalizing second with
  | nil =>
    simp only [compressAfter, Run.tokens, length_ofRun]
    exact add_ceilDiv_maxCount first second
  | cons token tokens ih =>
    rcases run_continues_or_ends kind (token :: tokens) with ⟨_, _, split, single, rfl⟩ | ends
    · obtain ⟨rfl, rfl⟩ := List.cons.inj split
      rw [compressAfter_same single, compressAfter_same single]
      exact ih (second + 1)
    · simp only [ends, List.length_append, length_ofRun]
      have whole := add_ceilDiv_maxCount first second
      omega

/-- No code whose counts are as small is shorter. -/
theorem length_compress_expand (bounded : ∀ token ∈ tokens, token.isFoldable = true → token.amount ≤ maxCount) :
    (compress (expand tokens)).length ≤ tokens.length := by
  induction tokens with
  | nil => exact Nat.le_refl 0
  | cons token tokens ih =>
    have behind := ih fun other member => bounded other (by simp [member])
    rw [List.length_cons]
    cases foldable : token.isFoldable with
    | false =>
      rw [expand_other foldable, compress_other (by simp [extendsRun, foldable]), List.length_cons]
      exact Nat.succ_le_succ behind
    | true =>
      have amount := bounded token (by simp) foldable
      have one : token.amount.toNat ⌈/⌉ maxCount ≤ 1 := by
        rw [Nat.ceilDiv_eq_add_pred_div, maxCount]
        rw [maxCount] at amount
        omega
      have broken := length_compressAfter_add token.kind token.amount.toNat 0 (expand tokens)
      rw [compressAfter_zero] at broken
      rw [expand_foldable foldable, compress_replicate foldable]
      exact broken.trans (by omega)

/-- Counting is a code for streams. It loses nothing; a stream whose tokens count once comes back as it was, each of
its runs is coded by itself in the fewest tokens, all but the last of them full, every other token stays where it is,
no code with counts of that size is shorter, and what is coded has one code only. -/
theorem coding_canonical (tokens : List Token) :
    expand (compress tokens) = expand tokens ∧
      ((∀ token ∈ tokens, token.Once) →
        expand tokens = tokens ∧
        (∀ kind length front back, MaximalRun kind length front back tokens →
          ∃ last : Nat, 1 ≤ last ∧ last ≤ maxCount ∧ (length ⌈/⌉ maxCount - 1) * maxCount + last = length ∧
            compress tokens = compress front ++
              ((List.replicate (length ⌈/⌉ maxCount - 1) (.counted kind maxCount) ++ [.counted kind last]) ++
                compress back)) ∧
        (∀ front token back, tokens = front ++ token :: back → token.isFoldable = false →
          compress tokens = compress front ++ token :: compress back) ∧
        (∀ coded : List Token, (∀ token ∈ coded, token.isFoldable = true → token.amount ≤ maxCount) →
          expand coded = tokens → (compress tokens).length ≤ coded.length) ∧
        compress (expand (compress tokens)) = compress tokens) := by
  refine ⟨expand_compress tokens, fun once => ?_⟩
  have same := expand_of_once once
  refine ⟨same, ?_, ?_, ?_, ?_⟩
  · intro kind length front back found
    obtain ⟨last, positive, bound, parts, coded⟩ := ofRun_eq kind found.positive
    exact ⟨last, positive, bound, parts, by rw [compress_run found, coded]⟩
  · intro front token back split other
    rw [split]
    exact compressAfter_split (by simp [extendsRun, other]) front back none
  · intro coded bounded stands
    rw [← stands]
    exact length_compress_expand bounded
  · rw [expand_compress, same]

/-- A run that fills its tokens, with another one of the same axis next to it. -/
theorem coding_canonical_exact :
    compress (List.replicate 198 (.single .right) ++ [.single .left, .single .left, .single .output]) =
      [.counted .right 99, .counted .right 99, .counted .left 2, .single .output] := by
  let back : List Token := [.single .left, .single .left, .single .output]
  have once : ∀ token ∈ List.replicate 198 (.single .right) ++ back, token.Once := by
    intro token member
    rcases List.mem_append.mp member with run | other
    · rw [(List.mem_replicate.mp run).2]
      exact fun _ => rfl
    · simp only [back, List.mem_cons, List.not_mem_nil, or_false] at other
      rcases other with rfl | rfl | rfl <;> exact fun _ => rfl
  have run : MaximalRun .right 198 [] back (List.replicate 198 (.single .right) ++ back) :=
    ⟨rfl, rfl, by decide, by simp, by simp [back, Token.single, Token.counted]⟩
  obtain ⟨_, runs, _⟩ := (coding_canonical (List.replicate 198 (.single .right) ++ back)).2 once
  obtain ⟨last, _, _, parts, coded⟩ := runs .right 198 [] back run
  have blocks : 198 ⌈/⌉ maxCount = 2 := by rw [ceilDiv_maxCount]; rfl
  rw [blocks] at parts coded
  obtain rfl : last = 99 := by rw [maxCount] at parts; omega
  exact coded

end TapeScript.RunLength
