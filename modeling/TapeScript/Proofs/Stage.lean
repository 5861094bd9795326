import TapeScript.Proofs.Behaviour

/-! Stages that rewrite a stream stretch by stretch. A stretch is what stands between two loop
markers; a stage that leaves the markers where they are and makes of every stretch one that does the
same, makes of every program one that does the same. -/
namespace TapeScript

/-- Streams without loops that do the same from every state, whatever the extensions mean. -/
structure Alike (tokens others : List Token) : Prop where
  count : extensionCount tokens = extensionCount others
  acts : ∀ {ρ : Type} [Host ρ] (meaning : Meaning ρ) (following : Nat) (state : State ρ),
    Token.actAll meaning following tokens state = Token.actAll meaning following others state

namespace Alike

theorem refl (tokens : List Token) : Alike tokens tokens := ⟨rfl, fun _ _ _ => rfl⟩

theorem symm (alike : Alike tokens others) : Alike others tokens :=
  ⟨alike.count.symm, fun meaning following state => (alike.acts meaning following state).symm⟩

theorem trans (first : Alike tokens others) (second : Alike others last) : Alike tokens last :=
  ⟨first.count.trans second.count,
    fun meaning following state => (first.acts meaning following state).trans (second.acts meaning following state)⟩

theorem append (first : Alike tokens others) (second : Alike more further) :
    Alike (tokens ++ more) (others ++ further) where
  count := by
    have counts := first.count
    have countsAfter := second.count
    simp only [extensionCount, List.countP_append] at counts countsAfter ⊢
    rw [counts, countsAfter]
  acts meaning following state := by
    rw [Token.actAll_append, Token.actAll_append, first.acts, second.count]
    congr 1
    funext state
    exact second.acts meaning following state

theorem cons (token : Token) (alike : Alike tokens others) : Alike (token :: tokens) (token :: others) :=
  (refl [token]).append alike

/-- A stretch may be exchanged for another in the middle of a stream. -/
theorem within (front : List Token) (alike : Alike tokens others) (back : List Token) :
    Alike (front ++ (tokens ++ back)) (front ++ (others ++ back)) :=
  (refl front).append (alike.append (refl back))

end Alike

namespace Token

/-- How much tokens change the cells they meet, taken together. -/
def weight : List Token → Nat
  | [] => 0
  | token :: tokens => token.cellChange.natAbs + weight tokens

theorem weight_append (tokens others : List Token) : weight (tokens ++ others) = weight tokens + weight others := by
  induction tokens with
  | nil => simp [weight]
  | cons token tokens ih => rw [List.cons_append, weight, weight, ih, Nat.add_assoc]

theorem weight_reverse (tokens : List Token) : weight tokens.reverse = weight tokens := by
  induction tokens with
  | nil => rfl
  | cons token tokens ih => simp [weight_append, weight, ih, Nat.add_comm]

theorem weight_replicate (count : Nat) (token : Token) :
    weight (List.replicate count token) = count * token.cellChange.natAbs := by
  induction count with
  | zero => simp [weight]
  | succ count ih => rw [List.replicate_succ, weight, ih, Nat.succ_mul, Nat.add_comm]

end Token

namespace Code

/-- How much the tokens of the code change the cells they meet, taken together. -/
def weight : Code → Nat
  | .halt => 0
  | .token head rest => head.cellChange.natAbs + rest.weight
  | .loop body rest => body.weight + rest.weight

theorem weight_of_tokens? {code : Code} {tokens : List Token} (flat : code.tokens? = some tokens) :
    code.weight = Token.weight tokens := by
  rw [eq_withTokens flat]
  clear flat
  induction tokens with
  | nil => rfl
  | cons token tokens ih =>
    rw [withTokens] at ih
    simp [withTokens, weight, ih, Token.weight]

variable {ρ : Type} [Host ρ] {guard : Code → State ρ → Prop} {meaning : Meaning ρ}

/-- A stage on the tree: every stretch is rewritten on its own. The pending tokens are those of the
stretch so far. -/
def rewrite (stage : List Token → List Token) : Code → List Token → Code
  | .halt, pending => withTokens (stage pending) .halt
  | .token head rest, pending => rest.rewrite stage (pending ++ [head])
  | .loop body rest, pending =>
    withTokens (stage pending) (.loop (body.rewrite stage []) (rest.rewrite stage []))

theorem tokens?_rewrite (stage : List Token → List Token) (code : Code) (pending : List Token) :
    (code.rewrite stage pending).tokens? = code.tokens?.map fun tokens => stage (pending ++ tokens) := by
  induction code generalizing pending with
  | halt => simp [rewrite, tokens?_withTokens, tokens?]
  | token head rest ih =>
    rw [rewrite, ih, tokens?]
    cases rest.tokens? <;> simp
  | loop body rest _ _ =>
    rw [rewrite, tokens?, Option.map_none]
    induction stage pending with
    | nil => rfl
    | cons head tokens ih =>
      rw [withTokens] at ih
      simp [withTokens, tokens?, ih]

theorem weight_withTokens (tokens : List Token) (code : Code) :
    (withTokens tokens code).weight = Token.weight tokens + code.weight := by
  induction tokens with
  | nil => simp [withTokens, Token.weight]
  | cons token tokens ih =>
    rw [withTokens] at ih
    simp [withTokens, weight, ih, Token.weight, Nat.add_assoc]

/-- A stage that makes no stretch heavier makes no program heavier. -/
theorem weight_rewrite {holds : Token → Prop} {stage : List Token → List Token} {code : Code} (each : code.Each holds)
    (lighter : ∀ tokens, (∀ token ∈ tokens, holds token) → Token.weight (stage tokens) ≤ Token.weight tokens)
    (pending : List Token) (all : ∀ token ∈ pending, holds token) :
    (code.rewrite stage pending).weight ≤ Token.weight pending + code.weight := by
  induction code generalizing pending with
  | halt =>
    rw [rewrite, weight_withTokens]
    exact Nat.add_le_add_right (lighter pending all) _
  | token head rest ih =>
    have more : ∀ token ∈ pending ++ [head], holds token := by
      intro token member
      rcases List.mem_append.mp member with old | new
      · exact all token old
      · rw [List.mem_singleton.mp new]
        exact each.1
    have later := ih each.2 (pending ++ [head]) more
    rw [Token.weight_append] at later
    simpa [rewrite, weight, Token.weight, Nat.add_assoc] using later
  | loop body rest ihBody ih =>
    have first := lighter pending all
    have inside := ihBody each.1 [] (by simp)
    have after := ih each.2 [] (by simp)
    simp only [Token.weight] at inside after
    rw [rewrite, weight_withTokens, weight, weight]
    omega

theorem Each.withTokens {holds : Token → Prop} {code : Code} (tokens : List Token)
    (all : ∀ token ∈ tokens, holds token) (each : code.Each holds) :
    (withTokens tokens code).Each holds := by
  induction tokens with
  | nil => exact each
  | cons token tokens ih =>
    exact ⟨all token (by simp), ih fun other member => all other (by simp [member])⟩

/-- What a stage makes hold in every stretch holds after it. -/
theorem Each.rewrite {holds other : Token → Prop} {stage : List Token → List Token} {code : Code}
    (each : code.Each holds) (made : ∀ tokens, (∀ token ∈ tokens, holds token) → ∀ token ∈ stage tokens, other token)
    (pending : List Token) (all : ∀ token ∈ pending, holds token) : (code.rewrite stage pending).Each other := by
  induction code generalizing pending with
  | halt => exact .withTokens _ (made _ all) trivial
  | token head rest ih =>
    apply ih each.2
    intro token member
    rcases List.mem_append.mp member with old | new
    · exact all token old
    · rw [List.mem_singleton.mp new]
      exact each.1
  | loop body rest ihBody ih =>
    exact .withTokens _ (made _ all) ⟨ihBody each.1 [] (by simp), ih each.2 [] (by simp)⟩

end Code

/-- A stage that treats stretches of tokens of a certain kind each on its own, and keeps what they do. -/
structure Stretchwise (holds : Token → Prop) (stage : List Token → List Token) : Prop where
  split : ∀ front marker tokens, (∀ token ∈ front, token.isMarker = false → holds token) →
    (∀ token ∈ tokens, token.isMarker = false → holds token) → marker.isMarker = true →
      stage (front ++ marker :: tokens) = stage front ++ marker :: stage tokens
  flat : ∀ tokens, (∀ token ∈ tokens, token.isMarker = false) → (∀ token ∈ tokens, holds token) →
    ∀ token ∈ stage tokens, token.isMarker = false
  alike : ∀ tokens, (∀ token ∈ tokens, token.isMarker = false) → (∀ token ∈ tokens, holds token) →
    Alike (stage tokens) tokens

namespace Stretchwise

variable {ρ : Type} [Host ρ] {guard : Code → State ρ → Prop} {meaning : Meaning ρ}
  {holds : Token → Prop} {stage : List Token → List Token}

private theorem reads_after (stretchwise : Stretchwise holds stage) (reads : Reads tokens code)
    (all : ∀ token ∈ tokens, token.isMarker = false → holds token) (pending : List Token)
    (flat : ∀ token ∈ pending, token.isMarker = false) (allPending : ∀ token ∈ pending, holds token) :
    Reads (stage (pending ++ tokens)) (code.rewrite stage pending) := by
  induction reads generalizing pending with
  | halt =>
    rw [List.append_nil]
    exact .of_flat (stretchwise.flat pending flat allPending)
  | @token token tokens code plain _ ih =>
    have assoc : pending ++ token :: tokens = (pending ++ [token]) ++ tokens := by simp
    rw [assoc]
    apply ih fun other member => all other (by simp [member])
    · intro other member
      rcases List.mem_append.mp member with old | new
      · exact flat other old
      · rw [List.mem_singleton.mp new]
        exact plain
    · intro other member
      rcases List.mem_append.mp member with old | new
      · exact allPending other old
      · rw [List.mem_singleton.mp new]
        exact all token (by simp) plain
  | @loop opener closer inner tokens body code opening inside closing rest ihInner ih =>
    have first : opener.isMarker = true := by simp [Token.isMarker, opening]
    have last : closer.isMarker = true := by simp [Token.isMarker, closing]
    have allInner : ∀ token ∈ inner, token.isMarker = false → holds token :=
      fun token member => all token (by simp [member])
    have allAfter : ∀ token ∈ tokens, token.isMarker = false → holds token :=
      fun token member => all token (by simp [member])
    rw [List.cons_append, stretchwise.split pending opener (inner ++ closer :: tokens)
        (fun token member _ => allPending token member)
        (fun token member => all token (List.mem_cons_of_mem opener member)) first,
      stretchwise.split inner closer tokens allInner allAfter last, Code.rewrite]
    exact .withTokens (stretchwise.flat pending flat allPending)
      (.loop opening (ihInner allInner [] (by simp) (by simp)) closing (ih allAfter [] (by simp) (by simp)))

/-- The stage on the stream is the stage on its tree. -/
theorem reads (stretchwise : Stretchwise holds stage) (reads : Reads tokens code)
    (all : ∀ token ∈ tokens, token.isMarker = false → holds token) :
    Reads (stage tokens) (code.rewrite stage []) :=
  reads_after stretchwise reads all [] (by simp) (by simp)

theorem extensions_rewrite (stretchwise : Stretchwise holds stage) (code : Code)
    (each : code.Each fun token => token.isMarker = false ∧ holds token) (pending : List Token)
    (flat : ∀ token ∈ pending, token.isMarker = false ∧ holds token) :
    (code.rewrite stage pending).extensions = extensionCount pending + code.extensions := by
  have alike (tokens : List Token) (all : ∀ token ∈ tokens, token.isMarker = false ∧ holds token) :=
    (stretchwise.alike tokens (fun token member => (all token member).1) fun token member => (all token member).2).count
  induction code generalizing pending with
  | halt => rw [Code.rewrite, Code.extensions_withTokens, alike pending flat]
  | token head rest ih =>
    rw [Code.rewrite, ih each.2, extensionCount, List.countP_append, Code.extensions, ← Nat.add_assoc]
    · congr 1
      by_cases kind : head.kind = .extension <;> simp [extensionCount, kind]
    · intro token member
      rcases List.mem_append.mp member with old | new
      · exact flat token old
      · rw [List.mem_singleton.mp new]
        exact each.1
  | loop body rest ihBody ih =>
    rw [Code.rewrite, Code.extensions_withTokens, alike pending flat, Code.extensions, ihBody each.1 [] (by simp),
      ih each.2 [] (by simp), Code.extensions]
    simp [extensionCount]

private theorem runs_after (stretchwise : Stretchwise holds stage) (code : Code)
    (each : code.Each fun token => token.isMarker = false ∧ holds token) (pending : List Token)
    (flat : ∀ token ∈ pending, token.isMarker = false ∧ holds token) (following : Nat) (state : State ρ)
    (whole : Behaviour ρ) :
    (code.rewrite stage pending).Runs guard meaning following state whole ↔
      (Token.actAll meaning (code.extensions + following) pending state).Leads
        (code.Runs (fun body => guard (body.rewrite stage [])) meaning following) whole := by
  have alike (tokens : List Token) (all : ∀ token ∈ tokens, token.isMarker = false ∧ holds token) :=
    stretchwise.alike tokens (fun token member => (all token member).1) fun token member => (all token member).2
  induction code generalizing pending following state whole with
  | halt =>
    rw [Code.rewrite, Code.runs_withTokens, (alike pending flat).acts]
    rfl
  | token head rest ih =>
    have more : ∀ token ∈ pending ++ [head], token.isMarker = false ∧ holds token := by
      intro token member
      rcases List.mem_append.mp member with old | new
      · exact flat token old
      · rw [List.mem_singleton.mp new]
        exact each.1
    have counted : extensionCount [head] + (rest.extensions + following) =
        (Code.token head rest).extensions + following := by
      by_cases kind : head.kind = .extension <;> simp [extensionCount, Code.extensions, kind]
      omega
    have single (state : State ρ) : Token.actAll meaning (rest.extensions + following) [head] state =
        head.act meaning (rest.extensions + following) state := by
      simp [Token.actAll, extensionCount]
    refine (ih each.2 _ more following state whole).trans ?_
    rw [Token.actAll_append, Behaviour.bind_leads, counted]
    simp only [single]
    rfl
  | loop body rest ihBody ih =>
    have same {code : Code} {following : Nat}
        (ih : ∀ (state : State ρ) (whole : Behaviour ρ),
          (code.rewrite stage []).Runs guard meaning following state whole ↔
            (Token.actAll meaning (code.extensions + following) [] state).Leads
              (code.Runs (fun body => guard (body.rewrite stage [])) meaning following) whole) :
        (code.rewrite stage []).Runs guard meaning following =
          code.Runs (fun body => guard (body.rewrite stage [])) meaning following := by
      funext state whole
      simpa [Token.actAll] using propext (ih state whole)
    have sameBody (following : Nat) := same (ihBody each.1 [] (by simp) following)
    have sameRest (following : Nat) := same (ih each.2 [] (by simp) following)
    have counts {code : Code} (each : code.Each fun token => token.isMarker = false ∧ holds token) :
        (code.rewrite stage []).extensions = code.extensions := by
      simpa [extensionCount] using stretchwise.extensions_rewrite code each [] (by simp)
    rw [Code.rewrite, Code.runs_withTokens, (alike pending flat).acts, Code.extensions, counts each.1, counts each.2,
      Code.extensions]
    have runs : Code.Runs guard meaning (.loop (body.rewrite stage []) (rest.rewrite stage [])) following =
        Code.Runs (fun body => guard (body.rewrite stage [])) meaning (.loop body rest) following := by
      funext state whole
      simp only [Code.Runs, sameBody, sameRest, counts each.2]
    rw [runs]

/-- The stage keeps what the program does, loops being let in as they are after it. -/
theorem runs (stretchwise : Stretchwise holds stage) (code : Code)
    (each : code.Each fun token => token.isMarker = false ∧ holds token) (following : Nat) :
    (code.rewrite stage []).Runs guard meaning following =
      code.Runs (fun body => guard (body.rewrite stage [])) meaning following := by
  funext state whole
  simpa [Token.actAll] using propext (runs_after stretchwise code each [] (by simp) following state whole)

end Stretchwise
end TapeScript
