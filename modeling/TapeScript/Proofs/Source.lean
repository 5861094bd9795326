import TapeScript.Proofs.Code

/-! Idioms. They are read before brackets are paired, and still every idiom found is a loop of its own:
a stray bracket starts none, and none begins in one loop and ends in another. -/
namespace TapeScript

namespace Code

/-- The kind of token that stands for a loop with this body, if there is one. -/
def idiom? : Code → Option TokenKind
  | .token head .halt =>
    match head.kind with
    | .inc | .dec => some .clear
    | .left => some .scanLeft
    | .right => some .scanRight
    | _ => none
  | _ => none

/-- The tree with a token for every idiom. -/
def idiomize : Code → Code
  | .halt => .halt
  | .token head rest => .token head rest.idiomize
  | .loop body rest =>
    match body.idiom? with
    | some kind => .token (.single kind) rest.idiomize
    | none => .loop body.idiomize rest.idiomize

end Code

namespace Source

/-- The kind of token that stands for a loop around these instructions. -/
def idiomOf : List Char → Option TokenKind
  | ['-'] | ['+'] => some .clear
  | ['<'] => some .scanLeft
  | ['>'] => some .scanRight
  | _ => none

theorem idiom_plain {inner : List Char} {kind : TokenKind} (idiom : idiomOf inner = some kind) :
    ((Token.single kind).kind == .loopOpen) = false ∧ ((Token.single kind).kind == .loopClose) = false := by
  unfold idiomOf at idiom
  split at idiom <;> cases idiom <;> exact ⟨rfl, rfl⟩

theorem ofInstruction_opens (c : Char) : ((ofInstruction c).kind == .loopOpen) = (c == '[') := by
  unfold ofInstruction
  split
  case h_9 => exact (beq_eq_false_iff_ne.mpr ‹¬c = '['›).symm
  all_goals rfl

theorem ofInstruction_closes (c : Char) : ((ofInstruction c).kind == .loopClose) = (c == ']') := by
  unfold ofInstruction
  split
  case h_9 => exact (beq_eq_false_iff_ne.mpr ‹¬c = ']'›).symm
  all_goals rfl

/-- A character that does not start an idiom is read on its own. -/
theorem tokens_cons {c : Char} {rest : List Char}
    (alone : ∀ d more, c = '[' → rest = d :: ']' :: more → idiomOf [d] = none) :
    tokens (c :: rest) = ofInstruction c :: tokens rest := by
  rw [tokens] <;> rintro more rfl rfl <;> cases alone _ _ rfl rfl

theorem tokens_plain {c : Char} (plain : (c == '[') = false) (rest : List Char) :
    tokens (c :: rest) = ofInstruction c :: tokens rest :=
  tokens_cons fun _ _ same => by simp [same] at plain

theorem tokens_idiom {inner : List Char} {kind : TokenKind} (idiom : idiomOf inner = some kind)
    (rest : List Char) : tokens ('[' :: inner ++ ']' :: rest) = .single kind :: tokens rest := by
  unfold idiomOf at idiom
  split at idiom <;> cases idiom <;> simp [tokens]

abbrev Paired : List Char → Prop := Brackets.Balanced (· == '[') (· == ']')

/-- No text with paired brackets goes on with a closing bracket after one character, unless that is all. -/
private theorem second_of_paired {c : Char} {inner more rest : List Char} (paired : Paired inner)
    (same : inner ++ ']' :: rest = c :: ']' :: more) (idiom : idiomOf inner = none) : idiomOf [c] = none := by
  cases paired with
  | nil =>
    cases same
    rfl
  | other opening closing balanced =>
    cases balanced with
    | nil =>
      cases same
      exact idiom
    | other _ closing =>
      cases same
      simp at closing
    | pair opening =>
      simp only [List.cons_append, List.cons.injEq] at same
      obtain ⟨_, rfl, _⟩ := same
      simp at opening
  | pair opening =>
    simp only [List.cons_append, List.cons.injEq] at same
    obtain ⟨rfl, _⟩ := same
    rw [beq_iff_eq.mp opening]
    rfl

private theorem tokens_loop {inner : List Char} (paired : Paired inner) (idiom : idiomOf inner = none)
    (rest : List Char) : tokens ('[' :: inner ++ ']' :: rest) = .single .loopOpen :: tokens (inner ++ ']' :: rest) :=
  tokens_cons fun _ _ _ same => second_of_paired paired same idiom

/-- Where an opening bracket waits in vain, no closing bracket comes after one character. -/
theorem second_of_waiting {d : Char} {items kept more : List Char}
    (sifted : Brackets.Sifted (· == '[') (· == ']') true items kept) (same : items = d :: ']' :: more) :
    idiomOf [d] = none := by
  cases sifted with
  | nil => cases same
  | other _ _ rest =>
    obtain ⟨rfl, rfl⟩ := List.cons.inj same
    generalize after : ']' :: more = items at rest
    cases rest with
    | nil => cases after
    | other _ closing =>
      obtain ⟨rfl, _⟩ := List.cons.inj after
      simp at closing
    | pair opening =>
      rw [List.cons_append] at after
      obtain ⟨rfl, _⟩ := List.cons.inj after
      simp at opening
    | opener opening =>
      obtain ⟨rfl, _⟩ := List.cons.inj after
      simp at opening
  | pair opening =>
    rw [List.cons_append] at same
    obtain ⟨rfl, _⟩ := List.cons.inj same
    rw [beq_iff_eq.mp opening]
    rfl
  | opener opening =>
    obtain ⟨rfl, _⟩ := List.cons.inj same
    rw [beq_iff_eq.mp opening]
    rfl

/-- Text with paired brackets is read independently of what comes after it. -/
theorem tokens_append {inner : List Char} (paired : Paired inner) (rest : List Char) :
    tokens (inner ++ rest) = tokens inner ++ tokens rest := by
  induction paired generalizing rest with
  | nil => rfl
  | other opening closing _ ih =>
    rw [List.cons_append, tokens_plain opening, tokens_plain opening, ih, List.cons_append]
  | @pair opener closer inner after opening inside plain closing balanced ihInner ih =>
    obtain rfl : opener = '[' := by simpa using opening
    obtain rfl : closer = ']' := by simpa using closing
    have shape : '[' :: inner ++ ']' :: after ++ rest = '[' :: inner ++ ']' :: (after ++ rest) := by simp
    rw [shape]
    cases idiom : idiomOf inner with
    | some kind => rw [tokens_idiom idiom, tokens_idiom idiom, ih, List.cons_append]
    | none =>
      rw [tokens_loop inside idiom, tokens_loop inside idiom, ihInner, ihInner, tokens_plain (by rfl),
        tokens_plain (by rfl), ih]
      simp

theorem tokens_pair {inner : List Char} (paired : Paired inner) (idiom : idiomOf inner = none) (rest : List Char) :
    tokens ('[' :: inner ++ ']' :: rest) = .single .loopOpen :: tokens inner ++ .single .loopClose :: tokens rest := by
  rw [tokens_loop paired idiom, tokens_append paired, tokens_plain (by rfl)]
  rfl

theorem balanced_tokens {inner : List Char} (paired : Paired inner) : Nested (tokens inner) := by
  induction paired with
  | nil => exact .nil
  | other opening closing _ ih =>
    rw [tokens_plain opening]
    exact .other ((ofInstruction_opens _).trans opening) ((ofInstruction_closes _).trans closing) ih
  | @pair opener closer inner rest opening inside plain closing _ ihInner ih =>
    obtain rfl : opener = '[' := by simpa using opening
    obtain rfl : closer = ']' := by simpa using closing
    cases idiom : idiomOf inner with
    | some kind =>
      rw [tokens_idiom idiom]
      exact .other (idiom_plain idiom).1 (idiom_plain idiom).2 ih
    | none =>
      rw [tokens_pair inside idiom]
      exact .pair rfl ihInner rfl rfl ih

/-- The same brackets are stray among the tokens as among the characters. -/
theorem sifted_tokens {waits : Bool} {chars kept : List Char}
    (sifted : Brackets.Sifted (· == '[') (· == ']') waits chars kept) :
    Brackets.Sifted (·.kind == .loopOpen) (·.kind == .loopClose) waits (tokens chars) (tokens kept) := by
  have opens {c : Char} {value : Bool} (same : (c == '[') = value) : ((ofInstruction c).kind == .loopOpen) = value :=
    (ofInstruction_opens c).trans same
  have closes {c : Char} {value : Bool} (same : (c == ']') = value) :
      ((ofInstruction c).kind == .loopClose) = value := (ofInstruction_closes c).trans same
  induction sifted with
  | nil => exact .nil
  | other opening closing _ ih =>
    rw [tokens_plain opening, tokens_plain opening]
    exact .other (opens opening) (closes closing) ih
  | @pair waits opener closer inner items kept opening inside plain closing _ ih =>
    obtain rfl : opener = '[' := by simpa using opening
    obtain rfl : closer = ']' := by simpa using closing
    cases idiom : idiomOf inner with
    | some kind =>
      rw [tokens_idiom idiom, tokens_idiom idiom]
      exact .other (idiom_plain idiom).1 (idiom_plain idiom).2 ih
    | none =>
      rw [tokens_pair inside idiom, tokens_pair inside idiom]
      exact .pair rfl (balanced_tokens inside) rfl rfl ih
  | closer plain closing _ ih =>
    rw [tokens_plain plain]
    exact .closer (opens plain) (closes closing) ih
  | opener opening rest ih =>
    rw [tokens_cons]
    · exact .opener (opens opening) ih
    · intro d more _ same
      exact second_of_waiting rest same

theorem ofInstruction_single (c : Char) : (ofInstruction c).amount = 1 := by
  unfold ofInstruction
  split <;> rfl

theorem idiom?_eq {inner : List Char} {body : Code} (reads : Reads (inner.map ofInstruction) body) :
    body.idiom? = idiomOf inner := by
  match inner with
  | [] =>
    cases reads
    rfl
  | [c] =>
    have found := reads.ofTokens?
    simp only [List.map_cons, List.map_nil] at found
    unfold ofInstruction at found
    split at found
    case h_9 =>
      cases found
      simp_all [idiomOf, Code.idiom?, Token.extension]
    all_goals cases found <;> rfl
  | c :: d :: more =>
    have several : idiomOf (c :: d :: more) = none := by simp [idiomOf]
    rw [several]
    cases body with
    | halt => rfl
    | loop => rfl
    | token head rest =>
      cases rest with
      | token => rfl
      | loop => rfl
      | halt =>
        have flat := reads.tokens?_eq (show (Code.token head .halt).tokens? = some [head] from rfl)
        cases flat

/-- The tree of the instructions one by one, and that of the source, which has tokens for the idioms. -/
theorem reads_tokens {inner : List Char} (paired : Paired inner) :
    ∃ code, Reads (inner.map ofInstruction) code ∧ Reads (tokens inner) code.idiomize := by
  have plain {c : Char} (opening : (c == '[') = false) (closing : (c == ']') = false) :
      (ofInstruction c).isMarker = false := by
    rw [Token.isMarker, ofInstruction_opens, ofInstruction_closes, opening, closing]
    rfl
  induction paired with
  | nil => exact ⟨.halt, .halt, .halt⟩
  | other opening closing _ ih =>
    obtain ⟨code, reads, readsTokens⟩ := ih
    rw [tokens_plain opening]
    exact ⟨.token _ code, .token (plain opening closing) reads, .token (plain opening closing) readsTokens⟩
  | @pair opener closer inner rest opening inside _ closing _ ihInner ih =>
    obtain rfl : opener = '[' := by simpa using opening
    obtain rfl : closer = ']' := by simpa using closing
    obtain ⟨body, readsBody, readsInner⟩ := ihInner
    obtain ⟨code, reads, readsTokens⟩ := ih
    refine ⟨.loop body code, ?_, ?_⟩
    · rw [List.map_append]
      exact .loop rfl readsBody rfl reads
    · rw [Code.idiomize, idiom?_eq readsBody]
      cases idiom : idiomOf inner with
      | some kind =>
        rw [tokens_idiom idiom]
        have marker : (Token.single kind).isMarker = false := by
          rw [Token.isMarker, (idiom_plain idiom).1, (idiom_plain idiom).2]
          rfl
        exact .token marker readsTokens
      | none =>
        rw [tokens_pair inside idiom]
        exact .loop rfl readsInner rfl readsTokens

end Source
end TapeScript
