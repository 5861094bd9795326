import TapeScript.Machine.Code
import TapeScript.Proofs.Brackets
import TapeScript.Source

/-! Streams and their trees. A stream reads as a tree exactly as its loop markers nest, so what holds
of the stages of compilation is proved along the tree. -/
namespace TapeScript

/-- A stream and the tree it reads as. -/
inductive Reads : List Token → Code → Prop where
  | halt : Reads [] .halt
  | token {token : Token} {tokens : List Token} {code : Code} (plain : token.isMarker = false)
      (rest : Reads tokens code) : Reads (token :: tokens) (.token token code)
  | loop {opener closer : Token} {inner tokens : List Token} {body code : Code} (opening : opener.kind = .loopOpen)
      (inside : Reads inner body) (closing : closer.kind = .loopClose) (rest : Reads tokens code) :
      Reads (opener :: inner ++ closer :: tokens) (.loop body code)

namespace Code

/-- One piece of code after another. -/
def append : Code → Code → Code
  | .halt, next => next
  | .token head rest, next => .token head (rest.append next)
  | .loop body rest, next => .loop body (rest.append next)

@[simp]
theorem append_halt (code : Code) : code.append .halt = code := by
  induction code with
  | halt => rfl
  | token token rest ih => rw [append, ih]
  | loop body rest _ ih => rw [append, ih]

/-- Tokens in front of some code. -/
def withTokens (tokens : List Token) (code : Code) : Code := tokens.foldr .token code

/-- The tokens of code without loops. -/
def tokens? : Code → Option (List Token)
  | .halt => some []
  | .token head rest => rest.tokens?.map (head :: ·)
  | .loop _ _ => none

/-- Something holds of each token. -/
def Each (holds : Token → Prop) : Code → Prop
  | .halt => True
  | .token head rest => holds head ∧ rest.Each holds
  | .loop body rest => body.Each holds ∧ rest.Each holds

/-- How many extensions the code holds. -/
def extensions : Code → Nat
  | .halt => 0
  | .token head rest => (if head.kind = .extension then 1 else 0) + rest.extensions
  | .loop body rest => body.extensions + rest.extensions

/-- The code without the loops it begins with. -/
def skipLoops : Code → Code
  | .loop _ rest => rest.skipLoops
  | code => code

theorem tokens?_withTokens (tokens : List Token) : (withTokens tokens .halt).tokens? = some tokens := by
  induction tokens with
  | nil => rfl
  | cons token tokens ih =>
    rw [withTokens] at ih
    simp [withTokens, Code.tokens?, ih]

theorem eq_withTokens (flat : Code.tokens? code = some tokens) : code = withTokens tokens .halt := by
  induction code generalizing tokens with
  | halt => cases flat; rfl
  | token token rest ih =>
    obtain ⟨others, found, rfl⟩ := Option.map_eq_some_iff.mp flat
    rw [ih found]
    rfl
  | loop body rest => cases flat

theorem Each.imp {holds other : Token → Prop} {code : Code} (each : code.Each holds)
    (weaker : ∀ token, holds token → other token) : code.Each other := by
  induction code with
  | halt => trivial
  | token head rest ih => exact ⟨weaker head each.1, ih each.2⟩
  | loop body rest ihBody ih => exact ⟨ihBody each.1, ih each.2⟩

theorem each_of_tokens? {code : Code} {tokens : List Token} {holds : Token → Prop} (flat : code.tokens? = some tokens)
    (each : code.Each holds) : ∀ token ∈ tokens, holds token := by
  rw [eq_withTokens flat] at each
  clear flat
  induction tokens with
  | nil => simp
  | cons token tokens ih =>
    intro other member
    rcases List.mem_cons.mp member with rfl | later
    · exact each.1
    · exact ih each.2 other later

end Code

namespace Token

theorem isMarker_iff {token : Token} : token.isMarker = true ↔ token.kind = .loopOpen ∨ token.kind = .loopClose := by
  simp [isMarker]

theorem not_isMarker_iff {token : Token} :
    token.isMarker = false ↔ token.kind ≠ .loopOpen ∧ token.kind ≠ .loopClose := by
  simp [isMarker]

end Token

theorem loopCount_plain {token : Token} (plain : token.isMarker = false) (tokens : List Token) :
    loopCount (token :: tokens) = loopCount tokens := by
  simp [loopCount, (Token.not_isMarker_iff.mp plain).1]

theorem loopCount_loop {opener closer : Token} (opening : opener.kind = .loopOpen) (closing : closer.kind = .loopClose)
    (inner tokens : List Token) :
    loopCount (opener :: (inner ++ closer :: tokens)) = loopCount inner + loopCount tokens + 1 := by
  simp [loopCount, List.countP_append, opening, closing]

namespace Reads

theorem withTokens (flat : ∀ token ∈ front, token.isMarker = false) (reads : Reads tokens code) :
    Reads (front ++ tokens) (Code.withTokens front code) := by
  induction front with
  | nil => exact reads
  | cons token front ih =>
    exact .token (flat token (by simp)) (ih fun other member => flat other (by simp [member]))

theorem of_flat (flat : ∀ token ∈ tokens, token.isMarker = false) :
    Reads tokens (Code.withTokens tokens .halt) := by
  simpa using withTokens flat .halt

/-- The tree of code without loops is its stream. -/
theorem tokens?_eq (reads : Reads tokens code) (flat : code.tokens? = some found) : found = tokens := by
  induction reads generalizing found with
  | halt => cases flat; rfl
  | token plain _ ih =>
    obtain ⟨others, same, rfl⟩ := Option.map_eq_some_iff.mp flat
    rw [ih same]
  | loop => cases flat

theorem tokens?_of_loopless (reads : Reads tokens code) (loopless : loopCount tokens = 0) :
    code.tokens? = some tokens := by
  induction reads with
  | halt => rfl
  | token plain _ ih => simp [Code.tokens?, ih (by rwa [loopCount_plain plain] at loopless)]
  | loop opening _ closing => simp [loopCount_loop opening closing] at loopless

theorem flat_of_loopless (reads : Reads tokens code) (loopless : loopCount tokens = 0) :
    ∀ token ∈ tokens, token.isMarker = false := by
  induction reads with
  | halt => simp
  | token plain _ ih =>
    rw [loopCount_plain plain] at loopless
    exact List.forall_mem_cons.mpr ⟨plain, ih loopless⟩
  | loop opening _ closing => simp [loopCount_loop opening closing] at loopless

theorem each (reads : Reads tokens code) (holds : ∀ token ∈ tokens, good token) : code.Each good := by
  induction reads with
  | halt => trivial
  | token plain _ ih => exact ⟨holds _ (by simp), ih fun token member => holds token (by simp [member])⟩
  | loop opening _ closing _ ihInner ih =>
    exact ⟨ihInner fun token member => holds token (by simp [member]),
      ih fun token member => holds token (by simp [member])⟩

/-- What holds of every token that is no marker holds along the tree. -/
theorem each_plain {holds : Token → Prop} (reads : Reads tokens code)
    (all : ∀ token ∈ tokens, token.isMarker = false → holds token) :
    code.Each fun token => token.isMarker = false ∧ holds token := by
  induction reads with
  | halt => trivial
  | token plain _ ih =>
    exact ⟨⟨plain, all _ (by simp) plain⟩, ih fun token member => all token (by simp [member])⟩
  | loop opening _ closing _ ihInner ih =>
    exact ⟨ihInner fun token member => all token (by simp [member]),
      ih fun token member => all token (by simp [member])⟩

/-- What holds along the tree and of markers holds of the stream. -/
theorem all {holds : Token → Prop} (reads : Reads tokens code) (each : code.Each holds)
    (markers : ∀ token, token.isMarker = true → holds token) : ∀ token ∈ tokens, holds token := by
  induction reads with
  | halt => simp
  | token _ _ ih =>
    intro other member
    rcases List.mem_cons.mp member with rfl | later
    · exact each.1
    · exact ih each.2 other later
  | @loop opener closer inner tokens body code opening _ closing _ ihInner ih =>
    intro other member
    have places : other = opener ∨ other ∈ inner ∨ other = closer ∨ other ∈ tokens := by simpa using member
    rcases places with rfl | inside | rfl | later
    · exact markers _ (by simp [Token.isMarker, opening])
    · exact ihInner each.1 other inside
    · exact markers _ (by simp [Token.isMarker, closing])
    · exact ih each.2 other later

private theorem foldr_prepend (reads : Reads tokens code) (next : Code) (after : List Code) :
    tokens.foldr Code.prepend (some (next, after)) = some (code.append next, after) := by
  induction reads generalizing next after with
  | halt => rfl
  | @token token tokens code plain _ ih =>
    rw [List.foldr_cons, ih]
    have plain := Token.not_isMarker_iff.mp plain
    cases kind : token.kind with
    | loopOpen => exact absurd kind plain.1
    | loopClose => exact absurd kind plain.2
    | _ => simp only [Code.prepend, kind, Code.append]
  | loop opening _ closing _ ihInner ih =>
    rw [List.cons_append, List.foldr_cons, List.foldr_append, List.foldr_cons, ih]
    simp only [Code.prepend, closing, ihInner, opening, Code.append, Code.append_halt]

/-- A stream that reads as some code is read as that code. -/
theorem ofTokens? (reads : Reads tokens code) : Code.ofTokens? tokens = some code := by
  rw [Code.ofTokens?, foldr_prepend reads]
  simp

theorem unique (reads : Reads tokens code) (readsOther : Reads tokens other) : code = other :=
  Option.some.inj (reads.ofTokens?.symm.trans readsOther.ofTokens?)

end Reads

/-- Nesting of loop markers. -/
abbrev Nested : List Token → Prop := Brackets.Balanced (·.kind == .loopOpen) (·.kind == .loopClose)

theorem Nested.reads (nested : Nested tokens) : ∃ code, Reads tokens code := by
  induction nested with
  | nil => exact ⟨.halt, .halt⟩
  | other opening closing _ ih =>
    obtain ⟨code, reads⟩ := ih
    exact ⟨.token _ code, .token (by simp only [Token.isMarker, opening, closing, Bool.or_self]) reads⟩
  | pair opening _ _ closing _ ihInner ih =>
    obtain ⟨body, inside⟩ := ihInner
    obtain ⟨code, reads⟩ := ih
    exact ⟨.loop body code, .loop (beq_iff_eq.mp opening) inside (beq_iff_eq.mp closing) reads⟩

theorem Nested.token {token : Token} (plain : token.isMarker = false) (rest : Nested tokens) :
    Nested (token :: tokens) :=
  have kinds := Token.not_isMarker_iff.mp plain
  .other (by simp [kinds.1]) (by simp [kinds.2]) rest

theorem Nested.loop {opener closer : Token} {inner tokens : List Token} (opening : opener.kind = .loopOpen)
    (inside : Nested inner) (closing : closer.kind = .loopClose) (rest : Nested tokens) :
    Nested (opener :: inner ++ closer :: tokens) :=
  .pair (by simp [opening]) inside (by simp [closing]) (by simp [closing]) rest

theorem Reads.nested (reads : Reads tokens code) : Nested tokens := by
  induction reads with
  | halt => exact .nil
  | token plain _ ih => exact .token plain ih
  | loop opening _ closing _ ihInner ih => exact .loop opening ihInner closing ih

/-- What is kept of a stream has nested markers. -/
theorem pairedOnly_eq {tokens kept : List Token}
    (sifted : Brackets.Sifted (·.kind == .loopOpen) (·.kind == .loopClose) false tokens kept) :
    pairedOnly tokens = kept := Brackets.answered_partners sifted

theorem pairedOnly_of_nested (nested : Nested tokens) : pairedOnly tokens = tokens := by
  apply pairedOnly_eq
  simpa using Brackets.Sifted.after_balanced nested .nil

private theorem skipLoops_inside {inner : List Token} {body : Code} (reads : Reads inner body) (depth : Nat)
    (rest : List Token) :
    skipLoops (depth + 1) (inner ++ rest) = skipLoops (depth + 1) rest := by
  induction reads generalizing depth rest with
  | halt => rfl
  | token plain _ ih =>
    have plain := Token.not_isMarker_iff.mp plain
    rw [List.cons_append, TapeScript.skipLoops, if_neg plain.1, if_neg plain.2, ih]
  | @loop opener closer inner tokens body code opening _ closing _ ihInner ih =>
    have plain : closer.kind ≠ .loopOpen := by simp [closing]
    simp only [List.cons_append, List.append_assoc]
    rw [TapeScript.skipLoops, if_pos opening, ihInner, TapeScript.skipLoops, if_neg plain, if_pos closing, ih]

/-- A stream that does not begin with a loop is left as it is. -/
theorem skipLeadingLoops_plain {token : Token} (marker : token.kind ≠ .loopOpen) (tokens : List Token) :
    skipLeadingLoops (token :: tokens) = .ok (token :: tokens) := by
  rw [skipLeadingLoops, skipLoops, if_neg marker]

/-- A loop at the beginning of a stream is skipped. -/
theorem skipLeadingLoops_loop {opener closer : Token} {inner : List Token} {body : Code}
    (opening : opener.kind = .loopOpen)
    (inside : Reads inner body) (closing : closer.kind = .loopClose) (tokens : List Token) :
    skipLeadingLoops (opener :: inner ++ closer :: tokens) = skipLeadingLoops tokens := by
  have plain : closer.kind ≠ .loopOpen := by simp [closing]
  rw [skipLeadingLoops, skipLeadingLoops, List.cons_append, skipLoops, if_pos opening, skipLoops_inside inside,
    skipLoops, if_neg plain, if_pos closing]

/-- Skipping the leading loops of a stream skips those of its tree. -/
theorem Reads.skipLeadingLoops (reads : Reads tokens code) :
    ∃ rest, TapeScript.skipLeadingLoops tokens = .ok rest ∧ Reads rest code.skipLoops ∧
      rest.IsSuffix tokens := by
  induction reads with
  | halt => exact ⟨[], rfl, .halt, List.suffix_refl _⟩
  | @token token tokens code plain rest _ =>
    have marker : token.kind ≠ .loopOpen := (Token.not_isMarker_iff.mp plain).1
    exact ⟨token :: tokens, skipLeadingLoops_plain marker tokens, .token plain rest, List.suffix_refl _⟩
  | @loop opener closer inner tokens body code opening inside closing _ _ ih =>
    obtain ⟨rest, skipped, reads, suffix⟩ := ih
    refine ⟨rest, ?_, reads, suffix.trans ⟨opener :: inner ++ [closer], by simp⟩⟩
    rw [skipLeadingLoops_loop opening inside closing, skipped]

end TapeScript
