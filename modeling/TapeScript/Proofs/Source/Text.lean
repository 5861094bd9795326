import TapeScript.Proofs.Compilation
import TapeScript.Token.Text

/-! Streams written back as text. Of a source text nothing is lost but comments, stray brackets and the
loops that it begins with, and what is written is read as the same stream again. -/
namespace TapeScript

/-- The characters of a source-level token. -/
def Token.characters (token : Token) : List Char :=
  ((token.kind.symbol?.or token.symbol?).getD "").toList

namespace Source

/-- A stream in characters. -/
def characters (tokens : List Token) : List Char := tokens.flatMap Token.characters

/-- The text with every loop that counts a cell up to zero counting it down. -/
def countDown : List Char → List Char
  | '[' :: '+' :: ']' :: rest => '[' :: '-' :: ']' :: countDown rest
  | c :: rest => c :: countDown rest
  | [] => []

/-- The text without the brackets that have no partner. -/
def withoutStrays (text : List Char) : List Char :=
  Brackets.answered (· == '[') (· == ']') text (Brackets.partners (· == '[') (· == ']') text)

/-- A complete loop that is no idiom. -/
def IsLoop (text : List Char) : Prop := ∃ inner, text = '[' :: inner ++ [']'] ∧ Paired inner ∧ idiomOf inner = none

/-- A text begins with these loops, and with no more of them. -/
structure Leading (loops : List (List Char)) (rest text : List Char) : Prop where
  split : text = loops.flatten ++ rest
  complete : ∀ loop ∈ loops, IsLoop loop
  longest : ∀ others more, text = others.flatten ++ more → (∀ loop ∈ others, IsLoop loop) → others <+: loops

/-- Text is read idiom by idiom and, where none stands, character by character. -/
private theorem tokens_induction {motive : List Char → Prop} (nil : motive [])
    (idiom : ∀ inner kind rest, idiomOf inner = some kind → motive rest → motive ('[' :: inner ++ ']' :: rest))
    (cons : ∀ c rest, (∀ d more, c = '[' → rest = d :: ']' :: more → idiomOf [d] = none) → motive rest →
      motive (c :: rest)) (text : List Char) : motive text := by
  induction text using tokens.induct with
  | case1 => exact nil
  | case2 rest ih => exact idiom ['-'] .clear rest rfl ih
  | case3 rest ih => exact idiom ['+'] .clear rest rfl ih
  | case4 rest ih => exact idiom ['<'] .scanLeft rest rfl ih
  | case5 rest ih => exact idiom ['>'] .scanRight rest rfl ih
  | case6 c rest down up left right ih =>
    refine cons c rest (fun d more opening same => ?_) ih
    unfold idiomOf
    split
    case h_5 => rfl
    all_goals
      rename_i char
      obtain rfl := List.singleton_inj.mp char
    · exact (down more opening same).elim
    · exact (up more opening same).elim
    · exact (left more opening same).elim
    · exact (right more opening same).elim

theorem characters_ofInstruction (c : Char) : (ofInstruction c).characters = [c] := by
  unfold ofInstruction
  split
  case h_9 => exact String.toList_singleton c
  all_goals rfl

private theorem characters_cons (token : Token) (tokens : List Token) :
    characters (token :: tokens) = token.characters ++ characters tokens := List.flatMap_cons

private theorem countDown_idiom {inner : List Char} {kind : TokenKind} (idiom : idiomOf inner = some kind)
    (rest : List Char) :
    countDown ('[' :: inner ++ ']' :: rest) = (Token.single kind).characters ++ countDown rest := by
  unfold idiomOf at idiom
  split at idiom <;> cases idiom <;> simp [countDown, Token.characters, Token.single, Token.counted, TokenKind.symbol?]

private theorem countDown_cons {c : Char} {rest : List Char}
    (alone : ∀ d more, c = '[' → rest = d :: ']' :: more → idiomOf [d] = none) :
    countDown (c :: rest) = c :: countDown rest := by
  rw [countDown]
  rintro more rfl rfl
  cases alone _ _ rfl rfl

theorem head?_countDown (text : List Char) : (countDown text).head? = text.head? := by
  unfold countDown
  split <;> rfl

/-- The text is written as it was read, but for the cells that it counts up to zero. -/
theorem characters_tokens (text : List Char) : characters (tokens text) = countDown text := by
  induction text using tokens_induction with
  | nil => rfl
  | idiom inner kind rest idiom ih => rw [tokens_idiom idiom, countDown_idiom idiom, characters_cons, ih]
  | cons c rest alone ih =>
    rw [tokens_cons alone, countDown_cons alone, characters_cons, characters_ofInstruction, ih]
    rfl

/-- Where a character and a closing bracket come first, they did so before. -/
private theorem second_of_countDown {d : Char} {text more : List Char} (same : countDown text = d :: ']' :: more) :
    ∃ after, text = d :: ']' :: after := by
  unfold countDown at same
  split at same
  · cases same
  · rename_i c rest _
    obtain ⟨rfl, tail⟩ := List.cons.inj same
    have first := head?_countDown rest
    rw [tail] at first
    cases rest with
    | nil => cases first
    | cons next after =>
      obtain rfl := Option.some.inj first
      exact ⟨after, rfl⟩
  · cases same

/-- Counting up and counting down are read alike. -/
theorem tokens_countDown (text : List Char) : tokens (countDown text) = tokens text := by
  induction text using tokens_induction with
  | nil => rfl
  | idiom inner kind rest idiom ih =>
    rw [countDown_idiom idiom, tokens_idiom idiom]
    unfold idiomOf at idiom
    split at idiom <;> cases idiom <;>
      simp [Token.characters, Token.single, Token.counted, TokenKind.symbol?, tokens, ih]
  | cons c rest alone ih =>
    rw [countDown_cons alone, tokens_cons, tokens_cons alone, ih]
    intro d more opening same
    obtain ⟨after, rest⟩ := second_of_countDown same
    exact alone d after opening rest

theorem countDown_countDown (text : List Char) : countDown (countDown text) = countDown text := by
  rw [← characters_tokens, tokens_countDown, characters_tokens]

theorem length_countDown (text : List Char) : (countDown text).length = text.length := by
  induction text using countDown.induct with
  | case1 rest ih => simp [countDown, ih]
  | case2 c rest up ih =>
    rw [countDown, List.length_cons, ih, List.length_cons]
    exact up
  | case3 => rfl

theorem mem_countDown {text : List Char} : ∀ c ∈ countDown text, c ∈ text ∨ c = '-' := by
  induction text using countDown.induct with
  | case1 rest ih =>
    intro c member
    rw [countDown] at member
    simp only [List.mem_cons] at member ⊢
    rcases member with rfl | rfl | rfl | later
    · simp
    · simp
    · simp
    · rcases ih c later with inside | same <;> simp [*]
  | case2 first rest up ih =>
    intro c member
    rw [countDown] at member
    · rcases List.mem_cons.mp member with rfl | later
      · simp
      · rcases ih c later with inside | same <;> simp [*]
    · exact up
  | case3 => simp [countDown]

private theorem countDown_append {inner : List Char} (paired : Paired inner) (rest : List Char) :
    countDown (inner ++ rest) = countDown inner ++ countDown rest := by
  rw [← characters_tokens, tokens_append paired, ← characters_tokens inner, ← characters_tokens rest]
  exact List.flatMap_append

private theorem countDown_pair {inner : List Char} (paired : Paired inner) (idiom : idiomOf inner = none)
    (rest : List Char) : countDown ('[' :: inner ++ ']' :: rest) = '[' :: countDown inner ++ ']' :: countDown rest := by
  rw [← characters_tokens, tokens_pair paired idiom, ← characters_tokens inner, ← characters_tokens rest]
  exact List.flatMap_append

private theorem countDown_plain {c : Char} (plain : (c == '[') = false) (rest : List Char) :
    countDown (c :: rest) = c :: countDown rest :=
  countDown_cons fun _ _ same => by simp [same] at plain

private theorem paired_idiom {inner : List Char} {kind : TokenKind} (idiom : idiomOf inner = some kind) :
    Paired (Token.single kind).characters := by
  unfold idiomOf at idiom
  split at idiom <;> cases idiom <;> exact .pair rfl (.other rfl rfl .nil) rfl rfl .nil

private theorem paired_countDown {inner : List Char} (paired : Paired inner) : Paired (countDown inner) := by
  induction paired with
  | nil => exact .nil
  | other opening closing _ ih =>
    rw [countDown_plain opening]
    exact .other opening closing ih
  | @pair opener closer inner rest opening inside plain closing _ ihInner ih =>
    obtain rfl : opener = '[' := by simpa using opening
    obtain rfl : closer = ']' := by simpa using closing
    cases idiom : idiomOf inner with
    | some kind =>
      rw [countDown_idiom idiom]
      exact (paired_idiom idiom).append ih
    | none =>
      rw [countDown_pair inside idiom]
      exact .pair rfl ihInner rfl rfl ih

/-- The same brackets are stray, whether cells are counted up or down. -/
theorem sifted_countDown {waits : Bool} {text kept : List Char}
    (sifted : Brackets.Sifted (· == '[') (· == ']') waits text kept) :
    Brackets.Sifted (· == '[') (· == ']') waits (countDown text) (countDown kept) := by
  induction sifted with
  | nil => exact .nil
  | other opening closing _ ih =>
    rw [countDown_plain opening, countDown_plain opening]
    exact .other opening closing ih
  | @pair waits opener closer inner items kept opening inside plain closing _ ih =>
    obtain rfl : opener = '[' := by simpa using opening
    obtain rfl : closer = ']' := by simpa using closing
    cases idiom : idiomOf inner with
    | some kind =>
      rw [countDown_idiom idiom, countDown_idiom idiom]
      exact .after_balanced (paired_idiom idiom) ih
    | none =>
      rw [countDown_pair inside idiom, countDown_pair inside idiom]
      exact .pair rfl (paired_countDown inside) rfl rfl ih
  | closer plain closing _ ih =>
    rw [countDown_plain plain]
    exact .closer plain closing ih
  | @opener waits item items kept opening rest ih =>
    rw [countDown_cons]
    · exact .opener opening ih
    · intro d more _ same
      exact second_of_waiting rest same

namespace Leading

theorem none {text : List Char} (stops : ∀ loop rest, text = loop ++ rest → ¬IsLoop loop) : Leading [] text text where
  split := rfl
  complete := by simp
  longest others more same complete := by
    cases others with
    | nil => exact List.nil_prefix
    | cons loop others =>
      rw [List.flatten_cons, List.append_assoc] at same
      exact absurd (complete loop (by simp)) (stops loop _ same)

theorem cons {loop rest text : List Char} {loops : List (List Char)} (first : IsLoop loop)
    (leading : Leading loops rest text) : Leading (loop :: loops) rest (loop ++ text) where
  split := by rw [leading.split, List.flatten_cons, List.append_assoc]
  complete := List.forall_mem_cons.mpr ⟨first, leading.complete⟩
  longest others more same complete := by
    cases others with
    | nil => exact List.nil_prefix
    | cons other others =>
      obtain ⟨inner, rfl, paired, _⟩ := first
      obtain ⟨inside, rfl, pairedOther, _⟩ := complete other (by simp)
      have same : '[' :: inner ++ ']' :: text = '[' :: inside ++ ']' :: (others.flatten ++ more) := by simpa using same
      obtain ⟨rfl, tail⟩ := Brackets.inner_unique paired pairedOther same rfl rfl rfl
      rw [List.prefix_cons_inj]
      exact leading.longest others more tail fun loop member => complete loop (by simp [member])

end Leading

/-- The leading loops of a stream are those of the text. -/
private theorem exists_leading {text : List Char} (paired : Paired text) :
    ∃ loops rest, Leading loops rest text ∧ Paired rest ∧ skipLeadingLoops (tokens text) = .ok (tokens rest) ∧
      ∀ first ∈ (tokens rest).head?, first.kind ≠ .loopOpen := by
  induction paired with
  | nil => exact ⟨[], [], .none (by simp [IsLoop]), .nil, rfl, by simp [tokens]⟩
  | @other c rest opening closing balanced _ =>
    have marker : (ofInstruction c).kind ≠ .loopOpen := by
      have opens := ofInstruction_opens c
      rw [opening] at opens
      simpa using opens
    refine ⟨[], c :: rest, .none ?_, .other opening closing balanced, ?_, ?_⟩
    · rintro loop more same ⟨inner, rfl, _⟩
      obtain ⟨rfl, _⟩ := List.cons.inj same
      cases opening
    · rw [tokens_plain opening, skipLeadingLoops_plain marker]
    · rw [tokens_plain opening]
      simpa using marker
  | @pair opener closer inner rest opening inside plain closing balanced _ ih =>
    obtain rfl : opener = '[' := by simpa using opening
    obtain rfl : closer = ']' := by simpa using closing
    cases idiom : idiomOf inner with
    | some kind =>
      have marker : (Token.single kind).kind ≠ .loopOpen := by simpa using (idiom_plain idiom).1
      refine ⟨[], '[' :: inner ++ ']' :: rest, .none ?_, .pair rfl inside rfl rfl balanced, ?_, ?_⟩
      · rintro loop more same ⟨other, rfl, pairedOther, noIdiom⟩
        have same : '[' :: inner ++ ']' :: rest = '[' :: other ++ ']' :: more := by simpa using same
        obtain ⟨rfl, _⟩ := Brackets.inner_unique inside pairedOther same rfl rfl rfl
        rw [idiom] at noIdiom
        cases noIdiom
      · rw [tokens_idiom idiom, skipLeadingLoops_plain marker]
      · rw [tokens_idiom idiom]
        simpa using marker
    | none =>
      obtain ⟨loops, last, leading, pairedLast, skipped, starts⟩ := ih
      obtain ⟨body, reads⟩ := (balanced_tokens inside).reads
      refine ⟨('[' :: inner ++ [']']) :: loops, last, ?_, pairedLast, ?_, starts⟩
      · have split : '[' :: inner ++ ']' :: rest = ('[' :: inner ++ [']']) ++ rest := by simp
        rw [split]
        exact .cons ⟨inner, rfl, inside, idiom⟩ leading
      · rw [tokens_pair inside idiom, skipLeadingLoops_loop rfl reads rfl, skipped]

private theorem idiomOf_foldable {c : Char} (foldable : (ofInstruction c).isFoldable = true) : idiomOf [c] ≠ none := by
  unfold ofInstruction at foldable
  split at foldable <;>
    simp_all [idiomOf, Token.isFoldable, Token.isAddition, Token.isMove, Token.single, Token.counted, Token.extension]

/-- A token that stands for no idiom stands for the first character. -/
private theorem tokens_eq_cons {text : List Char} {token : Token} {others : List Token}
    (same : tokens text = token :: others)
    (foldableOrMarker : token.isFoldable = true ∨ token.isMarker = true) :
    ∃ c rest, text = c :: rest ∧ token = ofInstruction c ∧ tokens rest = others := by
  induction text using tokens_induction with
  | nil => cases same
  | idiom inner kind rest idiom _ =>
    rw [tokens_idiom idiom] at same
    obtain ⟨rfl, rfl⟩ := List.cons.inj same
    unfold idiomOf at idiom
    split at idiom <;> cases idiom <;> rcases foldableOrMarker with impossible | impossible <;> cases impossible
  | cons c rest alone _ =>
    rw [tokens_cons alone] at same
    obtain ⟨rfl, rfl⟩ := List.cons.inj same
    exact ⟨c, rest, rfl, rfl, rfl⟩

/-- No idiom is left among the tokens. -/
theorem not_foldable_between {text : List Char} {opener middle closer : Token}
    (adjacent : [opener, middle, closer] <:+: tokens text) (opening : opener.kind = .loopOpen)
    (closing : closer.kind = .loopClose) : middle.isFoldable = false := by
  induction text using tokens_induction with
  | nil => simp [tokens] at adjacent
  | idiom inner kind rest idiom ih =>
    rw [tokens_idiom idiom] at adjacent
    rcases List.infix_cons_iff.mp adjacent with first | later
    · obtain ⟨rfl, _⟩ := List.cons_prefix_cons.mp first
      simpa [opening] using (idiom_plain idiom).1
    · exact ih later
  | cons c rest alone ih =>
    rw [tokens_cons alone] at adjacent
    rcases List.infix_cons_iff.mp adjacent with first | later
    · obtain ⟨rfl, back, same⟩ := List.cons_prefix_cons.mp first
      apply Bool.eq_false_iff.mpr
      intro foldable
      obtain ⟨d, more, rfl, rfl, tail⟩ := tokens_eq_cons same.symm (.inl foldable)
      obtain ⟨e, _, rfl, rfl, _⟩ := tokens_eq_cons tail (.inr (by simp [Token.isMarker, closing]))
      have first := ofInstruction_opens c
      have last := ofInstruction_closes e
      rw [opening] at first
      rw [closing] at last
      obtain rfl : c = '[' := by simpa using first.symm
      obtain rfl : e = ']' := by simpa using last.symm
      exact idiomOf_foldable foldable (alone d _ rfl rfl)
    · exact ih later

theorem single_tokens (text : List Char) : ∀ token ∈ tokens text, token.amount = 1 := by
  induction text using tokens_induction with
  | nil => simp [tokens]
  | idiom inner kind rest idiom ih =>
    rw [tokens_idiom idiom]
    exact List.forall_mem_cons.mpr ⟨rfl, ih⟩
  | cons c rest alone ih =>
    rw [tokens_cons alone]
    exact List.forall_mem_cons.mpr ⟨ofInstruction_single c, ih⟩

theorem Leading.paired {loops : List (List Char)} {rest text : List Char} (leading : Leading loops rest text) :
    Paired loops.flatten := by
  have complete := leading.complete
  clear leading
  induction loops with
  | nil => exact .nil
  | cons loop loops ih =>
    obtain ⟨inner, rfl, inside, _⟩ := complete loop (by simp)
    have pair : Paired ('[' :: inner ++ [']']) := .pair rfl inside rfl rfl .nil
    exact pair.append (ih fun other member => complete other (by simp [member]))

/-- The text of a stream is read as that stream. -/
private theorem parse_characters {extensions : List Extension} {text : List Char}
    (accepted : Extension.check extensions = .ok ()) (instructs : ∀ c ∈ text, isInstruction extensions c = true)
    (paired : Paired text) (starts : ∀ first ∈ (tokens text).head?, first.kind ≠ .loopOpen) :
    parse extensions (String.ofList text) = .ok (tokens text) := by
  have all : instructions extensions (String.ofList text) = text := by
    rw [instructions, String.toList_ofList, List.filter_eq_self.mpr instructs]
  rw [parse, accepted, all, pairedOnly_of_nested (balanced_tokens paired)]
  cases stream : tokens text with
  | nil => rfl
  | cons first others => exact skipLeadingLoops_plain (starts first (by rw [stream]; rfl)) others

/-- A text is read as single tokens whose loops nest, and of which none begins the stream or is an idiom. They
are those of the text without comments, stray brackets and leading loops: as such the stream is written, and
what is written is read as the stream. -/
theorem parse_written {extensions : List Extension} (accepted : Extension.check extensions = .ok ()) (source : String) :
    ∃ parsed loops, parse extensions source = .ok parsed ∧
      Leading loops (characters parsed) (withoutStrays (countDown (instructions extensions source))) ∧
      (∀ token ∈ parsed, token.amount = 1) ∧
      (∀ opener middle closer, [opener, middle, closer] <:+: parsed → opener.kind = .loopOpen →
        closer.kind = .loopClose → middle.isFoldable = false) ∧
      Nested parsed ∧ (∀ first ∈ parsed.head?, first.kind ≠ .loopOpen) ∧
      parse extensions (String.ofList (characters parsed)) = .ok parsed := by
  obtain ⟨kept, sifted⟩ := Brackets.exists_sifted (· == '[') (· == ']') (instructions extensions source)
  have siftedDown := sifted_countDown sifted
  have cleaned : withoutStrays (countDown (instructions extensions source)) = countDown kept :=
    Brackets.answered_partners siftedDown
  obtain ⟨loops, rest, leading, paired, skipped, starts⟩ := exists_leading siftedDown.balanced
  have written : characters (tokens rest) = rest := by
    have again : countDown loops.flatten ++ countDown rest = loops.flatten ++ rest := by
      rw [← countDown_append leading.paired, ← leading.split, countDown_countDown]
    rw [characters_tokens]
    exact (List.append_inj again (length_countDown _)).2
  have instructs : ∀ c ∈ rest, isInstruction extensions c = true := by
    intro c member
    have inside : c ∈ countDown kept := leading.split ▸ List.mem_append_right _ member
    rcases mem_countDown c inside with old | rfl
    · exact (List.mem_filter.mp ((mem_of_sifted sifted).subset old)).2
    · rfl
  refine ⟨tokens rest, loops, ?_, ?_, single_tokens rest, fun _ _ _ => not_foldable_between, balanced_tokens paired,
    starts, ?_⟩
  · rw [parse, accepted, pairedOnly_eq (sifted_tokens sifted), ← tokens_countDown]
    exact skipped
  · rw [cleaned, written]
    exact leading
  · rw [written]
    exact parse_characters accepted instructs paired starts

/-- A comment, a leading loop around an idiom, a stray bracket on either side, and a cell counted up to zero. -/
theorem parse_written_stray : Extension.check [.dump] = .ok () ∧ ∃ parsed,
    parse [.dump] "a[>[-]<]]+[+]#[" = .ok parsed ∧ characters parsed = ['+', '[', '-', ']', '#'] ∧
      parse [.dump] (String.ofList ['+', '[', '-', ']', '#']) = .ok parsed := by
  have accepted : Extension.check [.dump] = .ok () := rfl
  obtain ⟨parsed, loops, reads, _, _, _, _, _, again⟩ := parse_written accepted "a[>[-]<]]+[+]#["
  have found : parse [.dump] "a[>[-]<]]+[+]#[" = .ok [.single .inc, .single .clear, .extension "#"] := by rfl
  obtain rfl := Except.ok.inj (reads.symm.trans found)
  exact ⟨accepted, _, reads, rfl, again⟩

end Source
end TapeScript
