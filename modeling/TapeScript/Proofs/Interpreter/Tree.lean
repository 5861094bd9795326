import TapeScript.Interpreter
import TapeScript.Proofs.Compilation
import TapeScript.Proofs.Idioms

/-! The instructions of a program as a tree. Every bracket with a partner belongs to a loop of the
tree, and the others are passed by. -/
namespace TapeScript.Interpreter

def Instruction.char : Instruction → Char
  | inc => '+'
  | dec => '-'
  | right => '>'
  | left => '<'
  | loopOpen => '['
  | loopClose => ']'
  | output => '.'
  | input => ','

/-- What compilation reads the instruction as. -/
def Instruction.token (instruction : Instruction) : Token := Source.ofInstruction instruction.char

/-- The instructions from one position to another are those of a tree. Inside of a loop no bracket is
without a partner. -/
inductive Spans (program : Program) : Bool → Nat → Code → Nat → Prop where
  | done {nested : Bool} {position : Nat} : Spans program nested position .halt position
  | token {nested : Bool} {position last : Nat} {instruction : Instruction} {code : Code}
      (here : program.code[position]? = some instruction) (plain : instruction.token.isMarker = false)
      (rest : Spans program nested (position + 1) code last) :
      Spans program nested position (.token instruction.token code) last
  | loop {nested : Bool} {position close last : Nat} {body code : Code}
      (opening : program.code[position]? = some .loopOpen) (partner : program.partner? position = some close)
      (inside : Spans program true (position + 1) body close)
      (closing : program.code[close]? = some .loopClose) (partnerBack : program.partner? close = some position)
      (rest : Spans program nested (close + 1) code last) :
      Spans program nested position (.loop body code) last
  | stray {position last : Nat} {bracket : Instruction} {code : Code}
      (here : program.code[position]? = some bracket) (marker : bracket.token.isMarker = true)
      (alone : program.partner? position = none) (rest : Spans program false (position + 1) code last) :
      Spans program false position code last

abbrev opens (instruction : Instruction) : Bool := instruction == .loopOpen

abbrev closes (instruction : Instruction) : Bool := instruction == .loopClose

theorem isMarker_token (instruction : Instruction) :
    instruction.token.isMarker = (opens instruction || closes instruction) := by
  cases instruction <;> rfl

section

variable {program : Program} (partners : program.partner = (Brackets.partners opens closes program.code.toList).toArray)
include partners

private theorem partner?_pair {front inner back : List Instruction}
    (code : program.code.toList = front ++ (.loopOpen :: inner ++ .loopClose :: back))
    (balanced : Brackets.Balanced opens closes inner) :
    program.partner? front.length = some (front.length + inner.length + 1) ∧
      program.partner? (front.length + inner.length + 1) = some front.length := by
  have opening : opens .loopOpen = true := rfl
  have nested := Brackets.partners_nested opening balanced (show opens .loopClose = false from rfl) rfl front back
  rw [← code] at nested
  simp only [Program.partner?, partners, List.getElem?_toArray, nested.1, nested.2]
  exact ⟨rfl, rfl⟩

private theorem spans_loop {nested : Bool} {last : Nat} {front inner back : List Instruction} {body code : Code}
    (shape : program.code.toList = front ++ (.loopOpen :: inner ++ .loopClose :: back))
    (balanced : Brackets.Balanced opens closes inner)
    (inside : Spans program true (front ++ [Instruction.loopOpen]).length body
      ((front ++ [Instruction.loopOpen]).length + inner.length))
    (rest : Spans program nested (front ++ (Instruction.loopOpen :: inner ++ [Instruction.loopClose])).length code
      last) :
    Spans program nested front.length (.loop body code) last := by
  obtain ⟨partner, partnerBack⟩ := partner?_pair partners shape balanced
  have first : program.code[front.length]? = some .loopOpen := by
    rw [← Array.getElem?_toList, shape]
    simp
  have close : program.code[front.length + inner.length + 1]? = some .loopClose := by
    have split : front ++ (.loopOpen :: inner ++ .loopClose :: back) =
        (front ++ Instruction.loopOpen :: inner) ++ .loopClose :: back := by simp
    have place : front.length + inner.length + 1 = (front ++ Instruction.loopOpen :: inner).length := by
      simp
      omega
    rw [← Array.getElem?_toList, shape, split, place, List.getElem?_append_right (Nat.le_refl _)]
    simp
  have start : (front ++ (Instruction.loopOpen :: inner ++ [Instruction.loopClose])).length =
      front.length + inner.length + 1 + 1 := by
    simp
    omega
  have size : (front ++ [Instruction.loopOpen]).length = front.length + 1 := by simp
  have stop : front.length + 1 + inner.length = front.length + inner.length + 1 := by omega
  rw [size, stop] at inside
  rw [start] at rest
  exact .loop first partner inside close partnerBack rest

private theorem spans_balanced {inner : List Instruction} (balanced : Brackets.Balanced opens closes inner)
    {front back : List Instruction} (code : program.code.toList = front ++ (inner ++ back)) :
    ∃ body, Reads (inner.map Instruction.token) body ∧
      Spans program true front.length body (front.length + inner.length) := by
  induction balanced generalizing front back with
  | nil => exact ⟨.halt, .halt, .done⟩
  | @other item rest opening closing _ ih =>
    obtain ⟨body, reads, spans⟩ := @ih (front ++ [item]) back (by simpa using code)
    have here : program.code[front.length]? = some item := by
      rw [← Array.getElem?_toList, code]
      simp
    have plain : item.token.isMarker = false := by rw [isMarker_token, opening, closing]; rfl
    refine ⟨.token item.token body, .token plain reads, .token here plain ?_⟩
    simpa [Nat.add_assoc, Nat.add_comm 1] using spans
  | @pair opener closer inner rest opening inside plain closing _ ihInner ih =>
    obtain rfl : opener = .loopOpen := by simpa using opening
    obtain rfl : closer = .loopClose := by simpa using closing
    obtain ⟨body, readsBody, spansBody⟩ :=
      @ihInner (front ++ [.loopOpen]) (.loopClose :: (rest ++ back)) (by simpa using code)
    obtain ⟨after, reads, spans⟩ :=
      @ih (front ++ (.loopOpen :: inner ++ [.loopClose])) back (by simpa using code)
    have stop : (front ++ (Instruction.loopOpen :: inner ++ [Instruction.loopClose])).length + rest.length =
        front.length + (Instruction.loopOpen :: inner ++ Instruction.loopClose :: rest).length := by
      simp
      omega
    rw [stop] at spans
    refine ⟨.loop body after, ?_, spans_loop partners (by simpa using code) inside spansBody spans⟩
    rw [List.map_append]
    exact .loop rfl readsBody rfl reads

private theorem spans_sifted {waits : Bool} {items kept : List Instruction}
    (sifted : Brackets.Sifted opens closes waits items kept) {front : List Instruction} {waiting : List Nat}
    {before : Array (Option Nat)} (code : program.code.toList = front ++ items) (size : before.size = front.length)
    (free : waits = false → waiting = [])
    (pairing : program.partner = Brackets.pair opens closes items waiting before) :
    ∃ raw, Reads (kept.map Instruction.token) raw ∧ Spans program false front.length raw program.code.size := by
  have length : program.code.size = front.length + items.length := by
    rw [← Array.length_toList, code, List.length_append]
  induction sifted generalizing front waiting before with
  | nil =>
    refine ⟨.halt, .halt, ?_⟩
    rw [length]
    exact .done
  | @other waits item items kept opening closing _ ih =>
    simp only [Brackets.pair, opening, closing, Bool.false_eq_true, if_false] at pairing
    obtain ⟨raw, reads, spans⟩ :=
      @ih (front ++ [item]) waiting (before.push none) (by simpa using code) (by simp [size])
      free pairing (by simp [length]; omega)
    have here : program.code[front.length]? = some item := by
      rw [← Array.getElem?_toList, code]
      simp
    have plain : item.token.isMarker = false := by rw [isMarker_token, opening, closing]; rfl
    exact ⟨.token item.token raw, .token plain reads, .token here plain (by simpa using spans)⟩
  | @pair waits opener closer inner items kept opening inside plain closing _ ih =>
    obtain rfl : opener = .loopOpen := by simpa using opening
    obtain rfl : closer = .loopClose := by simpa using closing
    obtain ⟨found, foundLength, _, nested⟩ := Brackets.pair_nested opening inside plain closing items waiting before
    rw [nested] at pairing
    have shape : program.code.toList = (front ++ (.loopOpen :: inner ++ [.loopClose])) ++ items := by simpa using code
    obtain ⟨raw, reads, spans⟩ := @ih _ waiting _ shape (by simp [size, foundLength]) free pairing
      (by simp [length]; omega)
    obtain ⟨body, readsBody, spansBody⟩ := @spans_balanced _ partners inner inside (front ++ [.loopOpen])
      (.loopClose :: items) (by simpa using code)
    refine ⟨.loop body raw, ?_, spans_loop partners (by simpa using code) inside spansBody spans⟩
    rw [List.map_append]
    exact .loop rfl readsBody rfl reads
  | @closer item items kept plain closing _ ih =>
    obtain rfl := free rfl
    simp only [Brackets.pair, plain, closing, Bool.false_eq_true, if_false, if_true] at pairing
    obtain ⟨raw, reads, spans⟩ := @ih (front ++ [item]) [] (before.push none) (by simpa using code) (by simp [size])
      free pairing (by simp [length]; omega)
    have here : program.code[front.length]? = some item := by
      rw [← Array.getElem?_toList, code]
      simp
    have marker : item.token.isMarker = true := by rw [isMarker_token, plain, closing]; rfl
    have alone : program.partner? front.length = none := by
      rw [Program.partner?, pairing, Brackets.pair_settled items (by simp [size]) (by simp), ← size]
      simp
    exact ⟨raw, reads, .stray here marker alone (by simpa using spans)⟩
  | @opener waits item items kept opening rest ih =>
    simp only [Brackets.pair, opening, if_true] at pairing
    obtain ⟨raw, reads, spans⟩ := @ih (front ++ [item]) (before.size :: waiting) (before.push none)
      (by simpa using code) (by simp [size]) (fun waits => by cases waits) pairing (by simp [length]; omega)
    have here : program.code[front.length]? = some item := by
      rw [← Array.getElem?_toList, code]
      simp
    have marker : item.token.isMarker = true := by rw [isMarker_token, opening]; rfl
    have alone : program.partner? front.length = none := by
      obtain ⟨found, _, _, paired⟩ := Brackets.pair_sifted rest (before.size :: waiting) (fun waits => by cases waits)
        (before.push none)
      rw [Program.partner?, pairing, paired, ← size]
      simp
    exact ⟨raw, reads, .stray here marker alone (by simpa using spans)⟩

end

private theorem opens_char : ((· == '[') ∘ Instruction.char) = opens := by
  funext instruction
  cases instruction <;> rfl

private theorem closes_char : ((· == ']') ∘ Instruction.char) = closes := by
  funext instruction
  cases instruction <;> rfl

private theorem map_token (instructions : List Instruction) :
    (instructions.map Instruction.char).map Source.ofInstruction = instructions.map Instruction.token := by
  rw [List.map_map]
  rfl

private theorem ofChar?_map (c : Char) :
    (Instruction.ofChar? c).map Instruction.char = Option.guard (Source.isInstruction []) c := by
  have symbols : coreSymbols.toList = ['+', '-', '<', '>', '[', ']', '.', ','] := by decide
  rw [Option.guard, Source.isInstruction, symbols]
  unfold Instruction.ofChar?
  split
  case h_9 =>
    have other : ['+', '-', '<', '>', '[', ']', '.', ','].contains c = false := by
      simp
      refine ⟨?_, ?_, ?_, ?_, ?_, ?_, ?_, ?_⟩ <;> assumption
    rw [other]
    rfl
  all_goals rfl

private theorem chars_eq (chars : List Char) :
    (chars.filterMap Instruction.ofChar?).map Instruction.char = chars.filter (Source.isInstruction []) := by
  have same : (fun c => (Instruction.ofChar? c).map Instruction.char) = Option.guard (Source.isInstruction []) :=
    funext ofChar?_map
  rw [List.map_filterMap, same, List.filterMap_eq_filter]

/-- The instructions of a source text are those of the tree that is compiled. -/
theorem exists_tree (source : String) : ∃ raw, Source.Grows [] source raw ∧
    Spans (Program.ofSource source) false 0 raw (Program.ofSource source).code.size := by
  let program := Program.ofSource source
  obtain ⟨kept, sifted⟩ := Brackets.exists_sifted opens closes (source.toList.filterMap Instruction.ofChar?)
  have partners : program.partner = (Brackets.partners opens closes program.code.toList).toArray := rfl
  have pairing : program.partner =
      Brackets.pair opens closes (source.toList.filterMap Instruction.ofChar?) [] #[] := rfl
  obtain ⟨raw, reads, spans⟩ :=
    @spans_sifted program partners false _ kept sifted [] [] #[] rfl rfl (fun _ => rfl) pairing
  rw [← opens_char, ← closes_char] at sifted
  have siftedChars := sifted.map Instruction.char
  obtain ⟨tree, readsTree, readsTokens⟩ := Source.reads_tokens siftedChars.balanced
  rw [map_token] at readsTree
  obtain rfl := readsTree.unique reads
  refine ⟨tree, ⟨kept.map Instruction.char, ?_, by rw [map_token]; exact reads, readsTokens⟩, spans⟩
  rw [Source.instructions, ← chars_eq]
  exact siftedChars

theorem singles_of_grows {extensions : List Extension} {source : String} {raw : Code}
    (grows : Source.Grows extensions source raw) : raw.Each fun token => token.amount = 1 := by
  obtain ⟨kept, _, reads, _⟩ := grows
  apply reads.each
  intro token member
  obtain ⟨c, _, rfl⟩ := List.mem_map.mp member
  exact Source.ofInstruction_single c

/-- Whether optimization reduces the loop that begins at a position. The text of the loop is read as
compilation does: if it is no idiom, and what is left of its body fits. -/
def Program.reducesAt (program : Program) (position : Nat) : Bool :=
  match program.partner? position with
  | none => false
  | some close =>
    let loop := (program.code.toList.drop position).take (close + 1 - position)
    match Code.ofTokens? (Source.tokens (loop.map Instruction.char)) with
    | some (.loop body .halt) => body.isReduced
    | _ => false

private theorem drop_cons {program : Program} {position : Nat} {instruction : Instruction}
    (here : program.code[position]? = some instruction) :
    program.code.toList.drop position = instruction :: program.code.toList.drop (position + 1) := by
  rw [← Array.getElem?_toList] at here
  obtain ⟨inside, same⟩ := List.getElem?_eq_some_iff.mp here
  rw [List.drop_eq_getElem_cons inside, same]

private theorem inner_of_spans {program : Program} {position close : Nat} {body : Code}
    (spans : Spans program true position body close) :
    ∃ inner, Brackets.Balanced opens closes inner ∧ Reads (inner.map Instruction.token) body ∧
      close = position + inner.length ∧
      program.code.toList.drop position = inner ++ program.code.toList.drop close := by
  generalize deep : true = nested at spans
  induction spans with
  | done => exact ⟨[], .nil, .halt, rfl, rfl⟩
  | @token nested position last instruction code here plain _ ih =>
    obtain ⟨inner, balanced, reads, rfl, text⟩ := ih deep
    have both : opens instruction = false ∧ closes instruction = false := by
      rw [isMarker_token] at plain
      exact Bool.or_eq_false_iff.mp plain
    refine ⟨instruction :: inner, .other both.1 both.2 balanced, .token plain reads, by simp; omega, ?_⟩
    rw [drop_cons here, text, List.cons_append]
  | @loop nested position close last body code opening _ _ closing _ _ ihInside ih =>
    obtain ⟨inner, balanced, readsInner, rfl, text⟩ := ihInside rfl
    obtain ⟨after, balancedAfter, reads, rfl, textAfter⟩ := ih deep
    refine ⟨.loopOpen :: inner ++ .loopClose :: after, .pair rfl balanced rfl rfl balancedAfter, ?_, by simp; omega, ?_⟩
    · rw [List.map_append]
      exact .loop rfl readsInner rfl reads
    · rw [drop_cons opening, text, drop_cons closing, textAfter]
      simp
  | stray => cases deep

/-- On the tree: the loop is no idiom, and with tokens for its idioms its body is reduced. -/
theorem reducesAt_eq {program : Program} {position close : Nat} {body : Code}
    (opening : program.code[position]? = some .loopOpen) (partner : program.partner? position = some close)
    (inside : Spans program true (position + 1) body close) (closing : program.code[close]? = some .loopClose) :
    program.reducesAt position = (body.idiom?.isNone && body.idiomize.isReduced) := by
  obtain ⟨inner, balanced, reads, rfl, text⟩ := inner_of_spans inside
  have slice : (program.code.toList.drop position).take (position + 1 + inner.length + 1 - position) =
      .loopOpen :: inner ++ [.loopClose] := by
    rw [drop_cons opening, text, drop_cons closing]
    have length : position + 1 + inner.length + 1 - position =
        (Instruction.loopOpen :: inner ++ [Instruction.loopClose]).length := by
      simp
      omega
    have split : Instruction.loopOpen ::
          (inner ++ .loopClose :: program.code.toList.drop (position + 1 + inner.length + 1)) =
        (.loopOpen :: inner ++ [.loopClose]) ++ program.code.toList.drop (position + 1 + inner.length + 1) := by
      simp
    rw [length, split, List.take_left]
  rw [← opens_char, ← closes_char] at balanced
  have paired : Source.Paired (inner.map Instruction.char) := balanced.map Instruction.char
  obtain ⟨tree, readsTree, readsTokens⟩ := Source.reads_tokens paired
  rw [map_token] at readsTree
  obtain rfl := readsTree.unique reads
  have readsChars : Reads ((inner.map Instruction.char).map Source.ofInstruction) tree := by
    rw [map_token]
    exact reads
  have idiom := Source.idiom?_eq readsChars
  have chars : (Instruction.loopOpen :: inner ++ [Instruction.loopClose]).map Instruction.char =
      '[' :: inner.map Instruction.char ++ ']' :: [] := by
    simp [Instruction.char]
  simp only [Program.reducesAt, partner, slice, chars]
  rw [idiom]
  cases found : Source.idiomOf (inner.map Instruction.char) with
  | some kind =>
    have marker : (Token.single kind).isMarker = false := by
      rw [Token.isMarker, (Source.idiom_plain found).1, (Source.idiom_plain found).2]
      rfl
    have alone : Reads [.single kind] (.token (.single kind) .halt) := .token marker .halt
    rw [Source.tokens_idiom found, Source.tokens, alone.ofTokens?]
    rfl
  | none =>
    have whole : Reads (.single .loopOpen :: Source.tokens (inner.map Instruction.char) ++ .single .loopClose :: [])
        (.loop tree.idiomize .halt) := .loop rfl readsTokens rfl .halt
    rw [Source.tokens_pair paired found, Source.tokens, whole.ofTokens?]
    rfl

end TapeScript.Interpreter
