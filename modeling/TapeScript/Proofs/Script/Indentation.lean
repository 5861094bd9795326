import TapeScript.Proofs.Script.Coverage
import TapeScript.Proofs.Script.Lines
import TapeScript.Proofs.Source.Depth

/-! The text of a stream is that of its tokens one after the other, indented. The lines of a token have a margin
for every loop around it and are the same without it, empty lines and statements of several lines included. -/
namespace TapeScript

namespace Text

variable {text first second : String}

/-- The lines of a text whose last line is ended as well. -/
def lines (text : String) : List (List Char) := (text.toList.splitOn '\n').dropLast

/-- Four spaces for each level. -/
def margins (levels : Nat) : List Char := List.replicate (4 * levels) ' '

/-- A line without the margin of so many levels; none if it does not have that much. -/
def outdent? (levels : Nat) (line : List Char) : Option (List Char) :=
  if (margins levels).isPrefixOf line then some (line.drop (4 * levels)) else none

theorem outdent?_margins (levels : Nat) (line : List Char) : outdent? levels (margins levels ++ line) = some line := by
  have held : (margins levels).isPrefixOf (margins levels ++ line) = true :=
    List.isPrefixOf_iff_prefix.mpr (List.prefix_append _ _)
  have width : (margins levels).length = 4 * levels := List.length_replicate
  rw [outdent?, if_pos held, ← width, List.drop_left]

theorem lines_ended (text : String) : lines (text ++ "\n") = text.toList.splitOn '\n' := by
  have split : (text ++ "\n").toList = text.toList ++ '\n' :: [] := by simp
  rw [lines, split, List.splitOn_append_cons_self, List.splitOn_nil, List.dropLast_concat]

theorem Ended.exists_eq (ended : Ended text) : ∃ line, text = line ++ "\n" := by
  obtain ⟨front, split⟩ := List.getLast?_eq_some_iff.mp ended
  refine ⟨String.ofList front, String.toList_inj.mp ?_⟩
  rw [split, String.toList_append, String.toList_ofList]
  rfl

theorem lines_append (ended : Ended first) (second : String) :
    lines (first ++ second) = lines first ++ lines second := by
  obtain ⟨front, rfl⟩ := ended.exists_eq
  have split : (front ++ "\n" ++ second).toList = front.toList ++ '\n' :: second.toList := by simp
  rw [lines_ended, lines, split, List.splitOn_append_cons_self,
    List.dropLast_append_of_ne_nil (List.splitOn_ne_nil _ _)]
  rfl

theorem lines_join {texts : List String} (ended : ∀ text ∈ texts, Ended text) :
    lines (String.join texts) = texts.flatMap lines := by
  induction texts with
  | nil => rfl
  | cons text texts ih =>
    rw [String.join_cons, lines_append (ended text (by simp)), ih fun other member => ended other (by simp [member]),
      List.flatMap_cons]

theorem whole_join {texts : List String} (ended : ∀ text ∈ texts, Ended text) : Whole (String.join texts) := by
  induction texts with
  | nil => exact .inl rfl
  | cons text texts ih =>
    rw [String.join_cons]
    rcases ih fun other member => ended other (by simp [member]) with empty | last
    · rw [empty, String.append_empty]
      exact .inr (ended text (by simp))
    · exact .inr (last.append _)

private theorem splitOn_margin (text : List Char) :
    (margin ++ text).splitOn '\n' = (text.splitOn '\n').modifyHead (margin ++ ·) := by
  obtain ⟨first, rest, split⟩ := List.exists_cons_of_ne_nil (List.splitOn_ne_nil '\n' text)
  simp [margin, List.splitOn_cons_eq_if_modifyHead, split]

/-- A margin after every line break is one before every line but the first. -/
private theorem splitOn_nestBreaks (text : List Char) : ∃ first rest, text.splitOn '\n' = first :: rest ∧
    (nestBreaks text).splitOn '\n' = first :: rest.map (margin ++ ·) := by
  induction text with
  | nil => exact ⟨[], [], rfl, rfl⟩
  | cons c text ih =>
    obtain ⟨first, rest, plain, nested⟩ := ih
    rw [List.splitOn_cons_eq_if_modifyHead, plain, nestBreaks, List.flatMap_cons, ← nestBreaks]
    by_cases isBreak : c = '\n'
    · subst isBreak
      refine ⟨[], first :: rest, rfl, ?_⟩
      simp only [if_pos, List.cons_append]
      rw [List.splitOn_cons_eq_if_modifyHead, splitOn_margin, nested]
      rfl
    · refine ⟨c :: first, rest, by simp [isBreak], ?_⟩
      simp [isBreak, List.splitOn_cons_eq_if_modifyHead, nested]

theorem lines_nest (ended : Ended text) : lines (nest text) = (lines text).map (margin ++ ·) := by
  obtain ⟨front, rfl⟩ := ended.exists_eq
  obtain ⟨first, rest, plain, nested⟩ := splitOn_nestBreaks front.toList
  have body : nest (front ++ "\n") = String.ofList (margin ++ nestBreaks front.toList) ++ "\n" := by
    apply String.toList_inj.mp
    simp [nest, nestChars, dropFinalBreak]
  rw [body, lines_ended, lines_ended, String.toList_ofList, splitOn_margin, nested, plain]
  rfl

/-- Every line has a margin for each level. -/
theorem lines_nestBy (ended : Ended text) (levels : Nat) :
    lines (nestBy levels text) = (lines text).map (margins levels ++ ·) := by
  induction levels with
  | zero => simp [nestBy, margins]
  | succ levels ih =>
    have wider : margins (levels + 1) = margin ++ margins levels := by
      rw [margins, Nat.mul_succ, Nat.add_comm, List.replicate_add]
      rfl
    rw [nestBy, lines_nest (lineCount_nestBy ended levels).2, ih, List.map_map, wider]
    exact List.map_congr_left fun line _ => (List.append_assoc _ _ _).symm

end Text

open Text

variable {dialect : Dialect} {tokens : List Token} {texts : List String}

/-- The texts of tokens from a place on, each as deep as the loops around its token. -/
def indented (tokens : List Token) (texts : List String) (place : Nat) : List String :=
  (texts.zipIdx place).map fun entry => nestBy (loopsAround tokens entry.2) entry.1

theorem indented_cons (tokens : List Token) (text : String) (texts : List String) (place : Nat) :
    indented tokens (text :: texts) place =
      nestBy (loopsAround tokens place) text :: indented tokens texts (place + 1) := rfl

theorem Token.ended_emit {token : Token} {text : String} (emitted : token.emit dialect = .ok text) : Ended text := by
  obtain ⟨line, _, made⟩ := bind_ok_iff.mp emitted
  cases made
  exact ended_line line

theorem Token.exists_emit {token : Token} (covered : token.Covered dialect) :
    ∃ text, token.emit dialect = .ok text := by
  obtain ⟨text, made⟩ := (template_ok_iff token).mpr covered
  exact ⟨_, bind_ok_iff.mpr ⟨text, made, rfl⟩⟩

theorem mapM_emit_cons {token : Token} (emitted : (token :: tokens).mapM (Token.emit dialect) = .ok texts) :
    ∃ text others, token.emit dialect = .ok text ∧ tokens.mapM (Token.emit dialect) = .ok others ∧
      texts = text :: others := by
  rw [List.mapM_cons] at emitted
  obtain ⟨text, here, emitted⟩ := bind_ok_iff.mp emitted
  obtain ⟨others, rest, emitted⟩ := bind_ok_iff.mp emitted
  cases emitted
  exact ⟨text, others, here, rest, rfl⟩

theorem exists_mapM_emit (covered : ∀ token ∈ tokens, token.Covered dialect) :
    ∃ texts, tokens.mapM (Token.emit dialect) = .ok texts := by
  induction tokens with
  | nil => exact ⟨[], rfl⟩
  | cons token tokens ih =>
    obtain ⟨text, here⟩ := Token.exists_emit (covered token (by simp))
    obtain ⟨others, rest⟩ := ih fun other member => covered other (by simp [member])
    rw [List.mapM_cons]
    exact ⟨_, bind_ok_iff.mpr ⟨text, here, bind_ok_iff.mpr ⟨others, rest, rfl⟩⟩⟩

theorem mapM_emit_ended (emitted : tokens.mapM (Token.emit dialect) = .ok texts) :
    texts.length = tokens.length ∧ ∀ text ∈ texts, Ended text := by
  induction tokens generalizing texts with
  | nil =>
    cases emitted
    exact ⟨rfl, by simp⟩
  | cons token tokens ih =>
    obtain ⟨text, others, here, rest, rfl⟩ := mapM_emit_cons emitted
    obtain ⟨length, ended⟩ := ih rest
    exact ⟨congrArg (· + 1) length, List.forall_mem_cons.mpr ⟨Token.ended_emit here, ended⟩⟩

/-- The depth that is kept is the number of loops begun, and the one used the number of loops around. -/
theorem Emission.add_indented {token : Token} {text : String} {place : Nat} {emission : Emission}
    (paired : LoopsPaired tokens) (here : tokens[place]? = some token)
    (depth : emission.depth = loopsBegun tokens place)
    (emitted : token.emit dialect = .ok text) : ∃ next, emission.add dialect token = .ok next ∧
      next.text = emission.text ++ nestBy (loopsAround tokens place) text ∧
      next.depth = loopsBegun tokens (place + 1) := by
  have around : (if token.kind = .loopClose then emission.depth - 1 else emission.depth) =
      loopsAround tokens place := by
    rw [depth]
    split
    · rename_i closing
      rw [loopsBegun_closer paired here closing]
      omega
    · rename_i plain
      rw [loopsBegun_other here plain]
  refine ⟨_, bind_ok_iff.mpr ⟨text, emitted, rfl⟩, ?_, ?_⟩
  · simp only [around, Int.toNat_natCast]
  · simp only [around, loopsBegun_succ paired here]
    split <;> rfl

/-- The rest of a stream is emitted with the loops of the whole around it. -/
theorem foldlM_indented (paired : LoopsPaired tokens) (front rest : List Token) (split : tokens = front ++ rest)
    {emission : Emission} (depth : emission.depth = loopsBegun tokens front.length)
    (emitted : rest.mapM (Token.emit dialect) = .ok texts) :
    ∃ last, rest.foldlM (Emission.add dialect) emission = .ok last ∧
      last.text = emission.text ++ String.join (indented tokens texts front.length) ∧
      last.depth = loopsBegun tokens tokens.length := by
  induction rest generalizing front emission texts with
  | nil =>
    cases emitted
    rw [List.append_nil] at split
    exact ⟨emission, rfl, (String.append_empty).symm, split ▸ depth⟩
  | cons token rest ih =>
    obtain ⟨text, others, here, later, rfl⟩ := mapM_emit_cons emitted
    have found : tokens[front.length]? = some token := by simp [split]
    obtain ⟨next, added, grown, deeper⟩ := Emission.add_indented paired found depth here
    have length : (front ++ [token]).length = front.length + 1 := by simp
    obtain ⟨last, folded, whole, ends⟩ := ih (front ++ [token]) (by simp [split]) (by rw [deeper, length]) later
    refine ⟨last, ?_, ?_, ends⟩
    · rw [List.foldlM_cons]
      exact bind_ok_iff.mpr ⟨next, added, folded⟩
    · rw [whole, grown, length, indented_cons, String.join_cons, String.append_assoc]

/-- The stream is refused where its first token is that has no text, and for the same cause. -/
theorem foldlM_add_error_iff {error : Error} (tokens : List Token) (emission : Emission) :
    tokens.foldlM (Emission.add dialect) emission = .error error ↔ tokens.mapM (Token.emit dialect) = .error error := by
  induction tokens generalizing emission with
  | nil => exact ⟨nofun, nofun⟩
  | cons token tokens ih =>
    rw [List.foldlM_cons, List.mapM_cons]
    cases emitted : token.emit dialect with
    | error cause =>
      have refused : emission.add dialect token = .error cause := by
        rw [Emission.add, emitted]
        rfl
      simp [refused, bind, Except.bind]
    | ok text =>
      obtain ⟨next, added⟩ : ∃ next, emission.add dialect token = .ok next :=
        ⟨_, bind_ok_iff.mpr ⟨text, emitted, rfl⟩⟩
      have later : (tokens.mapM (Token.emit dialect) >>= fun others => .ok (text :: others)) = .error error ↔
          tokens.mapM (Token.emit dialect) = .error error := by
        cases tokens.mapM (Token.emit dialect) <;> simp [bind, Except.bind]
      rw [added]
      exact (ih next).trans later.symm

/-- The text of a stream beside the texts of its tokens: their lines in blocks, with the margin of the loops
around each token. -/
structure Indented (tokens : List Token) (texts : List String) (text : String) : Prop where
  length : texts.length = tokens.length
  whole : Text.Whole text
  blocks : ∃ blocks : List (List (List Char)), lines text = blocks.flatten ∧ blocks.length = texts.length ∧
    ∀ (place : Nat) (block : List (List Char)) (own : String), blocks[place]? = some block → texts[place]? = some own →
      block.map (outdent? (loopsAround tokens place)) = (lines own).map some
  plain : lines (String.join texts) = texts.flatMap lines

theorem indented_join (length : texts.length = tokens.length) (ended : ∀ text ∈ texts, Ended text) :
    Indented tokens texts (String.join (indented tokens texts 0)) := by
  have deep : ∀ text ∈ indented tokens texts 0, Ended text := by
    intro text member
    obtain ⟨⟨own, place⟩, found, rfl⟩ := List.mem_map.mp member
    exact (lineCount_nestBy (ended own (List.fst_mem_of_mem_zipIdx found)) _).2
  refine ⟨length, whole_join deep, ⟨(indented tokens texts 0).map lines, ?_, ?_, ?_⟩, lines_join ended⟩
  · rw [lines_join deep, List.flatMap_def]
  · simp [indented]
  · intro place block own found here
    have deeper : (indented tokens texts 0)[place]? = some (nestBy (loopsAround tokens place) own) := by
      simp [indented, List.getElem?_zipIdx, here]
    rw [List.getElem?_map, deeper] at found
    cases found
    have last := ended own (List.mem_of_getElem? here)
    rw [lines_nestBy last, List.map_map]
    exact List.map_congr_left fun line _ => outdent?_margins _ line

/-- A stream with balanced loops is emitted as its tokens are, one after the other, but for the indentation by
the loops around each, and all loops are closed behind it. Both are refused for the same cause. -/
theorem emitStatements_indented (paired : LoopsPaired tokens) :
    ((∀ token ∈ tokens, token.Covered dialect) → ∃ texts text, tokens.mapM (Token.emit dialect) = .ok texts ∧
      emitStatements dialect tokens = .ok text ∧
      tokens.foldlM (Emission.add dialect) {} = .ok { text, depth := 0 } ∧ Indented tokens texts text) ∧
    ∀ error, emitStatements dialect tokens = .error error ↔ tokens.mapM (Token.emit dialect) = .error error := by
  constructor
  · intro covered
    obtain ⟨texts, emitted⟩ := exists_mapM_emit covered
    obtain ⟨length, ended⟩ := mapM_emit_ended emitted
    have begun : ({} : Emission).depth = loopsBegun tokens ([] : List Token).length := rfl
    obtain ⟨⟨text, depth⟩, folded, whole, ends⟩ := foldlM_indented paired [] tokens rfl begun emitted
    have closed : depth = 0 := by simpa [loopsBegun_end] using ends
    have same : text = String.join (indented tokens texts 0) := by simpa using whole
    subst closed same
    exact ⟨texts, _, emitted, bind_ok_iff.mpr ⟨_, folded, rfl⟩, folded, indented_join length ended⟩
  · intro error
    rw [← foldlM_add_error_iff tokens {}, emitStatements]
    cases tokens.foldlM (Emission.add dialect) {} <;> simp [bind, Except.bind]

/-- Statements of several lines, one of them empty, and an empty statement. -/
theorem emitStatements_indented_templates :
    let tokens : List Token :=
      [.single .loopOpen, .extension "#", .single .loopOpen, .extension "!", .single .loopClose,
      .single .loopClose]
    let dialect : Dialect := { extensions := [⟨"#", "first\n\nlast"⟩, ⟨"!", ""⟩] }
    LoopsPaired tokens ∧ (∀ token ∈ tokens, token.Covered dialect) ∧
      ∃ texts, tokens.mapM (Token.emit dialect) = .ok texts ∧ Indented tokens texts
        "while (d[p]) \x7b\n    first\n    \n    last\n    while (d[p]) \x7b\n        \n    \x7d\n\x7d\n" := by
  intro tokens dialect
  have inner : Nested [.single .loopOpen, .extension "!", .single .loopClose] :=
    .loop rfl (.token rfl .nil) rfl .nil
  have paired : LoopsPaired tokens :=
    loopsPaired_iff_nested.mpr (.loop rfl (.token rfl inner) rfl .nil)
  have covered : ∀ token ∈ tokens, token.Covered dialect := by
    intro token member
    simp only [tokens, List.mem_cons, List.not_mem_nil, or_false] at member
    rcases member with rfl | rfl | rfl | rfl | rfl | rfl
    · exact .common (Token.common_of_marker rfl)
    · exact .extension rfl rfl
    · exact .common (Token.common_of_marker rfl)
    · exact .extension rfl rfl
    · exact .common (Token.common_of_marker rfl)
    · exact .common (Token.common_of_marker rfl)
  obtain ⟨texts, text, emitted, made, _, indented⟩ := (emitStatements_indented paired).1 covered
  have computed : emitStatements dialect tokens = .ok
      "while (d[p]) \x7b\n    first\n    \n    last\n    while (d[p]) \x7b\n        \n    \x7d\n\x7d\n" := rfl
  obtain rfl := Except.ok.inj (computed.symm.trans made)
  exact ⟨paired, covered, texts, emitted, indented⟩

end TapeScript
