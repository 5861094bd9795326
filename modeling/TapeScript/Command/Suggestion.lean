import TapeScript.Text.Units

/-! Names that someone may have meant. -/
namespace TapeScript.Suggestion

/-- One row of the table of distances between a text and the beginnings of another: `letter` is
added to the other one, `previous?` stands before it, and the two rows are those of the beginnings
shorter by one and by two. -/
def nextRow (text : Array UInt16) (number : Nat) (letter : UInt16) (previous? : Option UInt16)
    (row earlier : Array Nat) : Array Nat :=
  let entry (row : Array Nat) (column : Nat) : Nat := row[column]?.getD 0
  (List.range text.size).foldl (fun current column =>
    let here := text[column]?
    let replaced := entry row column + if here = some letter then 0 else 1
    let best := min (min (entry current column + 1) (entry row (column + 1) + 1)) replaced
    let isSwap := 0 < column ∧ previous?.isSome ∧ here = previous? ∧ text[column - 1]? = some letter
    current.push (if isSwap then min best (entry earlier (column - 1) + 1) else best)) #[number]

/-- Rows for the letters that are left. -/
def lastRow (text : Array UInt16) (number : Nat) (previous? : Option UInt16) (row earlier : Array Nat) :
    List UInt16 → Array Nat
  | [] => row
  | letter :: letters =>
    lastRow text (number + 1) (some letter) (nextRow text number letter previous? row earlier) row letters

/-- The largest distance of a suggestion. -/
def maxDistance : Nat := 3

/-- How many letters have to be changed, added, left out or swapped with the next one to make one
text of the other. Texts whose lengths differ too much count as altogether different. -/
def distance (a b : List UInt16) : Nat :=
  if maxDistance < max a.length b.length - min a.length b.length then max a.length b.length
  else
    let row := (List.range (a.length + 1)).toArray
    (lastRow a.toArray 1 none row #[] b).back?.getD 0

/-- Keep the candidates at the least distance that share enough with the word. -/
def collect (word : List UInt16) (best : Nat × List String) (candidate : String) : Nat × List String :=
  let letters := Text.units candidate
  let length := max word.length letters.length
  let d := distance word letters
  if letters.length ≤ 1 ∨ 10 * (length - d) ≤ 4 * length then best
  else if d < best.1 then (d, [candidate])
  else if d = best.1 then (d, best.2 ++ [candidate])
  else best

/-- The candidates most like a word, in order. -/
def similar (word : String) (candidates : List String) : List String :=
  (candidates.foldl (collect (Text.units word)) (maxDistance, [])).2.mergeSort

/-- A question to add to a complaint about a word, if there is anything to ask. -/
def question (names : List String) : String :=
  match names with
  | [] => ""
  | [name] => s!"\n(Did you mean {name}?)"
  | names => "\n(Did you mean one of " ++ ", ".intercalate names ++ "?)"

end TapeScript.Suggestion
