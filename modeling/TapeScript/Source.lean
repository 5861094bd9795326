import TapeScript.Brackets
import TapeScript.Extension
import TapeScript.Token

/-! From source text to a balanced stream of single tokens. Loops that clear a cell or look for a
zero are read as one token each, before anything else. -/
namespace TapeScript

/-- The partner of every loop marker of a stream. -/
def loopPartners (tokens : List Token) : List (Option Nat) :=
  Brackets.partners (·.kind == .loopOpen) (·.kind == .loopClose) tokens

/-- The stream without the loop markers that have no partner. -/
def pairedOnly (tokens : List Token) : List Token :=
  ((tokens.zip (loopPartners tokens)).filter fun (token, partner?) => !token.isMarker || partner?.isSome).map (·.1)

/-- Skip whole loops from the start of a stream, `depth` of them being open already. -/
def skipLoops : Nat → List Token → Except Error (List Token)
  | 0, [] => .ok []
  | 0, token :: tokens => if token.kind = .loopOpen then skipLoops 1 tokens else .ok (token :: tokens)
  | _ + 1, [] => .error .unbalancedLoop
  | depth + 1, token :: tokens =>
    if token.kind = .loopOpen then skipLoops (depth + 2) tokens
    else if token.kind = .loopClose then skipLoops depth tokens
    else skipLoops (depth + 1) tokens

/-- The stream without its leading loops, which the all-zero tape never enters. -/
def skipLeadingLoops (tokens : List Token) : Except Error (List Token) := skipLoops 0 tokens

namespace Source

/-- Whether a character is an instruction. -/
def isInstruction (extensions : List Extension) (c : Char) : Bool :=
  coreSymbols.toList.contains c || extensions.any (·.symbol.toList.contains c)

/-- The instructions of a text; all else is comment. -/
def instructions (extensions : List Extension) (source : String) : List Char :=
  source.toList.filter (isInstruction extensions)

/-- The text without its comments. -/
def withoutComments (extensions : List Extension) (source : String) : String :=
  String.ofList (instructions extensions source)

/-- The token of a single instruction; an extension is any that is not built in. -/
def ofInstruction : Char → Token
  | '+' => .single .inc
  | '-' => .single .dec
  | '>' => .single .right
  | '<' => .single .left
  | '[' => .single .loopOpen
  | ']' => .single .loopClose
  | '.' => .single .output
  | ',' => .single .input
  | c => .extension (String.singleton c)

/-- The tokens of a text of instructions. -/
def tokens : List Char → List Token
  | [] => []
  | '[' :: '-' :: ']' :: rest => .single .clear :: tokens rest
  | '[' :: '+' :: ']' :: rest => .single .clear :: tokens rest
  | '[' :: '<' :: ']' :: rest => .single .scanLeft :: tokens rest
  | '[' :: '>' :: ']' :: rest => .single .scanRight :: tokens rest
  | c :: rest => ofInstruction c :: tokens rest

/-- The stream of a source text. -/
def parse (extensions : List Extension) (source : String) : Except Error (List Token) := do
  Extension.check extensions
  skipLeadingLoops (pairedOnly (tokens (instructions extensions source)))

end Source
end TapeScript
