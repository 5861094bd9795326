/-! The causes for which the compiler, its machines and its command give up, and the text of each.
Errors of the person at the command line are told apart from faults of the program. -/
namespace TapeScript

/-- What the file system refuses. -/
inductive DiskFault where
  | notFound
  | notDirectory
  | isDirectory
  | alreadyExists
  deriving DecidableEq, Repr

def DiskFault.message : DiskFault → String
  | .notFound => "ENOENT: no such file or directory"
  | .notDirectory => "ENOTDIR: not a directory"
  | .isDirectory => "EISDIR: illegal operation on a directory"
  | .alreadyExists => "EEXIST: file already exists"

/-- Errors in what the caller of the command asked for. -/
inductive UsageError where
  | badExtension (definition : String)
  | badEndOfInput (text : String) (modes : List String)
  | missingFile (path : String)
  | argumentCount
  | stated (message : String)
  deriving DecidableEq, Repr

def UsageError.message : UsageError → String
  | .badExtension definition => s!"bad extension '{definition}'; expected <symbol>=<statement>"
  | .badEndOfInput text modes => s!"bad --eof '{text}'; expected one of: " ++ ", ".intercalate modes
  | .missingFile path => s!"no such file: {path}"
  | .argumentCount => "exactly one program argument expected"
  | .stated message => message

/-- Causes of failure. An assertion is a check without a text of its own; the samples on offer come with the
length of their source. -/
inductive Error where
  | assertion
  | unbalancedLoop
  | noInverse (kind? : Option String)
  | unknownKind (code : Int)
  | noTemplate (symbol? : Option String)
  | symbolLength (symbol : String)
  | coreSymbol (symbol : String)
  | duplicateSymbol (symbol : String)
  | evenInverse
  | emptyPick
  | mismatch
  | unknownSample (name : String) (samples : List (String × Nat))
  | readFault (code : String)
  | disk (fault : DiskFault) (action : String)
  | stated (message : String)
  | usage (error : UsageError)
  deriving DecidableEq, Repr

namespace Error

def message : Error → String
  | assertion => "Assertion failed"
  | unbalancedLoop => "unbalanced loop"
  | noInverse kind? => "no opposite for " ++ kind?.getD "undefined"
  | unknownKind code => s!"bad op {code}"
  | noTemplate symbol? => "no template for extension " ++ symbol?.getD "undefined"
  | symbolLength symbol => s!"extension symbol must be a single character: '{symbol}'"
  | coreSymbol symbol => s!"extension cannot redefine '{symbol}'"
  | duplicateSymbol symbol => s!"duplicate extension '{symbol}'"
  | evenInverse => "inverseOdd() of even number"
  | emptyPick => "randomPick() on empty array"
  | mismatch => "mismatch"
  | unknownSample name samples =>
    samples.foldl (fun text sample => text ++ s!"- {sample.1}: {sample.2} chars\n")
      s!"no such program {name}; options:\n"
  | readFault code => code ++ "!"
  | disk fault action => s!"{fault.message}, {action}"
  | stated message => message
  | usage error => error.message

def isUsage : Error → Bool
  | usage _ => true
  | _ => false

/-- Give up for want of a better answer. -/
def gaveUp (message? : Option String) : Error := .stated (message?.getD "OOPS")

/-- Pass only if the condition holds. -/
def require (condition : Bool) (error : Error) : Except Error Unit :=
  if condition then .ok () else .error error

/-- The error of a failed check, in the words given for it if there are any. -/
def failedCheck : Option String → Error
  | some message => .stated message
  | none => .assertion

end Error
end TapeScript
