import TapeScript.Extension
import TapeScript.Literal
import TapeScript.Script.Emit

/-! How to compile a program. An option that is left out leaves the choice to a default, or to the
options that it is laid over. -/
namespace TapeScript

structure CompileOptions where
  input? : Option Literal := none
  extensions? : Option (List Extension) := none
  eof? : Option EndOfInput := none
  optimize? : Option Bool := none
  verbose? : Option Bool := none
  deriving DecidableEq, Repr

namespace CompileOptions

def eof (options : CompileOptions) : EndOfInput := options.eof?.getD .halt

def optimize (options : CompileOptions) : Bool := options.optimize?.getD true

def verbose (options : CompileOptions) : Bool := options.verbose?.getD false

def extensions (options : CompileOptions) : List Extension := options.extensions?.getD []

def dialect (options : CompileOptions) : Dialect :=
  { eof := options.eof, extensions := options.extensions }

/-- The options with the end of input and optimization decided. -/
def withDefaults (options : CompileOptions) : CompileOptions :=
  { options with eof? := some options.eof, optimize? := some options.optimize }

/-- The options with those of a program, where it has any, in their place. -/
def override (options own : CompileOptions) : CompileOptions where
  input? := own.input?.or options.input?
  extensions? := own.extensions?.or options.extensions?
  eof? := own.eof?.or options.eof?
  optimize? := own.optimize?.or options.optimize?
  verbose? := own.verbose?.or options.verbose?

end CompileOptions
end TapeScript
