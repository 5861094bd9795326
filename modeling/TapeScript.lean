import TapeScript.Main
import TapeScript.Proofs.Machine
import TapeScript.Proofs.Stream.Update
import TapeScript.Tape.Report
import TapeScript.Proofs.Stream.Cancellation
import TapeScript.Proofs.Stream.Fusion
import TapeScript.Proofs.Stream.RunLength
import TapeScript.Proofs.Numeric
import TapeScript.Proofs.Stream.Walk
import TapeScript.Proofs.Stream.ReducedBody
import TapeScript.Proofs.Stream.ReducedLoop
import TapeScript.Proofs.Stream.Reduction
import TapeScript.Proofs.Emission
import TapeScript.Proofs.Optimization
import TapeScript.Proofs.Source
import TapeScript.Proofs.Compilation
import TapeScript.Proofs.Idioms
import TapeScript.Proofs.Interpreter.Tree
import TapeScript.Proofs.Interpreter.Run
import TapeScript.Proofs.Correctness
import TapeScript.Proofs.Interpreter.Reach
import TapeScript.Proofs.Interpreter.Window
import TapeScript.Proofs.Random
import TapeScript.Proofs.Validation
import TapeScript.Proofs.Sample
import TapeScript.Proofs.SelfTest
import TapeScript.Proofs.Refusal
import TapeScript.Proofs.Text.Utf8
import TapeScript.Proofs.Host.Console
import TapeScript.Proofs.Host.Streams
import TapeScript.Proofs.Command.FileSystem
import TapeScript.Proofs.Command.Options
import TapeScript.Proofs.Command.Effects
import TapeScript.Proofs.Script.Count
import TapeScript.Proofs.Execution
import TapeScript.Proofs.Stream.Iteration
import TapeScript.Proofs.Stream.Exactness
import TapeScript.Proofs.Stream.Expansion
import TapeScript.Proofs.Stream.NormalForm
import TapeScript.Proofs.Stream.Coding
import TapeScript.Proofs.Stream.OpenLoops
import TapeScript.Proofs.Stream.Restoration
import TapeScript.Proofs.Source.Text
import TapeScript.Proofs.Stream.Irreducible
import TapeScript.Proofs.SelfTest.Modes
import TapeScript.Proofs.Host.Supply
import TapeScript.Proofs.Interpreter.Limit
import TapeScript.Proofs.Host.Lines
import TapeScript.Proofs.Validation.Causes
import TapeScript.Proofs.Validation.Explanation
import TapeScript.Proofs.Script.Lines
import TapeScript.Proofs.Stream.Lasting
import TapeScript.Proofs.Statistics
import TapeScript.Proofs.Stream.Saturation
import TapeScript.Proofs.Brackets.Matching
import TapeScript.Proofs.Random.Grammar
import TapeScript.Proofs.Random.Permutation
import TapeScript.Proofs.Machine.Size
import TapeScript.Proofs.Machine.Dump
import TapeScript.Proofs.Source.Pairing
import TapeScript.Proofs.Script.Indentation
import TapeScript.Proofs.Token.Readability
