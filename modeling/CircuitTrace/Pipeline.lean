import CircuitTrace.Arithmetization
import CircuitTrace.Container
import CircuitTrace.Solver

namespace CircuitTrace

inductive PipelineError where
  | parse (error : ParseError)
  | solve (error : SolveError)
  | compile (error : CompileError)
  deriving DecidableEq

def PipelineError.message : PipelineError → String
  | .parse error => error.message
  | .solve error => error.message
  | .compile error => error.message

/-- Solves a circuit, or checks a witness that is given instead. -/
def Circuit.witnessFor (k : Circuit) (inputs : List Nat) :
    Option Witness → Logged SolveError Witness
  | some witness => do
    (witness.check k).mapError SolveError.witness
    return witness
  | none => return (← Solver.solve ⟨k, []⟩ inputs).1

/-- Reads a circuit and compiles it for inputs. The circuit is laid out, and its prime compared
with the configured modulus, before anything is solved. A given witness takes the place of the
solver, and the inputs are then not looked at. -/
def Program.ofContainer (bytes : Bytes) (inputs : List Nat) (witness : Option Witness)
    (config : Config) : Logged PipelineError Program := do
  let k ← (Circuit.parse bytes).mapError PipelineError.parse
  let a ← (Arithmetization.ofCircuit k config).mapError PipelineError.compile
  let w ← (k.witnessFor inputs witness).mapError PipelineError.solve
  (a.program w).mapError PipelineError.compile

end CircuitTrace
