import CircuitTrace.Witness
import CircuitTrace.Solver.Gadget

/-!
Substitution paths: the order in which a solver found the values of the wires. A path can be
replayed for other inputs of the same circuit without looking for solvable constraints again.
-/
namespace CircuitTrace

inductive Step where
  /-- The wire was the single unknown of the constraint. -/
  | eliminate (constraint wire : Nat)
  /-- The gadget at this place in the list of gadgets filled wires. -/
  | gadget (index : Nat)
  deriving DecidableEq

/-- The steps, and the fingerprint of the circuit they belong to. -/
structure Path where
  circuit : Digest
  steps : List Step
  deriving DecidableEq

/-- The constraints and wires of the eliminations, in order. -/
def Path.eliminations (path : Path) : List (Nat × Nat) :=
  path.steps.filterMap fun
    | .eliminate constraint wire => some (constraint, wire)
    | .gadget _ => none

/-- Field operations that a set of equations takes. -/
structure Cost where
  multiplications : Nat
  additions : Nat
  deriving DecidableEq

inductive SolveError where
  | inputCount (expected found : Nat)
  | unsatisfiable (unknown first : Nat)
  | unsupportedResidual (constraint wire terms : Nat)
  | pathMismatch (expected found : Digest)
  | incompletePath (unknown first : Nat)
  | invalidStep (step : Nat)
  | gadgetFailed (gadget : String) (error : GadgetError)
  | arithmetic (error : ArithmeticError)
  | witness (error : WitnessError)
  deriving DecidableEq

def SolveError.message : SolveError → String
  | .inputCount expected found => s!"Expected {expected} input values, got {found}."
  | .unsatisfiable unknown first =>
    s!"No constraint has a single unknown; {unknown} wires unresolved, first is {first}."
  | .unsupportedResidual constraint wire terms =>
    s!"Constraint {constraint} leaves a residual in wire {wire} with {terms} terms that " ++
      "cannot be solved."
  | .pathMismatch expected found =>
    s!"Path was recorded for circuit {expected.toHex}, not {found.toHex}."
  | .incompletePath unknown first =>
    s!"Path left {unknown} wires unresolved, first is {first}."
  | .invalidStep step => s!"Path step {step} cannot be applied."
  | .gadgetFailed gadget error => s!"Gadget {gadget} failed: {error.message}"
  | .arithmetic error => error.message
  | .witness error => error.message

end CircuitTrace
