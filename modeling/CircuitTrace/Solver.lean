import CircuitTrace.Logged
import CircuitTrace.Solver.Equation

/-!
Witness generation by eliminating one unknown wire at a time. `Solver.solve` passes over the
constraints again and again, and solves each that has a single unknown wire, until all wires are
known or a pass finds none. `Solver.replay` follows a recorded path instead of searching.

In both ways the values are checked against all constraints at the end.
-/
namespace CircuitTrace

/-- A circuit and the gadgets that help to solve it. -/
structure Solver where
  circuit : Circuit
  gadgets : List Gadget

namespace Solver

variable {n : Nat}

def equations (s : Solver) : List Equation :=
  s.circuit.constraints.zipIdx.map fun c => .ofConstraint s.circuit.prime c.2 c.1

/-- The assignment before the first step: the constant wire and the inputs are known. -/
def start (s : Solver) (inputs : List Nat) : Except SolveError (Assignment s.circuit.wireCount) :=
  if inputs.length ≠ s.circuit.inputCount then
    .error (.inputCount s.circuit.inputCount inputs.length)
  else
    .ok ((s.circuit.inputWires.toList.zip inputs).foldl
      (fun a e => a.assign e.1 (Residue.reduce s.circuit.prime e.2))
      ((Assignment.unknown _).assign oneWire 1))

/-- Applies one gadget, and gives its report and the new assignment. -/
def applyGadget (p : Nat) (g : Gadget) (a : Assignment n) :
    Except SolveError (Nat × Assignment n) :=
  match g.apply p a with
  | (.ok count, a) => .ok (count, a)
  | (.error error, _) => .error (.gadgetFailed g.name error)

/-- Applies gadgets in order. Those that report to have filled something become steps. -/
def applyGadgets (p : Nat) : List (Gadget × Nat) → Assignment n →
    Except SolveError (Assignment n × List Step)
  | [], a => .ok (a, [])
  | (g, index) :: rest, a => do
    let (count, a) ← applyGadget p g a
    let (a, steps) ← applyGadgets p rest a
    return (a, if count = 0 then steps else .gadget index :: steps)

/-- What a pass over the open equations leaves. -/
structure Pass (n : Nat) where
  assignment : Assignment n
  /-- Equations that may still become solvable. -/
  active : List Equation
  steps : List Step

/-- Passes over equations in order. Values found are seen by the equations behind. An equation
without unknown wires is dropped, as the final check covers it. -/
def pass (p : Nat) : List Equation → Assignment n → Logged SolveError (Pass n)
  | [], a => return ⟨a, [], []⟩
  | e :: rest, a =>
    match e.unknowns a.get? with
    | [] => pass p rest a
    | [wire] => do
      match ← e.solveFor p a.get? wire with
      | some value =>
        Logged.emit (.eliminated e.index wire (e.residual p a.get?) value)
        let r ← pass p rest (a.assign wire value)
        return { r with steps := .eliminate e.index wire :: r.steps }
      | none =>
        let r ← pass p rest a
        return { r with active := e :: r.active }
    | _ :: _ :: _ => do
      let r ← pass p rest a
      return { r with active := e :: r.active }

/-- A complete assignment, and how it was reached. -/
structure Search (n : Nat) where
  assignment : Assignment n
  rounds : Nat
  steps : List Step

/-- Repeats rounds until all wires are known. A round applies the gadgets and passes over the
active equations. Each round must lower the number of unknown wires: when one does not, no later
round would. -/
def search (s : Solver) (rounds : Nat) (active : List Equation) (a : Assignment n) :
    Logged SolveError (Search n) :=
  if a.unknownCount = 0 then return ⟨a, rounds, []⟩
  else do
    let (b, gadgetSteps) ← applyGadgets s.circuit.prime s.gadgets.zipIdx a
    let r ← pass s.circuit.prime active b
    let unknown := r.assignment.unknownCount
    Logged.emit (.solverRound (rounds + 1) (a.unknownCount - unknown) unknown)
    if _h : r.assignment.unknownCount < a.unknownCount then
      let rest ← search s (rounds + 1) r.active r.assignment
      return { rest with steps := gadgetSteps ++ r.steps ++ rest.steps }
    else
      Logged.ofExcept (.error (.unsatisfiable unknown r.assignment.firstUnknown))
  termination_by a.unknownCount

/-- The witness that an assignment gives, if it satisfies the circuit. -/
def finish (s : Solver) (a : Assignment n) : Except SolveError Witness :=
  let witness : Witness := ⟨a.values⟩
  ((witness.check s.circuit).mapError .witness).map fun _ => witness

/-- The operations that the eliminations of a path take as explicit equations. -/
def cost (s : Solver) (path : Path) : Cost :=
  let equations := s.equations
  path.eliminations.foldl
    (fun sum e => match equations[e.1]? with
      | some equation =>
        let c := equation.cost s.circuit.prime e.2
        ⟨sum.multiplications + c.multiplications, sum.additions + c.additions⟩
      | none => sum)
    ⟨0, 0⟩

/-- Solves for inputs, the public ones first, and records the path. -/
def solve (s : Solver) (inputs : List Nat) : Logged SolveError (Witness × Path) := do
  let a ← s.start inputs
  let r ← s.search 0 s.equations a
  let witness ← s.finish r.assignment
  let path : Path := ⟨s.circuit.fingerprint, r.steps⟩
  let cost := s.cost path
  Logged.emit
    (.witnessSolved r.rounds path.steps.length cost.multiplications cost.additions)
  return (witness, path)

/-- Follows the step at place `k` of a path. An elimination must name a constraint whose single
unknown is the wire, and a gadget must report to have filled something. -/
def follow (s : Solver) (equations : List Equation) (k : Nat) (a : Assignment n) :
    Step → Except SolveError (Assignment n)
  | .eliminate constraint wire =>
    match equations[constraint]? with
    | none => .error (.invalidStep k)
    | some e =>
      if e.unknowns a.get? = [wire] then do
        match ← e.solveFor s.circuit.prime a.get? wire with
        | some value => return a.assign wire value
        | none =>
          throw (.unsupportedResidual constraint wire (e.residual s.circuit.prime a.get?).size)
      else .error (.invalidStep k)
  | .gadget index =>
    match s.gadgets[index]? with
    | none => .error (.invalidStep k)
    | some g => do
      let (count, a) ← applyGadget s.circuit.prime g a
      if count = 0 then throw (.invalidStep k)
      return a

/-- Follows the steps of a path in order. -/
def followAll (s : Solver) (equations : List Equation) (steps : List Step) (a : Assignment n) :
    Except SolveError (Assignment n) :=
  steps.zipIdx.foldlM (fun a step => s.follow equations step.2 a step.1) a

/-- Solves for inputs along a path that was recorded for the same circuit. -/
def replay (s : Solver) (inputs : List Nat) (path : Path) : Except SolveError Witness := do
  let fingerprint := s.circuit.fingerprint
  if path.circuit ≠ fingerprint then throw (.pathMismatch path.circuit fingerprint)
  let a ← s.start inputs
  let a ← s.followAll s.equations path.steps a
  if a.unknownCount ≠ 0 then throw (.incompletePath a.unknownCount a.firstUnknown)
  s.finish a

end Solver

end CircuitTrace
