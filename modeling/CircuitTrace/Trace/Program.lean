import CircuitTrace.Trace.Registers

/-!
Programs of a trace machine: polynomial constraints between neighbouring rows, fixed cells, and a
trace that claims to satisfy both. `Program.check` decides whether it does.
-/
namespace CircuitTrace

/-- A register has to hold a value on a row. -/
structure BoundaryConstraint where
  row : Nat
  register : Nat
  value : Nat
  deriving DecidableEq

/-- The rows of a trace, each with a value for every register. -/
abbrev Trace := List (List Nat)

structure Program where
  modulus : Nat
  registerCount : Nat
  /-- Have to vanish on every row and the one behind it. -/
  transitions : List Poly
  boundary : List BoundaryConstraint
  trace : Trace
  deriving DecidableEq

inductive TraceError where
  | tooShort (rows : Nat)
  | shape (row expected found : Nat)
  | transitionViolation (constraint row : Nat)
  | boundaryViolation (row register : Nat)
  | poly (error : Poly.EvalError)
  deriving DecidableEq

def TraceError.message : TraceError → String
  | .tooShort rows => s!"Trace has {rows} rows; at least 2 are needed."
  | .shape row expected found => s!"Row {row} has {found} cells, expected {expected}."
  | .transitionViolation constraint row =>
    s!"Transition constraint {constraint} does not vanish on rows {row} and {row + 1}."
  | .boundaryViolation row register =>
    s!"Boundary constraint on register {register} does not hold at row {row}."
  | .poly error => error.message

namespace Program

/-- Every row has a cell for every register. -/
def checkShape (g : Program) : Except TraceError Unit :=
  g.trace.zipIdx.forM fun (cells, row) =>
    if cells.length = g.registerCount then .ok ()
    else .error (.shape row g.registerCount cells.length)

/-- Every transition constraint vanishes at the given values of its variables. -/
def checkTransitionsAt (g : Program) (row : Nat) (values : Array Nat) : Except TraceError Unit :=
  g.transitions.zipIdx.forM fun (poly, constraint) =>
    match poly.eval g.modulus (fun x => values[x]?) with
    | .ok 0 => .ok ()
    | .ok _ => .error (.transitionViolation constraint row)
    | .error error => .error (.poly error)

/-- The transition constraints hold between all neighbouring rows. -/
def checkTransitions (g : Program) : Except TraceError Unit :=
  (g.trace.zip g.trace.tail).zipIdx.forM fun ((current, next), row) =>
    g.checkTransitionsAt row (Registers.assignment g.modulus row current next).toArray

/-- The cell that a boundary constraint speaks of, if the trace has it. -/
def cell? (g : Program) (b : BoundaryConstraint) : Option Nat :=
  g.trace[b.row]?.bind fun cells => cells[b.register]?

/-- Boundary constraints compare residues, and fail where the trace has no cell. -/
def checkBoundary (g : Program) : Except TraceError Unit :=
  g.boundary.forM fun b =>
    if (g.cell? b).map (Residue.reduce g.modulus) = some (Residue.reduce g.modulus b.value)
    then .ok ()
    else .error (.boundaryViolation b.row b.register)

/-- Checks the size of the trace, its transitions from the first row on, and its boundary. -/
def check (g : Program) : Except TraceError Unit := do
  if g.trace.length < 2 then throw (.tooShort g.trace.length)
  g.checkShape
  g.checkTransitions
  g.checkBoundary

end Program

end CircuitTrace
