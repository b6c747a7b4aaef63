import CircuitTrace.Trace.Program
import CircuitTrace.Strategy
import CircuitTrace.Witness

/-!
Layouts say which cell of a trace holds which wire of a circuit. They are made from the circuit
alone; a witness then fills in the cells.

The layout of this module has one register for each wire and two equal rows. Narrower traces are
made in `CircuitTrace.Trace.PackedLayout`.
-/
namespace CircuitTrace

inductive Cell where
  | const (value : Nat)
  | wire (index : Nat)
  deriving DecidableEq

def Cell.value (w : Witness) : Cell → Nat
  | .const value => value
  | .wire index => w.value index

/-- A register has to hold the value of a wire on a row. -/
structure WireBoundary where
  row : Nat
  register : Nat
  wire : Nat
  deriving DecidableEq

def WireBoundary.constraint (w : Witness) (b : WireBoundary) : BoundaryConstraint :=
  ⟨b.row, b.register, w.value b.wire⟩

structure Layout where
  strategy : Strategy
  registerCount : Nat
  transitions : List Poly
  /-- Cells with a value that is the same for all witnesses. -/
  fixedBoundary : List BoundaryConstraint
  /-- Cells of public inputs. -/
  wireBoundary : List WireBoundary
  /-- What the rows of a trace hold. -/
  cells : List (List Cell)
  deriving DecidableEq

namespace Layout

def rowCount (l : Layout) : Nat := l.cells.length

def trace (l : Layout) (w : Witness) : Trace := l.cells.map fun row => row.map (Cell.value w)

def boundary (l : Layout) (w : Witness) : List BoundaryConstraint :=
  l.fixedBoundary ++ l.wireBoundary.map (WireBoundary.constraint w)

/-- What a wire stands for when register `i` holds wire `i`. -/
def wirePoly (r : Registers) (wire : Nat) : Poly :=
  if wire = oneWire then .one else r.currentPoly wire

/-- One register per wire. Each constraint of the circuit binds the current row, and a copy
constraint for each register ties the next row to it. -/
def singleRow (k : Circuit) : Layout :=
  let r : Registers := ⟨k.wireCount⟩
  let row := (List.range k.wireCount).map Cell.wire
  { strategy := .singleRow
    registerCount := r.count
    transitions :=
      k.constraints.map (Constraint.substitute k.prime (wirePoly r)) ++
        (List.range r.count).map fun i => Poly.sub k.prime (r.nextPoly i) (r.currentPoly i)
    fixedBoundary := [⟨0, oneWire, 1⟩]
    wireBoundary := k.publicWires.toList.map fun wire => ⟨1, wire, wire⟩
    cells := [row, row] }

end Layout

end CircuitTrace
