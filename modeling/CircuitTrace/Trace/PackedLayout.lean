import CircuitTrace.Packing
import CircuitTrace.Trace.Layout

/-!
Layouts for packings. The registers are a selector for each row, a column for each global wire,
and as many payload columns as the widest row has wires. Row `i` has selector `i` set and no
other; a constraint of the circuit is multiplied by the selector of its home row, so that it binds
on that row and the next only.
-/
namespace CircuitTrace

inductive CompileError where
  | primeMismatch (circuit configured : Nat)
  | witnessLength (expected found : Nat)
  | packingInfeasible (required limit : Nat)
  | unresolvedWire (constraint wire : Nat)
  deriving DecidableEq

def CompileError.message : CompileError → String
  | .primeMismatch circuit configured =>
    s!"Circuit prime {circuit} does not match the configured modulus {configured}."
  | .witnessLength expected found => s!"Expected a witness of {expected} values, got {found}."
  | .packingInfeasible required limit =>
    s!"Layout needs {required} registers, the limit is {limit}."
  | .unresolvedWire constraint wire =>
    s!"Wire {wire} of constraint {constraint} is not placed in its row pair."

/-- The blocks of columns of a packed trace. -/
structure Columns where
  selectors : Nat
  globals : Nat
  width : Nat
  deriving DecidableEq

namespace Columns

def ofPacking (k : Packing) : Columns := ⟨k.rowCount, k.globals.length, k.width⟩

def count (c : Columns) : Nat := c.selectors + c.globals + c.width

def registers (c : Columns) : Registers := ⟨c.count⟩

/-- The register of the selector of a row. -/
def selector (_ : Columns) (row : Nat) : Nat := row

/-- The register of the global at place `i`. -/
def global (c : Columns) (i : Nat) : Nat := c.selectors + i

/-- The register of the local wire at place `j` of a row. -/
def payload (c : Columns) (j : Nat) : Nat := c.selectors + c.globals + j

end Columns

namespace Packing

variable (k : Packing) (p : Nat)

def columns : Columns := .ofPacking k

def registers : Registers := k.columns.registers

def selector (row : Nat) : Poly := k.registers.currentPoly (k.columns.selector row)

def nextSelector (row : Nat) : Poly := k.registers.nextPoly (k.columns.selector row)

def payload (j : Nat) : Poly := k.registers.currentPoly (k.columns.payload j)

def nextPayload (j : Nat) : Poly := k.registers.nextPoly (k.columns.payload j)

/-- The row of the pair of rows that a constraint binds. The last row is never the first of a
pair. -/
def pairOf (constraint : Nat) : Nat := min (k.home constraint) (k.rowCount - 2)

/-- What a wire stands for in a constraint on a row and the next. -/
def wirePoly (constraint row wire : Nat) : Except CompileError Poly :=
  if wire = oneWire then .ok .one
  else match k.globalIndex? wire with
    | some i => .ok (k.registers.currentPoly (k.columns.global i))
    | none =>
      match k.payloadIndex? row wire, k.payloadIndex? (row + 1) wire with
      | some j, _ => .ok (k.payload j)
      | none, some j => .ok (k.nextPayload j)
      | none, none => .error (.unresolvedWire constraint wire)

/-- A constraint of the circuit on its pair of rows. -/
def circuitConstraint (c : Constraint × Nat) : Except CompileError Poly :=
  (c.1.trySubstitute p (k.wirePoly c.2 (k.pairOf c.2))).map
    (Poly.mul p (k.selector (k.pairOf c.2)))

/-- The selector of a row is zero or one, and zero on all other rows. Both hold on the row and on
the next. -/
def selectorConstraints (row : Nat) : List Poly :=
  let index := Poly.const (Residue.reduce p row)
  let here := k.selector row
  let next := k.nextSelector row
  [Poly.sub p (Poly.mul p here here) here,
    Poly.mul p (Poly.sub p Registers.cyclePoly index) here,
    Poly.mul p (Poly.sub p (Poly.add p Registers.cyclePoly .one) index) next,
    Poly.sub p (Poly.mul p next next) next]

/-- Globals do not change from row to row. -/
def globalConstraint (i : Nat) : Poly :=
  Poly.sub p (k.registers.nextPoly (k.columns.global i))
    (k.registers.currentPoly (k.columns.global i))

/-- A wire that lies on a row and on the next has equal cells there. -/
def linkConstraints (row : Nat) : List Poly :=
  (k.rows.getD row []).zipIdx.filterMap fun (wire, a) =>
    (k.payloadIndex? (row + 1) wire).map fun b =>
      Poly.mul p (k.selector row) (Poly.sub p (k.payload a) (k.nextPayload b))

/-- Payload cells without a wire are zero. On the last row they are bound as the next row of a
pair. -/
def paddingConstraints (row : Nat) : List Poly :=
  let used := (k.rows.getD row []).length
  (List.range' used (k.width - used)).map fun j =>
    if row + 1 < k.rowCount then Poly.mul p (k.selector row) (k.payload j)
    else Poly.mul p (k.nextSelector row) (k.nextPayload j)

/-- The constraints that do not come from the circuit. -/
def auxiliaryConstraints : List Poly :=
  (List.range k.rowCount).flatMap (k.selectorConstraints p) ++
    (List.range k.globals.length).map (k.globalConstraint p) ++
    (List.range (k.rowCount - 1)).flatMap (k.linkConstraints p) ++
    (List.range k.rowCount).flatMap (k.paddingConstraints p)

/-- A cell for a wire: the first row of its column if it is global, else its first local cell. -/
def wireCell (wire : Nat) : Option WireBoundary :=
  match k.globalIndex? wire with
  | some i => some ⟨0, k.columns.global i, wire⟩
  | none => do
    let row ← (k.rowsOf wire).head?
    let j ← k.payloadIndex? row wire
    return ⟨row, k.columns.payload j, wire⟩

/-- What the cells of a row hold: selectors, globals, local wires and zeros. -/
def rowCells (row : Nat) (wires : List Nat) : List Cell :=
  (List.range k.rowCount).map (fun i => .const (if i = row then 1 else 0)) ++
    k.globals.map .wire ++ wires.map .wire ++
    List.replicate (k.width - wires.length) (.const 0)

def cells : List (List Cell) := k.rows.zipIdx.map fun (wires, row) => k.rowCells row wires

end Packing

namespace Layout

/-- The layout of a circuit for a packing of it. -/
def ofPacking (k : Circuit) (packing : Packing) : Except CompileError Layout := do
  let constraints ← k.constraints.zipIdx.mapM (packing.circuitConstraint k.prime)
  return {
    strategy := .packed
    registerCount := packing.columns.count
    transitions := constraints ++ packing.auxiliaryConstraints k.prime
    fixedBoundary :=
      (List.range packing.rowCount).map fun row => ⟨row, packing.columns.selector row, 1⟩
    wireBoundary := k.publicWires.toList.filterMap packing.wireCell
    cells := packing.cells }

/-- Packs a circuit and lays the packing out. -/
def packed (k : Circuit) (config : PackingConfig) : Logged CompileError (Packing × Layout) := do
  let packing ← Packing.ofCircuit k config
  let layout ← ofPacking k packing
  Logged.emit (.packedLayout packing.rowCount packing.globals.length packing.width
    k.constraints.length (layout.transitions.length - k.constraints.length))
  return (packing, layout)

end Layout

end CircuitTrace
