import CircuitTrace.Trace.PackedLayout

namespace CircuitTrace

structure Arithmetization where
  modulus : Nat
  wireCount : Nat
  layout : Layout
  deriving DecidableEq

namespace Arithmetization

/-- The layout of a circuit for a strategy. -/
def layoutFor (k : Circuit) (packing : PackingConfig) : Strategy → Logged CompileError Layout
  | .singleRow => return Layout.singleRow k
  | _ => return (← Layout.packed k packing).2

/-- Checks the prime, lays the circuit out, and checks the number of registers. -/
def ofCircuit (k : Circuit) (config : Config) : Logged CompileError Arithmetization := do
  if k.prime ≠ config.modulus then
    Logged.ofExcept (.error (.primeMismatch k.prime config.modulus))
  let layout ← layoutFor k config.packing (config.resolve k.wireCount)
  match config.packing.maxRegisterCount with
  | some limit =>
    if limit < layout.registerCount then
      Logged.ofExcept (.error (.packingInfeasible layout.registerCount limit))
  | none => pure ()
  Logged.emit (.layoutBuilt layout.strategy layout.registerCount layout.rowCount
    layout.transitions.length)
  return ⟨k.prime, k.wireCount, layout⟩

/-- The program for a list of wire values. They need not satisfy the circuit. -/
def program (a : Arithmetization) (w : Witness) : Except CompileError Program :=
  if w.size ≠ a.wireCount then .error (.witnessLength a.wireCount w.size)
  else .ok {
    modulus := a.modulus
    registerCount := a.layout.registerCount
    transitions := a.layout.transitions
    boundary := a.layout.boundary w
    trace := a.layout.trace w }

end Arithmetization

end CircuitTrace
