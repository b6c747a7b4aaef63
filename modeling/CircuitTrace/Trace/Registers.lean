import CircuitTrace.Poly

/-!
The variables of transition constraints. A constraint speaks of a row and the one behind it:
variable 0 is the index of the row, then come the registers of the row, then those of the next.
-/
namespace CircuitTrace

structure Registers where
  count : Nat
  deriving DecidableEq

namespace Registers

def varCount (r : Registers) : Nat := 2 * r.count + 1

def cycle : Nat := 0

def current (_ : Registers) (register : Nat) : Nat := 1 + register

def next (r : Registers) (register : Nat) : Nat := 1 + r.count + register

def cyclePoly : Poly := .var cycle

def currentPoly (r : Registers) (register : Nat) : Poly := .var (r.current register)

def nextPoly (r : Registers) (register : Nat) : Poly := .var (r.next register)

/-- The values of the variables at a row and the one behind it. -/
def assignment (p row : Nat) (current next : List Nat) : List Nat :=
  Residue.reduce p row :: current ++ next

end Registers

end CircuitTrace
