import CircuitTrace.Circuit.LinearCombination

namespace CircuitTrace

structure Constraint where
  a : LinearCombination
  b : LinearCombination
  c : LinearCombination
  deriving DecidableEq

namespace Constraint

def parts (k : Constraint) : List LinearCombination := [k.a, k.b, k.c]

/-- Every wire that occurs, except the constant one. -/
def wires (k : Constraint) : SortedSet Nat :=
  .ofList ((k.parts.flatMap SortedMap.keys).filter (· != oneWire))

/-- `a * b - c` at given values of all wires. -/
def residual (p : Nat) (values : Nat → Nat) (k : Constraint) : Nat :=
  Residue.sub p (Residue.mul p (k.a.eval p values) (k.b.eval p values)) (k.c.eval p values)

/-- `a * b - c` with every wire replaced by a polynomial. -/
def substitute (p : Nat) (f : Nat → Poly) (k : Constraint) : Poly :=
  Poly.sub p (Poly.mul p (k.a.substitute p f) (k.b.substitute p f)) (k.c.substitute p f)

def trySubstitute {ε : Type} (p : Nat) (f : Nat → Except ε Poly) (k : Constraint) :
    Except ε Poly := do
  let a ← k.a.trySubstitute p f
  let b ← k.b.trySubstitute p f
  let c ← k.c.trySubstitute p f
  return Poly.sub p (Poly.mul p a b) c

/-- `a * b - c` with wire `i` as variable `i`. -/
def toPoly (p : Nat) (k : Constraint) : Poly := k.substitute p Poly.var

end Constraint

end CircuitTrace
