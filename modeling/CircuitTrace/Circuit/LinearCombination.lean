import CircuitTrace.Poly
import CircuitTrace.SortedSet

/-!
Linear combinations of wires. Wires are numbered from zero; a wire without an entry has the
coefficient zero, and an entry may hold zero too.
-/
namespace CircuitTrace

/-- The wire that holds the constant one. -/
def oneWire : Nat := 0

/-- Coefficients by wire. -/
abbrev LinearCombination := SortedMap Nat Nat

namespace LinearCombination

/-- The value for given values of all wires. -/
def eval (p : Nat) (values : Nat → Nat) (l : LinearCombination) : Nat :=
  l.entries.foldl (fun sum e => Residue.add p sum (Residue.mul p e.2 (values e.1))) 0

/-- The sum of the polynomials that the wires stand for, each times its coefficient. -/
def substitute (p : Nat) (f : Nat → Poly) (l : LinearCombination) : Poly :=
  l.entries.foldl (fun sum e => Poly.add p sum ((f e.1).scale p e.2)) .zero

/-- Substitution by polynomials that may be missing. Wires are visited in ascending order. -/
def trySubstitute {ε : Type} (p : Nat) (f : Nat → Except ε Poly) (l : LinearCombination) :
    Except ε Poly :=
  l.entries.foldlM (fun sum e => (f e.1).map fun a => Poly.add p sum (a.scale p e.2)) .zero

/-- Wire `i` becomes variable `i`. -/
def toPoly (p : Nat) (l : LinearCombination) : Poly := l.substitute p Poly.var

end LinearCombination

end CircuitTrace
