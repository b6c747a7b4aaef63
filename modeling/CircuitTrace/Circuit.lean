import CircuitTrace.Circuit.Constraint
import CircuitTrace.Blake2s

/-!
Circuits: a prime, the roles of the wires and the constraints on their values. Behind the
constant wire lie the outputs, the public inputs, the private inputs and the internal wires, in
this order.
-/
namespace CircuitTrace

/-- Consecutive wires, from `start` up to but not including `stop`. -/
structure WireRange where
  start : Nat
  stop : Nat
  deriving DecidableEq

def WireRange.toList (r : WireRange) : List Nat := List.range' r.start (r.stop - r.start)

structure Circuit where
  /-- Bytes that the prime and every coefficient take when stored. -/
  fieldSize : Nat
  prime : Nat
  wireCount : Nat
  outputCount : Nat
  publicCount : Nat
  privateCount : Nat
  labelCount : Int
  constraints : List Constraint
  deriving DecidableEq

namespace Circuit

/-- The number of input values, public and private. The counts are words of 32 bits, and so is
their sum in every circuit that `parse` returns: all inputs are wires there. In others the sum here
may be greater than such a word. -/
def inputCount (k : Circuit) : Nat := k.publicCount + k.privateCount

def outputWires (k : Circuit) : WireRange := ⟨1, 1 + k.outputCount⟩

def publicWires (k : Circuit) : WireRange :=
  ⟨k.outputWires.stop, k.outputWires.stop + k.publicCount⟩

def privateWires (k : Circuit) : WireRange :=
  ⟨k.publicWires.stop, k.publicWires.stop + k.privateCount⟩

/-- Public then private inputs, the order in which input values are given. -/
def inputWires (k : Circuit) : WireRange := ⟨k.publicWires.start, k.privateWires.stop⟩

/-- The bytes that stand for a linear combination in a fingerprint. -/
def combinationBytes (l : LinearCombination) : Bytes :=
  Bytes.ofNat 8 l.size ++
    l.entries.flatMap fun e => Bytes.ofNat 8 e.1 ++ Bytes.withLength (Bytes.minimal e.2)

/-- The bytes that stand for a circuit in its fingerprint: the prime, the wire counts and the
constraints, each of them in a form that shows where it ends. -/
def fingerprintBytes (k : Circuit) : Bytes :=
  Bytes.withLength (Bytes.minimal k.prime) ++
    [k.wireCount, k.outputCount, k.publicCount, k.privateCount].flatMap (Bytes.ofNat 8) ++
    Bytes.ofNat 8 k.constraints.length ++
    k.constraints.flatMap fun c => c.parts.flatMap combinationBytes

def fingerprint (k : Circuit) : Digest := Blake2s.hash k.fingerprintBytes

end Circuit

end CircuitTrace
