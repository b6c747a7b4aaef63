import CircuitTrace.Solver.Assignment

/-!
Gadgets fill wires that eliminating one unknown at a time cannot reach. The one gadget of this
library splits a wire into bits.
-/
namespace CircuitTrace

/-- Why a gadget fails. `brokenRange` is no answer that a caller could handle: a gadget asked for
the slots from `start` up to `stop`, there are no such slots, and the whole run ends there. -/
inductive GadgetError where
  | valueTooLarge (value bitCount : Nat)
  | wireOutOfRange (wire wireCount : Nat)
  | brokenRange (start stop : Nat)
  deriving DecidableEq

def GadgetError.message : GadgetError → String
  | .valueTooLarge value bitCount => s!"Value {value} does not fit in {bitCount} bits."
  | .wireOutOfRange wire wireCount =>
    s!"Wire {wire} is out of range for {wireCount} wires."
  | .brokenRange start stop => s!"slice index starts at {start} but ends at {stop}"

/-- A gadget acts on an assignment modulo `p`. It leaves an assignment behind and reports how
many wires it filled, where zero means that it did not apply, or why it failed. Nothing forces
the report to be true. -/
structure Gadget where
  name : String
  apply : (p : Nat) → {n : Nat} → Assignment n → Except GadgetError Nat × Assignment n

/-- Splits `source` into `count` bits on the wires from `start` on, least significant first. All
three are words of 64 bits. -/
structure BitDecomposition where
  source : UInt64
  start : UInt64
  count : UInt64
  deriving DecidableEq

namespace BitDecomposition

variable {n : Nat}

/-- The wire of the last bit, and of the first if there are none. The sum wraps around. -/
def last (g : BitDecomposition) : UInt64 := g.start + .ofNat (g.count.toNat - 1)

/-- The wire behind the last bit. The sum wraps around. -/
def stop (g : BitDecomposition) : UInt64 := g.start + g.count

/-- The wires that hold the bits. -/
def wires (g : BitDecomposition) : List Nat := List.range' g.start.toNat g.count.toNat

/-- Writes the bits of a value. -/
def fill (g : BitDecomposition) (value : Nat) (a : Assignment n) : Assignment n :=
  (List.range g.count.toNat).foldl
    (fun a i => a.assign (g.start.toNat + i) (value.testBit i).toNat) a

/-- Fires only when the source is known and no bit is: an assignment that knows some of the bits
is left to elimination. The source and the last bit must be wires of the circuit. A last bit that
wrapped around may be one although the bits are not; then their range is broken. -/
def apply (g : BitDecomposition) (a : Assignment n) : Except GadgetError Nat × Assignment n :=
  match [g.source, g.last].find? fun wire => n ≤ wire.toNat with
  | some wire => (.error (.wireOutOfRange wire.toNat n), a)
  | none =>
    match a.get? g.source.toNat with
    | none => (.ok 0, a)
    | some value =>
      if g.stop < g.start ∨ n < g.stop.toNat then
        (.error (.brokenRange g.start.toNat g.stop.toNat), a)
      else if g.wires.any fun wire => (a.get? wire).isSome then (.ok 0, a)
      else if 1 <<< g.count.toNat ≤ value then
        (.error (.valueTooLarge value g.count.toNat), a)
      else (.ok g.count.toNat, g.fill value a)

/-- The modulus plays no part: bits are the same in every field. -/
def toGadget (g : BitDecomposition) : Gadget where
  name := "bit_decomposition"
  apply _ _ a := g.apply a

end BitDecomposition

end CircuitTrace
