import CircuitTrace.Circuit

namespace CircuitTrace

/-- The values of the wires, in order. They need not be reduced. -/
structure Witness where
  values : List Nat
  deriving DecidableEq

inductive WitnessError where
  | length (expected found : Nat)
  | constantWire (found : Nat)
  | violated (constraint : Nat)
  deriving DecidableEq

def WitnessError.message : WitnessError → String
  | .length expected found => s!"Expected a witness of {expected} values, got {found}."
  | .constantWire found => s!"Wire 0 holds {found}, expected 1."
  | .violated constraint => s!"Witness does not satisfy constraint {constraint}."

namespace Witness

/-- Values are reduced first. -/
def ofValues (p : Nat) (values : List Nat) : Witness := ⟨values.map (Residue.reduce p)⟩

def size (w : Witness) : Nat := w.values.length

/-- The value of a wire. Wires that the witness does not have are zero. -/
def value (w : Witness) (wire : Nat) : Nat := w.values.getD wire 0

/-- What each constraint of a circuit leaves at these values, zero where it holds. -/
def residuals (w : Witness) (k : Circuit) : List Nat :=
  k.constraints.map (Constraint.residual k.prime w.value)

/-- Checks the number of values, then the constant wire, then the constraints in order. -/
def check (w : Witness) (k : Circuit) : Except WitnessError Unit :=
  if w.size ≠ k.wireCount then .error (.length k.wireCount w.size)
  else if w.value oneWire ≠ 1 then .error (.constantWire (w.value oneWire))
  else match (w.residuals k).findIdx? (· != 0) with
    | some constraint => .error (.violated constraint)
    | none => .ok ()

end Witness

end CircuitTrace
