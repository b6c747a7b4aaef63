import CircuitTrace.Limbs
import CircuitTrace.Residue
import CircuitTrace.SquareRoot
import CircuitTrace.Strategy

namespace CircuitTrace

structure PackingConfig where
  /-- The number of groups of constraints to aim at. -/
  targetGroups : Option Nat := none
  /-- How many wires a single row may have before `auto` packs. -/
  singleRowMaxWidth : Nat := 64
  /-- How many registers any layout may have. -/
  maxRegisterCount : Option Nat := none
  deriving DecidableEq

/-- The number of groups for a number of constraints: by default its square root, rounded up,
and never fewer than the two that a trace needs as rows. -/
def PackingConfig.groupsFor (c : PackingConfig) (constraintCount : Nat) : Nat :=
  max 2 (c.targetGroups.getD (SquareRoot.ceilOf constraintCount))

/-- What a compilation is told besides the circuit. -/
structure Config where
  modulus : Nat
  limbWidth : LimbWidth
  strategy : Strategy := .auto
  packing : PackingConfig := {}
  isModulus : Residue.IsModulus modulus
  deriving DecidableEq

namespace Config

def default : Config where
  modulus := Residue.goldilocks
  limbWidth := { bits := 32 }
  isModulus := by decide

/-- A configuration for a modulus and a limb width, if both are in range. -/
def ofField? (modulus limbBits : Nat) : Option Config :=
  if h : Residue.IsModulus modulus then
    (LimbWidth.ofNat? limbBits).map fun limbWidth =>
      { modulus := modulus, limbWidth := limbWidth, isModulus := h }
  else none

/-- The strategy for a number of wires, which is never `auto`. A single row is chosen while it is
neither wider than a single row may be nor than the register limit. -/
def resolve (c : Config) (wireCount : Nat) : Strategy :=
  match c.strategy with
  | .auto =>
    if wireCount ≤ c.packing.singleRowMaxWidth ∧
        c.packing.maxRegisterCount.all (wireCount ≤ ·) then .singleRow
    else .packed
  | strategy => strategy

end Config

end CircuitTrace
