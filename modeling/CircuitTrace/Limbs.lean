/-!
Numbers as little-endian sequences of limbs of a fixed width. Zero is the empty sequence, so a
number has one sequence whose limbs are in range and whose last limb is not zero.
-/
namespace CircuitTrace

structure LimbWidth where
  bits : Nat
  pos : 1 ≤ bits := by omega
  le_word : bits ≤ 64 := by omega
  deriving DecidableEq

namespace LimbWidth

def ofNat? (bits : Nat) : Option LimbWidth :=
  if h : 1 ≤ bits ∧ bits ≤ 64 then some ⟨bits, h.1, h.2⟩ else none

/-- The first number that does not fit in one limb. -/
def base (w : LimbWidth) : Nat := 1 <<< w.bits

theorem one_lt_base (w : LimbWidth) : 1 < w.base := by
  rw [base, Nat.one_shiftLeft]
  exact Nat.one_lt_two_pow (Nat.ne_of_gt w.pos)

end LimbWidth

namespace Limbs

def ofNat (w : LimbWidth) (v : Nat) : List Nat :=
  if v = 0 then [] else v % w.base :: ofNat w (v / w.base)
  termination_by v
  decreasing_by exact Nat.div_lt_self (by omega) w.one_lt_base

/-- The number that limbs stand for. Limbs wider than the width carry over into the next. -/
def toNat (w : LimbWidth) : List Nat → Nat
  | [] => 0
  | limb :: rest => limb + w.base * toNat w rest

end Limbs

end CircuitTrace
