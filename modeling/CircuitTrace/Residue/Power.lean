import Mathlib
import CircuitTrace.Residue

/-!
Powers by squaring are powers. Main statement: `Residue.pow p a e` is the remainder of `a ^ e`,
for every modulus and also for arguments that are not reduced.
-/
namespace CircuitTrace.Residue

theorem pow_eq (p a e : Nat) : pow p a e = a ^ e % p := by
  fun_induction pow p a e with
  | case1 => simp
  | case2 a e he rest heven ih =>
    have h : e = 2 * (e / 2) := by omega
    rw [show rest = _ from ih, ← Nat.pow_mod]
    conv => rhs; rw [h, Nat.pow_mul, Nat.pow_two]
  | case3 a e he rest hodd ih =>
    have h : e = 2 * (e / 2) + 1 := by omega
    rw [show rest = _ from ih, ← Nat.pow_mod, Nat.mul_mod, Nat.mod_mod, ← Nat.mul_mod]
    conv => rhs; rw [h, Nat.pow_succ, Nat.pow_mul, Nat.pow_two, Nat.mul_comm]

end CircuitTrace.Residue
