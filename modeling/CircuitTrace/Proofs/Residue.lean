import Mathlib
import CircuitTrace.Residue.Power

/-!
The operations on residues are those of the ring `ZMod p`, and give numbers below `p`. Only
subtraction and negation ask for arguments in range.
-/
namespace CircuitTrace.Residue

variable {p a b : Nat}

@[simp] theorem cast_reduce (p a : Nat) : ((reduce p a : Nat) : ZMod p) = a :=
  ZMod.natCast_mod a p

@[simp] theorem cast_add (p a b : Nat) : ((add p a b : Nat) : ZMod p) = a + b := by
  rw [add, ZMod.natCast_mod, Nat.cast_add]

@[simp] theorem cast_mul (p a b : Nat) : ((mul p a b : Nat) : ZMod p) = a * b := by
  rw [mul, ZMod.natCast_mod, Nat.cast_mul]

@[simp] theorem cast_pow (p a e : Nat) : ((pow p a e : Nat) : ZMod p) = a ^ e := by
  rw [pow_eq, ZMod.natCast_mod, Nat.cast_pow]

theorem cast_sub (h : b ≤ a + p) : ((sub p a b : Nat) : ZMod p) = a - b := by
  rw [sub, ZMod.natCast_mod, Nat.cast_sub h, Nat.cast_add, ZMod.natCast_self, add_zero]

theorem cast_neg (h : a ≤ p) : ((neg p a : Nat) : ZMod p) = -a := by
  rw [neg]
  split
  · rename_i h0
    simp [h0]
  · rw [Nat.cast_sub h, ZMod.natCast_self, zero_sub]

theorem add_lt (hp : 0 < p) (a b : Nat) : add p a b < p := Nat.mod_lt _ hp

theorem mul_lt (hp : 0 < p) (a b : Nat) : mul p a b < p := Nat.mod_lt _ hp

theorem sub_lt (hp : 0 < p) (a b : Nat) : sub p a b < p := Nat.mod_lt _ hp

theorem neg_lt (ha : 0 < a) (h : a < p) : neg p a < p := by
  rw [neg, if_neg (by omega)]
  omega

theorem neg_pos (ha : 0 < a) (h : a < p) : 0 < neg p a := by
  rw [neg, if_neg (by omega)]
  omega

/-- Below the modulus the only number that is a zero residue is zero. -/
theorem cast_eq_zero_iff (h : a < p) : (a : ZMod p) = 0 ↔ a = 0 := by
  constructor
  · intro ha
    rw [ZMod.natCast_eq_zero_iff] at ha
    exact Nat.eq_zero_of_dvd_of_lt ha h
  · rintro rfl
    exact Nat.cast_zero

theorem reduce_eq_reduce_iff : reduce p a = reduce p b ↔ (a : ZMod p) = b :=
  (ZMod.natCast_eq_natCast_iff a b p).symm

/-- Numbers below the modulus are told apart by their residues. -/
theorem eq_of_cast_eq (ha : a < p) (hb : b < p) (h : (a : ZMod p) = b) : a = b :=
  ((ZMod.natCast_eq_natCast_iff a b p).1 h).eq_of_lt_of_lt ha hb

theorem div_eq_ok_iff {r : Nat} :
    div p a b = .ok r ↔ b ≠ 0 ∧ r = mul p a (pow p b (p - 2)) := by
  by_cases hb : b = 0
  · simp [div, inverse, hb, Except.map]
  · simp [div, inverse, hb, Except.map, eq_comm]

theorem div_lt (hp : 0 < p) {r : Nat} (h : div p a b = .ok r) : r < p := by
  obtain ⟨-, rfl⟩ := div_eq_ok_iff.1 h
  exact mul_lt hp _ _

/-- Modulo a prime the power that stands for the inverse is the inverse. -/
theorem pow_sub_two_mul [hp : Fact p.Prime] {x : ZMod p} (hx : x ≠ 0) : x ^ (p - 2) * x = 1 := by
  have hexp : p - 2 + 1 = p - 1 := by
    have := hp.out.two_le
    omega
  rw [← pow_succ, hexp, ZMod.pow_card_sub_one_eq_one hx]

theorem cast_div_of_ne_zero [Fact p.Prime] {r : Nat} (hb : (b : ZMod p) ≠ 0)
    (h : div p a b = .ok r) : (b : ZMod p) * r = a := by
  obtain ⟨-, rfl⟩ := div_eq_ok_iff.1 h
  rw [cast_mul, cast_pow, mul_left_comm, mul_comm (b : ZMod p), pow_sub_two_mul hb, mul_one]

theorem cast_div [hp : Fact p.Prime] {r : Nat} (hb : b < p) (h : div p a b = .ok r) :
    (b : ZMod p) * r = a := by
  obtain ⟨hne, -⟩ := div_eq_ok_iff.1 h
  exact cast_div_of_ne_zero (by rwa [Ne, cast_eq_zero_iff hb]) h

theorem exists_div [hp : Fact p.Prime] (a : Nat) (hb : (b : ZMod p) ≠ 0) :
    ∃ r < p, div p a b = .ok r ∧ (r : ZMod p) = a / b := by
  have hne : b ≠ 0 := by
    rintro rfl
    exact hb Nat.cast_zero
  obtain ⟨r, hr⟩ : ∃ r, div p a b = .ok r := ⟨_, div_eq_ok_iff.2 ⟨hne, rfl⟩⟩
  exact ⟨r, div_lt hp.out.pos hr, hr, eq_div_of_mul_eq hb <|
    (mul_comm _ _).trans (cast_div_of_ne_zero hb hr)⟩

end CircuitTrace.Residue
