import Mathlib
import CircuitTrace.Bytes

namespace CircuitTrace.Bytes

@[simp] theorem length_ofNat (n v : Nat) : (ofNat n v).length = n := by
  induction n generalizing v with
  | zero => rfl
  | succ n ih => simp [ofNat, ih]

theorem toNat_ofNat (n v : Nat) : (ofNat n v).toNat = v % 256 ^ n := by
  induction n generalizing v with
  | zero => simp [ofNat, toNat, Nat.mod_one]
  | succ n ih =>
    have hbyte : (UInt8.ofNat v).toNat = v % 256 := by simp
    rw [ofNat, toNat, ih, hbyte, pow_succ', Nat.mod_mul]

theorem toNat_ofNat_of_lt {n v : Nat} (h : v < 256 ^ n) : (ofNat n v).toNat = v := by
  rw [toNat_ofNat, Nat.mod_eq_of_lt h]

theorem toNat_lt (b : Bytes) : b.toNat < 256 ^ b.length := by
  induction b with
  | nil => simp [toNat]
  | cons x b ih =>
    have hx : x.toNat < 256 := x.toNat_lt
    rw [toNat, List.length_cons, pow_succ]
    omega

theorem ofNat_toNat (b : Bytes) : ofNat b.length b.toNat = b := by
  induction b with
  | nil => rfl
  | cons x b ih =>
    have hx : x.toNat < 256 := x.toNat_lt
    have hlow : UInt8.ofNat (x.toNat + 256 * toNat b) = x := by
      apply UInt8.toNat.inj
      simp
    have hhigh : (x.toNat + 256 * toNat b) / 256 = toNat b := by omega
    rw [List.length_cons, toNat, ofNat, hlow, hhigh, ih]

/-- In front of other bytes a number of a given width can be told. -/
theorem ofNat_append_inj {n v v' : Nat} {r r' : Bytes} (hv : v < 256 ^ n) (hv' : v' < 256 ^ n)
    (h : ofNat n v ++ r = ofNat n v' ++ r') : v = v' ∧ r = r' := by
  obtain ⟨hnumber, hrest⟩ := List.append_inj h (by simp)
  refine ⟨?_, hrest⟩
  rw [← toNat_ofNat_of_lt hv, hnumber, toNat_ofNat_of_lt hv']

/-- A signed number has room in two's complement of `n` bytes. -/
def FitsInt (n : Nat) (i : Int) : Prop := -(256 ^ n : Nat) ≤ 2 * i ∧ 2 * i < (256 ^ n : Nat)

instance (n : Nat) (i : Int) : Decidable (FitsInt n i) := inferInstanceAs (Decidable (_ ∧ _))

theorem shift_eq (n : Nat) : 1 <<< (8 * n) = 256 ^ n := by
  rw [Nat.one_shiftLeft, pow_mul]
  norm_num

@[simp] theorem length_ofInt (n : Nat) (i : Int) : (ofInt n i).length = n := length_ofNat _ _

theorem fitsInt_toInt (b : Bytes) : FitsInt b.length b.toInt := by
  have hlt := b.toNat_lt
  rw [FitsInt, toInt, shift_eq]
  split <;> omega

theorem toInt_ofInt {n : Nat} {i : Int} (h : FitsInt n i) : (ofInt n i).toInt = i := by
  obtain ⟨hlow, hhigh⟩ := h
  have hpos : 0 < 256 ^ n := by positivity
  have hnat : (ofInt n i).toNat = (i % (256 ^ n : Nat)).toNat := by
    rw [ofInt, shift_eq]
    apply toNat_ofNat_of_lt
    have := Int.emod_lt_of_pos i (b := (256 ^ n : Nat)) (by omega)
    omega
  rw [toInt, length_ofInt, shift_eq, hnat]
  generalize 256 ^ n = m at *
  -- Below zero the remainder is the number plus one turn.
  by_cases hneg : i < 0
  · have hmod : i % (m : Int) = i + m := by
      rw [← Int.add_emod_right]
      exact Int.emod_eq_of_lt (by omega) (by omega)
    rw [hmod]
    split <;> omega
  · have hmod : i % (m : Int) = i := Int.emod_eq_of_lt (by omega) (by omega)
    rw [hmod]
    split <;> omega

theorem ofInt_toInt (b : Bytes) : ofInt b.length b.toInt = b := by
  have hlt := b.toNat_lt
  have hmod : (b.toInt % (256 ^ b.length : Nat)).toNat = b.toNat := by
    rw [toInt, shift_eq]
    generalize 256 ^ b.length = m at *
    split
    · rw [Int.emod_eq_of_lt (by omega) (by omega)]
      omega
    · rw [Int.sub_emod_right, Int.emod_eq_of_lt (by omega) (by omega)]
      omega
  rw [ofInt, shift_eq, hmod, ofNat_toNat]

/-- A number that is not negative is written as without a sign. -/
theorem ofInt_natCast {n v : Nat} (h : v < 256 ^ n) : ofInt n v = ofNat n v := by
  have hmod : ((v : Int) % (256 ^ n : Nat)).toNat = v := by
    rw [Int.emod_eq_of_lt (by omega) (by omega)]
    omega
  rw [ofInt, shift_eq, hmod]

end CircuitTrace.Bytes
