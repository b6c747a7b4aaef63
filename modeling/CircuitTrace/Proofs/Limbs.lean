import Mathlib
import CircuitTrace.Limbs

/-!
Limbs are the digits of a number to the base of their width. Main statement: splitting a number and
joining limbs are inverse to each other between all numbers and the sequences whose limbs are in
range and whose last limb is not zero.

On machine words limbs come off one after the other, each as the lowest word of what is left, under
a mask. This ends after as many passes as the number has limbs, with these limbs.
-/
namespace CircuitTrace

namespace LimbWidth

theorem ofNat?_bits (w : LimbWidth) : ofNat? w.bits = some w :=
  dif_pos ⟨w.pos, w.le_word⟩

theorem base_eq (w : LimbWidth) : w.base = 2 ^ w.bits := Nat.one_shiftLeft w.bits

/-- The bits of a word that one limb takes. Words are shifted by less than 64 bits, so a limb that
is as wide as a word has a mask of its own. -/
def mask (w : LimbWidth) : UInt64 :=
  if w.bits = 64 then ~~~0 else (1 <<< UInt64.ofNat w.bits) - 1

theorem toNat_mask (w : LimbWidth) : w.mask.toNat = 2 ^ w.bits - 1 := by
  have hword := w.le_word
  rw [mask]
  split
  · rename_i hbits
    rw [hbits]
    rfl
  · rename_i hbits
    have hlt : w.bits < 64 := by omega
    have hpow : 2 ^ w.bits < 2 ^ 64 := Nat.pow_lt_pow_right (by decide) hlt
    have hamount : (UInt64.ofNat w.bits).toNat % 64 = w.bits := by
      rw [UInt64.toNat_ofNat', Nat.mod_mod_of_dvd _ (by norm_num), Nat.mod_eq_of_lt hlt]
    have hshift : (1 <<< UInt64.ofNat w.bits : UInt64).toNat = 2 ^ w.bits := by
      rw [UInt64.toNat_shiftLeft, hamount, UInt64.toNat_one, Nat.one_shiftLeft,
        Nat.mod_eq_of_lt hpow]
    have hone : (1 : UInt64) ≤ 1 <<< UInt64.ofNat w.bits := by
      rw [UInt64.le_iff_toNat_le, hshift]
      exact Nat.one_le_two_pow
    rw [UInt64.toNat_sub_of_le _ _ hone, hshift, UInt64.toNat_one]

/-- Under the mask the lowest word of a number is its last digit, although the width need not divide
that of the word. -/
theorem toNat_and_mask (w : LimbWidth) (v : Nat) :
    (UInt64.ofNat v &&& w.mask).toNat = v % w.base := by
  have hdvd : 2 ^ w.bits ∣ 2 ^ 64 := Nat.pow_dvd_pow 2 w.le_word
  rw [UInt64.toNat_and, toNat_mask, Nat.and_two_pow_sub_one_eq_mod, base_eq, UInt64.toNat_ofNat',
    Nat.mod_mod_of_dvd v hdvd]

end LimbWidth

namespace Limbs

variable {w : LimbWidth}

theorem ofNat_eq_digits (w : LimbWidth) (v : Nat) : ofNat w v = Nat.digits w.base v := by
  fun_induction ofNat w v with
  | case1 => simp
  | case2 v hv ih =>
    rw [Nat.digits_def' w.one_lt_base (Nat.pos_of_ne_zero hv), ih]

theorem toNat_eq_ofDigits (w : LimbWidth) (limbs : List Nat) :
    toNat w limbs = Nat.ofDigits w.base limbs := by
  induction limbs with
  | nil => rfl
  | cons limb limbs ih => rw [toNat, ih, Nat.ofDigits_cons]

theorem toNat_ofNat (w : LimbWidth) (v : Nat) : toNat w (ofNat w v) = v := by
  rw [toNat_eq_ofDigits, ofNat_eq_digits, Nat.ofDigits_digits]

theorem ofNat_injective (w : LimbWidth) : Function.Injective (ofNat w) :=
  Function.LeftInverse.injective (toNat_ofNat w)

theorem ofNat_eq_nil_iff {v : Nat} : ofNat w v = [] ↔ v = 0 := by
  rw [ofNat_eq_digits, Nat.digits_eq_nil_iff_eq_zero]

/-- The last limb stands in front when limbs are joined. -/
theorem toNat_eq_foldl (w : LimbWidth) (limbs : List Nat) : toNat w limbs =
    limbs.reverse.foldl (fun sum limb => (sum <<< w.bits) + limb) 0 := by
  rw [List.foldl_reverse]
  induction limbs with
  | nil => rfl
  | cons limb limbs ih =>
    rw [List.foldr_cons, ← ih, toNat, Nat.shiftLeft_eq, ← w.base_eq, Nat.mul_comm, Nat.add_comm]

/-- The limbs are in range and the last one is not zero. -/
structure Canonical (w : LimbWidth) (limbs : List Nat) : Prop where
  lt_two_pow : ∀ limb ∈ limbs, limb < 2 ^ w.bits
  getLast?_ne : limbs.getLast? ≠ some 0

theorem canonical_ofNat (w : LimbWidth) (v : Nat) : Canonical w (ofNat w v) := by
  rw [ofNat_eq_digits]
  constructor
  · intro limb hlimb
    rw [← w.base_eq]
    exact Nat.digits_lt_base w.one_lt_base hlimb
  · intro hlast
    have hne : v ≠ 0 := by
      rintro rfl
      simp at hlast
    have hdigits : Nat.digits w.base v ≠ [] := Nat.digits_ne_nil_iff_ne_zero.2 hne
    rw [List.getLast?_eq_getLast_of_ne_nil hdigits] at hlast
    exact Nat.getLast_digit_ne_zero w.base hne (Option.some.inj hlast)

theorem ofNat_toNat {limbs : List Nat} (h : Canonical w limbs) :
    ofNat w (toNat w limbs) = limbs := by
  rw [toNat_eq_ofDigits, ofNat_eq_digits]
  apply Nat.digits_ofDigits w.base w.one_lt_base
  · intro limb hlimb
    rw [w.base_eq]
    exact h.lt_two_pow limb hlimb
  · intro hne hlast
    apply h.getLast?_ne
    rw [List.getLast?_eq_getLast_of_ne_nil hne, hlast]

theorem ofNat_toNat_iff {limbs : List Nat} :
    ofNat w (toNat w limbs) = limbs ↔ Canonical w limbs := by
  constructor
  · intro h
    rw [← h]
    exact canonical_ofNat w _
  · exact ofNat_toNat

/-- The limbs that were split off a number, and what is left of it. -/
structure Splitting where
  limbs : List UInt64
  rest : Nat

/-- One pass takes the lowest word under the mask. -/
def Splitting.next (w : LimbWidth) (s : Splitting) : Splitting :=
  if s.rest = 0 then s
  else ⟨s.limbs ++ [UInt64.ofNat s.rest &&& w.mask], s.rest >>> w.bits⟩

/-- A pass moves the first limb of what is left, if there is one. -/
theorem Splitting.next_spec {limbs : List Nat} {n : Nat} {s : Splitting}
    (htaken : s.limbs.map UInt64.toNat = limbs.take n) (hleft : ofNat w s.rest = limbs.drop n) :
    (s.next w).limbs.map UInt64.toNat = limbs.take (n + 1) ∧
      ofNat w (s.next w).rest = limbs.drop (n + 1) := by
  rw [next]
  split
  · rename_i hzero
    rw [hzero, ofNat_eq_nil_iff.2 rfl, eq_comm, List.drop_eq_nil_iff] at hleft
    rw [hzero, ofNat_eq_nil_iff.2 rfl, htaken, List.take_of_length_le hleft,
      List.take_of_length_le (by omega), List.drop_of_length_le (by omega)]
    exact ⟨rfl, rfl⟩
  · rename_i hrest
    rw [ofNat, if_neg hrest] at hleft
    have hn : n < limbs.length := by
      by_contra hge
      rw [List.drop_of_length_le (by omega)] at hleft
      cases hleft
    rw [List.drop_eq_getElem_cons hn] at hleft
    obtain ⟨hlimb, hbehind⟩ := List.cons.inj hleft
    constructor
    · rw [List.map_append, htaken, List.map_singleton, w.toNat_and_mask, hlimb,
        List.take_append_getElem hn]
    · rw [Nat.shiftRight_eq_div_pow, ← w.base_eq, hbehind]

/-- After some passes as many limbs are taken, and the others are left. -/
theorem Splitting.iterate_next (w : LimbWidth) (v n : Nat) :
    ((next w)^[n] ⟨[], v⟩).limbs.map UInt64.toNat = (ofNat w v).take n ∧
      ofNat w ((next w)^[n] ⟨[], v⟩).rest = (ofNat w v).drop n := by
  induction n with
  | zero => exact ⟨rfl, rfl⟩
  | succ n ih =>
    rw [Function.iterate_succ_apply']
    exact next_spec ih.1 ih.2

theorem Splitting.rest_iterate_next_eq_zero_iff (w : LimbWidth) (v n : Nat) :
    ((next w)^[n] ⟨[], v⟩).rest = 0 ↔ (ofNat w v).length ≤ n := by
  rw [← ofNat_eq_nil_iff (w := w), (iterate_next w v n).2, List.drop_eq_nil_iff]

/-- Splitting words comes to an end with the limbs of the number. These are canonical and join to
the number, and every canonical sequence is what its own number is split into. -/
theorem split_and_join (w : LimbWidth) :
    (∀ v n : Nat, ((Splitting.next w)^[n] ⟨[], v⟩).limbs.map UInt64.toNat = (ofNat w v).take n ∧
      (((Splitting.next w)^[n] ⟨[], v⟩).rest = 0 ↔ (ofNat w v).length ≤ n)) ∧
    (∀ v : Nat, Canonical w (ofNat w v) ∧ (ofNat w v = [] ↔ v = 0) ∧ toNat w (ofNat w v) = v) ∧
    ∀ limbs : List Nat,
      toNat w limbs = limbs.reverse.foldl (fun sum limb => (sum <<< w.bits) + limb) 0 ∧
      (ofNat w (toNat w limbs) = limbs ↔ Canonical w limbs) := by
  refine ⟨fun v n => ⟨?_, ?_⟩, fun v => ⟨?_, ?_, ?_⟩, fun limbs => ⟨?_, ?_⟩⟩
  · exact (Splitting.iterate_next w v n).1
  · exact Splitting.rest_iterate_next_eq_zero_iff w v n
  · exact canonical_ofNat w v
  · exact ofNat_eq_nil_iff
  · exact toNat_ofNat w v
  · exact toNat_eq_foldl w limbs
  · exact ofNat_toNat_iff

end Limbs

end CircuitTrace
