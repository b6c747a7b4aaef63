import CircuitTrace.Proofs.Inversion
import CircuitTrace.Proofs.Residue

namespace CircuitTrace.Residue

variable {p a b : Nat}

/-! Subtraction. In these forms of the operations a subtraction that goes below zero has no
result. -/

def sub? (p a b : Nat) : Option Nat := (Nat.psub (a + p) b).map (reduce p)

def neg? (p a : Nat) : Option Nat := if a = 0 then some 0 else Nat.psub p a

def inverse? (p a : Nat) : Except ArithmeticError (Option Nat) :=
  if a = 0 then .error .divisionByZero else .ok ((Nat.psub p 2).map (pow p a))

theorem sub?_eq (h : b ≤ a + p) : sub? p a b = some (sub p a b) := by
  rw [sub?, Nat.psub_eq_sub h]
  rfl

theorem neg?_eq (h : a ≤ p) : neg? p a = some (neg p a) := by
  rw [neg?, neg, Nat.psub_eq_sub h]
  split <;> rfl

theorem inverse?_eq (hp : IsModulus p) (a : Nat) : inverse? p a = (inverse p a).map some := by
  rw [inverse?, inverse, Nat.psub_eq_sub hp]
  split <;> rfl

/-- The reduced number that is congruent to an integer. -/
def Represents (p r : Nat) (i : Int) : Prop := IsReduced p r ∧ (r : Int) ≡ i [ZMOD p]

theorem represents_of_cast {r : Nat} {i : Int} (hr : r < p) (hcast : (r : ZMod p) = i) :
    Represents p r i := by
  refine ⟨hr, ?_⟩
  rw [← ZMod.intCast_eq_intCast_iff, Int.cast_natCast, hcast]

theorem represents_add (hp : 0 < p) (a b : Nat) : Represents p (add p a b) (a + b) := by
  apply represents_of_cast (add_lt hp a b)
  rw [cast_add]
  push_cast
  rfl

theorem represents_sub (hp : 0 < p) (h : b ≤ a + p) : Represents p (sub p a b) (a - b) := by
  apply represents_of_cast (sub_lt hp a b)
  rw [cast_sub h]
  push_cast
  rfl

theorem represents_mul (hp : 0 < p) (a b : Nat) : Represents p (mul p a b) (a * b) := by
  apply represents_of_cast (mul_lt hp a b)
  rw [cast_mul]
  push_cast
  rfl

theorem represents_neg (h : a < p) : Represents p (neg p a) (-a) := by
  refine represents_of_cast ?_ ?_
  · rcases Nat.eq_zero_or_pos a with rfl | ha
    · exact h
    · exact neg_lt ha h
  · rw [cast_neg h.le]
    push_cast
    rfl

theorem represents_pow (hp : 0 < p) (a e : Nat) : Represents p (pow p a e) (a ^ e) := by
  refine represents_of_cast ?_ ?_
  · rw [pow_eq]
    exact Nat.mod_lt _ hp
  · rw [cast_pow]
    push_cast
    rfl

/-- An integer stands for itself, the lowest number of any width like the others: it is the
magnitude that is reduced. -/
theorem represents_ofInt (hp : 0 < p) (i : Int) : Represents p (ofInt p i) i := by
  have hreduced : reduce p i.natAbs < p := Nat.mod_lt _ hp
  rw [ofInt]
  split
  · rename_i hneg
    have hmagnitude : (i.natAbs : Int) = -i := Int.ofNat_natAbs_of_nonpos hneg.le
    refine represents_of_cast (represents_neg hreduced).1 ?_
    rw [cast_neg hreduced.le, cast_reduce, ← Int.cast_natCast, hmagnitude, Int.cast_neg, neg_neg]
  · rename_i hpos
    have hmagnitude : (i.natAbs : Int) = i := Int.natAbs_of_nonneg (not_lt.1 hpos)
    refine represents_of_cast hreduced ?_
    rw [cast_reduce, ← Int.cast_natCast, hmagnitude]

theorem inverse_eq_error_iff : inverse p a = .error .divisionByZero ↔ a = 0 := by
  rw [inverse]
  split <;> simp_all

theorem div_eq_error_iff : div p a b = .error .divisionByZero ↔ b = 0 := by
  rw [div, map_eq_error_iff]
  exact inverse_eq_error_iff

section Prime

variable [hp : Fact p.Prime]

theorem exists_inverse (ha : a < p) (hne : a ≠ 0) :
    ∃ r, inverse p a = .ok r ∧ IsReduced p r ∧ mul p a r = 1 := by
  have hcast : (a : ZMod p) ≠ 0 := (cast_eq_zero_iff ha).not.2 hne
  refine ⟨pow p a (p - 2), if_neg hne, (represents_pow hp.out.pos a _).1, ?_⟩
  apply eq_of_cast_eq (mul_lt hp.out.pos _ _) hp.out.one_lt
  rw [cast_mul, cast_pow, mul_comm, pow_sub_two_mul hcast, Nat.cast_one]

theorem div_mul_cancel (ha : a < p) (hne : a ≠ 0) (hb : b < p) : div p (mul p a b) a = .ok b := by
  have hcast : (a : ZMod p) ≠ 0 := (cast_eq_zero_iff ha).not.2 hne
  obtain ⟨r, hr, hdiv, hquotient⟩ := exists_div (mul p a b) hcast
  rw [cast_mul, mul_div_cancel_left₀ _ hcast] at hquotient
  rw [hdiv, eq_of_cast_eq hr hb hquotient]

end Prime

/-- The operations on reduced numbers are those of the integers modulo the modulus. -/
theorem operations_represent {p : Nat} (hp : IsModulus p) :
    (∀ a b, IsReduced p a → IsReduced p b →
      Represents p (add p a b) (a + b) ∧
      Represents p (sub p a b) (a - b) ∧ sub? p a b = some (sub p a b) ∧
      Represents p (mul p a b) (a * b) ∧
      Represents p (neg p a) (-a) ∧ neg? p a = some (neg p a) ∧
      ∀ e, Represents p (pow p a e) (a ^ e)) ∧
    (∀ i, Represents p (ofInt p i) i) ∧
    (∀ a, inverse? p a = (inverse p a).map some) ∧
    (p.Prime → ∀ a, IsReduced p a →
      (a ≠ 0 → (∃ r, inverse p a = .ok r ∧ IsReduced p r ∧ mul p a r = 1) ∧
        ∀ b, IsReduced p b → div p (mul p a b) a = .ok b) ∧
      (inverse p a = .error .divisionByZero ↔ a = 0) ∧
      ∀ b, div p b a = .error .divisionByZero ↔ a = 0) := by
  have hpos : 0 < p := lt_of_lt_of_le Nat.zero_lt_two hp
  refine ⟨?_, represents_ofInt hpos, inverse?_eq hp, ?_⟩
  · intro a b ha hb
    have hle : b ≤ a + p := hb.le.trans (Nat.le_add_left p a)
    exact ⟨represents_add hpos a b, represents_sub hpos hle, sub?_eq hle, represents_mul hpos a b,
      represents_neg ha, neg?_eq ha.le, represents_pow hpos a⟩
  · intro hprime a ha
    have hfact : Fact p.Prime := ⟨hprime⟩
    refine ⟨fun hne => ⟨exists_inverse ha hne, fun b => div_mul_cancel ha hne⟩,
      inverse_eq_error_iff, fun b => div_eq_error_iff⟩

/-- The lowest number of 64 bits, a difference below zero and a quotient modulo 97, and the exponent
zero of an inverse modulo 2. -/
theorem operations_represent_small :
    Represents 97 (ofInt 97 (-2 ^ 63)) (-2 ^ 63) ∧ Represents 97 (sub 97 3 5) (-2) ∧
      sub? 97 3 5 = some 95 ∧ div 97 (mul 97 5 96) 5 = .ok 96 ∧
      (∃ r, inverse 97 5 = .ok r ∧ IsReduced 97 r ∧ mul 97 5 r = 1) ∧
      ∃ r, inverse 2 1 = .ok r ∧ IsReduced 2 r ∧ mul 2 1 r = 1 := by
  obtain ⟨hring, hint, -, hfield⟩ := operations_represent (p := 97) (by decide)
  obtain ⟨-, hsub, hchecked, -⟩ := hring 3 5 (by decide) (by decide)
  obtain ⟨hinverse, hdiv⟩ := (hfield (by norm_num) 5 (by decide)).1 (by decide)
  obtain ⟨-, -, -, hfield⟩ := operations_represent (p := 2) (by decide)
  exact ⟨hint _, hsub, hchecked, hdiv 96 (by decide), hinverse,
    ((hfield Nat.prime_two 1 (by decide)).1 (by decide)).1⟩

end CircuitTrace.Residue
