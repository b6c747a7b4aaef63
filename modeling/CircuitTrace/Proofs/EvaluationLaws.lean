import CircuitTrace.Proofs.SubstitutedValue

/-!
Evaluation turns the operations on polynomials into those on residues, products as long as no
exponent outgrows its word. Partial evaluation puts
constants in the place of variables, so it can be done in steps, and evaluation may follow it or
come at once.
-/
namespace CircuitTrace.Poly

variable {p : Nat} {a b : Poly} {v s t : Nat → Option Nat} {x y : Nat}

/-- The value is the number below the modulus that is congruent to the formal value. -/
theorem eval_eq_of_cast (hp : 0 < p) (ha : a.Covered v) (hx : x < p)
    (h : (x : ZMod p) = MvPolynomial.eval (valuation p v) (a.toMvPolynomial p)) :
    a.eval p v = .ok x := by
  obtain ⟨r, hr⟩ := (exists_eval_iff_covered (p := p)).2 ha
  rw [← eval_cast hr] at h
  rw [hr, Residue.eq_of_cast_eq hx (eval_lt hp hr) h]

theorem covered_of_eval (h : a.eval p v = .ok x) : a.Covered v := exists_eval_iff_covered.1 ⟨x, h⟩

theorem covered_add (ha : a.Covered v) (hb : b.Covered v) : (add p a b).Covered v :=
  covered_iff_over.2 (over_add (covered_iff_over.1 ha) (covered_iff_over.1 hb))

theorem covered_neg (ha : a.Covered v) : (neg p a).Covered v :=
  covered_iff_over.2 (over_neg (covered_iff_over.1 ha))

theorem covered_mul (ha : a.Covered v) (hb : b.Covered v) : (mul p a b).Covered v :=
  covered_iff_over.2 <|
    over_mul (covered_iff_over.1 ha) (covered_iff_over.1 hb) fun _ _ => Monomial.within_mul

section Operations

variable (hp : 0 < p) (hx : a.eval p v = .ok x)
include hp hx

theorem eval_mul (hy : b.eval p v = .ok y) (hfits : a.Fits b) :
    (mul p a b).eval p v = .ok (Residue.mul p x y) := by
  apply eval_eq_of_cast hp (covered_mul (covered_of_eval hx) (covered_of_eval hy))
  · exact Residue.mul_lt hp x y
  · rw [Residue.cast_mul, toMvPolynomial_mul hfits, map_mul, eval_cast hx, eval_cast hy]

theorem eval_sub (hb : b.Reduced p) (hy : b.eval p v = .ok y) :
    (sub p a b).eval p v = .ok (Residue.sub p x y) := by
  have hlt := eval_lt hp hy
  have hcovered : (sub p a b).Covered v :=
    covered_add (covered_of_eval hx) (covered_neg (covered_of_eval hy))
  apply eval_eq_of_cast hp hcovered
  · exact Residue.sub_lt hp x y
  · rw [Residue.cast_sub (by omega), hb.toMvPolynomial_sub, map_sub, eval_cast hx, eval_cast hy]

end Operations

end CircuitTrace.Poly
