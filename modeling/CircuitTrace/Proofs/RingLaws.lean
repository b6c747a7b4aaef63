import CircuitTrace.Proofs.CanonicalForm

/-!
The polynomials that can be built without an exponent that outgrows its word are the canonical ones.
Among them the operations obey the laws of a commutative ring as equations between stored values,
whatever terms cancel on the way and whether or not the modulus is prime.
-/
namespace CircuitTrace

namespace Monomial

/-- Monomials as they are built, from factors that fit. -/
inductive Reachable : Monomial → Prop
  | one : Reachable one
  | var (x : Nat) : Reachable (var x)
  | power (x : Nat) (e : UInt32) : Reachable (power x e)
  | mul {a b : Monomial} (ha : Reachable a) (hb : Reachable b) (h : a.Fits b) : Reachable (a * b)

theorem reachable_iff_canonical {m : Monomial} : m.Reachable ↔ m.Canonical := by
  constructor
  · intro h
    induction h with
    | one => exact canonical_one
    | var x => exact canonical_power x 1
    | power x e => exact canonical_power x e
    | mul _ _ h iha ihb => exact iha.mul ihb h
  · intro h
    rw [← h.ofPowers_entries]
    exact m.powersFit_entries.ofPowers_induction .one fun _ x e hm => .mul hm (.power x e)

end Monomial

namespace Poly

variable {p : Nat} {a b c : Poly}

/-- Adding the terms in place comes to the sum. -/
theorem run_addAssign (p : Nat) (a b : Poly) : (addAssign p b).run a = ((), add p a b) := by
  have fold (l : List (Monomial × Nat)) (a : Poly) :
      (l.forM fun t => modify fun a => a.addTerm p t.1 t.2 : StateM Poly Unit).run a =
        ((), l.foldl (fun a t => a.addTerm p t.1 t.2) a) := by
    induction l generalizing a with
    | nil => rfl
    | cons t l ih => exact ih (a.addTerm p t.1 t.2)
  exact fold b.terms.entries a

theorem run_subAssign (p : Nat) (a b : Poly) : (subAssign p b).run a = ((), sub p a b) :=
  run_addAssign p a (neg p b)

theorem run_mulAssign (p : Nat) (a b : Poly) : (mulAssign p b).run a = ((), mul p a b) := rfl

theorem add_term (p : Nat) (a : Poly) (m : Monomial) (c : Nat) :
    add p a (term m c) = a.addTerm p m c := by
  by_cases hc : c = 0
  · rw [term, if_pos hc, addTerm, if_pos hc]
    rfl
  · rw [term, if_neg hc]
    rfl

/-- Polynomials as they are built: from residues by the constructors, then by the operations, where
the factors of a product fit. -/
inductive Reachable (p : Nat) : Poly → Prop
  | zero : Reachable p zero
  | one : Reachable p one
  | const {c : Nat} (hc : Residue.IsReduced p c) : Reachable p (const c)
  | var (x : Nat) : Reachable p (var x)
  | term {m : Monomial} {c : Nat} (hm : m.Reachable) (hc : Residue.IsReduced p c) :
    Reachable p (term m c)
  | add {a b : Poly} (ha : Reachable p a) (hb : Reachable p b) : Reachable p (add p a b)
  | sub {a b : Poly} (ha : Reachable p a) (hb : Reachable p b) : Reachable p (sub p a b)
  | mul {a b : Poly} (ha : Reachable p a) (hb : Reachable p b) (h : a.Fits b) :
    Reachable p (mul p a b)
  | neg {a : Poly} (ha : Reachable p a) : Reachable p (neg p a)
  | scale {a : Poly} (ha : Reachable p a) (k : Nat) : Reachable p (scale p a k)
  | addAssign {a b : Poly} (ha : Reachable p a) (hb : Reachable p b) :
    Reachable p ((addAssign p b).run a).2
  | subAssign {a b : Poly} (ha : Reachable p a) (hb : Reachable p b) :
    Reachable p ((subAssign p b).run a).2
  | mulAssign {a b : Poly} (ha : Reachable p a) (hb : Reachable p b) (h : a.Fits b) :
    Reachable p ((mulAssign p b).run a).2
  | evalPartial {a : Poly} (ha : Reachable p a) (values : Nat → Option Nat) :
    Reachable p (a.evalPartial p values)

theorem canonical_of_reachable (hp : 1 < p) (h : Reachable p a) : a.Canonical p := by
  have hpos : 0 < p := by omega
  induction h with
  | zero => exact canonical_zero
  | one => exact canonical_one hp
  | const hc => exact canonical_const hc
  | var x => exact canonical_var hp x
  | term hm hc => exact canonical_term (Monomial.reachable_iff_canonical.1 hm) hc
  | add _ _ iha ihb => exact iha.add ihb
  | sub _ _ iha ihb => exact iha.sub ihb
  | mul _ _ h iha ihb => exact iha.mul hpos ihb h
  | neg _ iha => exact iha.neg
  | scale _ k iha => exact iha.scale hpos k
  | addAssign _ _ iha ihb =>
    rw [run_addAssign]
    exact iha.add ihb
  | subAssign _ _ iha ihb =>
    rw [run_subAssign]
    exact iha.sub ihb
  | mulAssign _ _ h iha ihb =>
    rw [run_mulAssign]
    exact iha.mul hpos ihb h
  | evalPartial _ values iha => exact iha.evalPartial hpos values

theorem reachable_of_canonical (h : a.Canonical p) : Reachable p a := by
  have fold (l : List (Monomial × Nat)) (hl : ∀ t ∈ l, t.1.Canonical ∧ t.2 < p) (b : Poly)
      (hb : Reachable p b) : Reachable p (l.foldl (fun r t => r.addTerm p t.1 t.2) b) := by
    induction l generalizing b with
    | nil => exact hb
    | cons t l ih =>
      obtain ⟨hm, hc⟩ := hl t (by simp)
      have hterm : Reachable p (term t.1 t.2) := .term (Monomial.reachable_iff_canonical.2 hm) hc
      rw [List.foldl_cons, ← add_term]
      exact ih (fun t ht => hl t (by simp [ht])) _ (.add hb hterm)
  rw [← h.reduced.ofTerms_entries]
  exact fold a.terms.entries (fun t ht => ⟨h.exponents t ht, (h.reduced t ht).2⟩) Poly.zero .zero

theorem reachable_iff_canonical (hp : 1 < p) : Reachable p a ↔ a.Canonical p :=
  ⟨canonical_of_reachable hp, reachable_of_canonical⟩

theorem Fits.symm (h : a.Fits b) : b.Fits a := fun t ht s hs => (h s hs t ht).symm

theorem Fits.add (hb : a.Fits b) (hc : a.Fits c) : a.Fits (Poly.add p b c) :=
  fun s hs => over_add (hb s hs) (hc s hs)

/-! The laws of a commutative ring. Both sides of each are canonical, and stand for the same formal
polynomial. -/

namespace Canonical

variable (hp : 0 < p) (ha : a.Canonical p) (hb : b.Canonical p) (hc : c.Canonical p)
include hp ha hb

theorem add_comm : Poly.add p a b = Poly.add p b a := by
  apply Canonical.ext hp (ha.add hb) (hb.add ha)
  simp only [toMvPolynomial_add]
  ring

theorem mul_comm (h : a.Fits b) : Poly.mul p a b = Poly.mul p b a := by
  apply Canonical.ext hp (ha.mul hp hb h) (hb.mul hp ha h.symm)
  rw [toMvPolynomial_mul h, toMvPolynomial_mul h.symm]
  ring

omit hb in
theorem sub_self : Poly.sub p a a = Poly.zero := by
  apply Canonical.ext hp (ha.sub ha) canonical_zero
  rw [ha.reduced.toMvPolynomial_sub, toMvPolynomial_zero]
  ring

include hc

theorem add_assoc : Poly.add p (Poly.add p a b) c = Poly.add p a (Poly.add p b c) := by
  apply Canonical.ext hp ((ha.add hb).add hc) (ha.add (hb.add hc))
  simp only [toMvPolynomial_add]
  ring

theorem mul_assoc (hab : a.Fits b) (hbc : b.Fits c) (hl : (Poly.mul p a b).Fits c)
    (hr : a.Fits (Poly.mul p b c)) :
    Poly.mul p (Poly.mul p a b) c = Poly.mul p a (Poly.mul p b c) := by
  apply Canonical.ext hp ((ha.mul hp hb hab).mul hp hc hl) (ha.mul hp (hb.mul hp hc hbc) hr)
  rw [toMvPolynomial_mul hl, toMvPolynomial_mul hab, toMvPolynomial_mul hr, toMvPolynomial_mul hbc]
  ring

theorem mul_add (hab : a.Fits b) (hac : a.Fits c) :
    Poly.mul p a (Poly.add p b c) = Poly.add p (Poly.mul p a b) (Poly.mul p a c) := by
  apply Canonical.ext hp (ha.mul hp (hb.add hc) (hab.add hac))
    ((ha.mul hp hb hab).add (ha.mul hp hc hac))
  rw [toMvPolynomial_mul (hab.add hac), toMvPolynomial_add, toMvPolynomial_add,
    toMvPolynomial_mul hab, toMvPolynomial_mul hac]
  ring

theorem add_mul (hac : a.Fits c) (hbc : b.Fits c) :
    Poly.mul p (Poly.add p a b) c = Poly.add p (Poly.mul p a c) (Poly.mul p b c) := by
  have hsum : (Poly.add p a b).Fits c := (hac.symm.add hbc.symm).symm
  rw [mul_comm hp (ha.add hb) hc hsum, mul_add hp hc ha hb hac.symm hbc.symm,
    mul_comm hp hc ha hac.symm, mul_comm hp hc hb hbc.symm]

end Canonical

end Poly

end CircuitTrace
