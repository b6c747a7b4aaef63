import CircuitTrace.Proofs.Equations
import CircuitTrace.Proofs.PartialEvaluation

/-!
Eliminations that leave no choice. When a constraint leaves `c₀ + c₁ x`, or a single term, and
holds, then the wire has the value that the elimination gives it. Of `c₁ x + c₂ x²` and of three
terms this cannot be said.
-/
namespace CircuitTrace

/-- A residual that has no square next to another term. -/
def Poly.Plain (wire : Nat) (r : Poly) : Prop :=
  (r.coeff? (.power wire 2)).isSome = true → r.size = 1

instance (wire : Nat) (r : Poly) : Decidable (r.Plain wire) := inferInstanceAs (Decidable (_ → _))

namespace Constraint

variable {p : Nat}

theorem reduced_toPoly (hp : 0 < p) (c : Constraint) : (c.toPoly p).Reduced p :=
  Poly.reduced_sub (Poly.reduced_mul hp _ _) (LinearCombination.reduced_substitute hp _ _)

theorem eval_toPoly (hp : 0 < p) (u : Nat → ZMod p) (c : Constraint) :
    MvPolynomial.eval u ((c.toPoly p).toMvPolynomial p) = c.value u := by
  rw [toPoly, value_substitute hp u (c.fits_var p)]
  simp

end Constraint

namespace Equation

variable {p : Nat} {values : Nat → Option Nat} {e : Equation} {wire value : Nat}

/-- What is left with one unknown wire is a quadratic in it. -/
theorem quadratic_residual {index : Nat} {c : Constraint} (hone : (values oneWire).isSome)
    (hunknown : (ofConstraint p index c).unknowns values = [wire]) :
    ((ofConstraint p index c).residual p values).Quadratic wire := by
  have only (x : Nat) (hx : c.Mentions x) (hnone : (values x).isNone = true) : x = wire :=
    eq_of_mentions hone hunknown hx (Option.isNone_iff_eq_none.1 hnone)
  refine Poly.over_evalPartial
    (R := (· ∈ [Monomial.one, Monomial.var wire, Monomial.power wire 2])) (c.over_toPoly p) ?_
  rintro m (⟨x, hx, rfl⟩ | ⟨x, y, hx, hy, rfl⟩)
  · rw [Monomial.restrict_var]
    split
    · rename_i hnone
      simp [only x hx hnone]
    · simp
  · rw [Monomial.restrict_mul, Monomial.restrict_var, Monomial.restrict_var]
    split
    · rename_i hnone
      obtain rfl := only x hx hnone
      split
      · rename_i hnone
        rw [only y hy hnone, Monomial.var_mul_var]
        simp
      · simp [Monomial.mul_one]
    · split
      · rename_i hnone
        rw [only y hy hnone, Monomial.one_mul_var]
        simp
      · simp [Monomial.mul_one]

/-- The shapes of a plain residual that are solved. -/
theorem solveFor_cases (hq : (e.residual p values).Quadratic wire)
    (hplain : (e.residual p values).Plain wire) (h : e.solveFor p values wire = .ok (some value)) :
    (∃ c₀ c₁, (e.residual p values).constTerm? = some c₀ ∧
      (e.residual p values).coeff? (.var wire) = some c₁ ∧
      (e.residual p values).coeff? (.power wire 2) = none ∧
      Residue.div p (Residue.neg p c₀) c₁ = .ok value) ∨
    (value = 0 ∧ (e.residual p values).constTerm? = none ∧
      ((∃ c₁, (e.residual p values).coeff? (.var wire) = some c₁ ∧
        (e.residual p values).coeff? (.power wire 2) = none) ∨
      ∃ c₂, (e.residual p values).coeff? (.var wire) = none ∧
        (e.residual p values).coeff? (.power wire 2) = some c₂)) := by
  have hsize := hq.size_eq
  rw [Poly.Plain] at hplain
  simp only [solveFor] at h
  cases hc₂ : (e.residual p values).coeff? (.power wire 2) with
  | some c₂ =>
    have hone : (e.residual p values).size = 1 := hplain (by simp [hc₂])
    cases hc₀ : (e.residual p values).constTerm? with
    | some c₀ => simp [hc₀, hc₂, hone] at hsize
    | none =>
      cases hc₁ : (e.residual p values).coeff? (.var wire) with
      | some c₁ => simp [hc₁, hc₂, hone] at hsize
      | none =>
        have hvalue : value = 0 := by simpa [hone, hc₂, eq_comm] using h
        exact .inr ⟨hvalue, rfl, .inr ⟨c₂, rfl, rfl⟩⟩
  | none =>
    cases hc₁ : (e.residual p values).coeff? (.var wire) with
    | none =>
      -- A constant alone, or nothing, gives no value.
      cases hc₀ : (e.residual p values).constTerm? with
      | none => simp [hsize, hc₀, hc₁, hc₂] at h
      | some c₀ => simp [hsize, hc₀, hc₁, hc₂] at h
    | some c₁ =>
      cases hc₀ : (e.residual p values).constTerm? with
      | none =>
        have hvalue : value = 0 := by simpa [hsize, hc₀, hc₁, hc₂, eq_comm] using h
        exact .inr ⟨hvalue, rfl, .inl ⟨c₁, rfl, rfl⟩⟩
      | some c₀ =>
        have hdiv : (Residue.div p (Residue.neg p c₀) c₁).map some = .ok (some value) := by
          simpa [hsize, hc₀, hc₁, hc₂, mapError_eq_ok_iff] using h
        obtain ⟨v, hv, heq⟩ := map_eq_ok_iff.1 hdiv
        obtain rfl := Option.some.inj heq
        exact .inl ⟨c₀, c₁, rfl, rfl, rfl, hv⟩

/-- A plain residual that still has the wire is solved. -/
theorem exists_solveFor (hq : (e.residual p values).Quadratic wire)
    (hreduced : (e.residual p values).Reduced p) (hplain : (e.residual p values).Plain wire)
    (hwire : wire ∈ (e.residual p values).vars) :
    ∃ value, e.solveFor p values wire = .ok (some value) := by
  have hsize := hq.size_eq
  rw [hq.mem_vars_iff] at hwire
  rw [Poly.Plain] at hplain
  simp only [solveFor]
  cases hc₂ : (e.residual p values).coeff? (.power wire 2) with
  | some c₂ =>
    have hone : (e.residual p values).size = 1 := hplain (by simp [hc₂])
    exact ⟨0, by simp [hone]⟩
  | none =>
    obtain ⟨c₁, hc₁⟩ : ∃ c₁, (e.residual p values).coeff? (.var wire) = some c₁ := by
      simpa [hc₂, Option.isSome_iff_exists] using hwire
    cases hc₀ : (e.residual p values).constTerm? with
    | none => exact ⟨0, by simp [hsize, hc₀, hc₁, hc₂]⟩
    | some c₀ =>
      have hne : c₁ ≠ 0 := (hreduced (_, c₁) ((SortedMap.get?_eq_some_iff _ _ c₁).1 hc₁)).1.ne'
      obtain ⟨value, hvalue⟩ : ∃ value, Residue.div p (Residue.neg p c₀) c₁ = .ok value :=
        ⟨_, Residue.div_eq_ok_iff.2 ⟨hne, rfl⟩⟩
      exact ⟨value, by simp [hsize, hc₀, hc₁, hc₂, hvalue, Except.map, Except.mapError]⟩

/-- The residuals that are left alone are those in which the wire has cancelled. -/
theorem solveFor_eq_none_iff (hq : (e.residual p values).Quadratic wire) :
    e.solveFor p values wire = .ok none ↔
      (e.residual p values).coeff? (.var wire) = none ∧
        (e.residual p values).coeff? (.power wire 2) = none := by
  have hsize := hq.size_eq
  have quotient (a b : Nat) :
      ((Residue.div p a b).map some).mapError SolveError.arithmetic ≠ .ok none := by
    simp [mapError_eq_ok_iff, map_eq_ok_iff]
  simp only [solveFor]
  cases hc₀ : (e.residual p values).constTerm? with
  | none =>
    cases hc₁ : (e.residual p values).coeff? (.var wire) with
    | none =>
      cases hc₂ : (e.residual p values).coeff? (.power wire 2) with
      | none => simp [hsize, hc₀, hc₁, hc₂]
      | some c₂ => simp [hsize, hc₀, hc₁, hc₂]
    | some c₁ =>
      cases hc₂ : (e.residual p values).coeff? (.power wire 2) with
      | none => simp [hsize, hc₀, hc₁, hc₂]
      | some c₂ => simp [hsize, hc₀, hc₁, hc₂, quotient]
  | some c₀ =>
    cases hc₁ : (e.residual p values).coeff? (.var wire) with
    | none =>
      cases hc₂ : (e.residual p values).coeff? (.power wire 2) with
      | none => simp [hsize, hc₀, hc₁, hc₂]
      | some c₂ => simp [hsize, hc₀, hc₁, hc₂]
    | some c₁ =>
      cases hc₂ : (e.residual p values).coeff? (.power wire 2) with
      | none => simp [hsize, hc₀, hc₁, hc₂, quotient]
      | some c₂ =>
        -- Of three terms a product is solved, and everything else refused.
        simp only [hsize, hc₀, hc₁, hc₂, Option.elim_some]
        split
        · split
          · simp
          · simp
          · simp
        · simp

/-- A residual in which the wire has cancelled is left alone. -/
theorem solveFor_of_notMem_vars (hq : (e.residual p values).Quadratic wire)
    (hwire : wire ∉ (e.residual p values).vars) : e.solveFor p values wire = .ok none := by
  rw [hq.mem_vars_iff] at hwire
  rw [solveFor_eq_none_iff hq]
  simpa using hwire

/-- Where a constraint holds, a wire that is eliminated from a plain residual has the value that the
elimination gives it. -/
theorem eq_of_solveFor [hp : Fact p.Prime] {index : Nat} {c : Constraint} {u : Nat → ZMod p}
    (hu : ∀ x v, values x = some v → u x = v) (hzero : c.value u = 0)
    (hone : (values oneWire).isSome) (hunknown : (ofConstraint p index c).unknowns values = [wire])
    (hplain : ((ofConstraint p index c).residual p values).Plain wire)
    (h : (ofConstraint p index c).solveFor p values wire = .ok (some value)) :
    u wire = value := by
  have hpos := hp.out.pos
  have hq := quadratic_residual hone hunknown
  have hreduced : ((ofConstraint p index c).residual p values).Reduced p :=
    Poly.reduced_evalPartial hpos (c.reduced_toPoly hpos)
  have heval : MvPolynomial.eval u
      (((ofConstraint p index c).residual p values).toMvPolynomial p) = 0 := by
    rw [residual, Poly.eval_evalPartial hu]
    exact (c.eval_toPoly hpos u).trans hzero
  rw [hq.eval_eq] at heval
  rcases solveFor_cases hq hplain h with ⟨c₀, c₁, h₀, h₁, h₂, hdiv⟩ |
    ⟨rfl, h₀, ⟨c₁, h₁, h₂⟩ | ⟨c₂, h₁, h₂⟩⟩
  · obtain ⟨hc₀, -⟩ := hreduced.of_coeff? h₀
    obtain ⟨hc₁, hne⟩ := hreduced.of_coeff? h₁
    have hroot : (c₁ : ZMod p) * value = -c₀ := by
      rw [Residue.cast_div hc₁ hdiv, Residue.cast_neg hc₀.le]
    simp only [h₀, h₁, h₂, Option.getD_some, Option.getD_none, Nat.cast_zero, zero_mul,
      add_zero] at heval
    apply mul_left_cancel₀ hne
    rw [hroot, eq_neg_iff_add_eq_zero, add_comm, heval]
  · have hne := (hreduced.of_coeff? h₁).2
    simpa [h₀, h₁, h₂, hne] using heval
  · have hne := (hreduced.of_coeff? h₂).2
    simpa [h₀, h₁, h₂, hne] using heval

theorem linearRoot_lt (hp : 0 < p) {l : LinearCombination}
    (h : linearRoot p values wire l = .ok (some value)) : value < p := by
  rw [linearRoot] at h
  split at h
  · cases h
  · cases h
  · obtain ⟨v, hv, heq⟩ := map_eq_ok_iff.1 h
    obtain rfl := Option.some.inj heq
    exact Residue.div_lt hp hv

theorem productRoot_lt (hp : 0 < p) {c : Constraint}
    (h : productRoot p values wire c = .ok (some value)) : value < p := by
  obtain ⟨root, hroot, h⟩ := bind_eq_ok_iff.1 h
  cases root with
  | none => exact linearRoot_lt hp h
  | some v =>
    obtain rfl := Option.some.inj (Except.ok.inj h)
    exact linearRoot_lt hp hroot

theorem solveFor_lt (hp : 0 < p) (h : e.solveFor p values wire = .ok (some value)) :
    value < p := by
  have quotient {a b : Nat}
      (hdiv : ((Residue.div p a b).map some).mapError SolveError.arithmetic = .ok (some value)) :
      value < p := by
    obtain ⟨v, hv, heq⟩ := map_eq_ok_iff.1 (mapError_eq_ok_iff.1 hdiv)
    obtain rfl := Option.some.inj heq
    exact Residue.div_lt hp hv
  simp only [solveFor] at h
  split at h
  · split at h
    · split at h
      · rename_i hroot
        obtain rfl := Option.some.inj (Except.ok.inj h)
        exact productRoot_lt hp hroot
      · cases h
      · cases h
    · cases h
  · split at h
    · exact quotient h
    · exact quotient h
    · cases h
  · split at h
    · obtain rfl := Option.some.inj (Except.ok.inj h)
      exact hp
    · cases h
  · cases h

end Equation

end CircuitTrace
