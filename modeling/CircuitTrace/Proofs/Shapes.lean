import CircuitTrace.Proofs.Elimination

/-!
The shapes of a constraint with one unknown wire. With the known wires substituted the constraint is
a polynomial `a + b x + c x²` in the unknown one, and what an elimination comes to depends on which
of the three coefficients are zero: a root, a refusal, or nothing where the wire has cancelled.
-/
namespace CircuitTrace

variable {p : Nat} {values : Nat → Option Nat} {wire : Nat}

/-- A wire with the known ones substituted: its value, or the variable if it has none. -/
noncomputable def substituted (p : Nat) (values : Nat → Option Nat) (x : Nat) :
    Polynomial (ZMod p) :=
  (values x).elim .X fun v => v

namespace LinearCombination

variable {l : LinearCombination}

/-- A linear combination as a polynomial in its unknown wire. -/
noncomputable def univariate (p : Nat) (values : Nat → Option Nat) (l : LinearCombination) :
    Polynomial (ZMod p) :=
  (l.entries.map fun e => (e.2 : Polynomial (ZMod p)) * substituted p values e.1).sum

theorem aeval_substitute (l : LinearCombination) :
    MvPolynomial.aeval (substituted p values) ((l.substitute p .var).toMvPolynomial p) =
      l.univariate p values := by
  rw [toMvPolynomial_substitute, map_list_sum, List.map_map, univariate]
  congr 1
  apply List.map_congr_left
  intro e _
  rw [Function.comp_apply, map_mul, map_natCast, Poly.toMvPolynomial_var, MvPolynomial.aeval_X]

theorem coeff_univariate (l : LinearCombination) (i : Nat) : (l.univariate p values).coeff i =
    (l.entries.map fun e => (e.2 : ZMod p) * (substituted p values e.1).coeff i).sum := by
  rw [univariate, ← Polynomial.lcoeff_apply, map_list_sum, List.map_map]
  congr 1
  apply List.map_congr_left
  intro e _
  rw [Function.comp_apply, Polynomial.lcoeff_apply, Polynomial.coeff_natCast_mul]

/-- The coefficient of the unknown wire is the one that is stored. -/
theorem coeff_one_univariate (hunknown : values wire = none)
    (honly : ∀ x ∈ l.keys, values x = none → x = wire) :
    (l.univariate p values).coeff 1 = ((l.get? wire).getD 0 : Nat) := by
  have hkeys : (wire :: l.keys.filter (· ≠ wire)).Nodup := by
    simp [List.Nodup.filter, l.keys_nodup]
  have hall : ∀ e ∈ l.entries, e.1 ∈ wire :: l.keys.filter (· ≠ wire) := by
    intro e he
    have hmem := SortedMap.mem_keys_of_mem he
    by_cases hwire : e.1 = wire
    · simp [hwire]
    · simp [hwire, hmem]
  have hrest : ∀ y ∈ (l.keys.filter (· ≠ wire)).map fun x => (l.get? x).elim (0 : ZMod p)
      fun v => v * (substituted p values x).coeff 1, y = 0 := by
    intro y hy
    obtain ⟨x, hx, rfl⟩ := List.mem_map.1 hy
    obtain ⟨hmem, hne⟩ : x ∈ l.keys ∧ x ≠ wire := by simpa using hx
    obtain ⟨v, hv⟩ := Option.ne_none_iff_exists'.1 fun hnone => hne (honly x hmem hnone)
    cases l.get? x with
    | none => rfl
    | some d => simp [substituted, hv, Polynomial.coeff_natCast_ite]
  rw [coeff_univariate, l.sum_entries _ hkeys hall, List.map_cons, List.sum_cons,
    List.sum_eq_zero hrest, add_zero]
  cases l.get? wire with
  | none => simp
  | some d => simp [substituted, hunknown]

theorem natDegree_univariate_le (l : LinearCombination) :
    (l.univariate p values).natDegree ≤ 1 := by
  have hsub (x : Nat) : (substituted p values x).natDegree ≤ 1 := by
    rw [substituted]
    cases values x with
    | none => exact Polynomial.natDegree_X_le
    | some v => exact (Polynomial.natDegree_natCast v).trans_le (Nat.zero_le 1)
  rw [Polynomial.natDegree_le_iff_coeff_eq_zero]
  intro i hi
  rw [coeff_univariate]
  apply List.sum_eq_zero
  intro y hy
  obtain ⟨e, -, rfl⟩ := List.mem_map.1 hy
  rw [Polynomial.coeff_eq_zero_of_natDegree_lt ((hsub e.1).trans_lt hi), mul_zero]

theorem eval_univariate (l : LinearCombination) (v : ZMod p) : (l.univariate p values).eval v =
    (l.univariate p values).coeff 0 + (l.univariate p values).coeff 1 * v := by
  rw [Polynomial.eval_eq_sum_range' (Nat.lt_succ_of_le l.natDegree_univariate_le)]
  simp [Finset.sum_range_succ]

/-- The value of the polynomial is that of the combination with the unknown wires at `v`. -/
theorem eval_univariate_eq_dot (l : LinearCombination) (v : ZMod p) :
    (l.univariate p values).eval v = l.dot fun x => (values x).elim v fun d => d := by
  rw [univariate, ← Polynomial.coe_evalRingHom, map_list_sum, List.map_map, dot]
  congr 1
  apply List.map_congr_left
  intro e _
  rw [Function.comp_apply, map_mul, map_natCast, substituted]
  cases values e.1 with
  | none => simp
  | some d => simp

theorem univariate_eq_zero_of_isEmpty (h : l.isEmpty) : l.univariate p values = 0 := by
  have hnil : l.entries = [] := List.isEmpty_iff.1 h
  rw [univariate, hnil]
  rfl

end LinearCombination

namespace Equation

variable {l : LinearCombination}

theorem offset_eq (l : LinearCombination) : offset p values wire l =
    l.entries.foldl (fun sum e => (values e.1).elim sum fun v =>
      if e.1 = wire then sum else Residue.add p sum (Residue.mul p e.2 v)) 0 := by
  rw [offset]
  congr
  funext sum e
  cases values e.1 <;> rfl

/-- The value without the unknown wire is the constant coefficient. -/
theorem cast_offset (hunknown : values wire = none) (l : LinearCombination) :
    ((offset p values wire l : Nat) : ZMod p) = (l.univariate p values).coeff 0 := by
  have fold (es : List (Nat × Nat)) (sum : Nat) :
      ((es.foldl (fun sum e => (values e.1).elim sum fun v =>
          if e.1 = wire then sum else Residue.add p sum (Residue.mul p e.2 v)) sum : Nat) :
        ZMod p) =
        sum + (es.map fun e => (e.2 : ZMod p) * (substituted p values e.1).coeff 0).sum := by
    induction es generalizing sum with
    | nil => simp
    | cons e es ih =>
      rw [List.foldl_cons, ih, List.map_cons, List.sum_cons, ← add_assoc]
      congr 1
      cases hv : values e.1 with
      | none => simp [substituted, hv]
      | some v =>
        have hne : e.1 ≠ wire := by
          intro heq
          rw [heq, hunknown] at hv
          cases hv
        simp [substituted, hv, hne]
  rw [offset_eq, fold, Nat.cast_zero, zero_add, LinearCombination.coeff_univariate]

theorem offset_lt (hp : 0 < p) (l : LinearCombination) : offset p values wire l < p := by
  rw [offset_eq]
  generalize l.entries = es
  induction es using List.reverseRecOn with
  | nil => exact hp
  | append_singleton es e ih =>
    rw [List.foldl_append, List.foldl_cons, List.foldl_nil]
    cases values e.1 with
    | none => exact ih
    | some v =>
      rw [Option.elim_some]
      split
      · exact ih
      · exact Residue.add_lt hp _ _

/-- A combination that depends on the unknown wire has the root of a linear polynomial. -/
theorem exists_linearRoot [hp : Fact p.Prime] (hunknown : values wire = none)
    (honly : ∀ x ∈ l.keys, values x = none → x = wire)
    (hslope : (l.univariate p values).coeff 1 ≠ 0) :
    ∃ v < p, linearRoot p values wire l = .ok (some v) ∧
      (v : ZMod p) = -(l.univariate p values).coeff 0 / (l.univariate p values).coeff 1 := by
  have hslope_eq := LinearCombination.coeff_one_univariate (p := p) hunknown honly
  have hneg : ((Residue.neg p (offset p values wire l) : Nat) : ZMod p) =
      -(l.univariate p values).coeff 0 := by
    rw [Residue.cast_neg (offset_lt hp.out.pos l).le, cast_offset hunknown]
  rw [hslope_eq] at hslope ⊢
  rw [linearRoot]
  cases hget : l.get? wire with
  | none => simp [hget] at hslope
  | some d =>
    rw [hget, Option.getD_some] at hslope
    obtain ⟨v, hlt, hdiv, hv⟩ :=
      Residue.exists_div (Residue.neg p (offset p values wire l)) hslope
    refine ⟨v, hlt, ?_, by rw [hv, hneg, Option.getD_some]⟩
    cases d with
    | zero => simp at hslope
    | succ d => exact map_eq_ok_iff.2 ⟨v, hdiv, rfl⟩

end Equation

namespace Constraint

/-- `a * b - c` as a polynomial in the unknown wire. -/
noncomputable def univariate (p : Nat) (values : Nat → Option Nat) (k : Constraint) :
    Polynomial (ZMod p) :=
  k.a.univariate p values * k.b.univariate p values - k.c.univariate p values

theorem aeval_toPoly (hp : 0 < p) (k : Constraint) :
    MvPolynomial.aeval (substituted p values) ((k.toPoly p).toMvPolynomial p) =
      k.univariate p values := by
  rw [toPoly, toMvPolynomial_substitute hp (k.fits_var p), map_sub, map_mul,
    LinearCombination.aeval_substitute, LinearCombination.aeval_substitute,
    LinearCombination.aeval_substitute, univariate]

theorem eval_univariate_eq_value (k : Constraint) (v : ZMod p) :
    (k.univariate p values).eval v = k.value fun x => (values x).elim v fun d => d := by
  rw [univariate, Polynomial.eval_sub, Polynomial.eval_mul,
    LinearCombination.eval_univariate_eq_dot, LinearCombination.eval_univariate_eq_dot,
    LinearCombination.eval_univariate_eq_dot, value]

/-- The square comes from the product alone. -/
theorem coeff_two_univariate (k : Constraint) : (k.univariate p values).coeff 2 =
    (k.a.univariate p values).coeff 1 * (k.b.univariate p values).coeff 1 := by
  have hc : (k.c.univariate p values).coeff 2 = 0 :=
    Polynomial.coeff_eq_zero_of_natDegree_lt
      (k.c.natDegree_univariate_le.trans_lt Nat.one_lt_two)
  have hdegree (l : LinearCombination) : (l.univariate p values).natDegree ≤ 1 :=
    l.natDegree_univariate_le
  rw [univariate, Polynomial.coeff_sub, hc, sub_zero]
  exact Polynomial.coeff_mul_add_eq_of_natDegree_le (hdegree k.a) (hdegree k.b)

end Constraint

namespace Equation

variable {e : Equation} {k : Constraint} {index : Nat}

section Stored

variable (hq : (e.residual p values).Quadratic wire) {c₀ c₁ c₂ : Nat}

include hq

theorem solveFor_linear (h₁ : (e.residual p values).coeff? (.var wire) = some c₁) (hne : c₁ ≠ 0)
    (h₂ : (e.residual p values).coeff? (.power wire 2) = none) :
    e.solveFor p values wire =
      ((Residue.div p (Residue.neg p ((e.residual p values).constTerm?.getD 0)) c₁).map
        some).mapError .arithmetic := by
  have hsize := hq.size_eq
  rw [solveFor]
  cases h₀ : (e.residual p values).constTerm? with
  | some c₀ => simp [hsize, h₀, h₁, h₂]
  | none =>
    have hzero : Residue.div p (Residue.neg p 0) c₁ = .ok 0 :=
      Residue.div_eq_ok_iff.2 ⟨hne, by simp [Residue.neg, Residue.mul]⟩
    simp [hsize, h₀, h₁, h₂, hzero, Except.map, Except.mapError]

theorem solveFor_square (h₀ : (e.residual p values).constTerm? = none)
    (h₁ : (e.residual p values).coeff? (.var wire) = none)
    (h₂ : (e.residual p values).coeff? (.power wire 2) = some c₂) :
    e.solveFor p values wire = .ok (some 0) := by
  simp [solveFor, hq.size_eq, h₀, h₁, h₂]

theorem solveFor_factor (h₀ : (e.residual p values).constTerm? = none)
    (h₁ : (e.residual p values).coeff? (.var wire) = some c₁)
    (h₂ : (e.residual p values).coeff? (.power wire 2) = some c₂) :
    e.solveFor p values wire =
      ((Residue.div p (Residue.neg p c₁) c₂).map some).mapError .arithmetic := by
  simp [solveFor, hq.size_eq, h₀, h₁, h₂]

theorem solveFor_noLinear (h₀ : (e.residual p values).constTerm? = some c₀)
    (h₁ : (e.residual p values).coeff? (.var wire) = none)
    (h₂ : (e.residual p values).coeff? (.power wire 2) = some c₂) :
    e.solveFor p values wire = .error (.unsupportedResidual e.index wire 2) := by
  simp [solveFor, hq.size_eq, h₀, h₁, h₂]

theorem solveFor_product {root : Nat} (h₀ : (e.residual p values).constTerm? = some c₀)
    (h₁ : (e.residual p values).coeff? (.var wire) = some c₁)
    (h₂ : (e.residual p values).coeff? (.power wire 2) = some c₂)
    (hempty : e.constraint.c.isEmpty)
    (hroot : linearRoot p values wire e.constraint.a = .ok (some root)) :
    e.solveFor p values wire = .ok (some root) := by
  have hproduct : productRoot p values wire e.constraint = .ok (some root) := by
    rw [productRoot, hroot]
    rfl
  simp [solveFor, hq.size_eq, h₀, h₁, h₂, hempty, hproduct]

theorem solveFor_difference (h₀ : (e.residual p values).constTerm? = some c₀)
    (h₁ : (e.residual p values).coeff? (.var wire) = some c₁)
    (h₂ : (e.residual p values).coeff? (.power wire 2) = some c₂)
    (hempty : e.constraint.c.isEmpty = false) :
    e.solveFor p values wire = .error (.unsupportedResidual e.index wire 3) := by
  simp [solveFor, hq.size_eq, h₀, h₁, h₂, hempty]

end Stored

/-- A quotient as the outcome of an elimination. -/
theorem exists_value_of_div [Fact p.Prime] {a b : Nat} (h : e.solveFor p values wire =
      ((Residue.div p (Residue.neg p a) b).map some).mapError .arithmetic)
    (ha : a < p) (hb : (b : ZMod p) ≠ 0) :
    ∃ v < p, e.solveFor p values wire = .ok (some v) ∧ (v : ZMod p) = -a / b := by
  obtain ⟨v, hlt, hdiv, hv⟩ := Residue.exists_div (Residue.neg p a) hb
  refine ⟨v, hlt, ?_, ?_⟩
  · rw [h, hdiv]
    rfl
  · rw [hv, Residue.cast_neg ha.le]

/-- What is left of a constraint is what its polynomial in the unknown wire is. -/
theorem univariate_eq_residual (hp : 0 < p) (hone : (values oneWire).isSome)
    (hunknown : (ofConstraint p index k).unknowns values = [wire]) :
    k.univariate p values =
      ((((ofConstraint p index k).residual p values).constTerm?.getD 0 : Nat) :
        Polynomial (ZMod p)) +
      ((((ofConstraint p index k).residual p values).coeff? (.var wire)).getD 0 * .X +
        (((ofConstraint p index k).residual p values).coeff? (.power wire 2)).getD 0 * .X ^ 2) := by
  have hwire : values wire = none := ((unknowns_eq_singleton_iff.1 hunknown wire).2 rfl).2
  have hu (x v : Nat) (hv : values x = some v) : substituted p values x = v := by
    rw [substituted, hv, Option.elim_some]
  have hX : substituted p values wire = .X := by
    rw [substituted, hwire, Option.elim_none]
  have heval := (quadratic_residual hone hunknown).aeval_eq (p := p) (substituted p values)
  rw [residual, Poly.aeval_evalPartial hu, hX] at heval
  rw [← k.aeval_toPoly hp]
  exact heval

section OneUnknown

variable [hp : Fact p.Prime] (hone : (values oneWire).isSome)
  (hunknown : (ofConstraint p index k).unknowns values = [wire])

include hone hunknown

omit hone hunknown in
theorem reduced_residual : ((ofConstraint p index k).residual p values).Reduced p :=
  Poly.reduced_evalPartial hp.out.pos (k.reduced_toPoly hp.out.pos)

theorem coeff_univariate {i : Nat} (hi : i ≤ 2) : (k.univariate p values).coeff i =
    ((((ofConstraint p index k).residual p values).coeff? (.power wire (.ofNat i))).getD 0 :
      Nat) := by
  rw [univariate_eq_residual hp.out.pos hone hunknown]
  interval_cases i
  · simp [Poly.constTerm?, Monomial.power]
  · simp [Monomial.power, Monomial.var]
  · simp

theorem natDegree_univariate_le : (k.univariate p values).natDegree ≤ 2 := by
  rw [univariate_eq_residual hp.out.pos hone hunknown]
  compute_degree

theorem eval_univariate (v : ZMod p) : (k.univariate p values).eval v =
    (k.univariate p values).coeff 0 + (k.univariate p values).coeff 1 * v +
      (k.univariate p values).coeff 2 * v ^ 2 := by
  rw [Polynomial.eval_eq_sum_range'
    (Nat.lt_succ_of_le (natDegree_univariate_le hone hunknown))]
  simp [Finset.sum_range_succ]

/-- A coefficient that is zero is not stored. -/
theorem coeff?_eq_none {i : Nat} (hi : i ≤ 2) (h : (k.univariate p values).coeff i = 0) :
    ((ofConstraint p index k).residual p values).coeff? (.power wire (.ofNat i)) = none := by
  rw [coeff_univariate hone hunknown hi] at h
  cases hc : ((ofConstraint p index k).residual p values).coeff? (.power wire (.ofNat i)) with
  | none => rfl
  | some c =>
    rw [hc, Option.getD_some] at h
    exact absurd h (reduced_residual.of_coeff? hc).2

/-- A coefficient that is not zero is stored as a residue. -/
theorem exists_coeff? {i : Nat} (hi : i ≤ 2) (h : (k.univariate p values).coeff i ≠ 0) :
    ∃ c < p, ((ofConstraint p index k).residual p values).coeff? (.power wire (.ofNat i)) = some c ∧
      (k.univariate p values).coeff i = c := by
  rw [coeff_univariate hone hunknown hi] at h ⊢
  cases hc : ((ofConstraint p index k).residual p values).coeff? (.power wire (.ofNat i)) with
  | none => simp [hc] at h
  | some c => exact ⟨c, (reduced_residual.of_coeff? hc).1, rfl, rfl⟩

end OneUnknown

/-- The outcome of an elimination for each shape of the polynomial `q` in the unknown wire. -/
structure SolvedByShape [Fact p.Prime] (values : Nat → Option Nat) (e : Equation) (wire : Nat)
    (q : Polynomial (ZMod p)) : Prop where
  linear : q.coeff 2 = 0 → q.coeff 1 ≠ 0 → ∃ v < p, e.solveFor p values wire = .ok (some v) ∧
    (v : ZMod p) = -q.coeff 0 / q.coeff 1
  square : q.coeff 2 ≠ 0 → q.coeff 1 = 0 → q.coeff 0 = 0 →
    e.solveFor p values wire = .ok (some 0)
  factor : q.coeff 2 ≠ 0 → q.coeff 1 ≠ 0 → q.coeff 0 = 0 →
    ∃ v < p, e.solveFor p values wire = .ok (some v) ∧ (v : ZMod p) = -q.coeff 1 / q.coeff 2
  noLinear : q.coeff 2 ≠ 0 → q.coeff 1 = 0 → q.coeff 0 ≠ 0 →
    e.solveFor p values wire = .error (.unsupportedResidual e.index wire 2)
  product : q.coeff 2 ≠ 0 → q.coeff 1 ≠ 0 → q.coeff 0 ≠ 0 → e.constraint.c.isEmpty →
    (e.constraint.a.univariate p values).coeff 1 ≠ 0 ∧
    ∃ v < p, e.solveFor p values wire = .ok (some v) ∧
      (v : ZMod p) = -(e.constraint.a.univariate p values).coeff 0 /
        (e.constraint.a.univariate p values).coeff 1
  difference : q.coeff 2 ≠ 0 → q.coeff 1 ≠ 0 → q.coeff 0 ≠ 0 → e.constraint.c.isEmpty = false →
    e.solveFor p values wire = .error (.unsupportedResidual e.index wire 3)
  cancelled : q.coeff 2 = 0 → q.coeff 1 = 0 → e.solveFor p values wire = .ok none

theorem solvedByShape [hp : Fact p.Prime] (hone : (values oneWire).isSome)
    (hunknown : (ofConstraint p index k).unknowns values = [wire]) :
    (ofConstraint p index k).SolvedByShape values wire (k.univariate p values) := by
  have hq := quadratic_residual hone hunknown
  have hwire : values wire = none := ((unknowns_eq_singleton_iff.1 hunknown wire).2 rfl).2
  -- Which coefficients are stored is which are not zero.
  have none₀ := coeff?_eq_none hone hunknown (Nat.zero_le 2)
  have none₁ := coeff?_eq_none hone hunknown one_le_two
  have none₂ := coeff?_eq_none hone hunknown le_rfl
  have some₀ := exists_coeff? hone hunknown (Nat.zero_le 2)
  have some₁ := exists_coeff? hone hunknown one_le_two
  have some₂ := exists_coeff? hone hunknown le_rfl
  constructor
  case linear =>
    intro h₂ h₁
    obtain ⟨c₁, -, hc₁, hcast⟩ := some₁ h₁
    have hne : (c₁ : ZMod p) ≠ 0 := hcast ▸ h₁
    have hne₀ : c₁ ≠ 0 := by
      rintro rfl
      exact hne Nat.cast_zero
    have hcast₀ : (k.univariate p values).coeff 0 =
        (((ofConstraint p index k).residual p values).constTerm?.getD 0 : Nat) :=
      coeff_univariate hone hunknown (Nat.zero_le 2)
    rw [hcast₀, hcast]
    exact exists_value_of_div (solveFor_linear hq hc₁ hne₀ (none₂ h₂))
      (reduced_residual.getD_coeff?_lt hp.out.pos .one) hne
  case square =>
    intro h₂ h₁ h₀
    obtain ⟨c₂, -, hc₂, -⟩ := some₂ h₂
    exact solveFor_square hq (none₀ h₀) (none₁ h₁) hc₂
  case factor =>
    intro h₂ h₁ h₀
    obtain ⟨c₁, hlt, hc₁, hcast₁⟩ := some₁ h₁
    obtain ⟨c₂, -, hc₂, hcast₂⟩ := some₂ h₂
    have hne : (c₂ : ZMod p) ≠ 0 := hcast₂ ▸ h₂
    rw [hcast₁, hcast₂]
    exact exists_value_of_div (solveFor_factor hq (none₀ h₀) hc₁ hc₂) hlt hne
  case noLinear =>
    intro h₂ h₁ h₀
    obtain ⟨c₀, -, hc₀, -⟩ := some₀ h₀
    obtain ⟨c₂, -, hc₂, -⟩ := some₂ h₂
    exact solveFor_noLinear hq hc₀ (none₁ h₁) hc₂
  case product =>
    intro h₂ h₁ h₀ hempty
    obtain ⟨c₀, -, hc₀, -⟩ := some₀ h₀
    obtain ⟨c₁, -, hc₁, -⟩ := some₁ h₁
    obtain ⟨c₂, -, hc₂, -⟩ := some₂ h₂
    have honly : ∀ x ∈ k.a.keys, values x = none → x = wire := fun x hx =>
      eq_of_mentions hone hunknown ⟨k.a, k.a_mem_parts, hx⟩
    have hslope : (k.a.univariate p values).coeff 1 ≠ 0 := by
      rw [k.coeff_two_univariate] at h₂
      exact left_ne_zero_of_mul h₂
    obtain ⟨v, hv, hroot, heq⟩ := exists_linearRoot hwire honly hslope
    exact ⟨hslope, v, hv, solveFor_product hq hc₀ hc₁ hc₂ hempty hroot, heq⟩
  case difference =>
    intro h₂ h₁ h₀ hempty
    obtain ⟨c₀, -, hc₀, -⟩ := some₀ h₀
    obtain ⟨c₁, -, hc₁, -⟩ := some₁ h₁
    obtain ⟨c₂, -, hc₂, -⟩ := some₂ h₂
    exact solveFor_difference hq hc₀ hc₁ hc₂ hempty
  case cancelled =>
    intro h₂ h₁
    exact (solveFor_eq_none_iff hq).2 ⟨none₁ h₁, none₂ h₂⟩

/-- An elimination gives a root of what is left, leaves the constraint alone, or refuses its shape;
nothing is divided by zero. -/
theorem solveFor_outcome [hp : Fact p.Prime] (hone : (values oneWire).isSome)
    (hunknown : (ofConstraint p index k).unknowns values = [wire]) :
    (∃ v < p, (ofConstraint p index k).solveFor p values wire = .ok (some v) ∧
      (k.univariate p values).eval (v : ZMod p) = 0) ∨
    (ofConstraint p index k).solveFor p values wire = .ok none ∨
    ∃ terms, (ofConstraint p index k).solveFor p values wire =
      .error (.unsupportedResidual index wire terms) := by
  have shape := solvedByShape hone hunknown
  have heval := eval_univariate hone hunknown
  by_cases h₂ : (k.univariate p values).coeff 2 = 0
  · by_cases h₁ : (k.univariate p values).coeff 1 = 0
    · exact .inr (.inl (shape.cancelled h₂ h₁))
    · obtain ⟨v, hlt, hv, heq⟩ := shape.linear h₂ h₁
      refine .inl ⟨v, hlt, hv, ?_⟩
      rw [heval, h₂, heq, mul_div_cancel₀ _ h₁]
      ring
  · by_cases h₀ : (k.univariate p values).coeff 0 = 0
    · by_cases h₁ : (k.univariate p values).coeff 1 = 0
      · refine .inl ⟨0, hp.out.pos, shape.square h₂ h₁ h₀, ?_⟩
        rw [heval, h₀, h₁, Nat.cast_zero]
        ring
      · obtain ⟨v, hlt, hv, heq⟩ := shape.factor h₂ h₁ h₀
        refine .inl ⟨v, hlt, hv, ?_⟩
        rw [heval, h₀, heq]
        field_simp
        ring
    · by_cases h₁ : (k.univariate p values).coeff 1 = 0
      · exact .inr (.inr ⟨2, shape.noLinear h₂ h₁ h₀⟩)
      · cases hempty : k.c.isEmpty with
        | false => exact .inr (.inr ⟨3, shape.difference h₂ h₁ h₀ hempty⟩)
        | true =>
          obtain ⟨hslope, v, hlt, hv, heq⟩ := shape.product h₂ h₁ h₀ hempty
          have hroot : (k.a.univariate p values).eval (v : ZMod p) = 0 := by
            rw [LinearCombination.eval_univariate, heq]
            exact (congrArg _ (mul_div_cancel₀ _ hslope)).trans (add_neg_cancel _)
          refine .inl ⟨v, hlt, hv, ?_⟩
          rw [Constraint.univariate, LinearCombination.univariate_eq_zero_of_isEmpty hempty,
            sub_zero, Polynomial.eval_mul, hroot, zero_mul]

/-- What is eliminated from a constraint with one unknown wire is decided by the coefficients of its
polynomial `q` in the wire, and a value is always a root of `q`. -/
theorem elimination_by_shape [Fact p.Prime] (hone : (values oneWire).isSome)
    (hunknown : (ofConstraint p index k).unknowns values = [wire]) :
    (k.univariate p values).natDegree ≤ 2 ∧
    (ofConstraint p index k).SolvedByShape values wire (k.univariate p values) ∧
    (∀ v, (ofConstraint p index k).solveFor p values wire = .ok (some v) →
      v < p ∧ (k.univariate p values).coeff 0 + (k.univariate p values).coeff 1 * v +
        (k.univariate p values).coeff 2 * v ^ 2 = 0) ∧
    ((ofConstraint p index k).residual p values).size ≤ 3 ∧
    ∀ error, (ofConstraint p index k).solveFor p values wire ≠ .error (.arithmetic error) := by
  have outcome := solveFor_outcome hone hunknown
  have one_le (o : Option Nat) : (o.elim 0 fun _ => 1) ≤ 1 := by cases o <;> simp
  refine ⟨natDegree_univariate_le hone hunknown, solvedByShape hone hunknown, ?_, ?_, ?_⟩
  · intro v hv
    rw [hv] at outcome
    obtain ⟨w, hlt, heq, hroot⟩ | heq | ⟨terms, heq⟩ := outcome
    · obtain rfl := Option.some.inj (Except.ok.inj heq)
      exact ⟨hlt, (eval_univariate hone hunknown v).symm.trans hroot⟩
    · cases heq
    · cases heq
  · rw [(quadratic_residual hone hunknown).size_eq]
    exact Nat.add_le_add (one_le _) (Nat.add_le_add (one_le _) (one_le _))
  · intro error herror
    rw [herror] at outcome
    obtain ⟨v, -, heq, -⟩ | heq | ⟨terms, heq⟩ := outcome
    · cases heq
    · cases heq
    · cases heq

/-- The square of `x + 1`, with `x` on wire 1. -/
def shiftedSquare : Constraint where
  a := .ofList [(0, 1), (1, 1)]
  b := .ofList [(0, 1), (1, 1)]
  c := .empty

/-- No wire is known but the constant one. -/
def onlyOne (wire : Nat) : Option Nat := if wire = oneWire then some 1 else none

/-- Modulo three the square of `x + 1` has three terms, and two is its root. -/
theorem elimination_by_shape_shiftedSquare :
    ((ofConstraint 3 0 shiftedSquare).residual 3 onlyOne).size = 3 ∧
    (ofConstraint 3 0 shiftedSquare).solveFor 3 onlyOne 1 = .ok (some 2) ∧
    (ofConstraint 3 0 shiftedSquare).SolvedByShape onlyOne 1 (shiftedSquare.univariate 3 onlyOne) ∧
    (shiftedSquare.univariate 3 onlyOne).coeff 0 +
      (shiftedSquare.univariate 3 onlyOne).coeff 1 * (2 : Nat) +
      (shiftedSquare.univariate 3 onlyOne).coeff 2 * (2 : Nat) ^ 2 = 0 := by
  have hunknown : (ofConstraint 3 0 shiftedSquare).unknowns onlyOne = [1] := by decide +kernel
  have hsolve : (ofConstraint 3 0 shiftedSquare).solveFor 3 onlyOne 1 = .ok (some 2) := by
    decide +kernel
  obtain ⟨-, hshape, hroot, -, -⟩ := elimination_by_shape rfl hunknown
  exact ⟨by decide +kernel, hsolve, hshape, (hroot 2 hsolve).2⟩

end Equation

end CircuitTrace
