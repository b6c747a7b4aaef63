import CircuitTrace.Proofs.WellFormed
import CircuitTrace.Witness

namespace CircuitTrace

namespace Witness

variable {k : Circuit} {w : Witness}

theorem check_of_oneWire (hsize : w.size = k.wireCount) (hone : w.value oneWire = 1) :
    w.check k = match (w.residuals k).findIdx? (· != 0) with
      | some constraint => .error (.violated constraint)
      | none => .ok () := by
  rw [check]
  exact (if_neg (by simpa using hsize)).trans (if_neg (by simpa using hone))

theorem check_eq_ok_iff : w.check k = .ok () ↔ w.size = k.wireCount ∧ w.value oneWire = 1 ∧
    ∀ c ∈ k.constraints, c.residual k.prime w.value = 0 := by
  by_cases hsize : w.size = k.wireCount
  · by_cases hone : w.value oneWire = 1
    · have hall : (w.residuals k).findIdx? (· != 0) = none ↔
          ∀ c ∈ k.constraints, c.residual k.prime w.value = 0 := by
        simp [residuals, List.findIdx?_eq_none_iff]
      rw [check_of_oneWire hsize hone, ← hall]
      cases (w.residuals k).findIdx? (· != 0) <;> simp [hsize, hone]
    · rw [check, if_neg (by simpa using hsize), if_pos hone]
      simp [hone]
  · rw [check, if_pos hsize]
    simp [hsize]

/-- The constraint that a check reports is the first that fails. -/
theorem check_eq_violated (hsize : w.size = k.wireCount) (hone : w.value oneWire = 1) {i : Nat}
    (hi : i < k.constraints.length) (hfail : k.constraints[i].residual k.prime w.value ≠ 0)
    (hfirst : ∀ j (hj : j < k.constraints.length), j < i →
      k.constraints[j].residual k.prime w.value = 0) :
    w.check k = .error (.violated i) := by
  have hfind : (w.residuals k).findIdx? (· != 0) = some i := by
    rw [List.findIdx?_eq_some_iff_getElem]
    refine ⟨by simpa [residuals] using hi, by simpa [residuals] using hfail, ?_⟩
    intro j hj
    simpa [residuals] using hfirst j (by omega) hj
  rw [check_of_oneWire hsize hone, hfind]

/-- The constraint that a check reports does not hold. -/
theorem exists_residual_ne_zero {i : Nat} (h : w.check k = .error (.violated i)) :
    ∃ c, k.constraints[i]? = some c ∧ c.residual k.prime w.value ≠ 0 := by
  rw [check] at h
  split at h
  · cases h
  split at h
  · cases h
  split at h
  · rename_i j hj
    obtain rfl : j = i := by simpa using h
    obtain ⟨hlt, hfail, -⟩ := List.findIdx?_eq_some_iff_getElem.1 hj
    have hlt : j < k.constraints.length := by simpa [residuals] using hlt
    refine ⟨k.constraints[j], List.getElem?_eq_getElem hlt, ?_⟩
    simpa [residuals] using hfail
  · cases h

theorem residual_eq_zero_iff (hp : 0 < k.prime) (c : Constraint) :
    c.residual k.prime w.value = 0 ↔ (c.value fun x => (w.value x : ZMod k.prime)) = 0 :=
  c.residual_eq_zero_iff hp w.value

end Witness

end CircuitTrace
