import CircuitTrace.Proofs.Acceptance
import CircuitTrace.Proofs.Substitution

namespace CircuitTrace

/-- A circuit that makes sense by itself, however it is stored. -/
structure Circuit.WellFormed (k : Circuit) : Prop where
  isModulus : Residue.IsModulus k.prime
  roles : 1 + k.outputCount + k.publicCount + k.privateCount ≤ k.wireCount
  wires : ∀ c ∈ k.constraints, ∀ w, c.Mentions w → w < k.wireCount
  coefficients : ∀ c ∈ k.constraints, ∀ l ∈ c.parts, ∀ e ∈ l.entries, e.2 < k.prime

namespace Circuit.WellFormed

variable {k : Circuit}

theorem prime_pos (h : k.WellFormed) : 0 < k.prime := by
  have := h.isModulus
  unfold Residue.IsModulus at this
  omega

theorem one_lt_prime (h : k.WellFormed) : 1 < k.prime := h.isModulus

theorem wireCount_pos (h : k.WellFormed) : 0 < k.wireCount := by
  have := h.roles
  omega

theorem publicWire_lt (h : k.WellFormed) {w : Nat} (hw : w ∈ k.publicWires.toList) :
    0 < w ∧ w < k.wireCount := by
  have := h.roles
  rw [WireRange.toList, publicWires, outputWires, List.mem_range'_1] at hw
  simp only at hw
  omega

end Circuit.WellFormed

theorem Circuit.wellFormed_of_parse {bytes : Bytes} {k : Circuit}
    (h : (Circuit.parse bytes).outcome = .ok k) : k.WellFormed := by
  obtain ⟨sections, -, hdescribes⟩ := Container.parse_eq_ok_iff_describes.1 h
  have hadmits := hdescribes.admits
  refine ⟨hdescribes.valid.isModulus, hdescribes.valid.roles, ?_, ?_⟩
  · rintro c hc w ⟨l, hl, hw⟩
    obtain ⟨e, he, rfl⟩ := List.mem_map.1 hw
    exact (hadmits c hc l hl e he).1
  · intro c hc l hl e he
    exact (hadmits c hc l hl e he).2

end CircuitTrace
