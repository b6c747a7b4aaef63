import CircuitTrace.Proofs.Assignment
import CircuitTrace.Proofs.Satisfaction
import CircuitTrace.Solver

namespace CircuitTrace

namespace Circuit

variable {k : Circuit}

theorem toList_inputWires (k : Circuit) :
    k.inputWires.toList = k.publicWires.toList ++ k.privateWires.toList := by
  simp only [WireRange.toList, inputWires, privateWires, publicWires, outputWires]
  rw [Nat.add_sub_cancel_left, Nat.add_sub_cancel_left, List.range'_append_1]
  congr 1
  omega

theorem length_inputWires (k : Circuit) : k.inputWires.toList.length = k.inputCount := by
  rw [toList_inputWires]
  simp [WireRange.toList, publicWires, privateWires, inputCount]

theorem nodup_inputWires (k : Circuit) : k.inputWires.toList.Nodup := List.nodup_range'

theorem WellFormed.inputWire_lt (h : k.WellFormed) {wire : Nat}
    (hwire : wire ∈ k.inputWires.toList) : 0 < wire ∧ wire < k.wireCount := by
  have := h.roles
  simp only [WireRange.toList, inputWires, privateWires, publicWires, outputWires,
    List.mem_range'_1] at hwire
  omega

/-- A witness of a circuit that has given inputs, the public ones first. -/
structure Answers (k : Circuit) (inputs : List Nat) (w : Witness) : Prop where
  size : w.size = k.wireCount
  one : w.value oneWire = 1
  count : inputs.length = k.inputCount
  given : ∀ wire x, (wire, x) ∈ (k.publicWires.toList ++ k.privateWires.toList).zip inputs →
    w.value wire = Residue.reduce k.prime x
  residuals : ∀ c ∈ k.constraints, c.residual k.prime w.value = 0

end Circuit

namespace Solver

variable {s : Solver} {inputs : List Nat} {n : Nat}

/-- An assignment that knows the constant wire and the inputs, and no other wire. -/
structure Started (s : Solver) (inputs : List Nat) (a : Assignment n) : Prop where
  count : inputs.length = s.circuit.inputCount
  one : a.get? oneWire = some 1
  given : ∀ wire x, (wire, x) ∈ s.circuit.inputWires.toList.zip inputs →
    a.get? wire = some (Residue.reduce s.circuit.prime x)
  only : ∀ wire value, a.get? wire = some value → wire = oneWire ∧ value = 1 ∨
    ∃ x, (wire, x) ∈ s.circuit.inputWires.toList.zip inputs ∧
      value = Residue.reduce s.circuit.prime x

theorem started_of_start (hk : s.circuit.WellFormed) {a : Assignment s.circuit.wireCount}
    (h : s.start inputs = .ok a) : s.Started inputs a := by
  rw [start] at h
  split at h
  · cases h
  rename_i hcount
  have ha := (Except.ok.inj h).symm
  have hcount : inputs.length = s.circuit.inputCount := by simpa using hcount
  have hkeys : (s.circuit.inputWires.toList.zip inputs).map Prod.fst =
      s.circuit.inputWires.toList := by
    apply List.map_fst_zip
    rw [Circuit.length_inputWires, hcount]
  have hwire : ∀ e ∈ s.circuit.inputWires.toList.zip inputs,
      0 < e.1 ∧ e.1 < s.circuit.wireCount := by
    intro e he
    exact hk.inputWire_lt (hkeys ▸ List.mem_map_of_mem he)
  have hinput : ∀ wire x, (wire, x) ∈ s.circuit.inputWires.toList.zip inputs →
      a.get? wire = some (Residue.reduce s.circuit.prime x) := by
    intro wire x he
    rw [ha]
    have hdistinct := s.circuit.nodup_inputWires
    rw [← hkeys] at hdistinct
    exact Assignment.get?_foldl_assign_of_mem Prod.fst _ hdistinct he (hwire _ he).2
  have hother : ∀ wire, (∀ e ∈ s.circuit.inputWires.toList.zip inputs, e.1 ≠ wire) →
      a.get? wire = if oneWire = wire ∧ oneWire < s.circuit.wireCount then some 1 else none := by
    intro wire hne
    rw [ha, Assignment.get?_foldl_assign_of_ne Prod.fst _ hne, Assignment.get?_assign,
      Assignment.get?_unknown]
  refine ⟨hcount, ?_, hinput, ?_⟩
  · rw [hother oneWire fun e he => (hwire e he).1.ne', if_pos ⟨rfl, hk.wireCount_pos⟩]
  · intro wire value hvalue
    by_cases hmem : ∃ e ∈ s.circuit.inputWires.toList.zip inputs, e.1 = wire
    · obtain ⟨⟨wire, x⟩, he, rfl⟩ := hmem
      rw [hinput wire x he] at hvalue
      exact .inr ⟨x, he, (Option.some.inj hvalue).symm⟩
    · rw [hother wire fun e he heq => hmem ⟨e, he, heq⟩] at hvalue
      split at hvalue
      · rename_i hone
        exact .inl ⟨hone.1.symm, (Option.some.inj hvalue).symm⟩
      · cases hvalue

/-- What a solver knows before it starts. -/
theorem Started.isSome_iff {a : Assignment n} (h : s.Started inputs a) {wire : Nat} :
    (a.get? wire).isSome = true ↔ wire = oneWire ∨ wire ∈ s.circuit.inputWires.toList := by
  constructor
  · intro hsome
    obtain ⟨value, hvalue⟩ := Option.isSome_iff_exists.1 hsome
    rcases h.only wire value hvalue with ⟨hone, -⟩ | ⟨x, hx, -⟩
    · exact .inl hone
    · exact .inr (List.of_mem_zip hx).1
  · intro hwire
    rcases hwire with rfl | hinput
    · simp [h.one]
    · have hkeys : (s.circuit.inputWires.toList.zip inputs).map Prod.fst =
          s.circuit.inputWires.toList := by
        apply List.map_fst_zip
        rw [Circuit.length_inputWires, h.count]
      rw [← hkeys] at hinput
      obtain ⟨⟨wire, x⟩, hx, rfl⟩ := List.mem_map.1 hinput
      simp [h.given wire x hx]

theorem finish_eq_ok_iff {a : Assignment n} {w : Witness} :
    s.finish a = .ok w ↔ w = ⟨a.values⟩ ∧ w.check s.circuit = .ok () := by
  rw [finish]
  simp only [map_eq_ok_iff, mapError_eq_ok_iff]
  constructor
  · rintro ⟨⟨⟩, hcheck, rfl⟩
    exact ⟨rfl, hcheck⟩
  · rintro ⟨rfl, hcheck⟩
    exact ⟨(), hcheck, rfl⟩

/-- A last assignment that knows everything makes a witness of the circuit, with the inputs that it
was started for. -/
theorem answers_of_finish (hk : s.circuit.WellFormed) {a b : Assignment s.circuit.wireCount}
    {w : Witness} (hstart : s.start inputs = .ok a) (hextends : a.Extends b)
    (hknown : b.unknownCount = 0) (hfinish : s.finish b = .ok w) :
    s.circuit.Answers inputs w ∧ b.Holds w := by
  obtain ⟨rfl, hcheck⟩ := finish_eq_ok_iff.1 hfinish
  obtain ⟨hsize, hone, hresiduals⟩ := Witness.check_eq_ok_iff.1 hcheck
  have hstarted := started_of_start hk hstart
  have hholds := Assignment.holds_mk_values hknown
  refine ⟨⟨hsize, hone, hstarted.count, ?_, hresiduals⟩, hholds⟩
  intro wire x hinput
  rw [← Circuit.toList_inputWires] at hinput
  have hvalue := hextends wire _ (hstarted.given wire x hinput)
  rw [Assignment.value_mk_values, hvalue, Option.getD_some]

end Solver

end CircuitTrace
