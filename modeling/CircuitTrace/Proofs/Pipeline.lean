import CircuitTrace.Pipeline
import CircuitTrace.Proofs.Arrangement
import CircuitTrace.Proofs.Completeness
import CircuitTrace.Proofs.StatementRoundTrip
import CircuitTrace.Proofs.Uniqueness

/-!
From bytes to a proof. A compilation that succeeds has a reduced witness of its circuit, found by
the solver or given. So its program is accepted, and it is still accepted after it went through
limbs, which is all that the reference proof system does with it.
-/
namespace CircuitTrace

namespace Circuit

variable {k : Circuit} {inputs : List Nat} {given : Option Witness} {w : Witness}

/-- A compilation uses the witness that it is given, or else the one that the solver finds. -/
theorem witnessFor_eq_ok (h : (k.witnessFor inputs given).outcome = .ok w) :
    (given = some w ∧ w.check k = .ok ()) ∨
      (given = none ∧ ∃ path, (Solver.solve ⟨k, []⟩ inputs).outcome = .ok (w, path)) := by
  cases given with
  | some w' =>
    obtain ⟨⟨⟩, hcheck, hw⟩ := Logged.outcome_bind_eq_ok_iff.1 h
    obtain rfl := Except.ok.inj hw
    exact .inl ⟨rfl, mapError_eq_ok_iff.1 hcheck⟩
  | none =>
    obtain ⟨⟨w', path⟩, hsolve, hw⟩ := Logged.outcome_bind_eq_ok_iff.1 h
    obtain rfl := Except.ok.inj hw
    exact .inr ⟨rfl, path, hsolve⟩

theorem Answers.check (h : k.Answers inputs w) : w.check k = .ok () :=
  Witness.check_eq_ok_iff.2 ⟨h.size, h.one, h.residuals⟩

end Circuit

namespace Solver

theorem Regular.reduced_values {s : Solver} {b : Assignment s.circuit.wireCount} (h : s.Regular b)
    (hp : 0 < s.circuit.prime) : Witness.Reduced s.circuit.prime ⟨b.values⟩ := by
  intro value hvalue
  rw [← ofValues_eq_of_regular h] at hvalue
  obtain ⟨x, -, rfl⟩ := List.mem_map.1 hvalue
  exact Nat.mod_lt _ hp

/-- What a solver without gadgets finds is a reduced witness with the given inputs. -/
theorem answers_and_reduced_of_solve {k : Circuit} (hk : k.WellFormed) {inputs : List Nat}
    {w : Witness} {path : Path} (h : (solve ⟨k, []⟩ inputs).outcome = .ok (w, path)) :
    k.Answers inputs w ∧ w.Reduced k.prime := by
  obtain ⟨a, q, hstart, hreaches, hknown, hfinish⟩ := exists_reaches_of_solve h
  have hlast := last_of_reaches hk rfl hstart hreaches hknown
  refine ⟨hlast.answers w hfinish, ?_⟩
  obtain ⟨rfl, -⟩ := finish_eq_ok_iff.1 hfinish
  exact hlast.regular.reduced_values hk.prime_pos

end Solver

namespace Layout

variable {k : Circuit} {l : Layout} {inputs : List Nat} {w : Witness}

/-- The boundary for the public inputs of a witness. -/
theorem boundary_eq_of_answers
    (hwires : l.wireBoundary.map WireBoundary.wire = k.publicWires.toList)
    (h : k.Answers inputs w) : l.boundary w = l.fixedBoundary ++
      List.zipWith (fun cell x => ⟨cell.row, cell.register, Residue.reduce k.prime x⟩)
        l.wireBoundary inputs := by
  have hlen : l.wireBoundary.length = k.publicWires.toList.length := by
    rw [← hwires, List.length_map]
  have hinputs : l.wireBoundary.length ≤ inputs.length := by
    rw [hlen, h.count]
    simp [WireRange.toList, Circuit.publicWires, Circuit.inputCount]
  refine congrArg (l.fixedBoundary ++ ·) (List.ext_getElem (by simp [hinputs]) ?_)
  intro i hi hi'
  have hcell : i < l.wireBoundary.length := by simpa using hi
  have hwire : l.wireBoundary[i].wire = k.publicWires.toList[i] := by
    simp [← hwires]
  have hgiven : w.value l.wireBoundary[i].wire = Residue.reduce k.prime inputs[i] := by
    refine h.given _ _ (List.mem_iff_getElem.2 ⟨i, by simp; omega, ?_⟩)
    rw [List.getElem_zip, List.getElem_append_left (by omega), hwire]
  rw [List.getElem_map, List.getElem_zipWith, WireBoundary.constraint, hgiven]

end Layout

namespace Arithmetization

variable {k : Circuit} {config : Config} {a : Arithmetization}

theorem registerCount_le (h : (ofCircuit k config).outcome = .ok a) {limit : Nat}
    (hlimit : config.packing.maxRegisterCount = some limit) : a.layout.registerCount ≤ limit := by
  obtain ⟨l, -, h⟩ := Logged.outcome_bind_eq_ok_iff.1 (Logged.guard_outcome_eq_ok h).2
  rw [hlimit] at h
  obtain ⟨hle, h⟩ := Logged.guard_outcome_eq_ok h
  obtain ⟨-, -, h⟩ := Logged.outcome_bind_eq_ok_iff.1 h
  obtain rfl := Except.ok.inj h
  exact Nat.not_lt.1 hle

/-- Either layout has a boundary for every public input, in order. -/
theorem wireBoundary_layout (hk : k.WellFormed) (h : (ofCircuit k config).outcome = .ok a) :
    a.layout.wireBoundary.map WireBoundary.wire = k.publicWires.toList := by
  rcases layout_cases h with ⟨-, hl⟩ | ⟨-, packing, hpacking, hl⟩
  · rw [hl]
    exact (List.map_map ..).trans (List.map_id _)
  · exact Layout.wireBoundary_ofPacking (Packing.fits_ofCircuit hk hpacking) hl

end Arithmetization

/-- A canonical program that is accepted is proved by its trace, and the proof is accepted. -/
theorem Program.Canonical.prove_eq_ok {g : Program} (hg : g.Canonical) (hcheck : g.check = .ok ())
    (w : LimbWidth) : (ProverInput.ofProgram w g).statement.verify
        (ProverInput.ofProgram w g).trace = .ok () ∧
      (ProverInput.ofProgram w g).prove = .ok (ProverInput.ofProgram w g).trace := by
  have hverify : (ProverInput.ofProgram w g).statement.verify
      (ProverInput.ofProgram w g).trace = .ok () := by
    have hlen : (ProverInput.ofProgram w g).trace.length =
        (ProverInput.ofProgram w g).statement.rowCount := List.length_map _
    rw [Statement.verify, if_neg (not_not_intro hlen), hg.program_eq w]
    exact congrArg (Except.mapError StatementError.trace) hcheck
  refine ⟨hverify, ?_⟩
  rw [ProverInput.prove, hverify]
  rfl

/-- What a compilation comes from. -/
theorem Program.ofContainer_eq_ok {bytes : Bytes} {inputs : List Nat} {given : Option Witness}
    {config : Config} {g : Program} (h : (ofContainer bytes inputs given config).outcome = .ok g) :
    ∃ k a w, (Circuit.parse bytes).outcome = .ok k ∧
      (Arithmetization.ofCircuit k config).outcome = .ok a ∧
      (k.witnessFor inputs given).outcome = .ok w ∧ a.program w = .ok g := by
  obtain ⟨k, hk, h⟩ := Logged.outcome_bind_eq_ok_iff.1 h
  obtain ⟨a, ha, h⟩ := Logged.outcome_bind_eq_ok_iff.1 h
  obtain ⟨w, hw, h⟩ := Logged.outcome_bind_eq_ok_iff.1 h
  exact ⟨k, a, w, mapError_eq_ok_iff.1 hk, mapError_eq_ok_iff.1 ha, mapError_eq_ok_iff.1 hw,
    mapError_eq_ok_iff.1 h⟩

/-- A program that is compiled from a container, for inputs or for a reduced witness, is accepted,
and so is the proof of it. It stays within the register limit, and its boundary says the public
inputs. -/
theorem Program.check_and_prove_of_ofContainer {bytes : Bytes} {inputs : List Nat}
    {given : Option Witness} {config : Config} {g : Program}
    (hgiven : ∀ k w, (Circuit.parse bytes).outcome = .ok k → given = some w → w.Reduced k.prime)
    (h : (ofContainer bytes inputs given config).outcome = .ok g) :
    g.check = .ok () ∧
    (∃ proof, (ProverInput.ofProgram config.limbWidth g).prove = .ok proof ∧
      (ProverInput.ofProgram config.limbWidth g).statement.verify proof = .ok ()) ∧
    (∀ limit, config.packing.maxRegisterCount = some limit → g.registerCount ≤ limit) ∧
    (given = none → ∃ k a, (Circuit.parse bytes).outcome = .ok k ∧
      (Arithmetization.ofCircuit k config).outcome = .ok a ∧
      a.layout.wireBoundary.map WireBoundary.wire = k.publicWires.toList ∧
      k.publicCount ≤ inputs.length ∧
      g.boundary = a.layout.fixedBoundary ++
        List.zipWith (fun cell x => ⟨cell.row, cell.register, Residue.reduce k.prime x⟩)
          a.layout.wireBoundary inputs) := by
  obtain ⟨k, a, w, hparse, hcompile, hwitness, hprogram⟩ := ofContainer_eq_ok h
  have hk := Circuit.wellFormed_of_parse hparse
  have hcases := Circuit.witnessFor_eq_ok hwitness
  obtain ⟨hw, hreduced⟩ : w.check k = .ok () ∧ w.Reduced k.prime := by
    rcases hcases with ⟨hsome, hw⟩ | ⟨-, path, hsolve⟩
    · exact ⟨hw, hgiven k w hparse hsome⟩
    · obtain ⟨hanswers, hreduced⟩ := Solver.answers_and_reduced_of_solve hk hsolve
      exact ⟨hanswers.check, hreduced⟩
  obtain ⟨hsize, hone, -⟩ := Witness.check_eq_ok_iff.1 hw
  have hcheck := (Arithmetization.check_iff_of_program hk hcompile hsize hone hprogram).2 hw
  have hcanonical := Arithmetization.canonical_of_program hcompile hreduced hprogram
  obtain ⟨hverify, hprove⟩ := hcanonical.prove_eq_ok hcheck config.limbWidth
  obtain ⟨-, hg⟩ := Arithmetization.program_eq_ok_iff.1 hprogram
  refine ⟨hcheck, ⟨_, hprove, hverify⟩, ?_, ?_⟩
  · intro limit hlimit
    rw [hg]
    exact Arithmetization.registerCount_le hcompile hlimit
  · rintro rfl
    rcases hcases with ⟨hsome, -⟩ | ⟨-, path, hsolve⟩
    · cases hsome
    · obtain ⟨hanswers, -⟩ := Solver.answers_and_reduced_of_solve hk hsolve
      have hwires := Arithmetization.wireBoundary_layout hk hcompile
      refine ⟨k, a, hparse, hcompile, hwires, ?_, ?_⟩
      · rw [hanswers.count, Circuit.inputCount]
        exact Nat.le_add_right _ _
      · rw [hg]
        exact Layout.boundary_eq_of_answers hwires hanswers

/-- Three rows with as many registers as they need, for inputs that are not reduced. -/
theorem Program.check_and_prove_of_ofContainer_squaredProduct :
    ∃ g proof, (ofContainer (Circuit.squaredProduct 97).encode [99, 100, 3] none
        { Config.threeRows 97 (by decide) with
          packing := { targetGroups := some 3, maxRegisterCount := some 8 } }).outcome = .ok g ∧
      g.check = .ok () ∧
      (ProverInput.ofProgram Config.default.limbWidth g).prove = .ok proof ∧
      (ProverInput.ofProgram Config.default.limbWidth g).statement.verify proof = .ok () ∧
      g.registerCount ≤ 8 ∧
      g.boundary = [⟨0, 0, 1⟩, ⟨1, 1, 1⟩, ⟨2, 2, 1⟩, ⟨0, 3, 2⟩, ⟨0, 4, 3⟩] := by
  obtain ⟨g, hg, hboundary⟩ : ∃ g, (ofContainer (Circuit.squaredProduct 97).encode [99, 100, 3] none
      { Config.threeRows 97 (by decide) with
        packing := { targetGroups := some 3, maxRegisterCount := some 8 } }).outcome = .ok g ∧
      g.boundary = [⟨0, 0, 1⟩, ⟨1, 1, 1⟩, ⟨2, 2, 1⟩, ⟨0, 3, 2⟩, ⟨0, 4, 3⟩] := by
    decide +kernel
  obtain ⟨hcheck, ⟨proof, hprove, hverify⟩, hlimit, -⟩ :=
    check_and_prove_of_ofContainer (by simp) hg
  exact ⟨g, proof, hg, hcheck, hprove, hverify, hlimit 8 rfl, hboundary⟩

end CircuitTrace
